import Labs.Base.CArray
import Labs.Base.Printer
import Mathlib.Algebra.Group.Nat.Defs

/-!
# Formatted printing

`vprintfmt` and `vsnprintf` of `lib/printfmt.c`. A pointer into the format is the part of the
format from the pointer on, terminator included; a read behind the format has no result. The
callback gets the low byte of the character that `putch` is called with. The strings that `%s`
prints are read only, and are not changed by the callback.
-/

namespace Labs.Jos.Printfmt

open Prog CArray

/-- The arguments of a call: the array of the format, the words that `va_arg` takes from the stack,
and the bytes from a pointer to the terminator of its string. -/
structure Call where
  fmt : List UInt8
  args : Nat → BitVec 32
  text : BitVec 32 → List UInt8

/-- The table `error_string`, indexed by the codes of `inc/error.h`. -/
def errorString : List (Option String) :=
  [none, some "unspecified error", some "bad environment", some "invalid parameter",
    some "out of memory", some "out of environments", some "segmentation fault",
    some "env is not recving", some "unexpected end of file", some "no free space on disk",
    some "too many files are open", some "file or block not found", some "invalid path",
    some "file already exists", some "file is not a valid executable",
    some "operation not supported", some "transmit queue full", some "packet too large",
    some "no packet to receive"]

/-- `MAXERROR`. -/
def maxError : Int := 19

/-- The error code `E_INVAL`. -/
def eInval : BitVec 32 := 3

/-- A base that `printnum` can print in. -/
structure Base where
  value : Nat
  two_le : 2 ≤ value
  le_sixteen : value ≤ 16

/-- The base of `%d` and `%u`. -/
def Base.decimal : Base := ⟨10, by decide, by decide⟩

/-- The base of `%o`. -/
def Base.octal : Base := ⟨8, by decide, by decide⟩

/-- The base of `%x` and `%p`. -/
def Base.hex : Base := ⟨16, by decide, by decide⟩

/-- `"0123456789abcdef"[d]`. -/
def digit (d : Nat) : UInt8 := (ascii "0123456789abcdef").getD d 0

/-- The locals that the flags of an escape sequence set. -/
structure Escape where
  padc : UInt8 := byte ' '
  width : BitVec 32 := -1
  precision : BitVec 32 := -1
  lflag : BitVec 32 := 0
  altflag : Bool := false

section Model

variable {σ ε : Type}

/-- The function `printnum`. Its loop `while (--width > 0)` runs `width - 1` times. -/
def printnum (putch : UInt8 → Prog σ ε Unit) (num : Nat) (base : Base) (width : BitVec 32)
    (padc : UInt8) : Prog σ ε Unit :=
  if base.value ≤ num then do
    printnum putch (num / base.value) base (width - 1) padc
    putch (digit (num % base.value))
  else do
    forEach (List.replicate (width - 1).toInt.toNat padc) putch
    putch (digit (num % base.value))
termination_by num
decreasing_by
  have hbase := base.two_le
  exact Nat.div_lt_self (by omega) (by omega)

/-- `va_arg(*ap, unsigned long long)`: two words, the low one first. -/
def getQuad (args : Nat → BitVec 32) (ap : Nat) : BitVec 64 := args (ap + 1) ++ args ap

/-- The function `getuint`, and where `ap` is behind it. -/
def getuint (args : Nat → BitVec 32) (ap : Nat) (lflag : BitVec 32) : BitVec 64 × Nat :=
  if 2 ≤ lflag.toInt then (getQuad args ap, ap + 2)
  else ((args ap).setWidth 64, ap + 1)

/-- The function `getint`, and where `ap` is behind it. -/
def getint (args : Nat → BitVec 32) (ap : Nat) (lflag : BitVec 32) : BitVec 64 × Nat :=
  if 2 ≤ lflag.toInt then (getQuad args ap, ap + 2)
  else ((args ap).signExtend 64, ap + 1)

/-- `ch >= '0' && ch <= '9'`. -/
def isDigit (ch : UInt8) : Bool := decide (48 ≤ ch.toNat ∧ ch.toNat ≤ 57)

/-- `precision * 10 + ch - '0'`. -/
def addDigit (precision : BitVec 32) (ch : UInt8) : BitVec 32 :=
  precision * 10 + BitVec.ofNat 32 ch.toNat - 48

/-- The loop of the width field, whose first digit is `ch`. -/
def readDigits (ch : UInt8) (precision : BitVec 32) : List UInt8 →
    Option (BitVec 32 × List UInt8)
  | [] => none
  | next :: fmt =>
      if isDigit next = true then readDigits next (addDigit precision ch) fmt
      else some (addDigit precision ch, next :: fmt)

/-- The label `process_precision`. -/
def processPrecision (e : Escape) (precision : BitVec 32) : Escape :=
  if e.width.toInt < 0 then { e with width := precision, precision := -1 }
  else { e with precision := precision }

/-- An escape sequence whose flags have been read: the conversion, the locals, the format behind the
conversion and the next argument. -/
structure Switched where
  ch : UInt8
  e : Escape
  fmt : List UInt8
  ap : Nat

/-- The digits of a width are read from the format behind them. -/
theorem read_digits_length {ch : UInt8} {precision precision' : BitVec 32} {fmt fmt' : List UInt8}
    (h : readDigits ch precision fmt = some (precision', fmt')) : fmt'.length ≤ fmt.length := by
  induction fmt generalizing ch precision with
  | nil => cases h
  | cons next fmt ih =>
      rw [readDigits] at h
      split at h
      case isTrue => exact Nat.le_succ_of_le (ih h)
      case isFalse =>
        cases h
        exact le_rfl

/-- The label `reswitch`: the flags of an escape sequence, up to a character that is none. -/
def reswitch (args : Nat → BitVec 32) (fmt : List UInt8) (e : Escape) (ap : Nat) :
    Option Switched :=
  match fmt with
  | [] => none
  | ch :: fmt =>
      if ch = byte '-' then reswitch args fmt { e with padc := byte '-' } ap
      else if ch = byte '0' then reswitch args fmt { e with padc := byte '0' } ap
      else if isDigit ch = true then
        match _h : readDigits ch 0 fmt with
        | none => none
        | some (precision, fmt') => reswitch args fmt' (processPrecision e precision) ap
      else if ch = byte '*' then reswitch args fmt (processPrecision e (args ap)) (ap + 1)
      else if ch = byte '.' then
        reswitch args fmt { e with width := if e.width.toInt < 0 then 0 else e.width } ap
      else if ch = byte '#' then reswitch args fmt { e with altflag := true } ap
      else if ch = byte 'l' then reswitch args fmt { e with lflag := e.lflag + 1 } ap
      else some ⟨ch, e, fmt, ap⟩
termination_by fmt.length
decreasing_by
  all_goals simp only [List.length_cons, Nat.lt_succ_iff, le_refl]
  exact read_digits_length _h

/-- The cases of the `switch` that end an escape sequence. -/
inductive Conversion where
  | character
  | error
  | string
  | signed
  | unsigned (base : Base)
  | pointer
  | percent
  | unrecognized

/-- The case that `ch` selects. -/
def conversion (ch : UInt8) : Conversion :=
  if ch = byte 'c' then .character
  else if ch = byte 'e' then .error
  else if ch = byte 's' then .string
  else if ch = byte 'd' then .signed
  else if ch = byte 'u' then .unsigned .decimal
  else if ch = byte 'o' then .unsigned .octal
  else if ch = byte 'p' then .pointer
  else if ch = byte 'x' then .unsigned .hex
  else if ch = byte '%' then .percent
  else .unrecognized

/-- `error_string[err]`. The index of a 4-byte entry is taken modulo `2 ^ 30`, as the address
arithmetic does; it is out of the table for no `err < MAXERROR` that is not negative, nor for
the negative number that `-err` leaves as it is. -/
def errorText (err : BitVec 32) : Option (List UInt8) :=
  (errorString[err.toNat % 2 ^ 30]?.join).map ascii

/-- The case `'e'`. The calls of `printfmt` pass the code, or the address of a text of the table. -/
def printError (printfmt : Call → Prog σ ε Bool) (err : BitVec 32) : Prog σ ε Bool :=
  let err := if err.toInt < 0 then -err else err
  match if maxError ≤ err.toInt then none else errorText err with
  | none => printfmt ⟨ascii "error %d" ++ [0], fun _ => err, fun _ => []⟩
  -- the address of a literal is not NULL
  | some p => printfmt ⟨ascii "%s" ++ [0], fun _ => 1, fun _ => p⟩

/-- The function `strnlen`. -/
def strnlen : List UInt8 → Nat → Nat
  | [], _ => 0
  | _ :: _, 0 => 0
  | ch :: p, size + 1 => if ch = 0 then 0 else strnlen p size + 1

/-- `if (width > 0 && padc != '-') for (width -= strnlen(p, precision); width > 0; width--) ..`: the
padding in front of a string, and the width behind it. -/
def padString (putch : UInt8 → Prog σ ε Unit) (p : List UInt8) (e : Escape) :
    Prog σ ε (BitVec 32) :=
  if 0 < e.width.toInt ∧ e.padc ≠ byte '-' then do
    let width := e.width - BitVec.ofNat 32 (strnlen p e.precision.toNat)
    forEach (List.replicate width.toInt.toNat e.padc) putch
    return if 0 < width.toInt then 0 else width
  else
    return e.width

/-- The loop over the characters of a string, which counts `width` and `precision` down. -/
def putString (putch : UInt8 → Prog σ ε Unit) (altflag : Bool) :
    List UInt8 → BitVec 32 → BitVec 32 → Prog σ ε (BitVec 32)
  | [], _, width => return width
  | ch :: p, precision, width =>
      if ch = 0 then return width
      else if precision.toInt < 0 then do
        putch (if altflag = true ∧ (ch < byte ' ' ∨ byte '~' < ch) then byte '?' else ch)
        putString putch altflag p precision (width - 1)
      else if 0 ≤ (precision - 1).toInt then do
        putch (if altflag = true ∧ (ch < byte ' ' ∨ byte '~' < ch) then byte '?' else ch)
        putString putch altflag p (precision - 1) (width - 1)
      else return width

/-- The case `'s'`. -/
def printString (putch : UInt8 → Prog σ ε Unit) (p : List UInt8) (e : Escape) : Prog σ ε Unit := do
  let width ← padString putch p e
  let width ← putString putch e.altflag p e.precision width
  forEach (List.replicate width.toInt.toNat (byte ' ')) putch

/-- The case `'d'`, up to the label `number`. -/
def printSigned (putch : UInt8 → Prog σ ε Unit) (num : BitVec 64) (e : Escape) : Prog σ ε Unit :=
  if num.toInt < 0 then do
    putch (byte '-')
    printnum putch (-num).toNat .decimal e.width e.padc
  else
    printnum putch num.toNat .decimal e.width e.padc

/-- `for (; fmt[-1] != '%'; fmt--)`, at the pointer to `fmt[q]`. -/
def backUp (fmt : List UInt8) : Nat → Option Nat
  | 0 => none
  | q + 1 => if fmt[q]? = some (byte '%') then some (q + 1) else backUp fmt q

/-- The end of an escape sequence: where the format and the arguments go on. -/
def escape (printfmt : Call → Prog σ ε Bool) (putch : UInt8 → Prog σ ε Unit) (c : Call)
    (s : Switched) : Prog σ ε (Option (List UInt8 × Nat)) :=
  match conversion s.ch with
  | .character => do
      putch (UInt8.ofNat (c.args s.ap).toNat)
      return some (s.fmt, s.ap + 1)
  | .error => do
      let done ← printError printfmt (c.args s.ap)
      return if done = true then some (s.fmt, s.ap + 1) else none
  | .string => do
      let p := c.args s.ap
      printString putch (if p = 0 then ascii "(null)" else c.text p) s.e
      return some (s.fmt, s.ap + 1)
  | .signed => do
      let num := getint c.args s.ap s.e.lflag
      printSigned putch num.1 s.e
      return some (s.fmt, num.2)
  | .unsigned base => do
      let num := getuint c.args s.ap s.e.lflag
      printnum putch num.1.toNat base s.e.width s.e.padc
      return some (s.fmt, num.2)
  | .pointer => do
      putch (byte '0')
      putch (byte 'x')
      printnum putch (c.args s.ap).toNat .hex s.e.width s.e.padc
      return some (s.fmt, s.ap + 1)
  | .percent => do
      putch s.ch
      return some (s.fmt, s.ap)
  | .unrecognized => do
      putch (byte '%')
      -- `fmt--`, and then back to the percent sign
      return (backUp c.fmt (c.fmt.length - s.fmt.length - 1)).map fun q => (c.fmt.drop q, s.ap)

/-- The loop of `vprintfmt`, from a pointer into the format on. The result says that the function
has returned; it is false when the loop was given too little fuel or reads behind the format. -/
def loop (printfmt : Call → Prog σ ε Bool) (putch : UInt8 → Prog σ ε Unit) (c : Call) :
    Nat → List UInt8 → Nat → Prog σ ε Bool
  | 0, _, _ => return false
  | _ + 1, [], _ => return false
  | fuel + 1, ch :: fmt, ap =>
      if ch = byte '%' then
        match reswitch c.args fmt {} ap with
        | none => return false
        | some s => do
            let next ← escape printfmt putch c s
            match next with
            | none => return false
            | some (fmt, ap) => loop printfmt putch c fuel fmt ap
      else if ch = 0 then return true
      else do
        putch ch
        loop printfmt putch c fuel fmt ap

/-- The function `vprintfmt`, with the depth to which it may call itself through `printfmt`. -/
def vprintfmt (putch : UInt8 → Prog σ ε Unit) : Nat → Call → Prog σ ε Bool
  | 0, _ => return false
  | depth + 1, c => loop (vprintfmt putch depth) putch c c.fmt.length c.fmt 0

end Model

end Labs.Jos.Printfmt
