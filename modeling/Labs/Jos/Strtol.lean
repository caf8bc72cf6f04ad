import Labs.Jos.PrintfmtOutput

/-!
# Numbers, printed and read back

`strtol` of `lib/string.c`, and what it makes of the text that `vprintfmt` prints for a number with
a field width. `number_round_trip_iff` says for which numbers the text can be read back and fills
its field.
-/

namespace Labs.Jos.Printfmt

open Prog CArray

section Model

/-- `*s == ' ' || *s == '\t'`. -/
def isBlank (ch : UInt8) : Bool := decide (ch = byte ' ' ∨ ch = byte '\t')

/-- The variable `dig` for a digit or a letter. -/
def digitOf (ch : UInt8) : Option Int :=
  if byte '0' ≤ ch ∧ ch ≤ byte '9' then some ((ch.toNat : Int) - 48)
  else if byte 'a' ≤ ch ∧ ch ≤ byte 'z' then some ((ch.toNat : Int) - 97 + 10)
  else if byte 'A' ≤ ch ∧ ch ≤ byte 'Z' then some ((ch.toNat : Int) - 65 + 10)
  else none

/-- The loop over the digits: the variable `val`, and the pointer behind the digits. -/
def readNumber (base : Int) : List UInt8 → BitVec 32 → BitVec 32 × List UInt8
  | [], val => (val, [])
  | ch :: s, val =>
      match digitOf ch with
      | none => (val, ch :: s)
      | some dig =>
          if base ≤ dig then (val, ch :: s)
          else readNumber base s (val * BitVec.ofInt 32 base + BitVec.ofInt 32 dig)

/-- The sign: the variable `neg`, and the pointer behind the sign. -/
def readSign (s : List UInt8) : Bool × List UInt8 :=
  if s.head? = some (byte '+') then (false, s.tail)
  else if s.head? = some (byte '-') then (true, s.tail)
  else (false, s)

/-- The prefix of a base: the base, and the pointer behind the prefix. -/
def readBase (base : Int) (s : List UInt8) : Int × List UInt8 :=
  if (base = 0 ∨ base = 16) ∧ s.head? = some (byte '0') ∧ s.tail.head? = some (byte 'x') then
    (16, s.tail.tail)
  else if base = 0 ∧ s.head? = some (byte '0') then (8, s.tail)
  else if base = 0 then (10, s)
  else (base, s)

/-- The function `strtol`: its result, and the pointer that it stores at `*endptr`. -/
def strtol (s : List UInt8) (base : Int) : BitVec 32 × List UInt8 :=
  let sign := readSign (s.dropWhile isBlank)
  let start := readBase base sign.2
  let number := readNumber start.1 start.2 0
  (if sign.1 = true then -number.1 else number.1, number.2)

/-- The conversions of a number that take a field width. -/
inductive NumberConv where
  | d
  | u
  | o
  | x
  deriving DecidableEq

/-- The character of a conversion. -/
def NumberConv.ch : NumberConv → UInt8
  | .d => byte 'd'
  | .u => byte 'u'
  | .o => byte 'o'
  | .x => byte 'x'

/-- The base of a conversion. -/
def NumberConv.base : NumberConv → Base
  | .d => .decimal
  | .u => .decimal
  | .o => .octal
  | .x => .hex

/-- The digits of a field width; a format without a width has none. -/
def widthDigits (w : Nat) : List UInt8 := if w = 0 then [] else digits .decimal w

/-- A call that prints its first argument in a field, padded with zeros or with spaces. -/
def numberCall (conv : NumberConv) (zero : Bool) (w : Nat) (args : Nat → BitVec 32)
    (text : BitVec 32 → List UInt8) : Call where
  fmt := byte '%' :: ((if zero = true then [byte '0'] else []) ++ widthDigits w ++ [conv.ch, 0])
  args := args
  text := text

end Model

section Digits

variable {base : Base} {num k : Nat} {ks : List Nat}

/-- Digits are printed so that they can be read. -/
theorem digit_of_digit (hk : k < 16) : digitOf (digit k) = some (k : Int) := by
  revert k
  decide

/-- A digit is no blank, no sign, and not the letter of a prefix. -/
theorem digit_plain (hk : k < 16) : isBlank (digit k) = false ∧ digit k ≠ byte '+' ∧
    digit k ≠ byte '-' ∧ digit k ≠ byte 'x' := by
  revert k
  decide

/-- The number that digits stand for. -/
def value (base : Nat) (ks : List Nat) : Nat := ks.foldl (fun num k => num * base + k) 0

/-- `ks` are the digits that are printed for a number. -/
structure DigitsOf (base : Base) (num : Nat) (ks : List Nat) : Prop where
  text : digits base num = ks.map digit
  lt : ∀ k ∈ ks, k < base.value
  value : value base.value ks = num
  ne_nil : ks ≠ []
  head : num ≠ 0 → ks.head? ≠ some 0

/-- The digits of a number stand for it, and the first one is not zero. -/
theorem digits_of (base : Base) (num : Nat) : ∃ ks, DigitsOf base num ks := by
  induction num using Nat.strongRecOn with
  | _ num ih =>
      have hbase := base.two_le
      by_cases h : base.value ≤ num
      · obtain ⟨ks, hks⟩ := ih (num / base.value) (Nat.div_lt_self (by omega) (by omega))
        have hdiv : 0 < num / base.value := Nat.div_pos h (by omega)
        refine ⟨ks ++ [num % base.value], ?_, ?_, ?_, by simp, fun _ => ?_⟩
        · rw [digits_step h, hks.text, List.map_append, List.map_singleton]
        · intro k hk
          cases List.mem_append.1 hk with
          | inl hk => exact hks.lt k hk
          | inr hk =>
              rw [List.mem_singleton.1 hk]
              exact Nat.mod_lt _ (by omega)
        · have hvalue := hks.value
          unfold Printfmt.value at *
          rw [List.foldl_append, hvalue]
          exact Nat.div_add_mod' num base.value
        · rw [List.head?_append_of_ne_nil _ hks.ne_nil]
          exact hks.head (by omega)
      · refine ⟨[num], digits_small (by omega), ?_, ?_, by simp, ?_⟩
        · intro k hk
          rw [List.mem_singleton.1 hk]
          omega
        · simp [Printfmt.value]
        · intro hne h
          exact hne (Option.some.inj h)

/-- A number below `2 ^ k` has at most `k` digits. -/
theorem length_digits_le (base : Base) (hk : 1 ≤ k) (h : num < 2 ^ k) :
    (digits base num).length ≤ k := by
  induction k generalizing num with
  | zero => omega
  | succ k ih =>
      have hbase := base.two_le
      by_cases hlt : base.value ≤ num
      · have hpos : 1 ≤ k := by
          by_contra hzero
          obtain rfl : k = 0 := by omega
          omega
        have hdiv : num / base.value < 2 ^ k := by
          rw [Nat.div_lt_iff_lt_mul (by omega)]
          calc num < 2 ^ (k + 1) := h
            _ = 2 ^ k * 2 := pow_succ 2 k
            _ ≤ 2 ^ k * base.value := Nat.mul_le_mul_left _ hbase
        have hrec := ih hpos hdiv
        rw [digits_step hlt, List.length_append, List.length_singleton]
        omega
      · rw [digits_small (by omega), List.length_singleton]
        omega

/-- The loop over the digits reads all of them. -/
theorem read_number_digits (hks : ∀ k ∈ ks, k < base.value) (val : Nat) :
    readNumber base.value (ks.map digit ++ [0]) (BitVec.ofNat 32 val) =
      (BitVec.ofNat 32 (ks.foldl (fun num k => num * base.value + k) val), [0]) := by
  induction ks generalizing val with
  | nil => rfl
  | cons k ks ih =>
      have hk := hks k List.mem_cons_self
      have hsmall := base.le_sixteen
      have hstep : BitVec.ofNat 32 val * BitVec.ofInt 32 base.value + BitVec.ofInt 32 k =
          BitVec.ofNat 32 (val * base.value + k) := by
        rw [BitVec.ofInt_natCast, BitVec.ofInt_natCast, BitVec.ofNat_add, BitVec.ofNat_mul]
      rw [List.map_cons, List.cons_append, readNumber, digit_of_digit (by omega)]
      dsimp only
      rw [if_neg (by omega), hstep]
      exact ih (fun k hk => hks k (List.mem_cons_of_mem _ hk)) _

end Digits

section Reading

variable {base : Base} {num k n : Nat} {ks : List Nat} {s : List UInt8}

/-- The padding character. -/
def padOf (zero : Bool) : UInt8 := if zero = true then byte '0' else byte ' '

/-- Digits have no prefix. -/
theorem read_base_digits (hks : ∀ k ∈ ks, k < base.value) :
    readBase base.value (ks.map digit ++ [0]) = ((base.value : Int), ks.map digit ++ [0]) := by
  have htwo := base.two_le
  have hsmall := base.le_sixteen
  -- the second byte is a digit, or the terminator, or not there
  have hletter : (ks.map digit ++ [0]).tail.head? ≠ some (byte 'x') := by
    cases ks with
    | nil => simp
    | cons k ks =>
        cases ks with
        | nil =>
            intro h
            have hzero : (0 : UInt8) ≠ byte 'x' := by decide
            exact hzero (Option.some.inj h)
        | cons k' ks =>
            have hk := hks k' (by simp)
            intro h
            exact (digit_plain (show k' < 16 by omega)).2.2.2 (Option.some.inj h)
  unfold readBase
  rw [if_neg (fun h => hletter h.2.2), if_neg (by omega), if_neg (by omega)]

/-- What is read behind the sign, when digits are there. -/
theorem strtol_sign (neg : Bool) (hks : ∀ k ∈ ks, k < base.value)
    (hsign : readSign (s.dropWhile isBlank) = (neg, ks.map digit ++ [0])) :
    strtol s base.value = (if neg = true then -BitVec.ofNat 32 (value base.value ks)
      else BitVec.ofNat 32 (value base.value ks), [0]) := by
  have hread : readNumber base.value (ks.map digit ++ [0]) 0 =
      (BitVec.ofNat 32 (value base.value ks), [0]) := read_number_digits hks 0
  unfold strtol
  dsimp only
  rw [hsign]
  dsimp only
  rw [read_base_digits hks]
  dsimp only
  rw [hread]

/-- Digits are read back. -/
theorem strtol_digits (hks : ∀ k ∈ ks, k < base.value) (hne : ks ≠ []) :
    strtol (ks.map digit ++ [0]) base.value = (BitVec.ofNat 32 (value base.value ks), [0]) := by
  have hsmall := base.le_sixteen
  refine strtol_sign false hks ?_
  cases ks with
  | nil => exact absurd rfl hne
  | cons k ks =>
      have hk := hks k List.mem_cons_self
      obtain ⟨hblank, hplus, hminus, -⟩ := digit_plain (show k < 16 by omega)
      rw [List.map_cons, List.cons_append, List.dropWhile_cons, hblank]
      unfold readSign
      rw [if_neg, if_neg, if_neg]
      · exact Bool.false_ne_true
      · exact fun h => hminus (Option.some.inj h)
      · exact fun h => hplus (Option.some.inj h)

/-- A minus sign in front of digits negates what they stand for. -/
theorem strtol_minus (hks : ∀ k ∈ ks, k < base.value) :
    strtol (byte '-' :: (ks.map digit ++ [0])) base.value =
      (-BitVec.ofNat 32 (value base.value ks), [0]) :=
  strtol_sign true hks rfl

/-- Spaces in front of a number are not read. -/
theorem strtol_spaces (base : Int) :
    strtol (List.replicate n (byte ' ') ++ s) base = strtol s base := by
  have hskip : (List.replicate n (byte ' ') ++ s).dropWhile isBlank = s.dropWhile isBlank := by
    induction n with
    | zero => rfl
    | succ n ih =>
        rw [List.replicate_succ, List.cons_append, List.dropWhile_cons]
        exact ih
  unfold strtol
  rw [hskip]

/-- Zeros in front of digits do not change what they stand for. -/
theorem value_zeros (b : Nat) : value b (List.replicate n 0 ++ ks) = value b ks := by
  have hzeros : (List.replicate n 0).foldl (fun num k => num * b + k) 0 = 0 := by
    induction n with
    | zero => rfl
    | succ n ih =>
        rw [List.replicate_succ, List.foldl_cons, Nat.zero_mul]
        exact ih
  unfold value
  rw [List.foldl_append, hzeros]

/-- A number is read back behind padding of either kind. -/
theorem strtol_padded (base : Base) (num n : Nat) (zero : Bool) :
    strtol (List.replicate n (padOf zero) ++ digits base num ++ [0]) base.value =
      (BitVec.ofNat 32 num, [0]) := by
  obtain ⟨ks, hks⟩ := digits_of base num
  have hbase := base.two_le
  rw [hks.text]
  cases zero with
  | false =>
      have h : padOf false = byte ' ' := rfl
      rw [h, List.append_assoc, strtol_spaces, strtol_digits hks.lt hks.ne_nil, hks.value]
  | true =>
      have hzeros : List.replicate n (padOf true) ++ ks.map digit =
          (List.replicate n 0 ++ ks).map digit := by
        rw [List.map_append, List.map_replicate]
        rfl
      rw [hzeros, strtol_digits, value_zeros, hks.value]
      · intro k hk
        cases List.mem_append.1 hk with
        | inl hk =>
            rw [(List.mem_replicate.1 hk).2]
            omega
        | inr hk => exact hks.lt k hk
      · simp [hks.ne_nil]

end Reading

section Format

variable {ch : UInt8} {e : Escape} {fmt : List UInt8} {args : Nat → BitVec 32} {ap w : Nat}
  {ks : List Nat}

theorem is_digit_digit {k : Nat} (hk : k < 10) : isDigit (digit k) = true := by
  revert k
  decide

theorem digit_to_nat {k : Nat} (hk : k < 10) : (digit k).toNat = 48 + k := by
  revert k
  decide

/-- The loop of the width field reads its digits. -/
theorem read_digits_value {k : Nat} (num : Nat) (hk : k < 10) (hks : ∀ k ∈ ks, k < 10)
    (hch : isDigit ch = false) :
    readDigits (digit k) (BitVec.ofNat 32 num) (ks.map digit ++ ch :: fmt) =
      some (BitVec.ofNat 32 ((k :: ks).foldl (fun num k => num * 10 + k) num), ch :: fmt) := by
  have hstep : ∀ {k : Nat}, k < 10 → ∀ num,
      addDigit (BitVec.ofNat 32 num) (digit k) = BitVec.ofNat 32 (num * 10 + k) := by
    intro k hk num
    unfold addDigit
    rw [digit_to_nat hk, Nat.add_comm 48 k, BitVec.ofNat_add (num * 10), BitVec.ofNat_mul,
      BitVec.ofNat_add k 48, ← BitVec.add_assoc]
    exact BitVec.add_sub_cancel _ _
  induction ks generalizing k num with
  | nil =>
      rw [List.map_nil, List.nil_append, readDigits, hch, hstep hk]
      rfl
  | cons k' ks ih =>
      have hk' := hks k' List.mem_cons_self
      rw [List.map_cons, List.cons_append, readDigits, is_digit_digit hk', if_pos rfl, hstep hk,
        ih _ hk' fun k hk => hks k (List.mem_cons_of_mem _ hk)]
      rfl

/-- The variable `width` for a field width. -/
def fieldWidth (w : Nat) : BitVec 32 := if w = 0 then -1 else BitVec.ofNat 32 w

/-- The flags behind the padding flag are the digits of the width. -/
theorem reswitch_width (hwidth : e.width = -1) (hprecision : e.precision = -1)
    (hch : conversion ch ≠ .unrecognized) :
    reswitch args (widthDigits w ++ [ch, 0]) e ap =
      some ⟨ch, { e with width := fieldWidth w }, [0], ap⟩ := by
  unfold widthDigits fieldWidth
  by_cases hw : w = 0
  · rw [if_pos hw, if_pos hw, ← hwidth]
    exact reswitch_conversion hch
  · rw [if_neg hw, if_neg hw]
    obtain ⟨ks, hks⟩ := digits_of .decimal w
    cases ks with
    | nil => exact absurd rfl hks.ne_nil
    | cons k ks =>
        have hlt : ∀ k' ∈ k :: ks, k' < 10 := hks.lt
        have hk := hlt k List.mem_cons_self
        -- the first digit is neither of the padding flags
        have hhead : k ≠ 0 := fun h => hks.head hw (by rw [h]; rfl)
        have hdash : digit k ≠ byte '-' := (digit_plain (show k < 16 by omega)).2.2.1
        have hzero : digit k ≠ byte '0' := by
          intro h
          have hnat := digit_to_nat hk
          rw [h] at hnat
          have hchar : (byte '0').toNat = 48 := rfl
          omega
        have hread : readDigits (digit k) (BitVec.ofNat 32 0) (ks.map digit ++ [ch, 0]) = _ :=
          read_digits_value 0 hk (fun k' hk' => hlt k' (List.mem_cons_of_mem _ hk'))
            (not_digit_of_conversion hch)
        have hvalue : (k :: ks).foldl (fun num k => num * 10 + k) 0 = w := hks.value
        rw [hvalue] at hread
        rw [hks.text, List.map_cons, List.cons_append, reswitch, if_neg hdash, if_neg hzero,
          if_pos (is_digit_digit hk)]
        rw [show (BitVec.ofNat 32 0) = 0 from rfl] at hread
        rw [hread]
        dsimp only
        unfold processPrecision
        rw [hwidth, if_pos (by decide), reswitch_conversion hch, hprecision]

end Format

section Field

variable {conv : NumberConv} {zero : Bool} {w num : Nat} {base : Base} {padc : UInt8}
  {args : Nat → BitVec 32} {text : BitVec 32 → List UInt8}

/-- The text for a number fills its field, unless the digits are longer. -/
theorem num_text_field (hw : w < 2 ^ 31) (hnum : num < 2 ^ 32) :
    numText num base (fieldWidth w) padc =
      List.replicate (w - (digits base num).length) padc ++ digits base num := by
  have hlength := length_digits_le base (by decide) hnum
  have hpad : (fieldWidth w - BitVec.ofNat 32 (digits base num).length).toInt.toNat =
      w - (digits base num).length := by
    generalize (digits base num).length = len at hlength ⊢
    unfold fieldWidth
    by_cases h : w = 0
    · rw [if_pos h, h]
      have hnat : (-1 - BitVec.ofNat 32 len).toNat = 2 ^ 32 - 1 - len := by
        rw [BitVec.toNat_sub]
        simp
        omega
      rw [BitVec.toInt_eq_toNat_cond, hnat]
      split <;> omega
    · rw [if_neg h]
      have hnat : (BitVec.ofNat 32 w - BitVec.ofNat 32 len).toNat =
          if len ≤ w then w - len else 2 ^ 32 + w - len := by
        rw [BitVec.toNat_sub]
        simp only [BitVec.toNat_ofNat]
        split <;> omega
      rw [BitVec.toInt_eq_toNat_cond, hnat]
      split <;> split <;> omega
  rw [numText, hpad]

/-- The conversion `%d` of an `int`. -/
theorem prints_signed_escape {c : Call} {s : Switched} {depth : Nat}
    (hch : conversion s.ch = .signed) (hlong : s.e.lflag = 0) :
    Prints (fun _ _ putch => escape (vprintfmt putch depth) putch c s)
      (signedText ((c.args s.ap).signExtend 64) s.e) (some (s.fmt, s.ap + 1)) := by
  have hget : getint c.args s.ap s.e.lflag = ((c.args s.ap).signExtend 64, s.ap + 1) := by
    rw [hlong]
    rfl
  unfold escape
  rw [hch, hget]
  exact prints_signed.return

/-- The conversions of an `unsigned`. -/
theorem prints_unsigned_escape {c : Call} {s : Switched} {depth : Nat}
    (hch : conversion s.ch = .unsigned base) (hlong : s.e.lflag = 0) :
    Prints (fun _ _ putch => escape (vprintfmt putch depth) putch c s)
      (numText (c.args s.ap).toNat base s.e.width s.e.padc) (some (s.fmt, s.ap + 1)) := by
  have hget : getuint c.args s.ap s.e.lflag = ((c.args s.ap).setWidth 64, s.ap + 1) := by
    rw [hlong]
    rfl
  have hnat : ((c.args s.ap).setWidth 64).toNat = (c.args s.ap).toNat := by
    rw [BitVec.toNat_setWidth]
    omega
  unfold escape
  rw [hch, hget, ← hnat]
  exact prints_printnum.return

/-- The text that is printed for a number. -/
def numberText (conv : NumberConv) (v : BitVec 32) (e : Escape) : List UInt8 :=
  if conv = .d then signedText (v.signExtend 64) e
  else numText v.toNat conv.base e.width e.padc

theorem prints_number_escape {c : Call} {e : Escape} (depth : Nat) (hlong : e.lflag = 0) :
    Prints (fun _ _ putch => escape (vprintfmt putch depth) putch c ⟨conv.ch, e, [0], 0⟩)
      (numberText conv (c.args 0) e) (some ([0], 1)) := by
  have hne : ∀ conv : NumberConv, conv ≠ .d → conversion conv.ch = .unsigned conv.base := by
    intro conv h
    cases conv with
    | d => exact absurd rfl h
    | u => rfl
    | o => rfl
    | x => rfl
  unfold numberText
  by_cases hd : conv = .d
  · rw [if_pos hd]
    exact prints_signed_escape (s := ⟨conv.ch, e, [0], 0⟩) (by rw [hd]; rfl) hlong
  · rw [if_neg hd]
    exact prints_unsigned_escape (s := ⟨conv.ch, e, [0], 0⟩) (hne conv hd) hlong

/-- The flags of a number. -/
theorem reswitch_number :
    reswitch args ((if zero = true then [byte '0'] else []) ++ widthDigits w ++ [conv.ch, 0]) {} 0 =
      some ⟨conv.ch, { padc := padOf zero, width := fieldWidth w }, [0], 0⟩ := by
  have hknown : conversion conv.ch ≠ .unrecognized := by
    intro h
    cases conv <;> cases h
  cases zero with
  | false => exact reswitch_width rfl rfl hknown
  | true =>
      have hflag : byte '0' ≠ byte '-' := by decide
      rw [if_pos rfl, List.append_assoc, List.singleton_append, reswitch, if_neg hflag, if_pos rfl]
      exact reswitch_width rfl rfl hknown

/-- `vprintfmt` prints the text of the number, and nothing else. -/
theorem output_number :
    output (numberCall conv zero w args text) =
      numberText conv (args 0) { padc := padOf zero, width := fieldWidth w } := by
  obtain ⟨flags, hflags⟩ : ∃ flags, (if zero = true then [byte '0'] else []) ++ widthDigits w ++
      [conv.ch, 0] = flags := ⟨_, rfl⟩
  have hread : reswitch args flags {} 0 = _ := hflags ▸ reswitch_number
  have hpos : 2 ≤ flags.length := by
    rw [← hflags, List.length_append]
    exact Nat.le_add_left _ _
  obtain ⟨n, hn⟩ : ∃ n, flags.length = n + 1 := ⟨flags.length - 1, by omega⟩
  have hcall : numberCall conv zero w args text = ⟨byte '%' :: flags, args, text⟩ := by
    rw [← hflags]
    rfl
  have hprints := prints_loop_escape (c := ⟨byte '%' :: flags, args, text⟩) hread
    (prints_number_escape 1 rfl) (prints_loop_stop n [])
  rw [List.append_nil] at hprints
  refine Prints.printed (a := true) fun σ ε putch => ?_
  have hrun := hprints σ ε putch
  dsimp only at hrun ⊢
  rw [hcall]
  dsimp only [vprintfmt]
  rw [List.length_cons, hn]
  exact hrun

end Field

section RoundTrip

variable {conv : NumberConv} {zero : Bool} {w : Nat} {v : BitVec 32} {args : Nat → BitVec 32}
  {text : BitVec 32 → List UInt8}

/-- The text that is printed for the number in a field of `w` characters is read back by `strtol`
in the same base, up to its terminator, and is as long as the field or as the number needs. -/
def RoundTrip (conv : NumberConv) (zero : Bool) (w : Nat) (args : Nat → BitVec 32)
    (text : BitVec 32 → List UInt8) : Prop :=
  strtol (output (numberCall conv zero w args text) ++ [0]) conv.base.value = (args 0, [0]) ∧
    (output (numberCall conv zero w args text)).length =
      max w (output (numberCall conv false 0 args text)).length

/-- The text of a number that has no sign. -/
theorem number_text_plain (hw : w < 2 ^ 31) (hplain : ¬ (conv = .d ∧ v.toInt < 0)) :
    numberText conv v { padc := padOf zero, width := fieldWidth w } =
      List.replicate (w - (digits conv.base v.toNat).length) (padOf zero) ++
        digits conv.base v.toNat := by
  have hnum : v.toNat < 2 ^ 32 := v.isLt
  unfold numberText
  by_cases hd : conv = .d
  · have hpos : ¬ v.toInt < 0 := fun h => hplain ⟨hd, h⟩
    have hext : (v.signExtend 64).toInt = v.toInt := BitVec.toInt_signExtend_of_le (by decide)
    have hnat : (v.signExtend 64).toNat = v.toNat := by
      have hlt : (v.signExtend 64).toNat < 2 ^ 64 := (v.signExtend 64).isLt
      rw [BitVec.toInt_eq_toNat_cond, BitVec.toInt_eq_toNat_cond] at hext
      rw [BitVec.toInt_eq_toNat_cond] at hpos
      split at hext <;> split at hext <;> split at hpos <;> omega
    rw [if_pos hd, signedText, hext, if_neg hpos, hnat, hd]
    exact num_text_field hw hnum
  · rw [if_neg hd]
    exact num_text_field hw hnum

/-- The text of a negative number. -/
theorem number_text_negative (hw : w < 2 ^ 31) (hneg : v.toInt < 0) :
    numberText .d v { padc := padOf zero, width := fieldWidth w } =
      byte '-' :: (List.replicate (w - (digits .decimal v.toInt.natAbs).length) (padOf zero) ++
        digits .decimal v.toInt.natAbs) := by
  have hext : (v.signExtend 64).toInt = v.toInt := BitVec.toInt_signExtend_of_le (by decide)
  have hnat : (-v.signExtend 64).toNat = v.toInt.natAbs := by
    have hlt : (v.signExtend 64).toNat < 2 ^ 64 := (v.signExtend 64).isLt
    rw [BitVec.toNat_neg]
    rw [← hext] at hneg ⊢
    rw [BitVec.toInt_eq_toNat_cond] at hneg ⊢
    split at hneg <;> split <;> omega
  have hnum : v.toInt.natAbs < 2 ^ 32 := by
    have hlt : v.toNat < 2 ^ 32 := v.isLt
    rw [BitVec.toInt_eq_toNat_cond]
    split <;> omega
  rw [numberText, if_pos rfl, signedText, hext, if_pos hneg, hnat]
  dsimp only
  rw [num_text_field hw hnum]

theorem neg_of_nat_abs (hneg : v.toInt < 0) : -BitVec.ofNat 32 v.toInt.natAbs = v := by
  have hlt : v.toNat < 2 ^ 32 := v.isLt
  apply BitVec.eq_of_toNat_eq
  rw [BitVec.toNat_neg, BitVec.toNat_ofNat]
  rw [BitVec.toInt_eq_toNat_cond] at hneg ⊢
  split at hneg <;> split <;> omega

/-- A number is read back and fills its field, except a negative one whose digits are fewer than
the characters of the field: its sign stands in front of the padding and is not counted. -/
theorem number_round_trip_iff (hw : w < 2 ^ 31) :
    RoundTrip conv zero w args text ↔ ¬ (conv = .d ∧ (args 0).toInt < 0 ∧
      (digits .decimal (args 0).toInt.natAbs).length < w) := by
  unfold RoundTrip
  rw [output_number, output_number]
  -- only a negative number is printed with a sign, which the width does not count
  by_cases hplain : conv = .d ∧ (args 0).toInt < 0
  · obtain ⟨rfl, hneg⟩ := hplain
    rw [number_text_negative hw hneg, number_text_negative (by decide) hneg]
    generalize hdigits : digits .decimal (args 0).toInt.natAbs = ds
    simp only [List.length_cons, List.length_append, List.length_replicate]
    constructor
    · intro h hshort
      have hlength := h.2
      have hlt := hshort.2.2
      omega
    · intro h
      have hle : w ≤ ds.length := Nat.le_of_not_lt fun hlt => h ⟨trivial, hneg, hlt⟩
      refine ⟨?_, by omega⟩
      obtain ⟨ks, hks⟩ := digits_of .decimal (args 0).toInt.natAbs
      rw [Nat.sub_eq_zero_of_le hle, List.replicate_zero, List.nil_append, ← hdigits, hks.text]
      have hread := strtol_minus hks.lt
      rw [hks.value, neg_of_nat_abs hneg] at hread
      exact hread
  · rw [number_text_plain hw hplain, number_text_plain (by decide) hplain]
    refine ⟨fun _ h => hplain ⟨h.1, h.2.1⟩, fun _ => ⟨?_, ?_⟩⟩
    · rw [strtol_padded, BitVec.ofNat_toNat, BitVec.setWidth_eq]
    · simp only [List.length_append, List.length_replicate]
      omega

/-- The number 255 in a field of eight hexadecimal digits. -/
theorem number_round_trip_hex : RoundTrip .x true 8 (fun _ => 255) (fun _ => []) := by
  refine (number_round_trip_iff (by decide)).2 fun h => ?_
  cases h.1

/-- A field of five characters for the number -5 gets six. -/
theorem minus_before_spaces : ¬ RoundTrip .d false 5 (fun _ => 0xfffffffb#32) (fun _ => []) := by
  have hneg : (0xfffffffb#32).toInt < 0 := by decide
  have hdigits : digits .decimal (0xfffffffb#32).toInt.natAbs = [byte '5'] :=
    digits_small (by decide)
  intro h
  have hlength := h.2
  rw [output_number, output_number, number_text_negative (by decide) hneg,
    number_text_negative (by decide) hneg, hdigits] at hlength
  revert hlength
  decide

end RoundTrip

end Labs.Jos.Printfmt
