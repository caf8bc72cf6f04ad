import Labs.Base.CArray
import Labs.Base.Flags
import Mathlib.Data.List.Forall2

/-!
# Command-line flags

`argstart`, `argnext`, `argvalue` and `argnextvalue` of `lib/args.c`. They read flags and their
values with a cursor in the argument that they are in, and remove the arguments that they have read
from the array of the caller, so the cursor and the values point to strings that are no longer in
it. `Agrees` relates the cursor and the array to a `Flags.Scanner` on the strings, and
`parse_agrees` is the agreement over all sequences of calls.
-/

namespace Labs.Jos.Args

open Prog CArray Flags

variable {A : Type}

/-- A pointer into a string; the literal `""` is the string without a name. -/
structure Ptr (A : Type) where
  block : Option A
  offset : Nat

/-- `p + n`. -/
def Ptr.add (p : Ptr A) (n : Nat) : Ptr A := { p with offset := p.offset + n }

/-- The literal `""`. -/
def Ptr.empty : Ptr A where
  block := none
  offset := 0

/-- Why the functions stopped. -/
inductive Crash where
  /-- A null pointer was read. -/
  | null
  /-- An access outside an array. -/
  | overrun

/-- The structure `Argstate`, with `*argc` and the array at `argv` in the place of the pointers to
them. -/
structure Argstate (A : Type) where
  argc : Nat
  argv : Option (List (Option (Ptr A)))
  curarg : Option (Ptr A)
  argvalue : Option (Ptr A)

/-- The functions of `args.c`. -/
abbrev ArgM (A : Type) := Prog (Argstate A) Crash

section Model

variable (strings : A → List UInt8)

/-- The bytes that a pointer points into. -/
def text : Option A → List UInt8
  | none => [0]
  | some a => strings a

/-- `p[i]`. -/
def load (p : Option (Ptr A)) (i : Nat) : ArgM A UInt8 := fun a =>
  match p with
  | none => .exit .null a
  | some p =>
      match (text strings p.block)[p.offset + i]? with
      | some c => .ret c a
      | none => .exit .overrun a

/-- `args->argv[i]`. -/
def argvAt (i : Nat) : ArgM A (Option (Ptr A)) := fun a =>
  match a.argv with
  | none => .exit .null a
  | some argv =>
      match argv[i]? with
      | some p => .ret p a
      | none => .exit .overrun a

/-- `memmove(args->argv + 1, args->argv + 2, sizeof(const char *) * (*args->argc - 1))`, and
`(*args->argc)--`. -/
def shift : ArgM A Unit := fun a =>
  match a.argv with
  | none => .exit .null a
  | some argv =>
      if a.argc + 1 ≤ argv.length then
        .ret () { a with
          argc := a.argc - 1
          argv := some (argv.take 1 ++ (argv.drop 2).take (a.argc - 1) ++ argv.drop a.argc) }
      else .exit .overrun a

/-- The function `argstart`. -/
def argstart (argc : Nat) (argv : Option (List (Option (Ptr A)))) : ArgM A Unit :=
  modify fun _ =>
    { argc := argc
      argv := argv
      curarg := if 1 < argc ∧ argv.isSome then some .empty else none
      argvalue := none }

/-- The label `endofargs`. -/
def endofargs : ArgM A Int := do
  modify fun a => { a with curarg := none }
  return -1

/-- There is no next argument, or it has no flags. -/
def atEnd : ArgM A Bool := do
  let a ← get
  if a.argc = 1 then return true
  else
    let arg ← argvAt 1
    let c ← load strings arg 0
    if c ≠ byte '-' then return true
    else
      let c ← load strings arg 1
      return decide (c = 0)

/-- `args->curarg[0] == '-' && args->curarg[1] == '\0'`. -/
def atDashes : ArgM A Bool := do
  let a ← get
  let c ← load strings a.curarg 0
  if c = byte '-' then
    let c ← load strings a.curarg 1
    return decide (c = 0)
  else return false

/-- The end of `argnext`: the flag at the cursor. -/
def takeFlag : ArgM A Int := do
  let a ← get
  let arg ← load strings a.curarg 0
  modify fun a => { a with curarg := a.curarg.map (·.add 1) }
  return arg.toNat

/-- The part of `argnext` for a cursor at the end of its argument. -/
def nextArgument : ArgM A Int := do
  let done ← atEnd strings
  if done = true then endofargs
  else
    let arg ← argvAt 1
    modify fun a => { a with curarg := arg.map (·.add 1) }
    shift
    let dashes ← atDashes strings
    if dashes = true then endofargs else takeFlag strings

/-- The function `argnext`. -/
def argnext : ArgM A Int := do
  modify fun a => { a with argvalue := none }
  let a ← get
  if a.curarg.isNone then return -1
  else
    let c ← load strings a.curarg 0
    if c = 0 then nextArgument strings else takeFlag strings

/-- The function `argnextvalue`. -/
def argnextvalue : ArgM A (Option (Ptr A)) := do
  let a ← get
  if a.curarg.isNone then return none
  else
    let c ← load strings a.curarg 0
    if c ≠ 0 then
      modify fun a => { a with argvalue := a.curarg, curarg := some .empty }
    else if 1 < a.argc then
      let arg ← argvAt 1
      modify fun a => { a with argvalue := arg }
      shift
    else modify fun a => { a with argvalue := none, curarg := none }
    let a ← get
    return a.argvalue

/-- The function `argvalue`. -/
def argvalue : ArgM A (Option (Ptr A)) := do
  let a ← get
  if a.argvalue.isSome then return a.argvalue else argnextvalue strings

/-- What a call returns. -/
inductive Result (A : Type) where
  | flag (arg : Int)
  | value (p : Option (Ptr A))

/-- A call of `argnext`, `argvalue` or `argnextvalue`. -/
def call : Call → ArgM A (Result A)
  | .flag => .flag <$> argnext strings
  | .value => .value <$> argvalue strings
  | .nextValue => .value <$> argnextvalue strings

/-- Calls one after the other. -/
def calls : List Call → ArgM A (List (Result A))
  | [] => return []
  | c :: cs => do
      let r ← call strings c
      let rs ← calls cs
      return r :: rs

/-- A caller: `argstart` and then calls. -/
def parse (argc : Nat) (argv : Option (List (Option (Ptr A)))) (cs : List Call) :
    ArgM A (List (Result A)) := do
  argstart argc argv
  calls strings cs

/-- A pointer to the string `s`. -/
def Points (p : Ptr A) (s : List UInt8) : Prop := HoldsString (text strings p.block) p.offset s

/-- A result of the code and an answer of the scanner. -/
inductive Means : Result A → Answer UInt8 → Prop
  | flag {c : UInt8} : Means (.flag c.toNat) (.flag (some c))
  | noFlag : Means (.flag (-1)) (.flag none)
  | value {p : Ptr A} {s : List UInt8} (h : Points strings p s) :
      Means (.value (some p)) (.value (some s))
  | noValue : Means (.value none) (.value none)

/-- `*argc` and `argv` describe `zero`, the arguments `ptrs` and the null pointer behind them. -/
structure Describes (a : Argstate A) (zero : Ptr A) (ptrs : List (Ptr A))
    (behind : List (Option (Ptr A))) : Prop where
  argc : a.argc = ptrs.length + 1
  argv : a.argv = some (some zero :: (ptrs.map some ++ none :: behind))

/-- The cursor and the last value, as the scanner has them. -/
inductive Cursor : Option (Ptr A) → Option (Ptr A) → Scanner UInt8 → Prop
  | reading {p : Ptr A} {q : Option (Ptr A)} {current : List UInt8} {value : Option (List UInt8)}
      {rest : List (List UInt8)} (hcurrent : Points strings p current)
      (hvalue : Option.Rel (Points strings) q value) :
      Cursor (some p) q (.reading current value rest)
  | ended {rest : List (List UInt8)} : Cursor none none (.ended rest)

/-- The array holds the arguments that the scanner has left. -/
structure Agrees (zero : Ptr A) (ptrs : List (Ptr A)) (behind : List (Option (Ptr A)))
    (scanner : Scanner UInt8) (a : Argstate A) : Prop where
  array : Describes a zero ptrs behind
  rest : List.Forall₂ (Points strings) ptrs scanner.rest
  cursor : Cursor strings a.curarg a.argvalue scanner

/-- The scanner has read some arguments, and the array no longer has them. -/
def Reached (zero : Ptr A) (ptrs : List (Ptr A)) (behind : List (Option (Ptr A)))
    (scanner scanner' : Scanner UInt8) (a : Argstate A) : Prop :=
  ∃ k, scanner'.rest = scanner.rest.drop k ∧
    Agrees strings zero (ptrs.drop k) (List.replicate k none ++ behind) scanner' a

end Model

variable {strings : A → List UInt8} {p zero : Ptr A} {ptrs : List (Ptr A)} {s arg : List UInt8}
  {behind : List (Option (Ptr A))} {a : Argstate A} {c : UInt8} {scanner : Scanner UInt8}

/-! ## Strings -/

theorem points_empty : Points strings Ptr.empty [] := ⟨List.not_mem_nil, [], rfl⟩

theorem Points.tail (h : Points strings p (c :: s)) : Points strings (p.add 1) s :=
  (HoldsString.cons h).2.2

theorem load_nil (h : Points strings p []) : load strings (some p) 0 a = .ret 0 a := by
  have hbyte : (text strings p.block)[p.offset + 0]? = some 0 := HoldsString.nil h
  simp only [load, hbyte]

theorem load_cons (h : Points strings p (c :: s)) : load strings (some p) 0 a = .ret c a := by
  have hbyte : (text strings p.block)[p.offset + 0]? = some c := (HoldsString.cons h).1
  simp only [load, hbyte]

/-- The second byte of a string is the first one of the string behind its first byte. -/
theorem load_one : load strings (some p) 1 a = load strings (some (p.add 1)) 0 a := rfl

/-! ## The array -/

theorem argv_at_one {q : Ptr A} (h : Describes a zero (q :: ptrs) behind) :
    argvAt 1 a = .ret (some q) a := by
  simp only [argvAt, h.argv, List.map_cons, List.cons_append, List.getElem?_cons_succ,
    List.getElem?_cons_zero]

/-- The null pointer is moved with the arguments, and stays where it was. -/
theorem moved_eq {q : Ptr A} :
    (some zero :: ((q :: ptrs).map some ++ none :: behind)).take 1 ++
        ((some zero :: ((q :: ptrs).map some ++ none :: behind)).drop 2).take (ptrs.length + 1) ++
        (some zero :: ((q :: ptrs).map some ++ none :: behind)).drop (ptrs.length + 2) =
      some zero :: (ptrs.map some ++ none :: none :: behind) := by
  have hsplit : ptrs.map some ++ none :: behind = (ptrs.map some ++ [none]) ++ behind := by
    simp
  have hmoved : (ptrs.map some ++ none :: behind).take (ptrs.length + 1) =
      ptrs.map some ++ [none] := by
    rw [hsplit]
    exact List.take_left' (by simp)
  have hkept : (ptrs.map some ++ none :: behind).drop ptrs.length = none :: behind :=
    List.drop_left' (by simp)
  simp only [List.map_cons, List.cons_append, List.take_succ_cons, List.take_zero,
    List.drop_succ_cons, List.drop_zero, hmoved, hkept, List.nil_append, List.append_assoc]

/-- `shift` removes the first argument. -/
theorem shift_ret {q : Ptr A} (h : Describes a zero (q :: ptrs) behind) :
    shift a = .ret () { a with
      argc := ptrs.length + 1
      argv := some (some zero :: (ptrs.map some ++ none :: none :: behind)) } := by
  have hargc : a.argc = ptrs.length + 2 := h.argc
  have hroom : a.argc + 1 ≤ (some zero :: ((q :: ptrs).map some ++ none :: behind)).length := by
    rw [hargc]
    simp
  have hcount : a.argc - 1 = ptrs.length + 1 := by omega
  unfold shift
  simp only [h.argv]
  rw [if_pos hroom, hcount, hargc, moved_eq]

/-! ## The tests of `argnext` -/

/-- The flags end here when the next argument has none. -/
theorem at_end_ret {args : List (List UInt8)} (h : Describes a zero ptrs behind)
    (hargs : List.Forall₂ (Points strings) ptrs args) :
    atEnd strings a = .ret (args.head?.bind (flagsOf (byte '-'))).isNone a := by
  have hdash : (0 : UInt8) ≠ byte '-' := by decide
  unfold atEnd
  rw [get_bind]
  cases hargs with
  | nil =>
      have hargc : a.argc = 1 := h.argc
      rw [if_pos hargc]
      rfl
  | @cons q arg ptrs args harg hargs =>
      have hargc : a.argc ≠ 1 := by
        rw [h.argc, List.length_cons]
        omega
      rw [if_neg hargc, bind_of_ret (argv_at_one h), List.head?_cons, Option.bind_some]
      cases arg with
      | nil =>
          rw [bind_of_ret (load_nil harg), if_pos hdash, flags_of_short (by simp)]
          rfl
      | cons d arg =>
          rw [bind_of_ret (load_cons harg)]
          by_cases hd : d = byte '-'
          · subst hd
            rw [if_neg (not_not_intro rfl)]
            cases arg with
            | nil =>
                rw [bind_of_ret (load_one.trans (load_nil harg.tail)), flags_of_short (by simp)]
                rfl
            | cons c flags =>
                have hc : c ≠ 0 := (HoldsString.cons harg.tail).2.1
                rw [bind_of_ret (load_one.trans (load_cons harg.tail)), decide_eq_false hc,
                  flags_of_flags]
                rfl
          · rw [if_pos hd, flags_of_other hd]
            rfl

/-- The cursor is at the argument that is a dash twice. -/
theorem at_dashes_ret (hcurarg : a.curarg = some p) (h : Points strings p s) :
    atDashes strings a = .ret (decide (s = [byte '-'])) a := by
  have hdash : (0 : UInt8) ≠ byte '-' := by decide
  unfold atDashes
  rw [get_bind, hcurarg]
  cases s with
  | nil =>
      rw [bind_of_ret (load_nil h), if_neg hdash]
      rfl
  | cons c s =>
      rw [bind_of_ret (load_cons h)]
      by_cases hc : c = byte '-'
      · subst hc
        rw [if_pos rfl]
        cases s with
        | nil =>
            rw [bind_of_ret (load_one.trans (load_nil h.tail))]
            rfl
        | cons d s =>
            have hd : d ≠ 0 := (HoldsString.cons h.tail).2.1
            rw [bind_of_ret (load_one.trans (load_cons h.tail)), decide_eq_false hd]
            have hne : byte '-' :: d :: s ≠ [byte '-'] := by simp
            rw [decide_eq_false hne]
            rfl
      · have hne : c :: s ≠ [byte '-'] := fun heq => hc (List.cons.inj heq).1
        rw [if_neg hc, decide_eq_false hne]
        rfl

theorem take_flag_ret (hcurarg : a.curarg = some p) (h : Points strings p (c :: s)) :
    takeFlag strings a = .ret c.toNat { a with curarg := some (p.add 1) } := by
  unfold takeFlag
  rw [get_bind, hcurarg, bind_of_ret (load_cons h)]
  have hnext : a.curarg.map (·.add 1) = some (p.add 1) := by rw [hcurarg]; rfl
  rw [modify_bind, hnext]
  rfl

/-! ## One call -/

/-- No argument is removed. -/
theorem Describes.keep {b : Argstate A} (h : Describes a zero ptrs behind)
    (hargc : b.argc = a.argc) (hargv : b.argv = a.argv) : Describes b zero ptrs behind :=
  ⟨hargc.trans h.argc, hargv.trans h.argv⟩

theorem reached_keep {scanner' : Scanner UInt8} (h : Agrees strings zero ptrs behind scanner' a)
    (hrest : scanner'.rest = scanner.rest) :
    Reached strings zero ptrs behind scanner scanner' a :=
  ⟨0, hrest, h⟩

theorem reached_shift {scanner' : Scanner UInt8} {q : Ptr A} {args : List (List UInt8)}
    (h : Agrees strings zero ptrs (none :: behind) scanner' a)
    (hargs : scanner.rest = arg :: args) (hrest : scanner'.rest = args) :
    Reached strings zero (q :: ptrs) behind scanner scanner' a :=
  ⟨1, by rw [hargs, hrest]; rfl, h⟩

theorem agrees_ended {args : List (List UInt8)} (h : Describes a zero ptrs behind)
    (hargs : List.Forall₂ (Points strings) ptrs args) (hvalue : a.argvalue = none) :
    Agrees strings zero ptrs behind (.ended args) { a with curarg := none } := by
  refine ⟨h.keep rfl rfl, hargs, ?_⟩
  rw [hvalue]
  exact .ended

/-- The flag at the cursor. -/
theorem take_flag_agrees {args : List (List UInt8)} (h : Describes a zero ptrs behind)
    (hargs : List.Forall₂ (Points strings) ptrs args) (hvalue : a.argvalue = none)
    (hcurarg : a.curarg = some p) (hcurrent : Points strings p (c :: s)) :
    ∃ a', takeFlag strings a = .ret c.toNat a' ∧
      Agrees strings zero ptrs behind (.reading s none args) a' := by
  refine ⟨_, take_flag_ret hcurarg hcurrent, h.keep rfl rfl, hargs, ?_⟩
  rw [hvalue]
  exact .reading hcurrent.tail .none

/-- The next argument, when the cursor is at the end of one. -/
theorem next_argument_ret {args : List (List UInt8)} (h : Describes a zero ptrs behind)
    (hargs : List.Forall₂ (Points strings) ptrs args) (hvalue : a.argvalue = none) :
    ∃ r a', nextArgument strings a = .ret r a' ∧
      Means strings (.flag r) (.flag ((Scanner.reading [] none args).next (byte '-')).1) ∧
      Reached strings zero ptrs behind (.reading [] none args)
        ((Scanner.reading [] none args).next (byte '-')).2 a' := by
  unfold nextArgument
  rw [bind_of_ret (at_end_ret h hargs)]
  cases hargs with
  | nil => exact ⟨_, _, rfl, .noFlag, reached_keep (agrees_ended h .nil hvalue) rfl⟩
  | @cons q arg ptrs args harg hargs =>
      rw [List.head?_cons, Option.bind_some]
      cases hflags : flagsOf (byte '-') arg with
      | none =>
          rw [Scanner.next_other hflags]
          exact ⟨_, _, rfl, .noFlag, reached_keep (agrees_ended h (.cons harg hargs) hvalue) rfl⟩
      | some found =>
          obtain ⟨c, flags⟩ := found
          rw [flags_of_eq_some hflags] at harg
          have hb : Describes { a with curarg := some (q.add 1) } zero (q :: ptrs) behind :=
            h.keep rfl rfl
          have hmoved : Describes { a with
              argc := ptrs.length + 1
              argv := some (some zero :: (ptrs.map some ++ none :: none :: behind))
              curarg := some (q.add 1) } zero ptrs (none :: behind) := ⟨rfl, rfl⟩
          rw [if_neg (by simp), bind_of_ret (argv_at_one h), modify_bind, Option.map_some,
            bind_of_ret (shift_ret hb), bind_of_ret (at_dashes_ret rfl harg.tail)]
          by_cases hdashes : c :: flags = [byte '-']
          · cases hdashes
            rw [Scanner.next_dashes hflags]
            exact ⟨_, _, rfl, .noFlag, reached_shift (agrees_ended hmoved hargs hvalue) rfl rfl⟩
          · obtain ⟨a', hret, ha'⟩ := take_flag_agrees hmoved hargs hvalue rfl harg.tail
            rw [decide_eq_false hdashes, if_neg Bool.false_ne_true,
              Scanner.next_flags hflags hdashes]
            exact ⟨_, a', hret, .flag, reached_shift ha' rfl rfl⟩

/-- `argnext` returns the next flag. -/
theorem argnext_step (h : Agrees strings zero ptrs behind scanner a) :
    ∃ r a', argnext strings a = .ret r a' ∧
      Means strings (.flag r) (.flag (scanner.next (byte '-')).1) ∧
      Reached strings zero ptrs behind scanner (scanner.next (byte '-')).2 a' := by
  obtain ⟨argc, argv, curarg, argvalue⟩ := a
  obtain ⟨harray, hrest, hcursor⟩ := h
  have hb : Describes ⟨argc, argv, curarg, none⟩ zero ptrs behind := harray.keep rfl rfl
  unfold argnext
  rw [modify_bind, get_bind]
  cases hcursor with
  | ended => exact ⟨_, _, rfl, .noFlag, reached_keep ⟨hb, hrest, .ended⟩ rfl⟩
  | @reading p q current value args hcurrent hvalue =>
      rw [if_neg (by simp)]
      cases current with
      | nil =>
          obtain ⟨r, a', hret, hmeans, hreached⟩ := next_argument_ret hb hrest rfl
          rw [bind_of_ret (load_nil hcurrent), if_pos rfl, Scanner.next_read]
          exact ⟨r, a', hret, hmeans, hreached⟩
      | cons c s =>
          obtain ⟨a', hret, ha'⟩ := take_flag_agrees hb hrest rfl rfl hcurrent
          have hc : c ≠ 0 := (HoldsString.cons hcurrent).2.1
          rw [bind_of_ret (load_cons hcurrent), if_neg hc]
          exact ⟨_, a', hret, .flag, reached_keep ha' rfl⟩

/-- `argnextvalue` returns one more value. -/
theorem argnextvalue_step (h : Agrees strings zero ptrs behind scanner a) :
    ∃ r a', argnextvalue strings a = .ret r a' ∧
      Means strings (.value r) (.value scanner.nextValue.1) ∧
      Reached strings zero ptrs behind scanner scanner.nextValue.2 a' := by
  obtain ⟨argc, argv, curarg, argvalue⟩ := a
  obtain ⟨harray, hrest, hcursor⟩ := h
  unfold argnextvalue
  rw [get_bind]
  cases hcursor with
  | ended => exact ⟨_, _, rfl, .noValue, reached_keep ⟨harray, hrest, .ended⟩ rfl⟩
  | @reading p q current value args hcurrent hvalue =>
      rw [if_neg (by simp)]
      cases current with
      | cons c s =>
          have hc : c ≠ 0 := (HoldsString.cons hcurrent).2.1
          rw [bind_of_ret (load_cons hcurrent), if_pos hc, modify_bind]
          refine ⟨_, _, rfl, .value hcurrent, reached_keep ⟨harray.keep rfl rfl, hrest, ?_⟩ rfl⟩
          exact .reading points_empty (.some hcurrent)
      | nil =>
          rw [bind_of_ret (load_nil hcurrent), if_neg (not_not_intro rfl)]
          cases hrest with
          | nil =>
              have hargc : ¬ 1 < argc := by
                rw [show argc = 1 from harray.argc]
                exact Nat.lt_irrefl 1
              rw [if_neg hargc]
              exact ⟨_, _, rfl, .noValue, reached_keep ⟨harray.keep rfl rfl, .nil, .ended⟩ rfl⟩
          | @cons first arg ptrs args harg hargs =>
              have hargc : 1 < argc := by
                rw [show argc = ptrs.length + 2 from harray.argc]
                omega
              have hmoved : Describes ⟨argc, argv, some p, some first⟩ zero (first :: ptrs)
                  behind := harray.keep rfl rfl
              rw [if_pos hargc, bind_of_ret (argv_at_one harray), modify_bind,
                bind_of_ret (shift_ret hmoved)]
              refine ⟨_, _, rfl, .value harg, reached_shift ⟨⟨rfl, rfl⟩, hargs, ?_⟩ rfl rfl⟩
              exact .reading hcurrent (.some harg)

/-- `argvalue` returns the last value again, if there is one. -/
theorem argvalue_step (h : Agrees strings zero ptrs behind scanner a) :
    ∃ r a', argvalue strings a = .ret r a' ∧
      Means strings (.value r) (.value scanner.value.1) ∧
      Reached strings zero ptrs behind scanner scanner.value.2 a' := by
  have hnext := argnextvalue_step h
  obtain ⟨argc, argv, curarg, argvalue⟩ := a
  obtain ⟨harray, hrest, hcursor⟩ := h
  unfold Args.argvalue
  rw [get_bind]
  cases hcursor with
  | ended => exact hnext
  | @reading p q current value args hcurrent hvalue =>
      cases hvalue with
      | none => exact hnext
      | @some q s hq =>
          refine ⟨_, _, rfl, .value hq, reached_keep ⟨harray, hrest, ?_⟩ rfl⟩
          exact .reading hcurrent (.some hq)

/-- One call: the result is the answer of the scanner, and the arguments that the scanner has read
are no longer in the array. -/
theorem call_step (h : Agrees strings zero ptrs behind scanner a) (which : Call) :
    ∃ r a', call strings which a = .ret r a' ∧
      Means strings r (scanner.call (byte '-') which).1 ∧
      Reached strings zero ptrs behind scanner (scanner.call (byte '-') which).2 a' := by
  cases which with
  | flag =>
      obtain ⟨r, a', hret, hmeans, hreached⟩ := argnext_step h
      exact ⟨.flag r, a', map_of_ret hret, hmeans, hreached⟩
  | value =>
      obtain ⟨r, a', hret, hmeans, hreached⟩ := argvalue_step h
      exact ⟨.value r, a', map_of_ret hret, hmeans, hreached⟩
  | nextValue =>
      obtain ⟨r, a', hret, hmeans, hreached⟩ := argnextvalue_step h
      exact ⟨.value r, a', map_of_ret hret, hmeans, hreached⟩

/-! ## All calls -/

theorem Reached.trans {first second third : Scanner UInt8} {b : Argstate A} {k : Nat}
    (hrest : second.rest = first.rest.drop k)
    (h : Reached strings zero (ptrs.drop k) (List.replicate k none ++ behind) second third b) :
    Reached strings zero ptrs behind first third b := by
  obtain ⟨j, hdrop, hagrees⟩ := h
  refine ⟨k + j, by rw [hdrop, hrest, List.drop_drop], ?_⟩
  rw [← List.append_assoc, ← List.replicate_add, List.drop_drop, Nat.add_comm j k] at hagrees
  exact hagrees

/-- The calls of a caller agree with those of the scanner. -/
theorem calls_agree (h : Agrees strings zero ptrs behind scanner a) (cs : List Call) :
    ∃ rs a', calls strings cs a = .ret rs a' ∧
      List.Forall₂ (Means strings) rs (scanner.run (byte '-') cs).1 ∧
      Reached strings zero ptrs behind scanner (scanner.run (byte '-') cs).2 a' := by
  induction cs generalizing scanner a ptrs behind with
  | nil => exact ⟨[], a, rfl, .nil, reached_keep h rfl⟩
  | cons which cs ih =>
      obtain ⟨r, b, hret, hmeans, k, hrest, hb⟩ := call_step h which
      obtain ⟨rs, a', hrets, hall, hreached⟩ := ih hb
      refine ⟨r :: rs, a', ?_, .cons hmeans hall, hreached.trans hrest⟩
      rw [calls, bind_of_ret hret, bind_of_ret hrets]
      rfl

/-- `argstart` starts like a scanner that has read nothing. -/
theorem argstart_agrees {args : List (List UInt8)} (zero : Ptr A)
    (hargs : List.Forall₂ (Points strings) ptrs args) (behind : List (Option (Ptr A)))
    (old : Argstate A) : ∃ a, argstart (ptrs.length + 1)
      (some (some zero :: (ptrs.map some ++ none :: behind))) old = .ret () a ∧
      Agrees strings zero ptrs behind (Scanner.start args) a := by
  refine ⟨_, rfl, ⟨rfl, rfl⟩, ?_, ?_⟩
  · cases hargs with
    | nil => exact .nil
    | cons harg hargs => exact .cons harg hargs
  · cases hargs with
    | nil => exact .ended
    | cons harg hargs =>
        rw [if_pos ⟨by simp, rfl⟩]
        exact .reading points_empty .none

/-- For every array of arguments and all calls after `argstart`, every call returns what the scanner
answers, and then the array is `zero`, the arguments that the scanner has left and the null
pointer. -/
theorem parse_agrees (strings : A → List UInt8) (zero : Ptr A) (ptrs : List (Ptr A))
    (args : List (List UInt8)) (hargs : List.Forall₂ (Points strings) ptrs args)
    (behind : List (Option (Ptr A))) (cs : List Call) (old : Argstate A) :
    ∃ rs a' k, parse strings (ptrs.length + 1)
        (some (some zero :: (ptrs.map some ++ none :: behind))) cs old = .ret rs a' ∧
      List.Forall₂ (Means strings) rs ((Scanner.start args).run (byte '-') cs).1 ∧
      ((Scanner.start args).run (byte '-') cs).2.rest = args.drop k ∧
      Describes a' zero (ptrs.drop k) (List.replicate k none ++ behind) := by
  obtain ⟨a, hstart, hagrees⟩ := argstart_agrees zero hargs behind old
  obtain ⟨rs, a', hret, hmeans, k, hrest, hdone⟩ := calls_agree hagrees cs
  have hargs' : (Scanner.start args).rest = args := by cases args <;> rfl
  rw [hargs'] at hrest
  refine ⟨rs, a', k, ?_, hmeans, hrest, hdone.array⟩
  rw [parse, bind_of_ret hstart]
  exact hret

/-- The arguments of the example in `inc/args.h`. -/
def sampleArgs : List (List UInt8) := ["-rx", "-f", "foo", "--", "-r", "duh"].map ascii

/-- The arguments, each in an array of its own. -/
def sampleStrings (i : Fin 6) : List UInt8 := sampleArgs.get i ++ [0]

/-- The start of an array. -/
def startOf (i : Fin 6) : Ptr (Fin 6) := ⟨some i, 0⟩

theorem parse_agrees_sample : ∃ rs a' k, parse sampleStrings 7
    (some (some (startOf 0) :: ([0, 1, 2, 3, 4, 5].map startOf).map some ++ none :: []))
      [.flag, .flag, .flag, .value, .flag] ⟨0, none, none, none⟩ = .ret rs a' ∧
    List.Forall₂ (Means sampleStrings) rs ((Scanner.start sampleArgs).run (byte '-')
      [.flag, .flag, .flag, .value, .flag]).1 ∧
    ((Scanner.start sampleArgs).run (byte '-') [.flag, .flag, .flag, .value, .flag]).2.rest =
      sampleArgs.drop k ∧
    Describes a' (startOf 0) (([0, 1, 2, 3, 4, 5].map startOf).drop k)
      (List.replicate k none ++ []) :=
  parse_agrees sampleStrings (startOf 0) ([0, 1, 2, 3, 4, 5].map startOf) sampleArgs
    (.cons ⟨by decide, [], rfl⟩ (.cons ⟨by decide, [], rfl⟩ (.cons ⟨by decide, [], rfl⟩
      (.cons ⟨by decide, [], rfl⟩ (.cons ⟨by decide, [], rfl⟩ (.cons ⟨by decide, [], rfl⟩
        .nil)))))) [] [.flag, .flag, .flag, .value, .flag] ⟨0, none, none, none⟩

/-- The scanner answers what `inc/args.h` says, and leaves the arguments behind the dashes. -/
example : (Scanner.start sampleArgs).run (byte '-') [.flag, .flag, .flag, .value, .flag] =
    ([.flag (some (byte 'r')), .flag (some (byte 'x')), .flag (some (byte 'f')),
      .value (some (ascii "foo")), .flag none], .ended [ascii "-r", ascii "duh"]) := by
  rfl

end Labs.Jos.Args
