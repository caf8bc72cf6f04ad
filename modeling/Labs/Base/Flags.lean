import Mathlib.Data.List.Basic

/-!
# Flags and their values

A scanner reads the flags at the front of a list of arguments. An argument with flags is a dash with
at least one character behind it, each of which is a flag. The argument that is a dash twice ends
the flags and is read with them; any other argument ends them and stays. A flag has a value: what
follows it in its argument, or else the next argument, whatever it is.
-/

namespace Labs.Flags

variable {α : Type}

/-- What a scanner has left. It reads flags from `current` and then from the arguments `rest`, and
`value` is the value of the last flag when that has been read; or the flags have ended. -/
inductive Scanner (α : Type) where
  | reading (current : List α) (value : Option (List α)) (rest : List (List α))
  | ended (rest : List (List α))

/-- What a call asks a scanner for. -/
inductive Call where
  /-- The next flag. -/
  | flag
  /-- The value of the last flag, the same one when it has been read. -/
  | value
  /-- One more value. -/
  | nextValue

/-- What a scanner answers. -/
inductive Answer (α : Type) where
  | flag (c : Option α)
  | value (v : Option (List α))

namespace Scanner

/-- A scanner that has read nothing. -/
def start : List (List α) → Scanner α
  | [] => .ended []
  | arg :: args => .reading [] none (arg :: args)

/-- The arguments that have not been read. -/
def rest : Scanner α → List (List α)
  | .reading _ _ rest => rest
  | .ended rest => rest

/-- One more value. -/
def nextValue : Scanner α → Option (List α) × Scanner α
  | .ended rest => (none, .ended rest)
  | .reading (c :: current) _ rest =>
      (some (c :: current), .reading [] (some (c :: current)) rest)
  | .reading [] _ (arg :: rest) => (some arg, .reading [] (some arg) rest)
  | .reading [] _ [] => (none, .ended [])

/-- The value of the last flag. -/
def value : Scanner α → Option (List α) × Scanner α
  | .reading current (some v) rest => (some v, .reading current (some v) rest)
  | scanner => scanner.nextValue

end Scanner

variable [DecidableEq α] (dash : α)

/-- The flags of an argument: the first one and the others. -/
def flagsOf : List α → Option (α × List α)
  | d :: c :: flags => if d = dash then some (c, flags) else none
  | _ => none

namespace Scanner

/-- The next flag. -/
def next : Scanner α → Option α × Scanner α
  | .ended rest => (none, .ended rest)
  | .reading (c :: current) _ rest => (some c, .reading current none rest)
  | .reading [] _ [] => (none, .ended [])
  | .reading [] _ (arg :: rest) =>
      match flagsOf dash arg with
      | none => (none, .ended (arg :: rest))
      | some (c, flags) =>
          if c = dash ∧ flags = [] then (none, .ended rest)
          else (some c, .reading flags none rest)

/-- The answer to a call. -/
def call (scanner : Scanner α) : Call → Answer α × Scanner α
  | .flag => ((scanner.next dash).map .flag id)
  | .value => (scanner.value.map .value id)
  | .nextValue => (scanner.nextValue.map .value id)

/-- The answers to calls, one after the other. -/
def run (scanner : Scanner α) : List Call → List (Answer α) × Scanner α
  | [] => ([], scanner)
  | c :: cs =>
      let step := scanner.call dash c
      let later := step.2.run cs
      (step.1 :: later.1, later.2)

end Scanner

variable {dash}

theorem flags_of_short {arg : List α} (h : arg.length < 2) : flagsOf dash arg = none := by
  cases arg with
  | nil => rfl
  | cons d arg =>
      cases arg with
      | nil => rfl
      | cons c arg =>
          rw [List.length_cons, List.length_cons] at h
          omega

theorem flags_of_other {d : α} {arg : List α} (h : d ≠ dash) : flagsOf dash (d :: arg) = none := by
  cases arg with
  | nil => rfl
  | cons c arg => exact if_neg h

theorem flags_of_flags {c : α} {flags : List α} :
    flagsOf dash (dash :: c :: flags) = some (c, flags) := if_pos rfl

theorem flags_of_eq_some {c : α} {arg flags : List α} (h : flagsOf dash arg = some (c, flags)) :
    arg = dash :: c :: flags := by
  cases arg with
  | nil => cases h
  | cons d arg =>
      cases arg with
      | nil => cases h
      | cons c' arg =>
          by_cases hd : d = dash
          · rw [hd, flags_of_flags] at h
            cases h
            rw [hd]
          · rw [flags_of_other hd] at h
            cases h

/-! ## The cases of `next` -/

namespace Scanner

variable {arg flags : List α} {args : List (List α)} {v : Option (List α)} {c : α}

/-- The last value is forgotten. -/
theorem next_read : (reading [] v args).next dash = (reading [] none args).next dash := by
  cases args with
  | nil => rfl
  | cons arg args => rfl

theorem next_other (h : flagsOf dash arg = none) :
    (reading [] v (arg :: args)).next dash = (none, ended (arg :: args)) := by
  simp only [next, h]

theorem next_dashes (h : flagsOf dash arg = some (dash, [])) :
    (reading [] v (arg :: args)).next dash = (none, ended args) := by
  simp [next, h]

theorem next_flags (h : flagsOf dash arg = some (c, flags)) (hne : c :: flags ≠ [dash]) :
    (reading [] v (arg :: args)).next dash = (some c, reading flags none args) := by
  simp only [next, h]
  refine if_neg fun heq => hne ?_
  rw [heq.1, heq.2]

end Scanner

end Labs.Flags
