import Labs.Base.Lines
import Mathlib.Data.List.TakeWhile

/-!
# Strings of C

A pointer into an array is modelled by the part of the array from the pointer on. The string at the
pointer ends at the first zero byte; a function that finds none runs off the array, and has no
result.
-/

namespace Labs

/-- The bytes of a string literal. -/
def ascii (s : String) : List UInt8 := s.toList.map Char.toUInt8

/-- The byte of a character literal. -/
def byte (c : Char) : UInt8 := c.toUInt8

/-- The string at a pointer, without its terminator. -/
def cstr (l : List UInt8) : List UInt8 := l.takeWhile (· ≠ 0)

/-- `strchr(l, c)`: the string before the first `c` and the pointer behind that `c`, or none if the
string has no `c`. -/
def strchr (c : UInt8) : List UInt8 → Option (Option (List UInt8 × List UInt8))
  | [] => none
  | x :: xs =>
      if x = c then
        some (some ([], xs))
      else if x = 0 then
        some none
      else
        (strchr c xs).map fun found => found.map fun (before, behind) => (x :: before, behind)

/-- The string at a pointer and the pointer behind its terminator. -/
def skipString (l : List UInt8) : Option (List UInt8 × List UInt8) := cut 0 l

variable {c : UInt8} {l s rest : List UInt8}

theorem zero_not_mem_cstr : 0 ∉ cstr l := by
  intro h
  have hne := List.mem_takeWhile_imp h
  simp at hne

theorem ne_zero_of_not_mem (h : 0 ∉ s) : ∀ x ∈ s, decide (x ≠ 0) = true := by
  intro x hx
  have hne : x ≠ 0 := fun heq => h (heq ▸ hx)
  simp [hne]

/-- A list without a zero is a string. -/
theorem cstr_of_not_mem (h : 0 ∉ l) : cstr l = l :=
  List.takeWhile_eq_self_iff.2 (ne_zero_of_not_mem h)

theorem cstr_append_zero (h : 0 ∉ s) : cstr (s ++ 0 :: rest) = s := by
  unfold cstr
  rw [List.takeWhile_append_of_pos (ne_zero_of_not_mem h)]
  simp

/-- The string of an array with a zero in it ends at that zero at the latest. -/
theorem cstr_append_stop : cstr (s ++ 0 :: rest) = cstr s := by
  induction s with
  | nil => rfl
  | cons x xs ih =>
      unfold cstr at *
      rw [List.cons_append, List.takeWhile_cons, List.takeWhile_cons, ih]

theorem skip_string_append (h : 0 ∉ s) : skipString (s ++ 0 :: rest) = some (s, rest) :=
  cut_eq_some.2 ⟨rfl, h⟩

/-- `strchr` finds the first `c` of the string. -/
theorem strchr_found (hc : c ∉ s) (hzero : 0 ∉ s) :
    strchr c (s ++ c :: rest) = some (some (s, rest)) := by
  induction s with
  | nil => simp [strchr]
  | cons x xs ih =>
      simp only [List.mem_cons, not_or] at hc hzero
      rw [List.cons_append, strchr, if_neg (Ne.symm hc.1), if_neg (Ne.symm hzero.1),
        ih hc.2 hzero.2]
      rfl

/-- The pointer that `strchr` returns has less of the array behind it. -/
theorem strchr_length {before behind : List UInt8}
    (h : strchr c l = some (some (before, behind))) : behind.length < l.length := by
  induction l generalizing before with
  | nil => cases h
  | cons x xs ih =>
      rw [strchr] at h
      split at h
      case isTrue =>
        cases h
        exact Nat.lt_succ_self _
      case isFalse =>
        split at h
        case isTrue => cases h
        case isFalse =>
          obtain ⟨found, hfound, hmap⟩ := Option.map_eq_some_iff.1 h
          obtain ⟨pair, rfl, hpair⟩ := Option.map_eq_some_iff.1 hmap
          obtain ⟨before', behind'⟩ := pair
          cases hpair
          exact Nat.lt_succ_of_lt (ih hfound)

/-- `strchr` finds nothing in an empty string. -/
theorem strchr_empty (hc : c ≠ 0) : strchr c (0 :: rest) = some none := by
  rw [strchr, if_neg (Ne.symm hc), if_pos rfl]

end Labs
