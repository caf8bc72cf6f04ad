import Labs.Base.CString
import Labs.Base.Prog
import Mathlib.Logic.Function.Basic

/-!
# Arrays of C with their bounds

Programs over named arrays of bytes. A load, a store or a string function that leaves its array
ends the program with a fault, so that a program that returns has stayed inside its arrays.
-/

namespace Labs

/-- The contents of named arrays. -/
abbrev Arrays (A : Type) := A → List UInt8

/-- Why a program over arrays stopped. -/
inductive Fault (A : Type) where
  /-- An access to index `i` of the array `a`, which ends before it. -/
  | overrun (a : A) (i : Nat)
  /-- A loop was given too little fuel. -/
  | fuel

namespace CArray

open Prog

variable {A : Type} [DecidableEq A]

/-- `a[i]`. -/
def load (a : A) (i : Nat) : Prog (Arrays A) (Fault A) UInt8 := fun m =>
  match (m a)[i]? with
  | some c => .ret c m
  | none => .exit (.overrun a i) m

/-- `a[i] = c`. -/
def store (a : A) (i : Nat) (c : UInt8) : Prog (Arrays A) (Fault A) Unit := fun m =>
  if i < (m a).length then .ret () (Function.update m a ((m a).set i c))
  else .exit (.overrun a i) m

/-- The string at `&a[p]`, read up to its terminator. -/
def stringAt (a : A) (p : Nat) : Prog (Arrays A) (Fault A) (List UInt8) := fun m =>
  match skipString ((m a).drop p) with
  | some (s, _) => .ret s m
  | none => .exit (.overrun a (m a).length) m

/-- `strlen(&a[p])`. -/
def strlen (a : A) (p : Nat) : Prog (Arrays A) (Fault A) Nat := do
  let s ← stringAt a p
  return s.length

/-- The index that `strchr(&a[p], c)` points to. -/
def strchrAt (a : A) (p : Nat) (c : UInt8) : Prog (Arrays A) (Fault A) (Option Nat) := fun m =>
  match strchr c ((m a).drop p) with
  | some (some (before, _)) => .ret (some (p + before.length)) m
  | some none => .ret none m
  | none => .exit (.overrun a (m a).length) m

/-- Store bytes from `&a[i]` on. -/
def storeBytes (a : A) (i : Nat) : List UInt8 → Prog (Arrays A) (Fault A) Unit
  | [] => pure ()
  | c :: bytes => do
      store a i c
      storeBytes a (i + 1) bytes

/-- `sprintf(&a[i], "fmt%s", &b[p])`. -/
def sprintf (a : A) (i : Nat) (fmt : List UInt8) (b : A) (p : Nat) :
    Prog (Arrays A) (Fault A) Nat := do
  let s ← stringAt b p
  storeBytes a i (fmt ++ s ++ [0])
  return fmt.length + s.length

/-- Replace the bytes of a list from index `i` on. -/
def overwrite (l : List UInt8) (i : Nat) (bytes : List UInt8) : List UInt8 :=
  l.take i ++ bytes ++ l.drop (i + bytes.length)

variable {a b : A} {i p : Nat} {c : UInt8} {m : Arrays A} {s before behind bytes : List UInt8}

omit [DecidableEq A] in
theorem length_overwrite {l : List UInt8} (h : i + bytes.length ≤ l.length) :
    (overwrite l i bytes).length = l.length := by
  simp only [overwrite, List.length_append, List.length_take, List.length_drop]
  omega

omit [DecidableEq A] in
/-- What has been written, behind what was there. -/
theorem take_overwrite {l : List UInt8} (h : i ≤ l.length) :
    (overwrite l i bytes).take (i + bytes.length) = l.take i ++ bytes := by
  have hlen : (l.take i ++ bytes).length = i + bytes.length := by
    rw [List.length_append, List.length_take, Nat.min_eq_left h]
  rw [overwrite, ← hlen]
  exact List.take_left

omit [DecidableEq A] in
theorem take_set {l : List UInt8} (h : i < l.length) :
    (l.set i c).take (i + 1) = l.take i ++ [c] := by
  rw [List.take_succ_eq_append_getElem (by simpa using h), List.getElem_set_self,
    List.take_set_of_le le_rfl]

omit [DecidableEq A] in
/-- One more byte behind those that have been written. -/
theorem set_overwrite {l : List UInt8} (h : i + bytes.length < l.length) :
    (overwrite l i bytes).set (i + bytes.length) c = overwrite l i (bytes ++ [c]) := by
  have hlen : (l.take i ++ bytes).length = i + bytes.length := by
    rw [List.length_append, List.length_take, Nat.min_eq_left (by omega)]
  have hdrop : l.drop (i + bytes.length) =
      l[i + bytes.length] :: l.drop (i + bytes.length + 1) := List.drop_eq_getElem_cons h
  unfold overwrite
  rw [List.set_append_right _ _ hlen.le, hlen, Nat.sub_self, hdrop, List.set_cons_zero,
    List.length_append, List.length_singleton, ← Nat.add_assoc]
  simp

omit [DecidableEq A] in
/-- One more byte in front of those that will be written. -/
theorem overwrite_set {l : List UInt8} (h : i < l.length) :
    overwrite (l.set i c) (i + 1) bytes = overwrite l i (c :: bytes) := by
  have htake : (l.set i c).take (i + 1) = l.take i ++ [c] := take_set h
  have hdrop : (l.set i c).drop (i + 1 + bytes.length) = l.drop (i + 1 + bytes.length) :=
    List.drop_set_of_lt (by omega)
  rw [overwrite, overwrite, htake, hdrop, List.length_cons]
  simp [Nat.add_comm, Nat.add_left_comm]

omit [DecidableEq A] in
theorem overwrite_singleton {l : List UInt8} (h : i < l.length) :
    overwrite l i [c] = l.set i c := by
  rw [← overwrite_set h, overwrite, List.length_nil, Nat.add_zero, List.append_nil,
    List.take_append_drop]

/-- The array holds the string `s` at `p`. -/
def HoldsString (l : List UInt8) (p : Nat) (s : List UInt8) : Prop :=
  0 ∉ s ∧ ∃ rest, l.drop p = s ++ 0 :: rest

/-- A string at the start of the array. -/
theorem holds_string_start {rest : List UInt8} (hzero : 0 ∉ s) :
    HoldsString (s ++ 0 :: rest) 0 s :=
  ⟨hzero, rest, rfl⟩

/-- A string behind some bytes of the array. -/
theorem holds_string_behind {rest : List UInt8} (hzero : 0 ∉ s) (hp : p = before.length) :
    HoldsString (before ++ (s ++ 0 :: rest)) p s := by
  refine ⟨hzero, rest, ?_⟩
  rw [hp]
  exact List.drop_left

/-- An array holds one string at a place. -/
theorem HoldsString.unique {l s' : List UInt8} (h : HoldsString l p s) (h' : HoldsString l p s') :
    s = s' := by
  obtain ⟨hzero, rest, hdrop⟩ := h
  obtain ⟨hzero', rest', hdrop'⟩ := h'
  have hcstr : cstr (s ++ 0 :: rest) = s := cstr_append_zero hzero
  rw [← hcstr, ← hdrop, hdrop', cstr_append_zero hzero']

theorem HoldsString.zero_not_mem {l : List UInt8} (h : HoldsString l p s) : 0 ∉ s := h.1

/-- The first byte of a string, and the string behind it. -/
theorem HoldsString.cons {l : List UInt8} (h : HoldsString l p (c :: s)) :
    l[p]? = some c ∧ c ≠ 0 ∧ HoldsString l (p + 1) s := by
  obtain ⟨hzero, rest, hdrop⟩ := h
  simp only [List.mem_cons, not_or] at hzero
  refine ⟨?_, Ne.symm hzero.1, hzero.2, rest, ?_⟩
  · have hhead : (l.drop p)[0]? = some c := by
      rw [hdrop]
      rfl
    rwa [List.getElem?_drop] at hhead
  · rw [← List.drop_drop, hdrop]
    rfl

/-- The terminator of an empty string. -/
theorem HoldsString.nil {l : List UInt8} (h : HoldsString l p []) : l[p]? = some 0 := by
  obtain ⟨_, rest, hdrop⟩ := h
  have hhead : (l.drop p)[0]? = some 0 := by
    rw [hdrop]
    rfl
  rwa [List.getElem?_drop] at hhead

/-- A string is a string from any of its bytes on. -/
theorem HoldsString.suffix {l s' : List UInt8} (h : HoldsString l p (s ++ s')) :
    HoldsString l (p + s.length) s' := by
  obtain ⟨hzero, rest, hdrop⟩ := h
  refine ⟨fun hmem => hzero (List.mem_append_right _ hmem), rest, ?_⟩
  rw [← List.drop_drop, hdrop, List.append_assoc, List.drop_left]

/-- An array with a zero in it holds a string at its start. -/
theorem holds_string_cstr {l rest : List UInt8} (h : l = before ++ 0 :: rest) :
    HoldsString l 0 (cstr before) := by
  refine ⟨zero_not_mem_cstr, ?_⟩
  have hsplit : before = cstr before ++ before.dropWhile (· ≠ 0) :=
    List.takeWhile_append_dropWhile.symm
  cases htail : before.dropWhile (· ≠ 0) with
  | nil =>
      rw [htail, List.append_nil] at hsplit
      exact ⟨rest, by rw [List.drop_zero, h, ← hsplit]⟩
  | cons x xs =>
      have hx : x = 0 := by
        have hstop := List.head?_dropWhile_not (fun x => decide (x ≠ 0)) before
        rw [htail] at hstop
        simpa using hstop
      refine ⟨xs ++ 0 :: rest, ?_⟩
      rw [htail, hx] at hsplit
      rw [List.drop_zero, h]
      conv_lhs => rw [hsplit]
      simp

section Rules

variable {E : Fault A → Arrays A → Prop}

omit [DecidableEq A] in
theorem wp_load {Q : UInt8 → Arrays A → Prop} (h : (m a)[i]? = some c) (hQ : Q c m) :
    wp (load a i) Q E m := by
  unfold wp load
  rw [h]
  exact hQ

omit [DecidableEq A] in
/-- The byte that a string starts with, or its terminator. -/
theorem wp_load_head {Q : UInt8 → Arrays A → Prop} (h : HoldsString (m a) p s)
    (hQ : Q (s.head?.getD 0) m) : wp (load a p) Q E m := by
  cases s with
  | nil => exact wp_load h.nil hQ
  | cons c s => exact wp_load h.cons.1 hQ

theorem wp_store {Q : Unit → Arrays A → Prop} (h : i < (m a).length)
    (hQ : Q () (Function.update m a ((m a).set i c))) : wp (store a i c) Q E m := by
  unfold wp store
  rw [if_pos h]
  exact hQ

/-- A store between known bytes. -/
theorem wp_store_at {Q : Unit → Arrays A → Prop} {x : UInt8} (h : m a = before ++ x :: behind)
    (hi : i = before.length) (hQ : Q () (Function.update m a (before ++ c :: behind))) :
    wp (store a i c) Q E m := by
  refine wp_store ?_ ?_
  · rw [h, hi]
    simp
  · have hset : (m a).set i c = before ++ c :: behind := by
      rw [h, hi, List.set_append_right _ _ le_rfl]
      simp
    rw [hset]
    exact hQ

omit [DecidableEq A] in
theorem wp_string_at {Q : List UInt8 → Arrays A → Prop} (h : HoldsString (m a) p s)
    (hQ : Q s m) : wp (stringAt a p) Q E m := by
  obtain ⟨hzero, rest, hdrop⟩ := h
  unfold wp stringAt
  rw [hdrop, skip_string_append hzero]
  exact hQ

omit [DecidableEq A] in
theorem wp_strlen {Q : Nat → Arrays A → Prop} (h : HoldsString (m a) p s) (hQ : Q s.length m) :
    wp (strlen a p) Q E m := by
  unfold strlen
  rw [wp_bind]
  exact wp_string_at h hQ

/-- `strchr` searches the string that its pointer holds. -/
theorem strchr_string {rest : List UInt8} (hc : c ≠ 0) (hzero : 0 ∉ s) :
    strchr c (s ++ 0 :: rest) =
      some ((cut c s).map fun found => (found.1, found.2 ++ 0 :: rest)) := by
  induction s with
  | nil => exact strchr_empty hc
  | cons x xs ih =>
      simp only [List.mem_cons, not_or] at hzero
      rw [List.cons_append, strchr, cut]
      by_cases hx : x = c
      · simp [hx]
      · rw [if_neg hx, if_neg hx, if_neg (Ne.symm hzero.1), ih hzero.2]
        cases cut c xs <;> rfl

omit [DecidableEq A] in
theorem wp_strchr_at {Q : Option Nat → Arrays A → Prop} (hc : c ≠ 0) (h : HoldsString (m a) p s)
    (hQ : Q ((cut c s).map fun found => p + found.1.length) m) : wp (strchrAt a p c) Q E m := by
  obtain ⟨hzero, rest, hdrop⟩ := h
  unfold wp strchrAt
  rw [hdrop, strchr_string hc hzero]
  cases hcut : cut c s with
  | none =>
      rw [hcut] at hQ
      exact hQ
  | some found =>
      rw [hcut] at hQ
      exact hQ

/-- Bytes go where they are put, if they fit. -/
theorem wp_store_bytes {Q : Unit → Arrays A → Prop} (hi : i ≤ (m a).length)
    (hfit : i + bytes.length ≤ (m a).length →
      Q () (Function.update m a (overwrite (m a) i bytes)))
    (hover : (m a).length < i + bytes.length → ∀ j t, E (.overrun a j) t) :
    wp (storeBytes a i bytes) Q E m := by
  induction bytes generalizing i m with
  | nil =>
      have hsame : overwrite (m a) i [] = m a := by
        simp [overwrite]
      have hdone := hfit hi
      rw [hsame, Function.update_eq_self] at hdone
      exact hdone
  | cons c bytes ih =>
      rw [storeBytes, wp_bind]
      by_cases hlt : i < (m a).length
      · refine wp_store hlt (ih ?_ ?_ ?_)
        · rw [Function.update_self, List.length_set]
          exact hlt
        · intro hroom
          rw [Function.update_self, List.length_set] at hroom
          have hdone := hfit (by simp only [List.length_cons]; omega)
          rw [Function.update_self, Function.update_idem, overwrite_set hlt]
          exact hdone
        · intro hfull
          rw [Function.update_self, List.length_set] at hfull
          exact hover (by simp only [List.length_cons]; omega)
      · unfold wp store
        rw [if_neg hlt]
        exact hover (by simp only [List.length_cons]; omega) i m

/-- `sprintf` runs off its array exactly when the text and its terminator do not fit. -/
theorem wp_sprintf {Q : Nat → Arrays A → Prop} {fmt : List UInt8} (h : HoldsString (m b) p s)
    (hi : i ≤ (m a).length)
    (hfit : i + fmt.length + s.length + 1 ≤ (m a).length →
      Q (fmt.length + s.length) (Function.update m a (overwrite (m a) i (fmt ++ s ++ [0]))))
    (hover : (m a).length < i + fmt.length + s.length + 1 → ∀ j t, E (.overrun a j) t) :
    wp (sprintf a i fmt b p) Q E m := by
  have hlength : (fmt ++ s ++ [0]).length = fmt.length + s.length + 1 := by
    simp [Nat.add_assoc]
  unfold sprintf
  rw [wp_bind]
  refine wp_string_at h ?_
  rw [wp_bind]
  refine wp_store_bytes hi ?_ ?_
  · intro hroom
    rw [hlength] at hroom
    exact hfit (by omega)
  · intro hfull
    rw [hlength] at hfull
    exact hover (by omega)

end Rules

end CArray

end Labs
