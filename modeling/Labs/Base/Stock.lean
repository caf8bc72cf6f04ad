import Mathlib.Data.List.FinRange
import Mathlib.Data.List.Nodup
import Mathlib.Logic.Function.Basic

/-!
# Tables with a list of their free entries

A table of entries, each of which is marked free or in use, and a list that should hold the free
ones. Entries are taken from the head of the list and go back to its head.
-/

namespace Labs

/-- The entries of a table and the list of the free ones. -/
structure Stock (ι α : Type) where
  entry : ι → α
  free : List ι

namespace Stock

variable {ι α : Type} [DecidableEq ι]

/-- Overwrite an entry. -/
def set (t : Stock ι α) (i : ι) (x : α) : Stock ι α :=
  { t with entry := Function.update t.entry i x }

/-- Put an entry at the head of the list. -/
def insertHead (t : Stock ι α) (i : ι) : Stock ι α := { t with free := i :: t.free }

/-- A table of equal entries, put on the list one after the other. -/
def full (n : Nat) (x : α) : Stock (Fin n) α where
  entry := fun _ => x
  free := (List.finRange n).reverse

/-- The list holds exactly the entries that are marked free, each once. -/
structure Books (freed : α → Bool) (t : Stock ι α) : Prop where
  nodup : t.free.Nodup
  mem_iff : ∀ i, i ∈ t.free ↔ freed (t.entry i) = true

variable {t : Stock ι α} {freed : α → Bool} {i : ι} {rest : List ι} {x : α}

@[simp] theorem entry_set_self (t : Stock ι α) (i : ι) (x : α) : (t.set i x).entry i = x := by
  simp [set]

theorem entry_set_of_ne (t : Stock ι α) {i j : ι} (h : j ≠ i) (x : α) :
    (t.set i x).entry j = t.entry j := by
  simp [set, h]

@[simp] theorem free_set (t : Stock ι α) (i : ι) (x : α) : (t.set i x).free = t.free := rfl

theorem length_full (n : Nat) (x : α) : (full n x).free.length = n := by
  simp [full]

theorem books_full (n : Nat) (hx : freed x = true) : Books freed (full n x) where
  nodup := List.nodup_reverse.mpr (List.nodup_finRange n)
  mem_iff i := by simp [full, hx]

omit [DecidableEq ι] in
/-- The head of the list is marked free. -/
theorem Books.head (h : Books freed t) (hfree : t.free = i :: rest) : freed (t.entry i) = true :=
  (h.mem_iff i).mp (hfree ▸ List.mem_cons_self)

/-- Take the head of the list and mark it as used. -/
theorem Books.take (h : Books freed t) (hfree : t.free = i :: rest) (hx : freed x = false) :
    Books freed ({ t with free := rest }.set i x) := by
  have hnodup := h.nodup
  rw [hfree, List.nodup_cons] at hnodup
  refine ⟨hnodup.2, fun j => ?_⟩
  rw [free_set]
  by_cases hj : j = i
  · subst hj
    rw [entry_set_self, hx]
    simp [hnodup.1]
  · rw [entry_set_of_ne _ hj, ← h.mem_iff j, hfree]
    simp [hj]

/-- Mark an entry that is in use as free and put it on the list. -/
theorem Books.give (h : Books freed t) (hused : freed (t.entry i) = false) (hx : freed x = true) :
    Books freed ((t.set i x).insertHead i) := by
  have hnew : i ∉ t.free := by
    rw [h.mem_iff, hused]
    simp
  refine ⟨List.nodup_cons.mpr ⟨hnew, h.nodup⟩, fun j => ?_⟩
  show j ∈ i :: t.free ↔ freed ((t.set i x).entry j) = true
  by_cases hj : j = i
  · subst hj
    rw [entry_set_self, hx]
    simp
  · rw [entry_set_of_ne _ hj, ← h.mem_iff j]
    simp [hj]

/-- Overwrite an entry without a change of its mark. -/
theorem Books.set_same (h : Books freed t) (hx : freed x = freed (t.entry i)) :
    Books freed (t.set i x) := by
  refine ⟨h.nodup, fun j => ?_⟩
  rw [free_set, h.mem_iff]
  by_cases hj : j = i
  · subst hj
    rw [entry_set_self, hx]
  · rw [entry_set_of_ne _ hj]

end Stock

end Labs
