import Mathlib.Data.Finset.Card
import Mathlib.Logic.Function.Basic

/-!
# Counting the indices that a partial map sends to a value

A table of references is a partial map from places to referents. The number of references to
`p` is the size of its fibre, `fiberCard`. Changing the map at one place changes the fibres of
the old and the new value only, each by one (`fiber_card_update`). Reference counting is this
lemma.
-/

namespace Labs

variable {ι κ : Type} [DecidableEq ι] [DecidableEq κ]

/-- The number of places in `places` that `f` maps to `p`. -/
def fiberCard (places : Finset ι) (f : ι → Option κ) (p : κ) : Nat :=
  (places.filter fun i => f i = some p).card

variable {places : Finset ι} {f g : ι → Option κ} {p : κ}

omit [DecidableEq ι] in
/-- The count depends only on the map at the counted places. -/
theorem fiber_card_congr (h : ∀ i ∈ places, f i = g i) :
    fiberCard places f p = fiberCard places g p := by
  unfold fiberCard
  congr 1
  exact Finset.filter_congr fun i hi => by rw [h i hi]

omit [DecidableEq ι] in
/-- A value some place refers to has a positive count. -/
theorem fiber_card_pos {i : ι} (hi : i ∈ places) (h : f i = some p) :
    0 < fiberCard places f p :=
  Finset.card_pos.mpr ⟨i, Finset.mem_filter.mpr ⟨hi, h⟩⟩

omit [DecidableEq ι] in
/-- A positive count is witnessed by a place. -/
theorem exists_of_fiber_card_pos (h : 0 < fiberCard places f p) :
    ∃ i ∈ places, f i = some p := by
  obtain ⟨i, hi⟩ := Finset.card_pos.mp h
  exact ⟨i, (Finset.mem_filter.mp hi).1, (Finset.mem_filter.mp hi).2⟩

omit [DecidableEq ι] in
/-- A value no place refers to has count zero. -/
theorem fiber_card_eq_zero (h : ∀ i ∈ places, f i ≠ some p) : fiberCard places f p = 0 := by
  unfold fiberCard
  rw [Finset.card_eq_zero, Finset.filter_eq_empty_iff]
  exact fun {i} hi => h i hi

/-- The count at one place less is the count of the other places. -/
theorem fiber_card_erase {i : ι} (hi : i ∈ places) :
    fiberCard places f p = fiberCard (places.erase i) f p + if f i = some p then 1 else 0 := by
  unfold fiberCard
  conv_lhs => rw [← Finset.insert_erase hi, Finset.filter_insert]
  split
  · rw [Finset.card_insert_of_notMem]
    simp
  · rfl

/-- Changing the map at one place moves one reference from the old value to the new one. -/
theorem fiber_card_update {i : ι} (hi : i ∈ places) (v : Option κ) :
    fiberCard places (Function.update f i v) p + (if f i = some p then 1 else 0)
      = fiberCard places f p + if v = some p then 1 else 0 := by
  have hrest : fiberCard (places.erase i) (Function.update f i v) p =
      fiberCard (places.erase i) f p :=
    fiber_card_congr fun j hj => Function.update_of_ne (Finset.ne_of_mem_erase hj) _ _
  rw [fiber_card_erase hi, fiber_card_erase hi (f := f), hrest, Function.update_self]
  omega

end Labs
