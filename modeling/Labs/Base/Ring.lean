import Mathlib.Data.Nat.ModEq

/-!
# Rings of slots

A producer and a consumer share a ring of `n` slots. Items are numbered from zero in the order
in which they enter, and item `j` lies in slot `j % n`. Between them the two indices leave a
window of at most `n` items, so that two items of the window never share a slot.
-/

namespace Labs

/-- The items numbered from `lo` on lie in their slots: `holds i x` says that slot `i` holds the
item `x`. -/
def RingHolds {α : Type} (n : Nat) (holds : Nat → α → Prop) (items : List α) (lo : Nat) : Prop :=
  ∀ j item, lo ≤ j → items[j]? = some item → holds (j % n) item

/-- Two items less than a lap apart lie in different slots. -/
theorem ring_slot_ne {n i j : Nat} (hlt : i < j) (hlap : j < i + n) : i % n ≠ j % n := by
  intro heq
  have hdvd : n ∣ j - i := (Nat.modEq_iff_dvd' (Nat.le_of_lt hlt)).1 heq
  have hle := Nat.le_of_dvd (by omega) hdvd
  omega

namespace RingHolds

variable {α : Type} {n lo : Nat} {holds holds' : Nat → α → Prop} {items : List α}

/-- Nothing lies in a ring that no item has entered. -/
theorem nil : RingHolds n holds [] lo := by
  intro j item _ hitem
  simp at hitem

/-- The next slot may change freely while the window is shorter than a lap. -/
theorem edit_next (h : RingHolds n holds items lo) (hlap : items.length < lo + n)
    (hkeep : ∀ i item, i ≠ items.length % n → holds i item → holds' i item) :
    RingHolds n holds' items lo := by
  intro j item hlo hitem
  have hj : j < items.length := (List.getElem?_eq_some_iff.1 hitem).1
  exact hkeep _ item (ring_slot_ne hj (by omega)) (h j item hlo hitem)

/-- An item enters at the next slot. -/
theorem push {x : α} (h : RingHolds n holds items lo) (hx : holds (items.length % n) x) :
    RingHolds n holds (items ++ [x]) lo := by
  intro j item hlo hitem
  rcases Nat.lt_trichotomy j items.length with hlt | heq | hgt
  · rw [List.getElem?_append_left hlt] at hitem
    exact h j item hlo hitem
  · subst heq
    rw [List.getElem?_append_right le_rfl] at hitem
    simp only [Nat.sub_self, List.getElem?_cons_zero, Option.some.injEq] at hitem
    exact hitem ▸ hx
  · rw [List.getElem?_eq_none (by simp; omega)] at hitem
    cases hitem

/-- The oldest item leaves, and its slot may change. -/
theorem pop (h : RingHolds n holds items lo) (hlap : items.length ≤ lo + n)
    (hkeep : ∀ i item, i ≠ lo % n → holds i item → holds' i item) :
    RingHolds n holds' items (lo + 1) := by
  intro j item hlo hitem
  have hj : j < items.length := (List.getElem?_eq_some_iff.1 hitem).1
  have hne : lo % n ≠ j % n := ring_slot_ne hlo (by omega)
  exact hkeep _ item (Ne.symm hne) (h j item (by omega) hitem)

end RingHolds

end Labs
