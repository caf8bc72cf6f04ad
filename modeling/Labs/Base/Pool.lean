import Mathlib.Data.Multiset.Count
import Mathlib.Data.Finset.Card
import Mathlib.Logic.Function.Basic

/-!
# Pools of slots

A pool marks the slots that are in use, and each slot in use should have one owner who will give
it back. Owners that leave without giving their slot back leak it: the mark stays for ever.
-/

namespace Labs

/-- The marks of a pool, and the slots that somebody will give back. -/
structure Pool (ι : Type) where
  used : ι → Bool
  owners : Multiset ι

namespace Pool

variable {ι : Type} [DecidableEq ι] {p p' : Pool ι} {i : ι}

/-- Somebody takes a slot. -/
def take (p : Pool ι) (i : ι) : Pool ι := ⟨Function.update p.used i true, i ::ₘ p.owners⟩

/-- The owner of a slot gives it back. -/
def give (p : Pool ι) (i : ι) : Pool ι := ⟨Function.update p.used i false, p.owners.erase i⟩

/-- The owner of a slot leaves without giving it back. -/
def drop (p : Pool ι) (i : ι) : Pool ι := ⟨p.used, p.owners.erase i⟩

theorem used_take_self (p : Pool ι) (i : ι) : (p.take i).used i = true := by
  simp [take]

theorem used_take_of_ne (p : Pool ι) {i j : ι} (h : j ≠ i) : (p.take i).used j = p.used j := by
  simp [take, h]

theorem used_give_self (p : Pool ι) (i : ι) : (p.give i).used i = false := by
  simp [give]

theorem used_give_of_ne (p : Pool ι) {i j : ι} (h : j ≠ i) : (p.give i).used j = p.used j := by
  simp [give, h]

/-- The ways in which a pool should change. -/
inductive Move (p : Pool ι) : Pool ι → Prop
  | keep : Move p p
  | take (i : ι) (h : p.used i = false) : Move p (p.take i)
  | give (i : ι) (h : i ∈ p.owners) : Move p (p.give i)

/-- No slot has two owners, and the slots with an owner are in use. -/
structure Sound (p : Pool ι) : Prop where
  nodup : p.owners.Nodup
  used : ∀ i ∈ p.owners, p.used i = true

/-- The slot is in use and nobody will give it back. -/
def Leaked (p : Pool ι) (i : ι) : Prop := p.used i = true ∧ i ∉ p.owners

theorem Sound.move (h : Sound p) (hmove : Move p p') : Sound p' := by
  cases hmove with
  | keep => exact h
  | take i hfree =>
      have hnew : i ∉ p.owners := fun hmem => by simp [h.used i hmem] at hfree
      refine ⟨Multiset.nodup_cons.2 ⟨hnew, h.nodup⟩, ?_⟩
      intro j hj
      by_cases hji : j = i
      · rw [hji, used_take_self]
      · rw [used_take_of_ne p hji]
        exact h.used j ((Multiset.mem_cons.1 hj).resolve_left hji)
  | give i hmem =>
      refine ⟨h.nodup.erase i, ?_⟩
      intro j hj
      have hji : j ≠ i := (h.nodup.mem_erase_iff.1 hj).1
      rw [used_give_of_ne p hji]
      exact h.used j (Multiset.mem_of_mem_erase hj)

theorem Sound.drop (h : Sound p) (i : ι) : Sound (p.drop i) :=
  ⟨h.nodup.erase i, fun j hj => h.used j (Multiset.mem_of_mem_erase hj)⟩

/-- A slot whose owner has left without giving it back leaks. -/
theorem leaked_drop (h : Sound p) (hmem : i ∈ p.owners) : Leaked (p.drop i) i :=
  ⟨h.used i hmem, h.nodup.notMem_erase⟩

/-- A leaked slot stays leaked. -/
theorem Leaked.move (h : Leaked p i) (hmove : Move p p') : Leaked p' i := by
  cases hmove with
  | keep => exact h
  | take j hfree =>
      have hij : i ≠ j := fun heq => by simp [← heq, h.1] at hfree
      refine ⟨?_, ?_⟩
      · rw [used_take_of_ne p hij]
        exact h.1
      · intro hmem
        exact h.2 ((Multiset.mem_cons.1 hmem).resolve_left hij)
  | give j hmem =>
      have hij : i ≠ j := fun heq => h.2 (heq ▸ hmem)
      refine ⟨?_, fun hi => h.2 (Multiset.mem_of_mem_erase hi)⟩
      rw [used_give_of_ne p hij]
      exact h.1

theorem Leaked.drop (h : Leaked p i) (j : ι) : Leaked (p.drop j) i :=
  ⟨h.1, fun hi => h.2 (Multiset.mem_of_mem_erase hi)⟩

/-- A pool that changes as it should leaks nothing. -/
theorem Move.not_leaked (hmove : Move p p') (h : ∀ i, ¬ Leaked p i) (i : ι) :
    ¬ Leaked p' i := by
  intro hleak
  cases hmove with
  | keep => exact h i hleak
  | take j hfree =>
      have hij : i ≠ j := fun heq => hleak.2 (heq ▸ Multiset.mem_cons_self i p.owners)
      refine h i ⟨?_, fun hmem => hleak.2 (Multiset.mem_cons_of_mem hmem)⟩
      have hused := hleak.1
      rwa [used_take_of_ne p hij] at hused
  | give j hmem =>
      have hij : i ≠ j := by
        intro heq
        have hused := hleak.1
        rw [heq, used_give_self] at hused
        cases hused
      refine h i ⟨?_, fun hi => hleak.2 ((Multiset.mem_erase_of_ne hij).2 hi)⟩
      have hused := hleak.1
      rwa [used_give_of_ne p hij] at hused

omit [DecidableEq ι] in
/-- In a pool that leaks nothing, the slots in use are those with an owner. -/
theorem used_iff (hsound : Sound p) (hleak : ¬ Leaked p i) : p.used i = true ↔ i ∈ p.owners :=
  ⟨fun hused => by_contra fun hmem => hleak ⟨hused, hmem⟩, hsound.used i⟩

/-- When a pool that leaks nothing is full, there are as many owners as slots. -/
theorem card_le (slots : Finset ι) (hsound : Sound p) (hleak : ∀ i, ¬ Leaked p i)
    (hfull : ∀ i ∈ slots, p.used i = true) : slots.card ≤ p.owners.card := by
  have hsub : slots ⊆ p.owners.toFinset := by
    intro i hi
    exact Multiset.mem_toFinset.2 ((used_iff hsound (hleak i)).1 (hfull i hi))
  exact (Finset.card_le_card hsub).trans (Multiset.toFinset_card_le p.owners)

end Pool

end Labs
