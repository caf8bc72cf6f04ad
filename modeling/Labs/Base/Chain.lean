import Mathlib.Data.List.Nodup
import Mathlib.Logic.Function.Basic

/-!
# Singly linked lists threaded through a table

A table of records, each with a link to another record, together with a head, is a singly
linked list when following the links from the head ends. `Chain next head l` says that it
ends and that `l` lists the records visited, in order. A chain has no cycle, so it visits no
record twice (`Chain.nodup`). Pushing and popping at the head are the two updates a free list
needs.
-/

namespace Labs

variable {α : Type}

/-- Following `next` from `head` visits exactly the elements of `l`, in order, and ends. -/
def Chain (next : α → Option α) : Option α → List α → Prop
  | head, [] => head = none
  | head, a :: l => head = some a ∧ Chain next (next a) l

namespace Chain

variable {next next' : α → Option α} {head : Option α} {l l' : List α}

@[simp] theorem nil_iff : Chain next head [] ↔ head = none := Iff.rfl

@[simp] theorem cons_iff {a : α} : Chain next head (a :: l) ↔
    head = some a ∧ Chain next (next a) l := Iff.rfl

/-- A chain depends only on the links of its own members. -/
theorem congr (h : Chain next head l) (heq : ∀ a ∈ l, next' a = next a) :
    Chain next' head l := by
  induction l generalizing head with
  | nil => exact h
  | cons a l ih =>
      obtain ⟨hhead, htail⟩ := h
      refine ⟨hhead, ?_⟩
      rw [heq a List.mem_cons_self]
      exact ih htail fun b hb => heq b (List.mem_cons_of_mem a hb)

/-- The links and the head determine the list. -/
theorem unique (h : Chain next head l) (h' : Chain next head l') : l = l' := by
  induction l generalizing head l' with
  | nil =>
      cases l' with
      | nil => rfl
      | cons b l' => exact absurd (h.symm.trans h'.1) (by simp)
  | cons a l ih =>
      cases l' with
      | nil => exact absurd (h.1.symm.trans h') (by simp)
      | cons b l' =>
          have hab : a = b := Option.some.inj (h.1.symm.trans h'.1)
          subst hab
          rw [ih h.2 h'.2]

/-- The part of a chain from one of its members on. -/
theorem suffix {a : α} (h : Chain next head l) (ha : a ∈ l) :
    ∃ front back, l = front ++ a :: back ∧ Chain next (next a) back := by
  induction l generalizing head with
  | nil => exact absurd ha List.not_mem_nil
  | cons b l ih =>
      rcases List.mem_cons.mp ha with rfl | ha
      · exact ⟨[], l, rfl, h.2⟩
      · obtain ⟨front, back, rfl, hback⟩ := ih h.2 ha
        exact ⟨b :: front, back, rfl, hback⟩

/-- A chain visits no element twice: a second visit would make its tail infinite. -/
theorem nodup (h : Chain next head l) : l.Nodup := by
  induction l generalizing head with
  | nil => exact List.nodup_nil
  | cons a l ih =>
      refine List.nodup_cons.mpr ⟨fun ha => ?_, ih h.2⟩
      obtain ⟨front, back, hl, hback⟩ := suffix h.2 ha
      have hlen := congrArg List.length (unique h.2 hback)
      rw [hl] at hlen
      simp at hlen
      omega

variable [DecidableEq α]

/-- Push a record that is not yet on the list. -/
theorem push {a : α} (h : Chain next head l) (ha : a ∉ l) :
    Chain (Function.update next a head) (some a) (a :: l) := by
  refine ⟨rfl, ?_⟩
  rw [Function.update_self]
  refine h.congr fun b hb => Function.update_of_ne ?_ _ _
  rintro rfl
  exact ha hb

/-- Pop the first record and clear or keep its link. -/
theorem pop {a : α} (h : Chain next (some a) l) (link : Option α) :
    ∃ rest, l = a :: rest ∧ Chain (Function.update next a link) (next a) rest := by
  cases l with
  | nil => exact absurd h (by simp)
  | cons b rest =>
      obtain ⟨hb, hrest⟩ := h
      cases hb
      have hchain : Chain next (some a) (a :: rest) := ⟨rfl, hrest⟩
      refine ⟨rest, rfl, hrest.congr fun b hb => Function.update_of_ne ?_ _ _⟩
      rintro rfl
      exact (List.nodup_cons.mp hchain.nodup).1 hb

end Chain

end Labs
