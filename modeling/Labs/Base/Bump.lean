import Mathlib.Algebra.Order.Group.Nat
import Mathlib.Data.List.Count
import Mathlib.Logic.Function.Basic

/-!
# Bump allocation in counted pages

A bump allocator cuts blocks off at a pointer that moves through pages of `P` bytes. A run of
pages is opened for a block, and later blocks share its last page as long as they fit. The last
`slot` bytes of that page hold the number of its users: the blocks that end in the page, and the
pointer while it stands inside it. A page whose count reaches zero is unmapped.

`Sound` says that the blocks lie in mapped pages, apart from each other and from the counts, and
that no page has more users than its count says. `Tight` says that no count is too large, so that
a page without users is unmapped.
-/

namespace Labs

/-- A block of memory. -/
structure Block where
  start : Nat
  size : Nat
  deriving DecidableEq

namespace Block

/-- The end of a block. -/
def stop (b : Block) : Nat := b.start + b.size

/-- The page of the first byte. -/
def first (P : Nat) (b : Block) : Nat := b.start / P

/-- The page that has room for the count after the last byte. -/
def last (P slot : Nat) (b : Block) : Nat := (b.stop + slot - 1) / P

/-- The blocks do not overlap, and share at most the last page of one of them. -/
def Apart (P slot : Nat) (b b' : Block) : Prop :=
  (b.stop ≤ b'.start ∨ b'.stop ≤ b.start) ∧
    (b.last P slot ≤ b'.first P ∨ b'.last P slot ≤ b.first P)

theorem Apart.symm {P slot : Nat} {b b' : Block} (h : Apart P slot b b') : Apart P slot b' b :=
  ⟨h.1.symm, h.2.symm⟩

theorem first_le_last {P slot : Nat} (hslot : 0 < slot) (b : Block) :
    b.first P ≤ b.last P slot :=
  Nat.div_le_div_right (by unfold stop; omega)

end Block

/-- The pages of an allocator: `page p` is `none` if page `p` is not mapped, and otherwise says
whether its run goes on in the next page; `count p` is the count in page `p`. -/
structure Bump where
  ptr : Nat
  page : Nat → Option Bool
  count : Nat → Nat

namespace Bump

variable {P slot : Nat} {s : Bump} {live : List Block} {a m p : Nat} {b : Block}

/-- The number of blocks that end in page `p`. -/
def users (P slot : Nat) (live : List Block) (p : Nat) : Nat :=
  live.countP fun b => b.last P slot = p

/-- The pointer stands inside page `p`. -/
def Inside (P : Nat) (s : Bump) (p : Nat) : Prop := s.ptr % P ≠ 0 ∧ s.ptr / P = p

instance (P : Nat) (s : Bump) (p : Nat) : Decidable (Inside P s p) :=
  inferInstanceAs (Decidable (_ ∧ _))

/-- Blocks lie apart in mapped pages, and no page has more users than its count says. -/
structure Sound (P slot : Nat) (s : Bump) (live : List Block) : Prop where
  body : ∀ b ∈ live, ∀ p, b.first P ≤ p → p < b.last P slot → s.page p = some true
  tail : ∀ b ∈ live, s.page (b.last P slot) = some false
  apart : live.Pairwise (Block.Apart P slot)
  below : ∀ b ∈ live, Inside P s (b.last P slot) → b.stop ≤ s.ptr
  open' : s.ptr % P ≠ 0 → s.page (s.ptr / P) = some false
  count : ∀ p, s.page p = some false →
    users P slot live p + (if Inside P s p then 1 else 0) ≤ s.count p

/-- Every mapped page has a user, and only the page of the pointer may count one that is gone. -/
structure Tight (P slot : Nat) (s : Bump) (live : List Block) : Prop where
  body : ∀ p, s.page p = some true → ∃ b ∈ live, b.first P ≤ p ∧ p < b.last P slot
  tail : ∀ p, s.page p = some false → 0 < s.count p ∧
    (p ≠ s.ptr / P → s.count p = users P slot live p) ∧
    s.count p ≤ users P slot live p + 1

/-- Every mapped page counts the blocks that end in it, and nothing else. -/
structure Exact (P slot : Nat) (s : Bump) (live : List Block) : Prop where
  body : ∀ p, s.page p = some true → ∃ b ∈ live, b.first P ≤ p ∧ p < b.last P slot
  tail : ∀ p, s.page p = some false → 0 < s.count p ∧ s.count p = users P slot live p

theorem Exact.tight (h : Exact P slot s live) : Tight P slot s live :=
  ⟨h.body, fun p hp => ⟨(h.tail p hp).1, fun _ => (h.tail p hp).2, by rw [(h.tail p hp).2]; omega⟩⟩

/-- When no block is left, only the page of the pointer is mapped. -/
theorem Tight.only_pointer (h : Tight P slot s []) (hp : s.page p ≠ none) : p = s.ptr / P := by
  cases hpage : s.page p with
  | none => exact absurd hpage hp
  | some goes =>
      cases goes with
      | true =>
          obtain ⟨b, hb, -⟩ := h.body p hpage
          exact absurd hb List.not_mem_nil
      | false =>
          by_contra hne
          obtain ⟨hpos, hcount, -⟩ := h.tail p hpage
          rw [hcount hne] at hpos
          exact absurd hpos (by simp [users])

/-! ## Operations -/

/-- Put the pointer elsewhere. -/
def turn (s : Bump) (a : Nat) : Bump := { s with ptr := a }

/-- Cut a block of `m` bytes off in the page of the pointer. -/
def carve (P : Nat) (s : Bump) (m : Nat) : Bump :=
  { s with
    ptr := s.ptr + m
    count := Function.update s.count (s.ptr / P) (s.count (s.ptr / P) + 1) }

/-- Open a run of pages for the block `b`, and put the pointer behind it. -/
def openRun (P slot : Nat) (s : Bump) (b : Block) : Bump where
  ptr := b.stop
  page := fun p =>
    if b.first P ≤ p ∧ p < b.last P slot then some true
    else if p = b.last P slot then some false
    else s.page p
  count := Function.update s.count (b.last P slot) 2

/-- One user of page `p` leaves. -/
def release (s : Bump) (p : Nat) : Bump where
  ptr := s.ptr
  page := if s.count p - 1 = 0 then Function.update s.page p none else s.page
  count := Function.update s.count p (s.count p - 1)

/-- Unmap the pages of `b` but the last, and leave that one. -/
def free (P slot : Nat) (s : Bump) (b : Block) : Bump :=
  release { s with
    page := fun p => if b.first P ≤ p ∧ p < b.last P slot then none else s.page p }
    (b.last P slot)

/-- The pointer stands at the start of a page that counts it. -/
def Stranded (P slot : Nat) (s : Bump) (live : List Block) : Prop :=
  s.ptr % P = 0 ∧ s.page (s.ptr / P) = some false ∧
    s.count (s.ptr / P) ≠ users P slot live (s.ptr / P)

/-! ## Users -/

theorem users_cons (b : Block) (live : List Block) (p : Nat) :
    users P slot (b :: live) p = users P slot live p + if b.last P slot = p then 1 else 0 := by
  simp [users, List.countP_cons]

theorem users_erase (P slot : Nat) (hb : b ∈ live) (p : Nat) :
    users P slot live p = users P slot (live.erase b) p + if b.last P slot = p then 1 else 0 := by
  rw [← users_cons]
  exact (List.perm_cons_erase hb).countP_eq _

/-- A page in which a block ends has a user. -/
theorem users_pos (P slot : Nat) (hb : b ∈ live) : 0 < users P slot live (b.last P slot) := by
  rw [users_erase P slot hb, if_pos rfl]
  omega

/-! ## The pointer moves -/

theorem not_inside_turn (ha : a % P = 0) : ¬ Inside P (s.turn a) p := fun h => h.1 ha

/-- The pointer may leave the start of a page for that of another. -/
theorem Sound.turn (h : Sound P slot s live) (ha : a % P = 0) : Sound P slot (s.turn a) live := by
  refine ⟨h.body, h.tail, h.apart, fun b _ hin => absurd hin (not_inside_turn ha),
    fun hin => absurd ha hin, fun p hp => ?_⟩
  rw [if_neg (not_inside_turn ha)]
  exact (Nat.le_add_right _ _).trans (h.count p hp)

/-- At the start of a page that does not count it, the pointer has no reference. -/
theorem Tight.exact (h : Tight P slot s live) (hstart : s.ptr % P = 0)
    (hnot : ¬ Stranded P slot s live) : Exact P slot s live := by
  refine ⟨h.body, fun p hp => ?_⟩
  obtain ⟨hpos, hother, -⟩ := h.tail p hp
  refine ⟨hpos, ?_⟩
  by_cases hpp : p = s.ptr / P
  · subst hpp
    by_contra hne
    exact hnot ⟨hstart, hp, hne⟩
  · exact hother hpp

theorem Exact.not_stranded (h : Exact P slot s live) : ¬ Stranded P slot s live :=
  fun hstr => hstr.2.2 (h.tail _ hstr.2.1).2

/-- A pointer without a reference may be put anywhere. -/
theorem Exact.turn (h : Exact P slot s live) (a : Nat) : Exact P slot (s.turn a) live :=
  ⟨h.body, h.tail⟩

/-- The pointer stays in its page when a block that fits is cut off. -/
theorem carve_inside (hslot : 0 < slot) (hin : s.ptr % P ≠ 0)
    (hfit : (s.ptr + m + slot - 1) / P = s.ptr / P) :
    (s.ptr + m) / P = s.ptr / P ∧ (s.ptr + m) % P ≠ 0 := by
  have hle : s.ptr / P ≤ (s.ptr + m) / P := Nat.div_le_div_right (by omega)
  have hge : (s.ptr + m) / P ≤ (s.ptr + m + slot - 1) / P := Nat.div_le_div_right (by omega)
  have hdiv : (s.ptr + m) / P = s.ptr / P := by omega
  refine ⟨hdiv, fun hmod => ?_⟩
  have hptr := Nat.div_add_mod s.ptr P
  have hnew := Nat.div_add_mod (s.ptr + m) P
  rw [hdiv, hmod] at hnew
  omega

/-! ## Pages and blocks -/

theorem stop_le_of_last_lt (hslot : 0 < slot) (hP : 0 < P) {q : Nat} (hlast : b.last P slot < q) :
    b.stop ≤ q * P := by
  have hlt : b.stop + slot - 1 < q * P := (Nat.div_lt_iff_lt_mul hP).1 hlast
  omega

theorem le_start_of_lt_first (hP : 0 < P) {q : Nat} (hfirst : q < b.first P) :
    (q + 1) * P ≤ b.start :=
  (Nat.le_div_iff_mul_le hP).1 hfirst

/-- A block ends at or before a page that ends a run, or starts after it. -/
theorem Sound.beside (h : Sound P slot s live) (hb : b ∈ live) {q : Nat}
    (hq : s.page q = some false) : b.last P slot ≤ q ∨ q < b.first P := by
  by_contra hmid
  have hbody := h.body b hb q (by omega) (by omega)
  rw [hq] at hbody
  cases hbody

/-- A block lies before a page that is not mapped, or after it. -/
theorem Sound.off (h : Sound P slot s live) (hb : b ∈ live) {q : Nat} (hq : s.page q = none) :
    b.last P slot < q ∨ q < b.first P := by
  by_contra hmid
  by_cases hlast : b.last P slot = q
  · have htail := h.tail b hb
    rw [hlast, hq] at htail
    cases htail
  · have hbody := h.body b hb q (by omega) (by omega)
    rw [hq] at hbody
    cases hbody

/-! ## Cutting off -/

/-- A block that fits in the page of the pointer may be cut off there. -/
theorem Sound.carve (h : Sound P slot s live) (hP : 0 < P) (hslot : 0 < slot)
    (hin : s.ptr % P ≠ 0) (hfit : (s.ptr + m + slot - 1) / P = s.ptr / P) :
    Sound P slot (s.carve P m) (⟨s.ptr, m⟩ :: live) := by
  obtain ⟨hdiv, hmod⟩ := carve_inside hslot hin hfit
  have hpage := h.open' hin
  have hlast : Block.last P slot ⟨s.ptr, m⟩ = s.ptr / P := hfit
  have hinside : ∀ p, Inside P (s.carve P m) p ↔ Inside P s p := by
    intro p
    show (s.ptr + m) % P ≠ 0 ∧ (s.ptr + m) / P = p ↔ s.ptr % P ≠ 0 ∧ s.ptr / P = p
    rw [hdiv]
    simp [hmod, hin]
  refine ⟨?_, ?_, ?_, ?_, ?_, ?_⟩
  · intro b hb p hfirst hp
    rcases List.mem_cons.1 hb with rfl | hb
    · rw [hlast] at hp
      have : s.ptr / P ≤ p := hfirst
      omega
    · exact h.body b hb p hfirst hp
  · intro b hb
    rcases List.mem_cons.1 hb with rfl | hb
    · rw [hlast]
      exact hpage
    · exact h.tail b hb
  · refine List.pairwise_cons.2 ⟨fun b hb => ?_, h.apart⟩
    rcases h.beside hb hpage with hle | hlt
    · refine ⟨.inr ?_, .inr hle⟩
      by_cases heq : b.last P slot = s.ptr / P
      · exact h.below b hb ⟨hin, heq.symm⟩
      · have hstop := stop_le_of_last_lt hslot hP (Nat.lt_of_le_of_ne hle heq)
        exact hstop.trans (Nat.div_mul_le_self _ _)
    · refine ⟨.inl ?_, .inl (by rw [hlast]; exact Nat.le_of_lt hlt)⟩
      have hstart := le_start_of_lt_first hP hlt
      have hstop : s.ptr + m < (s.ptr / P + 1) * P := by
        rw [← hdiv]
        exact Nat.lt_mul_of_div_lt (Nat.lt_succ_self _) hP
      exact (Nat.le_of_lt hstop).trans hstart
  · intro b hb hbin
    rcases List.mem_cons.1 hb with rfl | hb
    · exact Nat.le_refl _
    · exact (h.below b hb ((hinside _).1 hbin)).trans (Nat.le_add_right _ _)
  · intro _
    show s.page ((s.ptr + m) / P) = some false
    rw [hdiv]
    exact hpage
  · intro p hp
    have hcount := h.count p hp
    simp only [users_cons, hlast, hinside]
    by_cases hpp : s.ptr / P = p
    · subst hpp
      simp only [Bump.carve, Function.update_self, if_true]
      omega
    · simp only [Bump.carve, Function.update_of_ne (Ne.symm hpp), if_neg hpp]
      exact hcount

/-- The new block is a user like the others. -/
theorem Tight.carve (h : Tight P slot s live) (hslot : 0 < slot) (hin : s.ptr % P ≠ 0)
    (hfit : (s.ptr + m + slot - 1) / P = s.ptr / P) :
    Tight P slot (s.carve P m) (⟨s.ptr, m⟩ :: live) := by
  obtain ⟨hdiv, -⟩ := carve_inside hslot hin hfit
  have hlast : Block.last P slot ⟨s.ptr, m⟩ = s.ptr / P := hfit
  refine ⟨fun p hp => ?_, fun p hp => ?_⟩
  · obtain ⟨b, hb, hbp⟩ := h.body p hp
    exact ⟨b, List.mem_cons_of_mem _ hb, hbp⟩
  · obtain ⟨hpos, hother, hle⟩ := h.tail p hp
    show 0 < Function.update s.count _ _ p ∧ (p ≠ (s.ptr + m) / P → _) ∧ _
    rw [hdiv, users_cons, hlast]
    by_cases hpp : s.ptr / P = p
    · subst hpp
      simp only [Bump.carve, Function.update_self, if_true]
      exact ⟨by omega, fun hne => absurd rfl hne, by omega⟩
    · simp only [Bump.carve, Function.update_of_ne (Ne.symm hpp), if_neg hpp]
      exact ⟨hpos, hother, hle⟩

/-! ## Opening a run -/

/-- A block of whole slots ends in the page that its end points into. -/
theorem stop_div (hslot : 0 < slot) (hP : 0 < P) (hdvd : slot ∣ P) (hstop : slot ∣ b.stop) :
    b.stop / P = b.last P slot := by
  have hmod : slot ∣ b.stop % P := (Nat.dvd_mod_iff hdvd).2 hstop
  have hlt := Nat.mod_lt b.stop hP
  have hroom : slot ≤ P - b.stop % P := Nat.le_of_dvd (by omega) (Nat.dvd_sub hdvd hmod)
  have hdiv := Nat.div_add_mod b.stop P
  refine (Nat.div_eq_of_lt_le ?_ ?_).symm
  · rw [Nat.mul_comm]
    omega
  · rw [Nat.succ_mul, Nat.mul_comm]
    omega

/-- A block lies before a run of pages that are not mapped, or after it. -/
theorem Sound.off_run (h : Sound P slot s live) (hslot : 0 < slot) {b' : Block} (hb' : b' ∈ live)
    (hfree : ∀ p, b.first P ≤ p → p ≤ b.last P slot → s.page p = none) :
    b'.last P slot < b.first P ∨ b.last P slot < b'.first P := by
  have hle := Block.first_le_last (P := P) hslot b
  have hle' := Block.first_le_last (P := P) hslot b'
  rcases h.off hb' (hfree _ (Nat.le_refl _) hle) with hlt | hlt
  · exact .inl hlt
  · right
    by_contra hge
    rcases h.off hb' (hfree (b'.first P) (Nat.le_of_lt hlt) (by omega)) with hlt' | hlt'
    · omega
    · omega

/-- A block may be put into a run of pages that are not mapped. -/
theorem Sound.open_run (h : Sound P slot s live) (hP : 0 < P) (hslot : 0 < slot)
    (hdvd : slot ∣ P) (hsize : slot ∣ b.size) (hstart : b.start % P = 0)
    (hfree : ∀ p, b.first P ≤ p → p ≤ b.last P slot → s.page p = none) :
    Sound P slot (s.openRun P slot b) (b :: live) := by
  have hstop : b.stop / P = b.last P slot :=
    stop_div hslot hP hdvd (Nat.dvd_add (Nat.dvd_trans hdvd (Nat.dvd_of_mod_eq_zero hstart)) hsize)
  have hle := Block.first_le_last (P := P) hslot b
  have holds : ∀ p goes, s.page p = some goes → (s.openRun P slot b).page p = some goes := by
    intro p goes hp
    have hout : ¬ (b.first P ≤ p ∧ p ≤ b.last P slot) := by
      rintro ⟨hfirst, hlast⟩
      rw [hfree p hfirst hlast] at hp
      cases hp
    show (if b.first P ≤ p ∧ p < b.last P slot then some true
      else if p = b.last P slot then some false else s.page p) = _
    rw [if_neg (by omega), if_neg (by omega)]
    exact hp
  have hnone : ∀ b' ∈ live, b'.last P slot ≠ b.last P slot := by
    intro b' hb' heq
    have hle' := Block.first_le_last (P := P) hslot b'
    rcases h.off_run hslot hb' hfree with hlt | hlt <;> omega
  have hlastpage : (s.openRun P slot b).page (b.last P slot) = some false := by
    show (if b.first P ≤ b.last P slot ∧ b.last P slot < b.last P slot then some true
      else if b.last P slot = b.last P slot then some false else _) = _
    rw [if_neg (by omega), if_pos rfl]
  refine ⟨?_, ?_, ?_, ?_, ?_, ?_⟩
  · intro b' hb' p hfirst hlast
    rcases List.mem_cons.1 hb' with rfl | hb'
    · exact if_pos ⟨hfirst, hlast⟩
    · exact holds p true (h.body b' hb' p hfirst hlast)
  · intro b' hb'
    rcases List.mem_cons.1 hb' with rfl | hb'
    · exact hlastpage
    · exact holds _ false (h.tail b' hb')
  · refine List.pairwise_cons.2 ⟨fun b' hb' => ?_, h.apart⟩
    have hbase : b.first P * P = b.start := Nat.div_mul_cancel (Nat.dvd_of_mod_eq_zero hstart)
    have hle' := Block.first_le_last (P := P) hslot b'
    rcases h.off_run hslot hb' hfree with hlt | hlt
    · refine ⟨.inr ?_, .inr (by omega)⟩
      rw [← hbase]
      exact stop_le_of_last_lt hslot hP hlt
    · refine ⟨.inl ?_, .inl (by omega)⟩
      have hend : b.stop < (b.last P slot + 1) * P :=
        Nat.lt_mul_of_div_lt (by rw [hstop]; exact Nat.lt_succ_self _) hP
      exact (Nat.le_of_lt hend).trans (le_start_of_lt_first hP hlt)
  · intro b' hb' hin
    rcases List.mem_cons.1 hb' with rfl | hb'
    · exact Nat.le_refl _
    · exact absurd (hin.2.symm.trans hstop) (hnone b' hb')
  · intro _
    show (s.openRun P slot b).page (b.stop / P) = some false
    rw [hstop]
    exact hlastpage
  · intro p hp
    have hinside : Inside P (s.openRun P slot b) p → b.last P slot = p := fun hin =>
      hstop.symm.trans hin.2
    rw [users_cons]
    by_cases hpp : b.last P slot = p
    · subst hpp
      have hzero : users P slot live (b.last P slot) = 0 := by
        rw [users, List.countP_eq_zero]
        intro b' hb'
        simpa using hnone b' hb'
      rw [hzero, if_pos rfl]
      show _ ≤ Function.update s.count (b.last P slot) 2 (b.last P slot)
      rw [Function.update_self]
      split <;> omega
    · have hp' : s.page p = some false := by
        have hpage : (if b.first P ≤ p ∧ p < b.last P slot then some true
          else if p = b.last P slot then some false else s.page p) = some false := hp
        split at hpage
        · cases hpage
        · rwa [if_neg (Ne.symm hpp)] at hpage
      rw [if_neg hpp, if_neg fun hin => hpp (hinside hin)]
      simp only [openRun, Function.update_of_ne (Ne.symm hpp)]
      have := h.count p hp'
      omega

/-- The pages of the run are those of the new block. -/
theorem Exact.open_run (h : Exact P slot s live) (hP : 0 < P) (hslot : 0 < slot)
    (hdvd : slot ∣ P) (hsize : slot ∣ b.size) (hstart : b.start % P = 0) :
    Tight P slot (s.openRun P slot b) (b :: live) := by
  have hstop : b.stop / P = b.last P slot :=
    stop_div hslot hP hdvd (Nat.dvd_add (Nat.dvd_trans hdvd (Nat.dvd_of_mod_eq_zero hstart)) hsize)
  refine ⟨fun p hp => ?_, fun p hp => ?_⟩
  · have hpage : (if b.first P ≤ p ∧ p < b.last P slot then some true
      else if p = b.last P slot then some false else s.page p) = some true := hp
    split at hpage
    · rename_i hin
      exact ⟨b, List.mem_cons_self, hin⟩
    · split at hpage
      · cases hpage
      · obtain ⟨b', hb', hbp⟩ := h.body p hpage
        exact ⟨b', List.mem_cons_of_mem _ hb', hbp⟩
  · show 0 < Function.update s.count _ 2 p ∧ (p ≠ b.stop / P → _) ∧ _
    rw [hstop, users_cons]
    by_cases hpp : b.last P slot = p
    · subst hpp
      simp only [openRun, Function.update_self, if_true]
      exact ⟨by omega, fun hne => absurd rfl hne, by omega⟩
    · have hpage : (if b.first P ≤ p ∧ p < b.last P slot then some true
        else if p = b.last P slot then some false else s.page p) = some false := hp
      split at hpage
      · cases hpage
      · rw [if_neg (Ne.symm hpp)] at hpage
        obtain ⟨hpos, hcount⟩ := h.tail p hpage
        simp only [openRun, Function.update_of_ne (Ne.symm hpp), if_neg hpp]
        exact ⟨hpos, fun _ => hcount, by omega⟩

/-! ## Leaving a page -/

/-- A page whose count is still positive stays mapped. -/
theorem page_release (s : Bump) (p q : Nat) :
    (s.release p).page q = if q = p ∧ s.count p - 1 = 0 then none else s.page q := by
  unfold release
  by_cases hzero : s.count p - 1 = 0
  · by_cases hq : q = p
    · subst hq
      simp [hzero]
    · simp [hzero, hq]
  · simp [hzero]

theorem count_release (s : Bump) (p q : Nat) :
    (s.release p).count q = if q = p then s.count p - 1 else s.count q := by
  by_cases hq : q = p
  · subst hq
    simp [release]
  · simp [release, hq]

/-- A page that `release` leaves mapped was mapped. -/
theorem page_of_release {q : Nat} {goes : Bool} (hq : (s.release p).page q = some goes) :
    s.page q = some goes ∧ (q = p → s.count p - 1 ≠ 0) := by
  rw [page_release] at hq
  split at hq
  · cases hq
  · rename_i hnot
    exact ⟨hq, fun hqp hzero => hnot ⟨hqp, hzero⟩⟩

/-- The pointer leaves the page it stands in. -/
theorem Sound.drop (h : Sound P slot s live) (hin : s.ptr % P ≠ 0) (ha : a % P = 0) :
    Sound P slot ((s.release (s.ptr / P)).turn a) live := by
  have hcount := h.count _ (h.open' hin)
  rw [if_pos ⟨hin, rfl⟩] at hcount
  have hkeep : ∀ q goes, s.page q = some goes → (q = s.ptr / P → 0 < users P slot live q) →
      ((s.release (s.ptr / P)).turn a).page q = some goes := by
    intro q goes hq hpos
    show (s.release (s.ptr / P)).page q = _
    rw [page_release, if_neg]
    · exact hq
    · rintro ⟨rfl, hzero⟩
      have := hpos rfl
      omega
  refine ⟨fun b hb p hfirst hlast => ?_, fun b hb => ?_, h.apart,
    fun b _ hbin => absurd hbin (not_inside_turn ha), fun hne => absurd ha hne, fun p hp => ?_⟩
  · have hbody := h.body b hb p hfirst hlast
    refine hkeep p true hbody fun hp => ?_
    rw [hp, h.open' hin] at hbody
    cases hbody
  · exact hkeep _ false (h.tail b hb) fun _ => users_pos P slot hb
  · obtain ⟨hp', -⟩ := page_of_release hp
    rw [if_neg (not_inside_turn ha)]
    show _ ≤ (s.release (s.ptr / P)).count p
    rw [count_release]
    split
    · rename_i hpp
      subst hpp
      omega
    · exact (Nat.le_add_right _ _).trans (h.count p hp')

/-- A pointer that has left its page has no reference. -/
theorem Tight.drop (h : Tight P slot s live) (hsound : Sound P slot s live)
    (hin : s.ptr % P ≠ 0) (a : Nat) :
    Exact P slot ((s.release (s.ptr / P)).turn a) live := by
  have hptr := hsound.count _ (hsound.open' hin)
  rw [if_pos ⟨hin, rfl⟩] at hptr
  refine ⟨fun p hp => h.body p (page_of_release hp).1, fun p hp => ?_⟩
  obtain ⟨hp', hzero⟩ := page_of_release hp
  obtain ⟨hpos, hother, hle⟩ := h.tail p hp'
  show 0 < (s.release (s.ptr / P)).count p ∧ (s.release (s.ptr / P)).count p = _
  rw [count_release]
  split
  · rename_i hpp
    subst hpp
    have := hzero rfl
    exact ⟨by omega, by omega⟩
  · rename_i hpp
    exact ⟨hpos, hother hpp⟩

/-! ## Freeing a block -/

theorem page_free (s : Bump) (b : Block) (q : Nat) :
    (s.free P slot b).page q =
      if q = b.last P slot ∧ s.count (b.last P slot) - 1 = 0 then none
      else if b.first P ≤ q ∧ q < b.last P slot then none else s.page q := by
  unfold free
  rw [page_release]

theorem count_free (s : Bump) (b : Block) (q : Nat) :
    (s.free P slot b).count q =
      if q = b.last P slot then s.count (b.last P slot) - 1 else s.count q := by
  unfold free
  rw [count_release]

theorem page_of_free {q : Nat} {goes : Bool} (hq : (s.free P slot b).page q = some goes) :
    s.page q = some goes ∧ ¬ (b.first P ≤ q ∧ q < b.last P slot) ∧
      (q = b.last P slot → s.count (b.last P slot) - 1 ≠ 0) := by
  rw [page_free] at hq
  split at hq
  · cases hq
  · rename_i hnot
    split at hq
    · cases hq
    · rename_i hout
      exact ⟨hq, hout, fun hqp hzero => hnot ⟨hqp, hzero⟩⟩

/-- Freeing a block keeps the others in place. -/
theorem Sound.free (h : Sound P slot s live) (hb : b ∈ live) :
    Sound P slot (s.free P slot b) (live.erase b) := by
  have hsub : ∀ b' ∈ live.erase b, b' ∈ live := fun _ => List.mem_of_mem_erase
  have hapart : ∀ b' ∈ live.erase b, Block.Apart P slot b b' := by
    have hperm := List.perm_cons_erase hb
    have hpair := (hperm.pairwise_iff Block.Apart.symm).1 h.apart
    exact (List.pairwise_cons.1 hpair).1
  have hcount := h.count _ (h.tail b hb)
  have hkeep : ∀ q goes, s.page q = some goes → ¬ (b.first P ≤ q ∧ q < b.last P slot) →
      (q = b.last P slot → 1 < s.count q) → (s.free P slot b).page q = some goes := by
    intro q goes hq hout hpos
    rw [page_free, if_neg, if_neg hout]
    · exact hq
    · rintro ⟨rfl, hzero⟩
      have := hpos rfl
      omega
  have hinside : ∀ p, Inside P (s.free P slot b) p ↔ Inside P s p := fun _ => Iff.rfl
  refine ⟨fun b' hb' p hfirst hlast => ?_, fun b' hb' => ?_, h.apart.sublist List.erase_sublist,
    fun b' hb' hin => h.below b' (hsub b' hb') hin, fun hin => ?_, fun p hp => ?_⟩
  · have hbody := h.body b' (hsub b' hb') p hfirst hlast
    have hne : p ≠ b.last P slot := by
      rintro rfl
      rw [h.tail b hb] at hbody
      cases hbody
    refine hkeep p true hbody (fun hin => ?_) fun heq => absurd heq hne
    rcases (hapart b' hb').2 with hle | hle <;> omega
  · have htail := h.tail b' (hsub b' hb')
    refine hkeep _ false htail (fun hin => ?_) fun heq => ?_
    · rw [h.body b hb _ hin.1 hin.2] at htail
      cases htail
    · rw [heq]
      have hused := users_erase P slot hb (b.last P slot)
      rw [if_pos rfl] at hused
      have hother := users_pos P slot hb'
      rw [heq] at hother
      omega
  · refine hkeep _ false (h.open' hin) (fun hbody => ?_) fun heq => ?_
    · have hopen := h.open' hin
      rw [show s.page (s.ptr / P) = some true from h.body b hb _ hbody.1 hbody.2] at hopen
      cases hopen
    · rw [if_pos ⟨hin, heq⟩] at hcount
      have hused := users_erase P slot hb (b.last P slot)
      rw [if_pos rfl] at hused
      rw [show (s.free P slot b).ptr / P = b.last P slot from heq]
      omega
  · obtain ⟨hp', -, -⟩ := page_of_free hp
    have hold := h.count p hp'
    have hused := users_erase P slot hb p
    rw [count_free]
    simp only [hinside]
    by_cases hpp : p = b.last P slot
    · subst hpp
      rw [if_pos rfl] at hused
      rw [if_pos rfl]
      omega
    · rw [if_neg (Ne.symm hpp)] at hused
      rw [if_neg hpp]
      omega

theorem Tight.free (h : Tight P slot s live) (hb : b ∈ live) :
    Tight P slot (s.free P slot b) (live.erase b) := by
  refine ⟨fun p hp => ?_, fun p hp => ?_⟩
  · obtain ⟨hp', hout, -⟩ := page_of_free hp
    obtain ⟨b', hb', hbp⟩ := h.body p hp'
    have hne : b' ≠ b := by
      rintro rfl
      exact hout hbp
    exact ⟨b', (List.mem_erase_of_ne hne).2 hb', hbp⟩
  · obtain ⟨hp', -, hzero⟩ := page_of_free hp
    obtain ⟨hpos, hother, hle⟩ := h.tail p hp'
    have hused := users_erase P slot hb p
    show _ ∧ (p ≠ s.ptr / P → _) ∧ _
    rw [count_free]
    by_cases hpp : p = b.last P slot
    · subst hpp
      rw [if_pos rfl] at hused
      rw [if_pos rfl]
      have := hzero rfl
      exact ⟨by omega, fun hne => by rw [hother hne]; omega, by omega⟩
    · rw [if_neg (Ne.symm hpp)] at hused
      rw [if_neg hpp]
      exact ⟨hpos, fun hne => by rw [hother hne]; omega, by omega⟩

/-! ## Equal allocators -/

/-- Only the counts of the last pages of runs matter. -/
theorem Sound.congr {t : Bump} (h : Sound P slot s live) (hptr : t.ptr = s.ptr)
    (hpage : t.page = s.page) (hcount : ∀ p, s.page p = some false → t.count p = s.count p) :
    Sound P slot t live := by
  have hinside : ∀ p, Inside P t p ↔ Inside P s p := by
    intro p
    rw [Inside, Inside, hptr]
  refine ⟨hpage ▸ h.body, hpage ▸ h.tail, h.apart, fun b hb hin => ?_, hptr ▸ hpage ▸ h.open',
    fun p hp => ?_⟩
  · rw [hptr]
    exact h.below b hb ((hinside _).1 hin)
  · rw [hpage] at hp
    simp only [hinside]
    rw [hcount p hp]
    exact h.count p hp

theorem Tight.congr {t : Bump} (h : Tight P slot s live) (hptr : t.ptr = s.ptr)
    (hpage : t.page = s.page) (hcount : ∀ p, s.page p = some false → t.count p = s.count p) :
    Tight P slot t live := by
  refine ⟨hpage ▸ h.body, fun p hp => ?_⟩
  rw [hpage] at hp
  rw [hcount p hp, hptr]
  exact h.tail p hp

/-- The order of the blocks does not matter. -/
theorem Sound.perm {live' : List Block} (h : Sound P slot s live) (hperm : live.Perm live') :
    Sound P slot s live' := by
  refine ⟨fun b hb => h.body b (hperm.mem_iff.2 hb), fun b hb => h.tail b (hperm.mem_iff.2 hb),
    (hperm.pairwise_iff Block.Apart.symm).1 h.apart, fun b hb => h.below b (hperm.mem_iff.2 hb),
    h.open', fun p hp => ?_⟩
  rw [users, ← hperm.countP_eq]
  exact h.count p hp

theorem Tight.perm {live' : List Block} (h : Tight P slot s live) (hperm : live.Perm live') :
    Tight P slot s live' := by
  refine ⟨fun p hp => ?_, fun p hp => ?_⟩
  · obtain ⟨b, hb, hbp⟩ := h.body p hp
    exact ⟨b, hperm.mem_iff.1 hb, hbp⟩
  · rw [users, ← hperm.countP_eq]
    exact h.tail p hp

end Bump

end Labs
