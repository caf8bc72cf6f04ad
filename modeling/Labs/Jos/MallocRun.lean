import Labs.Jos.MallocSpec
import Mathlib.Logic.Relation

/-!
# Runs of `malloc` and `free`

A program calls `malloc` and frees the blocks it got, and stores into them and outside the region.
The blocks are sound in every run whose calls are benign, and no page leaks if no call gives up a
page that still counts the pointer.
-/

namespace Labs.Jos.Malloc

open Prog Relation

/-- A program that allocates: its heap, and the blocks that it has not freed, with the sizes it
asked for. -/
structure Client where
  heap : Heap
  live : List (Word × Word)

/-- The room of a block. -/
def span (b : Word × Word) : Block := ⟨b.1.toNat, (roundup4 b.2).toNat⟩

def Client.blocks (s : Client) : List Block := s.live.map span

/-- The byte at `i` belongs to the block. -/
def InBlock (b : Word × Word) (i : Nat) : Prop := b.1.toNat ≤ i ∧ i < b.1.toNat + b.2.toNat

/-- What the program does: it calls `malloc`, with the pages the kernel has for it, frees a block,
or computes. -/
inductive Event where
  | malloc (n : Word) (avail : Nat → Bool)
  | free (v n : Word)
  | compute

/-- One step of the program. When it computes, it changes the region only inside its blocks. -/
inductive Step : Client → Event → Client → Prop where
  | malloc {s : Client} {n v : Word} {avail : Nat → Bool} {h' : Heap}
      (hret : Malloc.malloc avail n s.heap = .ret v h') :
      Step s (.malloc n avail) ⟨h', if v = 0 then s.live else (v, n) :: s.live⟩
  | free {s : Client} {v n : Word} {h' : Heap} (hlive : (v, n) ∈ s.live)
      (hret : Malloc.free v s.heap = .ret () h') :
      Step s (.free v n) ⟨h', s.live.erase (v, n)⟩
  | compute {s : Client} {h' : Heap} (hptr : h'.mptr = s.heap.mptr)
      (hpage : ∀ p, InRegion p → h'.mappedPage p = s.heap.mappedPage p ∧ h'.pte p = s.heap.pte p)
      (hmem : ∀ a, InRegion (a / 1024) → (∀ b ∈ s.live, ∀ i, InBlock b i → i / 4 ≠ a) →
        h'.mem a = s.heap.mem a) :
      Step s .compute ⟨h', s.live⟩

/-- The runs whose steps all meet the condition `ok`. -/
def Runs (ok : Client → Event → Prop) : Client → Client → Prop :=
  ReflTransGen fun s s' => ∃ ev, ok s ev ∧ Step s ev s'

/-- A program that has not called `malloc`, and has mapped nothing in the region. -/
structure Fresh (s : Client) : Prop where
  ptr : s.heap.mptr = 0
  live : s.live = []
  unmapped : ∀ p, InRegion p → s.heap.mappedPage p = false

/-- The size of a call can be rounded up, and the call is roomy. -/
def Benign (s : Client) : Event → Prop
  | .malloc n _ => n ≤ 0xFFFFFFFC ∧ (roundup4 n < maxmalloc → Roomy s.heap (roundup4 n))
  | .free _ _ => True
  | .compute => True

/-- The call moves the pointer away from the start of a page that counts it. -/
def Strands (s : Client) : Event → Prop
  | .malloc n _ => roundup4 n < maxmalloc ∧ Bump.Stranded 4096 4 s.heap.pages s.blocks
  | .free _ _ => False
  | .compute => False

/-! ## The invariant -/

/-- The blocks lie soundly in the heap, and their sizes can be rounded up. -/
structure Client.Kept (s : Client) : Prop where
  kept : Malloc.Kept s.heap s.blocks
  sizes : ∀ b ∈ s.live, b.2.toNat ≤ 0xFFFFFFFC

/-- The room of a block holds what was asked for. -/
theorem le_roundup4 {n : Word} (hn : n.toNat ≤ 0xFFFFFFFC) : n.toNat ≤ (roundup4 n).toNat := by
  rw [roundup4_to_nat]
  omega

/-- The bytes of a block are apart from the count of every page. -/
theorem not_in_count {s : Client} (hs : s.Kept) {b : Word × Word} (hb : b ∈ s.live) {p i : Nat}
    (hp : s.heap.pages.page p = some false) (hi : InBlock b i) :
    i < p * 4096 + 4092 ∨ p * 4096 + 4096 ≤ i := by
  have hspan : span b ∈ s.blocks := List.mem_map_of_mem hb
  have hsize := le_roundup4 (hs.sizes b hb)
  have hstop : i < (span b).stop := Nat.lt_of_lt_of_le hi.2 (Nat.add_le_add_left hsize _)
  rcases hs.kept.sound.beside hspan hp with hle | hlt
  · left
    have hend : (span b).stop + 4 - 1 < (p + 1) * 4096 :=
      (Nat.div_lt_iff_lt_mul (by decide)).1 (Nat.lt_succ_of_le hle)
    omega
  · right
    have hstart : (p + 1) * 4096 ≤ (span b).start := Bump.le_start_of_lt_first (by decide) hlt
    have hle : (span b).start ≤ i := hi.1
    omega

theorem kept_fresh {s : Client} (hs : Fresh s) : s.Kept := by
  have hpage : ∀ p, s.heap.pages.page p = none := by
    intro p
    rw [page_eq_none]
    rintro ⟨hin, hmapped⟩
    rw [hs.unmapped p hin] at hmapped
    cases hmapped
  have hblocks : s.blocks = [] := by rw [Client.blocks, hs.live]; rfl
  have hptr : s.heap.pages.ptr = 0 := congrArg BitVec.toNat hs.ptr
  refine ⟨⟨?_, fun p hp => absurd (hpage p) hp, .inl hs.ptr, by rw [hs.ptr]; rfl⟩, ?_⟩
  · rw [hblocks]
    refine ⟨fun _ hb => (by cases hb), fun _ hb => (by cases hb), .nil, fun _ hb => (by cases hb),
      fun hne => absurd (by rw [hptr]) hne, fun p hp => ?_⟩
    rw [hpage p] at hp
    cases hp
  · rw [hs.live]
    exact fun _ hb => (by cases hb)

theorem tight_fresh {s : Client} (hs : Fresh s) : Bump.Tight 4096 4 s.heap.pages s.blocks := by
  have hpage : ∀ p, s.heap.pages.page p = none := by
    intro p
    rw [page_eq_none]
    rintro ⟨hin, hmapped⟩
    rw [hs.unmapped p hin] at hmapped
    cases hmapped
  refine ⟨fun p hp => ?_, fun p hp => ?_⟩ <;>
    · rw [hpage p] at hp
      cases hp

/-! ## Steps -/

theorem grown_span (live : List (Word × Word)) (v n : Word) :
    grown (live.map span) v (roundup4 n) = (if v = 0 then live else (v, n) :: live).map span := by
  unfold grown
  split <;> rfl

/-- A benign call of `malloc` returns with the pointer in the region, and keeps the blocks. -/
theorem malloc_step {s : Client} {n : Word} {avail : Nat → Bool} (hs : s.Kept)
    (hok : Benign s (.malloc n avail)) :
    ∃ v h', malloc avail n s.heap = .ret v h' ∧ InRegion (pgnum h'.mptr) ∧
      Client.Kept ⟨h', if v = 0 then s.live else (v, n) :: s.live⟩ ∧
      (Bump.Tight 4096 4 s.heap.pages s.blocks → ¬ Strands s (.malloc n avail) →
        Bump.Tight 4096 4 h'.pages
          (Client.blocks ⟨h', if v = 0 then s.live else (v, n) :: s.live⟩)) := by
  obtain ⟨v, h', hret, hserved⟩ := malloc_spec avail (n := n) hs.kept hok.2
  have hgrown := grown_span s.live v n
  refine ⟨v, h', hret, hserved.ptr, ⟨?_, fun b hb => ?_⟩, fun ht hstr => ?_⟩
  · show Kept h' (List.map span _)
    rw [← hgrown]
    exact hserved.kept
  · dsimp only at hb
    split at hb
    · exact hs.sizes b hb
    · rcases List.mem_cons.1 hb with rfl | hb
      · exact hok.1
      · exact hs.sizes b hb
  · show Bump.Tight 4096 4 h'.pages (List.map span _)
    rw [← hgrown]
    exact hserved.tight ⟨ht, fun hsmall hs => hstr ⟨hsmall, hs⟩⟩

/-- The blocks left when one is freed. -/
theorem blocks_erase_perm {live : List (Word × Word)} {b : Word × Word} (hb : b ∈ live) :
    ((live.map span).erase (span b)).Perm ((live.erase b).map span) := by
  have hperm := ((List.perm_cons_erase hb).map span).erase (span b)
  rwa [List.map_cons, List.erase_cons_head] at hperm

/-- Freeing a block returns, and keeps the others. -/
theorem free_step {s : Client} {v n : Word} (hs : s.Kept) (hlive : (v, n) ∈ s.live) :
    ∃ h', free v s.heap = .ret () h' ∧ Client.Kept ⟨h', s.live.erase (v, n)⟩ ∧
      (Bump.Tight 4096 4 s.heap.pages s.blocks →
        Bump.Tight 4096 4 h'.pages (Client.blocks ⟨h', s.live.erase (v, n)⟩)) := by
  have hspan : span (v, n) ∈ s.blocks := List.mem_map_of_mem hlive
  have hsound := hs.kept.sound
  have hcount := hsound.count _ (hsound.tail _ hspan)
  have hused := Bump.users_pos 4096 4 hspan
  obtain ⟨h', hret, hw, hpages⟩ := free_eq hs.kept.writable (pgnum_eq v)
    (Block.first_le_last (P := 4096) (by decide) (span (v, n))) (hsound.body _ hspan)
    (hsound.tail _ hspan) (by omega)
  have hpages' : h'.pages = s.heap.pages.free 4096 4 (span (v, n)) := hpages
  have hptr : h'.mptr = s.heap.mptr :=
    BitVec.eq_of_toNat_eq (congrArg Bump.ptr hpages')
  have hperm := blocks_erase_perm hlive
  refine ⟨h', hret, ⟨⟨?_, hw, ?_, ?_⟩, fun b hb => ?_⟩, fun ht => ?_⟩
  · rw [hpages']
    exact (hsound.free hspan).perm hperm
  · rw [hptr]
    exact hs.kept.ptr
  · rw [hptr]
    exact hs.kept.aligned
  · exact hs.sizes b (List.mem_of_mem_erase hb)
  · rw [hpages']
    exact (ht.free hspan).perm hperm

/-- What the program computes leaves pages and counts alone. -/
theorem compute_step {s : Client} {h' : Heap} (hs : s.Kept) (hptr : h'.mptr = s.heap.mptr)
    (hpage : ∀ p, InRegion p → h'.mappedPage p = s.heap.mappedPage p ∧ h'.pte p = s.heap.pte p)
    (hmem : ∀ a, InRegion (a / 1024) → (∀ b ∈ s.live, ∀ i, InBlock b i → i / 4 ≠ a) →
      h'.mem a = s.heap.mem a) :
    Client.Kept ⟨h', s.live⟩ ∧ (Bump.Tight 4096 4 s.heap.pages s.blocks →
      Bump.Tight 4096 4 h'.pages s.blocks) := by
  have hptr' : h'.pages.ptr = s.heap.pages.ptr := congrArg BitVec.toNat hptr
  have hpages : h'.pages.page = s.heap.pages.page := by
    funext p
    by_cases hin : InRegion p
    · obtain ⟨hmapped, hpte⟩ := hpage p hin
      show (if InRegion p ∧ h'.mappedPage p = true then some (hasFlag (h'.pte p) pteContinued)
        else none) = _
      rw [hmapped, hpte]
      rfl
    · rw [page_eq_none.2 fun hboth => hin hboth.1, page_eq_none.2 fun hboth => hin hboth.1]
  have hcount : ∀ p, s.heap.pages.page p = some false →
      h'.pages.count p = s.heap.pages.count p := by
    intro p hp
    have hindex : countIndex p = p * 1024 + 1023 := by unfold countIndex; rfl
    have hpdiv : countIndex p / 1024 = p := by omega
    refine congrArg BitVec.toNat (hmem _ ?_ fun b hb i hi heq => ?_)
    · rw [hpdiv]
      exact (page_eq_some.1 hp).1
    · rcases not_in_count hs hb hp hi with hlt | hge <;> omega
  refine ⟨⟨⟨hs.kept.sound.congr hptr' hpages hcount, fun p hp => ?_, ?_, ?_⟩, hs.sizes⟩,
    fun ht => ht.congr hptr' hpages hcount⟩
  · rw [hpages] at hp
    rw [(hpage p (in_region_of_page hp)).2]
    exact hs.kept.writable p hp
  · rw [hptr]
    exact hs.kept.ptr
  · rw [hptr]
    exact hs.kept.aligned

/-- A benign step keeps the blocks, and leaks no page if it strands none. -/
theorem Client.Kept.step {s s' : Client} {ev : Event} (hs : s.Kept) (hok : Benign s ev)
    (hstep : Step s ev s') : s'.Kept ∧ (Bump.Tight 4096 4 s.heap.pages s.blocks → ¬ Strands s ev →
      Bump.Tight 4096 4 s'.heap.pages s'.blocks) := by
  cases hstep with
  | malloc hret =>
      obtain ⟨v, h', hret', -, hkept, htight⟩ := malloc_step hs hok
      cases hret.symm.trans hret'
      exact ⟨hkept, htight⟩
  | free hlive hret =>
      obtain ⟨h', hret', hkept, htight⟩ := free_step hs hlive
      cases hret.symm.trans hret'
      exact ⟨hkept, fun ht _ => htight ht⟩
  | compute hptr hpage hmem =>
      obtain ⟨hkept, htight⟩ := compute_step hs hptr hpage hmem
      exact ⟨hkept, fun ht _ => htight ht⟩

theorem Client.Kept.run {s s' : Client} (hs : s.Kept) (hrun : Runs Benign s s') : s'.Kept := by
  induction hrun with
  | refl => exact hs
  | tail _ hstep ih =>
      obtain ⟨ev, hok, hstep⟩ := hstep
      exact (ih.step hok hstep).1

/-- Runs that strand no page leak none. -/
theorem tight_run {s s' : Client} (hs : s.Kept)
    (ht : Bump.Tight 4096 4 s.heap.pages s.blocks)
    (hrun : Runs (fun t ev => Benign t ev ∧ ¬ Strands t ev) s s') :
    s'.Kept ∧ Bump.Tight 4096 4 s'.heap.pages s'.blocks := by
  induction hrun with
  | refl => exact ⟨hs, ht⟩
  | tail _ hstep ih =>
      obtain ⟨ev, hok, hstep⟩ := hstep
      have hnext := ih.1.step hok.1 hstep
      exact ⟨hnext.1, hnext.2 ih.2 hok.2⟩

/-! ## The results -/

/-- The block lies in the region, in pages that the program may write, and apart from the count of
every page. -/
structure Good (h : Heap) (b : Word × Word) : Prop where
  low : mbegin ≤ b.1
  high : b.1.toNat + b.2.toNat ≤ mend.toNat
  mapped : ∀ i, InBlock b i → h.mappedPage (i / 4096) = true ∧
    hasFlag (h.pte (i / 4096)) pteU = true ∧ hasFlag (h.pte (i / 4096)) pteW = true
  counts : ∀ p, InRegion p → h.mappedPage p = true → hasFlag (h.pte p) pteContinued = false →
    ∀ i, InBlock b i → i < p * 4096 + 4092 ∨ p * 4096 + 4096 ≤ i

/-- A block of a sound heap is good. -/
theorem good_of_kept {s : Client} (hs : s.Kept) {b : Word × Word} (hb : b ∈ s.live) :
    Good s.heap b := by
  have hspan : span b ∈ s.blocks := List.mem_map_of_mem hb
  have hsound := hs.kept.sound
  have hsize := le_roundup4 (hs.sizes b hb)
  have hlast := (page_eq_some.1 (hsound.tail _ hspan)).1
  have hstop : (span b).stop = b.1.toNat + (roundup4 b.2).toNat := rfl
  have hend : (span b).stop + 4 - 1 < ((span b).last 4096 4 + 1) * 4096 :=
    (Nat.div_lt_iff_lt_mul (by decide)).1 (Nat.lt_succ_self _)
  have hsome : ∀ p, (span b).first 4096 ≤ p → p ≤ (span b).last 4096 4 →
      s.heap.pages.page p ≠ none := by
    intro p hp hpl
    by_cases heq : p = (span b).last 4096 4
    · rw [heq, hsound.tail _ hspan]
      simp
    · rw [hsound.body _ hspan p hp (by omega)]
      simp
  have hfirst : InRegion ((span b).first 4096) :=
    in_region_of_page (hsome _ (Nat.le_refl _) (Block.first_le_last (by decide) _))
  have hdiv : (span b).first 4096 = b.1.toNat / 4096 := rfl
  refine ⟨?_, ?_, fun i hi => ?_, fun p hin hmapped hcont i hi => ?_⟩
  · rw [BitVec.le_def, mbegin_to_nat]
    have := hfirst.1
    omega
  · have := hlast.2
    rw [mend_to_nat]
    omega
  · have hpage := hsome (i / 4096) (Nat.div_le_div_right hi.1) (by have := hi.2; omega)
    refine ⟨?_, hs.kept.writable _ hpage⟩
    by_contra hnot
    exact hpage (page_eq_none.2 fun hboth => hnot hboth.2)
  · exact not_in_count hs hb (page_eq_some.2 ⟨hin, hmapped, hcont⟩) hi

/-- No byte belongs to both blocks. -/
def Separate (b b' : Word × Word) : Prop := ∀ i, ¬ (InBlock b i ∧ InBlock b' i)

/-- In every run of benign calls all blocks are good and apart from each other, and the next
benign call of `malloc` ends its search in the region. -/
theorem malloc_sound (s₀ s : Client) (hfresh : Fresh s₀) (hrun : Runs Benign s₀ s) :
    (∀ b ∈ s.live, Good s.heap b) ∧ s.live.Pairwise Separate ∧
      ∀ n avail, Benign s (.malloc n avail) →
        ∃ v h', malloc avail n s.heap = .ret v h' ∧ mbegin ≤ h'.mptr ∧ h'.mptr < mend := by
  have hs : s.Kept := (kept_fresh hfresh).run hrun
  refine ⟨fun b hb => good_of_kept hs hb, ?_, fun n avail hok => ?_⟩
  · have hapart := List.pairwise_map.1 hs.kept.sound.apart
    refine hapart.imp_of_mem fun {b b'} hb hb' h i hi => ?_
    have hsize := le_roundup4 (hs.sizes b hb)
    have hsize' := le_roundup4 (hs.sizes b' hb')
    obtain ⟨⟨hlow, hhigh⟩, hlow', hhigh'⟩ := hi
    rcases h.1 with hle | hle
    · have : b.1.toNat + (roundup4 b.2).toNat ≤ b'.1.toNat := hle
      omega
    · have : b'.1.toNat + (roundup4 b'.2).toNat ≤ b.1.toNat := hle
      omega
  · obtain ⟨v, h', hret, hin, -⟩ := malloc_step hs hok
    rw [pgnum_eq] at hin
    refine ⟨v, h', hret, ?_, ?_⟩
    · rw [BitVec.le_def, mbegin_to_nat]
      have := hin.1
      omega
    · rw [BitVec.lt_def, mend_to_nat]
      have := hin.2
      omega

/-- In every run of benign calls that strand no page, when all blocks have been freed, the only
page of the region that can still be mapped is the one of the pointer. -/
theorem malloc_no_leak (s₀ s : Client) (hfresh : Fresh s₀)
    (hrun : Runs (fun t ev => Benign t ev ∧ ¬ Strands t ev) s₀ s) (hfreed : s.live = []) (p : Nat)
    (hp : InRegion p) (hmapped : s.heap.mappedPage p = true) : p = pgnum s.heap.mptr := by
  have htight := (tight_run (kept_fresh hfresh) (tight_fresh hfresh) hrun).2
  have hblocks : s.blocks = [] := by rw [Client.blocks, hfreed]; rfl
  have hpage : s.heap.pages.page p ≠ none := fun hnone => page_eq_none.1 hnone ⟨hp, hmapped⟩
  rw [hblocks] at htight
  rw [pgnum_eq]
  exact htight.only_pointer hpage

/-! ## Two programs -/

/-- A program that starts with an empty address space. -/
def empty : Client := ⟨⟨0, fun _ => false, fun _ => 0, fun _ => 0⟩, []⟩

theorem fresh_empty : Fresh empty := ⟨rfl, rfl, fun _ _ => rfl⟩

/-- The state after a call, if it returns. -/
def Client.next (s : Client) : Event → Option Client
  | .malloc n avail =>
      match malloc avail n s.heap with
      | .ret v h' => some ⟨h', if v = 0 then s.live else (v, n) :: s.live⟩
      | .exit _ _ => none
  | .free v n =>
      if (v, n) ∈ s.live then
        match free v s.heap with
        | .ret _ h' => some ⟨h', s.live.erase (v, n)⟩
        | .exit _ _ => none
      else none
  | .compute => some s

/-- What `next` computes is a step. -/
theorem step_of_next {s s' : Client} {ev : Event} (h : s.next ev = some s') : Step s ev s' := by
  cases ev with
  | malloc n avail =>
      rw [Client.next] at h
      split at h
      case h_1 v h' hret =>
        cases h
        exact .malloc hret
      case h_2 => cases h
  | free v n =>
      rw [Client.next] at h
      split at h
      case isTrue hlive =>
        split at h
        case h_1 h' hret =>
          cases h
          exact .free hlive hret
        case h_2 => cases h
      case isFalse => cases h
  | compute =>
      cases h
      exact .compute rfl (fun _ _ => ⟨rfl, rfl⟩) fun _ _ _ => rfl

/-- The state after a call that returns. -/
def after (s : Client) (ev : Event) : Client := (s.next ev).getD s

theorem step_after {s : Client} {ev : Event} (h : (s.next ev).isSome = true) :
    Step s ev (after s ev) := by
  refine step_of_next ?_
  obtain ⟨s', hs'⟩ := Option.isSome_iff_exists.1 h
  rw [after, hs']
  rfl

theorem Runs.after {ok : Client → Event → Prop} {s₀ s : Client} {ev : Event} (hrun : Runs ok s₀ s)
    (hok : ok s ev) (h : (s.next ev).isSome = true) : Runs ok s₀ (after s ev) :=
  hrun.tail ⟨ev, hok, step_after h⟩

/-- A call of `malloc` when there is memory. -/
def callMalloc (n : Word) : Event := .malloc n fun _ => true

/-- A run with two blocks in the first page, of which the first is freed, and with a block that
does not fit in the rest of the page. -/
def served : Client :=
  after (after (after (after empty (callMalloc 4)) (callMalloc 6)) (.free mbegin 4))
    (callMalloc 5000)

theorem run_served : Runs Benign empty served := by
  refine .after (.after (.after (.after .refl ?_ ?_) ?_ ?_) trivial ?_) ?_ ?_
  · exact ⟨by decide, fun _ => ⟨fun hmod => absurd rfl hmod, fun hmod => absurd rfl hmod⟩⟩
  · decide +kernel
  · exact ⟨by decide, fun _ => ⟨fun _ _ => by decide +kernel, fun _ _ => by decide +kernel⟩⟩
  · decide +kernel
  · decide +kernel
  · exact ⟨by decide, fun _ => ⟨fun _ _ => by decide +kernel, fun _ _ => by decide +kernel⟩⟩
  · decide +kernel

/-- Both blocks that are left are good and apart. -/
theorem malloc_sound_served :
    Good served.heap (mbegin + 4, 6) ∧ Good served.heap (mbegin + 4096, 5000) ∧
      served.live.Pairwise Separate := by
  obtain ⟨hgood, hapart, -⟩ := malloc_sound empty served fresh_empty run_served
  exact ⟨hgood _ (by decide +kernel), hgood _ (by decide +kernel), hapart⟩

/-- The size `2 ^ 32 - 1` is rounded to 0, and `malloc` returns a block for it. -/
theorem malloc_rounds_to_zero : ∃ s₀ s b, Fresh s₀ ∧ Runs (fun _ _ => True) s₀ s ∧ b ∈ s.live ∧
    b.2 = 0xFFFFFFFF ∧ ¬ Good s.heap b := by
  refine ⟨empty, after empty (callMalloc 0xFFFFFFFF), (mbegin, 0xFFFFFFFF), fresh_empty,
    Runs.after .refl trivial (by decide +kernel), by decide +kernel, rfl, ?_⟩
  intro hgood
  exact absurd hgood.high (by decide)

/-- Freeing the only block leaves the page of the pointer. -/
theorem malloc_no_leak_four : 0x8000 = pgnum
    (after (after empty (callMalloc 4)) (.free mbegin 4)).heap.mptr := by
  have hfirst : Benign empty (callMalloc 4) ∧ ¬ Strands empty (callMalloc 4) := by
    refine ⟨⟨by decide, fun _ => ⟨fun hmod => absurd rfl hmod, fun hmod => absurd rfl hmod⟩⟩, ?_⟩
    rintro ⟨-, -, hpage, -⟩
    cases hpage
  have hrun : Runs (fun t ev => Benign t ev ∧ ¬ Strands t ev) empty
      (after (after empty (callMalloc 4)) (.free mbegin 4)) :=
    (Runs.after .refl hfirst (by decide +kernel)).after ⟨trivial, fun h => h⟩ (by decide +kernel)
  exact malloc_no_leak empty _ fresh_empty hrun (by decide +kernel) 0x8000 (by decide)
    (by decide +kernel)

/-- The size of a call is below `MAXMALLOC`. -/
def BelowMax : Event → Prop
  | .malloc n _ => n < maxmalloc
  | .free _ _ => True
  | .compute => True

/-- A block of one page leaves the pointer at the start of the next, whose count is never dropped:
when this block and the next have been freed, the page is still mapped. -/
theorem malloc_leaks_page : ∃ s₀ s p, Fresh s₀ ∧ Runs (fun _ ev => BelowMax ev) s₀ s ∧
    s.live = [] ∧ InRegion p ∧ s.heap.mappedPage p = true ∧ p ≠ pgnum s.heap.mptr := by
  have hrun : Runs (fun _ ev => BelowMax ev) empty (after (after (after (after empty
      (callMalloc 4096)) (callMalloc 4)) (.free mbegin 4096)) (.free 0x08002000 4)) := by
    refine Runs.after (Runs.after (Runs.after (Runs.after .refl ?_ ?_) ?_ ?_) trivial ?_) trivial ?_
    · show (4096 : Word) < maxmalloc
      decide
    · decide +kernel
    · show (4 : Word) < maxmalloc
      decide
    · decide +kernel
    · decide +kernel
    · decide +kernel
  exact ⟨empty, _, 0x8001, fresh_empty, hrun, by decide +kernel, by decide, by decide +kernel,
    by decide +kernel⟩

end Labs.Jos.Malloc
