import Labs.Jos.LwipMemCalls
import Mathlib.Data.List.Forall2
import Mathlib.Logic.Relation

/-!
# Runs of the allocator of lwIP

A program gets blocks from the heap, gives them back, makes them smaller, and stores into them and
outside the heap. In every run every call returns, and the blocks are sound.
-/

namespace Labs.Jos.LwipMem

open Prog Tiling Relation

/-- A program that uses the heap, and the blocks that it holds, with the sizes it asked for. -/
structure Client where
  heap : Heap
  live : List (Word × Word)

/-- The byte at `i` belongs to the block. -/
def InBlock (b : Word × Word) (i : Nat) : Prop := b.1.toNat ≤ i ∧ i < b.1.toNat + b.2.toNat

/-- The byte at `i` belongs to the heap, headers included. -/
def InHeap (h : Heap) (i : Nat) : Prop := h.ram.toNat ≤ i ∧ i < h.ram.toNat + 2228236

/-- What the program does. A block is named by its address and size. -/
inductive Event where
  | malloc (n : Word)
  | calloc (count size : Word)
  | free (v n : Word)
  | realloc (v n newsize : Word)
  | compute

/-- One step of the program. When it computes, it changes the heap only inside its blocks. -/
inductive Step : Client → Event → Client → Prop where
  | malloc {s : Client} {n v : Word} {h' : Heap} (hret : memMalloc n s.heap = .ret v h') :
      Step s (.malloc n) ⟨h', if v = 0 then s.live else (v, n) :: s.live⟩
  | calloc {s : Client} {count size v : Word} {h' : Heap}
      (hret : memCalloc count size s.heap = .ret v h') :
      Step s (.calloc count size) ⟨h', if v = 0 then s.live else (v, count * size) :: s.live⟩
  | free {s : Client} {v n : Word} {h' : Heap} (hlive : (v, n) ∈ s.live)
      (hret : memFree v s.heap = .ret () h') : Step s (.free v n) ⟨h', s.live.erase (v, n)⟩
  | realloc {s : Client} {v n newsize w : Word} {h' : Heap} (hlive : (v, n) ∈ s.live)
      (hret : memRealloc v newsize s.heap = .ret w h') :
      Step s (.realloc v n newsize)
        ⟨h', if w = 0 then s.live else (w, newsize) :: s.live.erase (v, n)⟩
  | compute {s : Client} {bytes : Bytes}
      (hbytes : ∀ i, InHeap s.heap i → (∀ b ∈ s.live, ¬ InBlock b i) → bytes i = s.heap.bytes i) :
      Step s .compute ⟨{ s.heap with bytes := bytes }, s.live⟩

/-- A call whose sizes can be rounded up, and that enlarges no block. -/
def Benign : Event → Prop
  | .malloc n => n.toNat ≤ 0xFFFFFFFC
  | .calloc count size => count.toNat * size.toNat ≤ 0xFFFFFFFC
  | .free _ _ => True
  | .realloc _ n newsize => newsize ≤ n
  | .compute => True

/-- Why the sizes are bounded: larger ones are rounded to nothing, and get the least block. -/
theorem block_size_wraps {n : Word} (hn : 0xFFFFFFFC < n.toNat) : blockSize n = minSizeAligned := by
  have hmask : memAlign n = (n + 3) &&& ~~~3#32 := by
    unfold memAlign
    congr 1
    bv_omega
  have hzero : (memAlign n).toNat = 0 := by
    rw [hmask, and_not_three]
    simp [Nat.shiftLeft_eq, Nat.shiftRight_eq_div_pow]
    omega
  have hlt : memAlign n < minSizeAligned := by
    rw [BitVec.lt_def, hzero]
    decide
  rw [blockSize, if_pos hlt]

/-- The blocks that a call names are live. -/
def Client.Names (s : Client) : Event → Prop
  | .free v n => (v, n) ∈ s.live
  | .realloc v n _ => (v, n) ∈ s.live
  | _ => True

/-- The runs whose steps are benign. -/
def Runs : Client → Client → Prop := ReflTransGen fun s s' => ∃ ev, Benign ev ∧ Step s ev s'

/-- A program that has called `mem_init`, with the array `ram_heap` in its address space. -/
def Fresh (s : Client) : Prop :=
  s.live = [] ∧ ∃ ramHeap h, ramHeap.toNat + ramHeapSize ≤ 2 ^ 32 ∧
    memInit ramHeap h = .ret () s.heap

/-! ## The invariant -/

/-- The block that the program holds is one of the heap, and has the room that was asked for. -/
def Room (h : Heap) (b : Word × Word) (k : Nat × Nat) : Prop :=
  b.1 = h.at k.1 ∧ b.2.toNat ≤ k.2

/-- The program holds the blocks of the cells. -/
def Holds (h : Heap) (live : List (Word × Word)) (blocks : List (Nat × Nat)) : Prop :=
  ∃ rooms, List.Forall₂ (Room h) live rooms ∧ rooms.Perm blocks

variable {h h' : Heap} {live : List (Word × Word)} {blocks blocks' : List (Nat × Nat)}
  {b : Word × Word} {cells : List Cell} {s s' : Client}

theorem Holds.perm (hh : Holds h live blocks) (hperm : blocks.Perm blocks') :
    Holds h live blocks' := by
  obtain ⟨rooms, hrooms, hp⟩ := hh
  exact ⟨rooms, hrooms, hp.trans hperm⟩

theorem Holds.cons {k : Nat × Nat} (hh : Holds h live blocks) (hk : Room h b k) :
    Holds h (b :: live) (k :: blocks) := by
  obtain ⟨rooms, hrooms, hp⟩ := hh
  exact ⟨k :: rooms, .cons hk hrooms, hp.cons k⟩

/-- The block in the heap of a block that the program holds, and the others. -/
theorem Holds.erase (hh : Holds h live blocks) (hb : b ∈ live) :
    ∃ k rest, Room h b k ∧ blocks.Perm (k :: rest) ∧ Holds h (live.erase b) rest := by
  obtain ⟨rooms, hrooms, hp⟩ := hh
  obtain ⟨rooms', hrooms', hp'⟩ := List.perm_comp_forall₂ (List.perm_cons_erase hb).symm hrooms
  cases hrooms' with
  | cons hk hrest => exact ⟨_, _, hk, (hp'.trans hp).symm, _, hrest, .refl _⟩

theorem Holds.mem (hh : Holds h live blocks) (hb : b ∈ live) : ∃ k ∈ blocks, Room h b k := by
  obtain ⟨k, rest, hk, hperm, -⟩ := hh.erase hb
  exact ⟨k, hperm.mem_iff.2 List.mem_cons_self, hk⟩

theorem Holds.congr (hh : Holds h live blocks) (hram : h'.ram = h.ram) :
    Holds h' live blocks := by
  obtain ⟨rooms, hrooms, hp⟩ := hh
  refine ⟨rooms, hrooms.imp fun b k hk => ?_, hp⟩
  rw [Room, Heap.at, hram]
  exact hk

/-- The heap is sound, and the program holds its blocks. -/
def Client.Kept (s : Client) : Prop :=
  ∃ cells, s.heap.Laid cells ∧ s.heap.memSem = 1 ∧ Holds s.heap s.live (Tiling.blocks 12 0 cells)

theorem kept_fresh (hs : Fresh s) : s.Kept := by
  obtain ⟨hlive, ramHeap, h, hroom, hret⟩ := hs
  obtain ⟨h', hret', hl, hsem⟩ := mem_init_spec h hroom
  cases hret.symm.trans hret'
  refine ⟨_, hl, hsem, [], ?_, .refl _⟩
  rw [hlive]
  exact .nil

/-- Where a live block lies. -/
theorem room_place {k : Nat × Nat} (ht : h.Tiled cells) (hk : k ∈ Tiling.blocks 12 0 cells)
    (hroom : Room h b k) : b.1.toNat = h.ram.toNat + k.1 ∧ 12 ≤ k.1 ∧ k.1 + k.2 ≤ 2228224 := by
  have hin := block_inside ht.roomy hk
  rw [ht.extent] at hin
  rw [hroom.1, at_to_nat ht.placed (by omega)]
  omega

theorem foreign_of_live {i : Nat} (ht : h'.Tiled cells)
    (hh : Holds h' live (Tiling.blocks 12 0 cells)) (hram : h'.ram = h.ram) (hb : b ∈ live)
    (hi : InBlock b i) : h.Foreign cells i := by
  obtain ⟨k, hk, hroom⟩ := hh.mem hb
  have hplace := room_place ht hk hroom
  have hsize := hroom.2
  have hlo := hi.1
  have hhi := hi.2
  refine .inr (.inr ⟨k, hk, ?_, ?_⟩)
  · rw [← hram]
    omega
  · rw [← hram]
    omega

/-- A header lies between two blocks. -/
def Separate (b b' : Word × Word) : Prop :=
  b.1.toNat + b.2.toNat + 12 ≤ b'.1.toNat ∨ b'.1.toNat + b'.2.toNat + 12 ≤ b.1.toNat

theorem pairwise_of_forall₂ {rooms : List (Nat × Nat)} (ht : h.Tiled cells)
    (hrooms : List.Forall₂ (Room h) live rooms) (hsub : rooms ⊆ Tiling.blocks 12 0 cells)
    (hpair : rooms.Pairwise fun k k' => k.1 + k.2 + 12 ≤ k'.1 ∨ k'.1 + k'.2 + 12 ≤ k.1) :
    live.Pairwise Separate := by
  induction hrooms with
  | nil => exact .nil
  | @cons b k live rooms hk hrest ih =>
      obtain ⟨hfst, hpair⟩ := List.pairwise_cons.1 hpair
      have hsub' : rooms ⊆ Tiling.blocks 12 0 cells := fun k hk => hsub (List.mem_cons_of_mem _ hk)
      refine List.pairwise_cons.2 ⟨fun b' hb' => ?_, ih hsub' hpair⟩
      obtain ⟨k', hk', hroom'⟩ := Holds.mem ⟨rooms, hrest, .refl _⟩ hb'
      have hplace := room_place ht (hsub List.mem_cons_self) hk
      have hplace' := room_place ht (hsub' hk') hroom'
      have hsize := hk.2
      have hsize' := hroom'.2
      have hor := hfst k' hk'
      unfold Separate
      omega

theorem live_separate (ht : h.Tiled cells) (hh : Holds h live (Tiling.blocks 12 0 cells)) :
    live.Pairwise Separate := by
  obtain ⟨rooms, hrooms, hperm⟩ := hh
  have hapart : (blocks 12 0 cells).Pairwise fun b b' => b.1 + b.2 + 12 ≤ b'.1 :=
    blocks_apart ht.roomy
  refine pairwise_of_forall₂ ht hrooms (fun k hk => hperm.mem_iff.1 hk) ?_
  refine (hperm.pairwise_iff fun {k k'} hor => hor.symm).2 ?_
  exact hapart.imp fun hle => .inl hle

/-- A call keeps the heap sound. It changes nothing outside the heap, and nothing that belongs to a
block of the program before and after it. -/
structure Served (s s' : Client) : Prop where
  kept : s'.Kept
  ram : s'.heap.ram = s.heap.ram
  bytes : ∀ i, ¬ InHeap s.heap i ∨ (∃ b ∈ s.live, InBlock b i) ∧ (∃ b ∈ s'.live, InBlock b i) →
    s'.heap.bytes i = s.heap.bytes i

theorem served_of_becomes {live' : List (Word × Word)} (hb : s.heap.Becomes h' cells)
    (hl : h'.Laid cells) (hsem : h'.memSem = 1) (hh : Holds h' live' (Tiling.blocks 12 0 cells)) :
    Served s ⟨h', live'⟩ := by
  refine ⟨⟨cells, hl, hsem, hh⟩, hb.ram, fun i hi => hb.bytes i ?_⟩
  rcases hi with hout | ⟨-, b, hb', hin⟩
  · unfold InHeap at hout
    unfold Heap.Foreign
    omega
  · exact foreign_of_live hl.toTiled hh hb.ram hb' hin

theorem malloc_step {n : Word} (hs : s.Kept) (hn : n.toNat ≤ 0xFFFFFFFC) :
    ∃ v h', memMalloc n s.heap = .ret v h' ∧
      Served s ⟨h', if v = 0 then s.live else (v, n) :: s.live⟩ := by
  obtain ⟨cells, hl, hsem, hh⟩ := hs
  obtain ⟨v, h', hret, hfound⟩ := ret_of_wp (mem_malloc_spec hl hsem hn)
  refine ⟨v, h', hret, ?_⟩
  rcases hfound with ⟨rfl, rfl, -⟩ | ⟨pre, c, post, rfl, -, hfits, -, hgiven⟩
  · rw [if_pos rfl]
    exact served_of_becomes (.refl hl.toTiled) hl hsem hh
  · have hbecomes := hgiven.becomes.of_same (h := s.heap) rfl rfl rfl
    have hblock : v = s.heap.at (extent pre + 12) := hgiven.block
    have hsize := hl.toTiled.bounds
    have hv : v ≠ 0 := by
      intro hzero
      have hnat := at_to_nat hl.placed (o := extent pre + 12) (by omega)
      rw [← hblock, hzero] at hnat
      have : (0 : Word).toNat = 0 := rfl
      omega
    obtain ⟨size, hneed, hperm⟩ := blocks_cut_perm hfits 12 pre post
    rw [if_neg hv]
    refine served_of_becomes hbecomes ⟨hbecomes.tiled, hgiven.coalesced, hgiven.lfree⟩ hgiven.memSem
      (((hh.congr hbecomes.ram).cons ⟨?_, ?_⟩).perm hperm.symm)
    · rw [hblock, Heap.at, Heap.at, hbecomes.ram]
    · exact (need_spec n.toNat).2.1.trans hneed

/-- The cell of a live block. -/
theorem cell_of_live (hl : h.Laid cells) (hh : Holds h live (Tiling.blocks 12 0 cells))
    (hb : b ∈ live) : ∃ pre c post, cells = pre ++ c :: post ∧ c.used = true ∧
      b.1 = h.at (extent pre + 12) ∧ 12 + b.2.toNat ≤ c.size ∧
      Holds h (live.erase b) (Tiling.blocks 12 0 (release pre c post)) := by
  obtain ⟨k, rest, hk, hperm, hrest⟩ := hh.erase hb
  obtain ⟨pre, c, post, rfl, hused, rfl⟩ := cell_of_block (hperm.mem_iff.2 List.mem_cons_self)
  have hsize := hl.toTiled.bounds
  have hroom := hk.2
  have hplace := hk.1
  dsimp only at hroom hplace
  rw [Nat.zero_add] at hplace hperm
  have hcons := hperm.symm.trans (blocks_release_perm hused pre post)
  exact ⟨pre, c, post, rfl, hused, hplace, by omega, hrest.perm hcons.cons_inv⟩

theorem free_step {v n : Word} (hs : s.Kept) (hlive : (v, n) ∈ s.live) :
    ∃ h', memFree v s.heap = .ret () h' ∧ Served s ⟨h', s.live.erase (v, n)⟩ := by
  obtain ⟨cells, hl, hsem, hh⟩ := hs
  obtain ⟨pre, c, post, rfl, hused, hv, -, hrest⟩ := cell_of_live hl hh hlive
  obtain ⟨h', hret, hbecomes, hl', hsem'⟩ := mem_free_spec hl hused hsem
  dsimp only at hv
  rw [← hv] at hret
  exact ⟨h', hret, served_of_becomes hbecomes hl' hsem' (hrest.congr hbecomes.ram)⟩

theorem realloc_step {v n newsize : Word} (hs : s.Kept) (hlive : (v, n) ∈ s.live)
    (hle : newsize ≤ n) : ∃ w h', memRealloc v newsize s.heap = .ret w h' ∧
      Served s ⟨h', if w = 0 then s.live else (w, newsize) :: s.live.erase (v, n)⟩ := by
  obtain ⟨cells, hl, hsem, hh⟩ := hs
  obtain ⟨pre, c, post, rfl, hused, hv, hroom, hrest⟩ := cell_of_live hl hh hlive
  have hsize := hl.toTiled.bounds
  have hword := hl.words c (by simp)
  dsimp only at hv hroom
  rw [BitVec.le_def] at hle
  have hfit : need newsize.toNat ≤ c.size - 12 := need_le (by omega) (by omega) (by omega)
  obtain ⟨h', hret, hbecomes, hl', hsem'⟩ := mem_realloc_spec (n := newsize) hl hused hsem
    (by omega) (by omega)
  rw [← hv] at hret
  have hne : v ≠ 0 := by
    intro hzero
    have hnat := at_to_nat hl.placed (o := extent pre + 12) (by omega)
    rw [← hv, hzero] at hnat
    have : (0 : Word).toNat = 0 := rfl
    omega
  have hfit : 12 + need newsize.toNat ≤ c.size := by omega
  obtain ⟨size, hneed, hperm⟩ := blocks_shrink_perm hfit 12 pre post
  refine ⟨v, h', hret, ?_⟩
  rw [if_neg hne]
  refine served_of_becomes hbecomes hl' hsem'
    (((hrest.congr hbecomes.ram).cons ⟨?_, ?_⟩).perm hperm.symm)
  · rw [hv, Heap.at, Heap.at, hbecomes.ram]
  · exact (need_spec newsize.toNat).2.1.trans hneed

/-- What the program stores leaves the headers alone. -/
theorem compute_step {bytes : Bytes} (hs : s.Kept)
    (hbytes : ∀ i, InHeap s.heap i → (∀ b ∈ s.live, ¬ InBlock b i) → bytes i = s.heap.bytes i) :
    Client.Kept ⟨{ s.heap with bytes := bytes }, s.live⟩ := by
  obtain ⟨cells, hl, hsem, hh⟩ := hs
  refine ⟨cells, ⟨hl.toTiled.stored fun o ho x hlo hhi => hbytes x ?_ ?_, hl.coalesced, hl.lfree⟩,
    hsem, hh.congr rfl⟩
  · have hend : o ≤ 2228224 := by
      obtain ⟨pre, post, rfl, rfl⟩ := ho
      have := hl.extent
      rw [extent_append] at this
      omega
    exact ⟨by omega, by omega⟩
  · intro b hb hin
    obtain ⟨k, hk, hroom⟩ := hh.mem hb
    have hplace := room_place hl.toTiled hk hroom
    have hsize := hroom.2
    have hapart := border_apart hl.roomy ho hk
    unfold InBlock at hin
    omega

/-- Where a live block lies in the heap. -/
theorem live_in_heap (hl : h.Laid cells) (hh : Holds h live (Tiling.blocks 12 0 cells))
    (hb : b ∈ live) : h.ram.toNat + 12 ≤ b.1.toNat ∧
      b.1.toNat + b.2.toNat ≤ h.ram.toNat + 2228224 ∧ b.1.toNat % 4 = 0 := by
  obtain ⟨pre, c, post, rfl, -, hv, hroom, -⟩ := cell_of_live hl hh hb
  have hsize := hl.toTiled.bounds
  have hpre : extent pre % 4 = 0 := extent_mod fun d hd => hl.words d (by simp [hd])
  have haligned := hl.placed.aligned
  rw [hv, at_to_nat hl.placed (by omega)]
  omega

theorem calloc_step {count size : Word} (hs : s.Kept)
    (hn : count.toNat * size.toNat ≤ 0xFFFFFFFC) :
    ∃ v h', memCalloc count size s.heap = .ret v h' ∧
      Served s ⟨h', if v = 0 then s.live else (v, count * size) :: s.live⟩ := by
  have hnat : (count * size).toNat = count.toNat * size.toNat := by
    rw [BitVec.toNat_mul]
    omega
  obtain ⟨v, h', hret, hserved⟩ := malloc_step hs (n := count * size) (by omega)
  by_cases hv : v = 0
  · refine ⟨v, h', ?_, hserved⟩
    rw [memCalloc, bind_of_ret hret, if_neg (by simp [hv])]
    rfl
  · refine ⟨v, { h' with bytes := h'.bytes.fill v.toNat (count * size).toNat 0 }, ?_, ?_⟩
    · rw [memCalloc, bind_of_ret hret, if_pos hv]
      rfl
    · rw [if_neg hv] at hserved ⊢
      obtain ⟨cells, hl, -, hh⟩ := hserved.kept
      have hapart := (List.pairwise_cons.1 (live_separate hl.toTiled hh)).1
      have hplace := live_in_heap hl hh List.mem_cons_self
      have hram := hserved.ram
      dsimp only at hplace hram
      refine ⟨compute_step hserved.kept fun i _ hout => ?_, hserved.ram, fun i hi => ?_⟩
      · exact Bytes.fill_of_not (hout _ List.mem_cons_self)
      · -- the bytes of the new block were in the heap, and belonged to no block
        refine (Bytes.fill_of_not ?_).trans (hserved.bytes i hi)
        rcases hi with hout | ⟨⟨b, hb, hlo, hhi⟩, -⟩
        · unfold InHeap at hout
          rw [hram] at hplace
          omega
        · have hsep := hapart b hb
          unfold Separate at hsep
          dsimp only at hsep
          omega

/-- Every benign event is possible, and keeps the heap sound. -/
theorem step_spec {ev : Event} (hs : s.Kept) (hok : Benign ev) (hnames : s.Names ev) :
    ∃ s', Step s ev s' := by
  cases ev with
  | malloc n =>
      obtain ⟨v, h', hret, -⟩ := malloc_step hs hok
      exact ⟨_, .malloc hret⟩
  | calloc count size =>
      obtain ⟨v, h', hret, -⟩ := calloc_step hs hok
      exact ⟨_, .calloc hret⟩
  | free v n =>
      obtain ⟨h', hret, -⟩ := free_step hs hnames
      exact ⟨_, .free hnames hret⟩
  | realloc v n newsize =>
      obtain ⟨w, h', hret, -⟩ := realloc_step hs hnames hok
      exact ⟨_, .realloc hnames hret⟩
  | compute => exact ⟨_, .compute fun _ _ _ => rfl⟩

/-- What a benign step other than a computation does. -/
theorem served_of_step {ev : Event} (hs : s.Kept) (hok : Benign ev) (hstep : Step s ev s') :
    ev ≠ .compute → Served s s' := by
  intro hne
  cases hstep with
  | malloc hret =>
      obtain ⟨v, h', hret', hserved⟩ := malloc_step hs hok
      cases hret.symm.trans hret'
      exact hserved
  | calloc hret =>
      obtain ⟨v, h', hret', hserved⟩ := calloc_step hs hok
      cases hret.symm.trans hret'
      exact hserved
  | free hlive hret =>
      obtain ⟨h', hret', hserved⟩ := free_step hs hlive
      cases hret.symm.trans hret'
      exact hserved
  | realloc hlive hret =>
      obtain ⟨w, h', hret', hserved⟩ := realloc_step hs hlive hok
      cases hret.symm.trans hret'
      exact hserved
  | compute _ => exact absurd rfl hne

theorem Client.Kept.step {ev : Event} (hs : s.Kept) (hok : Benign ev) (hstep : Step s ev s') :
    s'.Kept := by
  by_cases hev : ev = .compute
  · subst hev
    cases hstep with
    | compute hbytes => exact compute_step hs hbytes
  · exact (served_of_step hs hok hstep hev).kept

theorem Client.Kept.run (hs : s.Kept) (hrun : Runs s s') : s'.Kept := by
  induction hrun with
  | refl => exact hs
  | tail _ hstep ih =>
      obtain ⟨ev, hok, hstep⟩ := hstep
      exact ih.step hok hstep

/-! ## The results -/

/-- The block is aligned, and lies in the heap behind a header. -/
structure Good (h : Heap) (b : Word × Word) : Prop where
  aligned : b.1.toNat % 4 = 0
  low : h.ram.toNat + 12 ≤ b.1.toNat
  high : b.1.toNat + b.2.toNat ≤ h.ramEnd.toNat

/-- In every run of benign events all blocks are good and apart from each other, every benign call
returns, and a call changes no byte outside the heap, and none that belongs to a block before and
after it. -/
theorem mem_heap_sound (s₀ s : Client) (hfresh : Fresh s₀) (hrun : Runs s₀ s) :
    (∀ b ∈ s.live, Good s.heap b) ∧ s.live.Pairwise Separate ∧
      ∀ ev, Benign ev → s.Names ev → (∃ s', Step s ev s') ∧ ∀ s', Step s ev s' → ev ≠ .compute →
        ∀ i, ¬ InHeap s.heap i ∨ (∃ b ∈ s.live, InBlock b i) ∧ (∃ b ∈ s'.live, InBlock b i) →
          s'.heap.bytes i = s.heap.bytes i := by
  have hs : s.Kept := (kept_fresh hfresh).run hrun
  obtain ⟨cells, hl, hsem, hh⟩ := id hs
  refine ⟨fun b hb => ?_, live_separate hl.toTiled hh, fun ev hok hnames => ⟨step_spec hs hok hnames,
    fun s' hstep hne => (served_of_step hs hok hstep hne).bytes⟩⟩
  have hplace := live_in_heap hl hh hb
  refine ⟨hplace.2.2, hplace.1, ?_⟩
  rw [hl.placed.ramEnd, at_to_nat hl.placed (Nat.le_refl _)]
  exact hplace.2.1

/-- A program that has just set up its heap. -/
def start : Client := ⟨(memInit 0x800000 ⟨fun _ => 0, 0, 0, 0, 0⟩).state, []⟩

theorem fresh_start : Fresh start := by
  have hroom : (0x800000 : Word).toNat + ramHeapSize ≤ 2 ^ 32 := by decide
  obtain ⟨h', hret, -⟩ := mem_init_spec ⟨fun _ => 0, 0, 0, 0, 0⟩ hroom
  refine ⟨rfl, 0x800000, ⟨fun _ => 0, 0, 0, 0, 0⟩, by decide, ?_⟩
  rw [start, hret]
  rfl

/-- The client after an event, if the call returns. When the program computes, it stores nothing. -/
def Client.next (s : Client) : Event → Option Client
  | .malloc n =>
      match memMalloc n s.heap with
      | .ret v h' => some ⟨h', if v = 0 then s.live else (v, n) :: s.live⟩
      | .exit _ _ => none
  | .calloc count size =>
      match memCalloc count size s.heap with
      | .ret v h' => some ⟨h', if v = 0 then s.live else (v, count * size) :: s.live⟩
      | .exit _ _ => none
  | .free v n =>
      match memFree v s.heap with
      | .ret () h' => if s.live.contains (v, n) then some ⟨h', s.live.erase (v, n)⟩ else none
      | .exit _ _ => none
  | .realloc v n newsize =>
      match memRealloc v newsize s.heap with
      | .ret w h' =>
          if s.live.contains (v, n) then
            some ⟨h', if w = 0 then s.live else (w, newsize) :: s.live.erase (v, n)⟩
          else none
      | .exit _ _ => none
  | .compute => some s

theorem step_of_next {ev : Event} (hnext : s.next ev = some s') : Step s ev s' := by
  cases ev with
  | malloc n =>
      cases hret : memMalloc n s.heap with
      | ret v h' =>
          rw [Client.next, hret, Option.some.injEq] at hnext
          exact hnext ▸ .malloc hret
      | exit e h' => simp [Client.next, hret] at hnext
  | calloc count size =>
      cases hret : memCalloc count size s.heap with
      | ret v h' =>
          rw [Client.next, hret, Option.some.injEq] at hnext
          exact hnext ▸ .calloc hret
      | exit e h' => simp [Client.next, hret] at hnext
  | free v n =>
      cases hret : memFree v s.heap with
      | ret u h' =>
          simp only [Client.next, hret, Option.ite_none_right_eq_some, Option.some.injEq] at hnext
          obtain ⟨hlive, rfl⟩ := hnext
          exact .free (List.contains_iff_mem.1 hlive) hret
      | exit e h' => simp [Client.next, hret] at hnext
  | realloc v n newsize =>
      cases hret : memRealloc v newsize s.heap with
      | ret w h' =>
          simp only [Client.next, hret, Option.ite_none_right_eq_some, Option.some.injEq] at hnext
          obtain ⟨hlive, rfl⟩ := hnext
          exact .realloc (List.contains_iff_mem.1 hlive) hret
      | exit e h' => simp [Client.next, hret] at hnext
  | compute =>
      cases hnext
      exact .compute fun _ _ _ => rfl

/-- The events are benign, and a program that does them one after the other runs. -/
theorem runs_of_foldl {evs : List Event} (hok : ∀ ev ∈ evs, Benign ev)
    (hrun : evs.foldlM Client.next s = some s') : Runs s s' := by
  induction evs generalizing s with
  | nil =>
      cases hrun
      exact .refl
  | cons ev evs ih =>
      obtain ⟨t, hnext, hrest⟩ := Option.bind_eq_some_iff.1 hrun
      exact .head ⟨ev, hok ev List.mem_cons_self, step_of_next hnext⟩
        (ih (fun ev hev => hok ev (List.mem_cons_of_mem _ hev)) hrest)

/-- Three blocks are taken. The first is made smaller, so that a cell is cut off behind it, the one in
the middle is given back and joined with that cell, and its room is used again. -/
def traffic : List Event :=
  [.malloc 100, .malloc 40, .calloc 5 4, .realloc 0x80000c 100 30, .free 0x80007c 40, .malloc 90]

/-- The three blocks that are held after the traffic are good and apart, and the one in the middle
can be given back without a change to the others. -/
theorem mem_heap_sound_traffic : ∃ s s', traffic.foldlM Client.next start = some s ∧
    s.live = [(0x800038, 90), (0x80000c, 30), (0x8000b0, 20)] ∧
    (∀ b ∈ s.live, Good s.heap b) ∧ s.live.Pairwise Separate ∧
    Step s (.free 0x800038 90) s' ∧ s'.live = [(0x80000c, 30), (0x8000b0, 20)] ∧
    ∀ i, InBlock (0x80000c, 30) i → s'.heap.bytes i = s.heap.bytes i := by
  have hlive : (traffic.foldlM Client.next start).map Client.live =
      some [(0x800038, 90), (0x80000c, 30), (0x8000b0, 20)] := by decide +kernel
  obtain ⟨s, hrun, hlive⟩ := Option.map_eq_some_iff.1 hlive
  have hok : ∀ ev ∈ traffic, Benign ev := by
    simp [traffic, Benign]
  obtain ⟨hgood, hsep, hcall⟩ :=
    mem_heap_sound start s fresh_start (runs_of_foldl hok hrun)
  obtain ⟨⟨s', hstep⟩, hsame⟩ := hcall (.free 0x800038 90) trivial (by simp [Client.Names, hlive])
  have hlive' : s'.live = [(0x80000c, 30), (0x8000b0, 20)] := by
    cases hstep with
    | free _ _ =>
        dsimp only
        rw [hlive]
        decide
  refine ⟨s, s', hrun, hlive, hgood, hsep, hstep, hlive', fun i hi => ?_⟩
  refine hsame s' hstep (by simp) i (.inr ⟨⟨_, ?_, hi⟩, _, ?_, hi⟩)
  · simp [hlive]
  · simp [hlive']

/-- In every run of benign events, when all blocks have been given back, a block as large as the
heap without one header can be had, and it lies at the start of the heap. -/
theorem mem_heap_reclaimed (s₀ s : Client) (hfresh : Fresh s₀) (hrun : Runs s₀ s)
    (hfreed : s.live = []) (n : Word) (hpos : n ≠ 0) (hn : n.toNat ≤ 2228212) :
    ∃ h', memMalloc n s.heap = .ret (s.heap.ram + 12) h' := by
  obtain ⟨cells, hl, hsem, rooms, hrooms, hperm⟩ := (kept_fresh hfresh).run hrun
  rw [hfreed] at hrooms
  cases hrooms
  have hextent := hl.extent
  have hne : cells ≠ [] := by
    intro hnil
    rw [hnil, extent_nil] at hextent
    omega
  have hsingle := single_of_no_blocks hl.coalesced hne hperm.symm.eq_nil
  rw [hextent] at hsingle
  obtain ⟨v, h', hret, hfound⟩ := ret_of_wp (mem_malloc_spec (n := n) hl hsem (by omega))
  rcases hfound with ⟨-, -, hzero | hnone⟩ | ⟨pre, c, post, hcells, -, -, -, hgiven⟩
  · exact absurd hzero hpos
  · refine absurd ⟨rfl, ?_⟩ (hnone ⟨2228224, false⟩ (by rw [hsingle]; exact List.mem_cons_self))
    unfold need
    dsimp only
    omega
  · rw [hsingle] at hcells
    have hpre : pre = [] := by
      cases pre with
      | nil => rfl
      | cons d pre => simp at hcells
    refine ⟨h', ?_⟩
    rw [hret, hgiven.block, hpre]
    rfl

/-- The blocks of the traffic are given back, the last one first: it is joined with the cell behind it,
the first with nothing, and the one in the middle with both sides. -/
def emptied : List Event :=
  traffic ++ [.free 0x8000b0 20, .free 0x80000c 30, .free 0x800038 90]

/-- After three blocks have been taken, cut, and given back, the whole heap is one block again. -/
theorem mem_heap_reclaimed_traffic : ∃ s h', emptied.foldlM Client.next start = some s ∧
    memMalloc 2228212 s.heap = .ret (s.heap.ram + 12) h' := by
  have hlive : (emptied.foldlM Client.next start).map Client.live = some [] := by decide +kernel
  obtain ⟨s, hrun, hlive⟩ := Option.map_eq_some_iff.1 hlive
  have hok : ∀ ev ∈ emptied, Benign ev := by
    simp [emptied, traffic, Benign]
  obtain ⟨h', hret⟩ := mem_heap_reclaimed start s fresh_start (runs_of_foldl hok hrun) hlive 2228212
    (by decide) (by decide)
  exact ⟨s, h', hrun, hret⟩

end Labs.Jos.LwipMem
