import Labs.Jos.LwipMemSpec

/-!
# Calls of the allocator of lwIP

What `mem_malloc`, `mem_free` and `mem_realloc` do with the cells of the heap. In a heap whose
headers are sound no assertion fails, and every search ends.
-/

namespace Labs.Jos.LwipMem

open Prog Tiling

variable {h h' : Heap} {cells pre post : List Cell} {c d : Cell} {o n fuel : Nat} {size : Word}

/-! ## Sizes and alignment -/

theorem and_not_three (v : Word) : v &&& ~~~3#32 = (v >>> 2) <<< 2 := by
  ext i hi
  rw [BitVec.getElem_and, BitVec.getElem_shiftLeft, BitVec.getElem_not]
  by_cases hlow : i < 2
  · have hcases : i = 0 ∨ i = 1 := by omega
    rcases hcases with rfl | rfl <;> simp
  · have hthree : (3#32)[i] = false := by
      rw [BitVec.getElem_eq_testBit_toNat]
      exact Nat.testBit_lt_two_pow (Nat.lt_of_lt_of_le (by decide : 3 < 2 ^ 2)
        (Nat.pow_le_pow_right (by decide) (by omega)))
    have hback : 2 + (i - 2) = i := by omega
    rw [hthree, BitVec.getElem_ushiftRight, hback]
    simp [hlow, hi]

/-- Rounding up to the alignment. -/
theorem mem_align_to_nat {w : Word} (hw : w.toNat ≤ 0xFFFFFFFC) :
    (memAlign w).toNat = (w.toNat + 3) / 4 * 4 := by
  have hmask : memAlign w = (w + 3) &&& ~~~3#32 := by
    unfold memAlign
    congr 1
    bv_omega
  rw [hmask, and_not_three]
  simp [Nat.shiftLeft_eq, Nat.shiftRight_eq_div_pow]
  omega

theorem and_three (w : Word) : w &&& (4 - 1) = 0 ↔ w.toNat % 4 = 0 := by
  have hnat : (w &&& (4 - 1)).toNat = w.toNat % 4 := by
    rw [BitVec.toNat_and, show (4 - 1 : Word).toNat = 2 ^ 2 - 1 from rfl,
      Nat.and_two_pow_sub_one_eq_mod]
  rw [← BitVec.toNat_inj, hnat]
  rfl

/-- The room of a block for `n` bytes. -/
def need (n : Nat) : Nat := max 12 ((n + 3) / 4 * 4)

theorem block_size_to_nat {w : Word} (hw : w.toNat ≤ 0xFFFFFFFC) :
    (blockSize w).toNat = need w.toNat := by
  have halign := mem_align_to_nat hw
  unfold blockSize need
  split
  case isTrue hlt =>
    rw [BitVec.lt_def, halign] at hlt
    have : minSizeAligned.toNat = 12 := rfl
    omega
  case isFalse hle =>
    rw [BitVec.lt_def, halign] at hle
    have : minSizeAligned.toNat = 12 := rfl
    omega

theorem need_spec (n : Nat) : 12 ≤ need n ∧ n ≤ need n ∧ need n % 4 = 0 := by
  unfold need
  omega

/-- A block keeps room for what was asked. -/
theorem need_le {n room : Nat} (hroom : 12 ≤ room) (hword : room % 4 = 0) (hn : n ≤ room) :
    need n ≤ room := by
  unfold need
  omega

/-! ## Marking a cell -/

theorem at_add (h : Heap) (o n : Nat) : h.at o + BitVec.ofNat 32 n = h.at (o + n) := by
  rw [Heap.at, Heap.at, BitVec.add_assoc, BitVec.ofNat_add]

/-- The room of a cell, as the source computes it. -/
theorem room_to_nat {s : Nat} (hs : 12 ≤ s) (ho : o + s ≤ 2228224) :
    (BitVec.ofNat 32 (o + s) - (BitVec.ofNat 32 o + sizeofStructMem)).toNat = s - 12 := by
  rw [BitVec.toNat_sub, BitVec.toNat_add, BitVec.toNat_ofNat, BitVec.toNat_ofNat, sizeofStructMem]
  simp
  omega

theorem relink_frame (h : Heap) (ptr2 : Word) :
    (h.relink ptr2).lfree = h.lfree ∧ (h.relink ptr2).memSem = h.memSem := by
  unfold Heap.relink
  dsimp only
  split <;> exact ⟨rfl, rfl⟩

theorem mark_spec (ht : h.Tiled (pre ++ c :: post)) (hfits : Fits 12 size.toNat c)
    (hleast : 12 ≤ size.toNat) (hword : size.toNat % 4 = 0) :
    h.Becomes (h.mark size (BitVec.ofNat 32 (extent pre)))
        (pre ++ (Tiling.cut 12 12 size.toNat c ++ post)) ∧
      (h.mark size (BitVec.ofNat 32 (extent pre))).lfree = h.lfree ∧
      (h.mark size (BitVec.ofNat 32 (extent pre))).memSem = h.memSem := by
  obtain ⟨hsize, hsum⟩ := ht.bounds
  have ho : extent pre ≤ 2228224 := by omega
  have hroom := room_to_nat (o := extent pre) (s := c.size) (by omega) (by omega)
  have hnext : h.next (h.ram + BitVec.ofNat 32 (extent pre)) =
      BitVec.ofNat 32 (extent pre + c.size) := by
    refine (next_at ht.placed ho).trans ?_
    rw [ht.head]
    rfl
  have hlarge : size + sizeofStructMem + minSizeAligned ≤
      BitVec.ofNat 32 (extent pre + c.size) - (BitVec.ofNat 32 (extent pre) + sizeofStructMem) ↔
      12 + size.toNat + (12 + 12) ≤ c.size := by
    have := hfits.2
    have hsum' : (size + sizeofStructMem + minSizeAligned).toNat = size.toNat + 24 := by
      rw [sizeofStructMem, minSizeAligned]
      bv_omega
    rw [BitVec.le_def, hroom, hsum']
    omega
  unfold Heap.mark Tiling.cut
  dsimp only
  rw [hnext]
  by_cases hcut : 12 + size.toNat + (12 + 12) ≤ c.size
  · rw [if_pos (hlarge.2 hcut), if_pos hcut]
    have hptr2 : BitVec.ofNat 32 (extent pre) + sizeofStructMem + size =
        BitVec.ofNat 32 (extent pre + 12 + size.toNat) := by
      rw [sizeofStructMem]
      bv_omega
    rw [hptr2]
    have ho2 : extent pre + 12 + size.toNat ≤ 2228224 := by omega
    obtain ⟨hins, -⟩ := insert_spec ht.placed ho ho2 (by omega)
    have hp := hins.placed ht.placed
    refine ⟨ht.split true hleast hword (by omega) (edits_set_used hp ho 1)
      (head_at_set_used hp ho 1), ?_, ?_⟩
    · exact (relink_frame _ _).1
    · exact (relink_frame _ _).2
  · rw [if_neg fun hle => hcut (hlarge.1 hle), if_neg hcut]
    exact ⟨ht.setUsed true, rfl, rfl⟩

/-! ## The lowest free cell -/

theorem used_at_head (ht : h.Tiled (pre ++ c :: post)) :
    h.used (h.at (extent pre)) = 0 ↔ c.used = false := by
  obtain ⟨hsize, hsum⟩ := ht.bounds
  rw [used_at ht.placed (by omega), ht.head]
  exact used_byte_eq_zero

theorem next_at_head (ht : h.Tiled (pre ++ c :: post)) :
    h.next (h.at (extent pre)) = BitVec.ofNat 32 (extent pre + c.size) := by
  obtain ⟨hsize, hsum⟩ := ht.bounds
  rw [next_at ht.placed (by omega), ht.head]
  rfl

/-- The loop ends at the first free cell, or at the end. -/
theorem lfree_loop_eq (ht : h.Tiled (pre ++ post)) (hlfree : h.lfree = h.at (extent pre))
    (hfuel : post.length < fuel) :
    lfreeLoop fuel h = .ret () { h with lfree := h.at (firstFree (extent pre) post) } := by
  induction post generalizing pre h fuel with
  | nil =>
      obtain ⟨fuel, rfl⟩ : ∃ k, fuel = k + 1 := ⟨fuel - 1, by omega⟩
      have hsum := ht.extent
      rw [List.append_nil] at hsum
      rw [lfreeLoop, get_bind, if_neg]
      · rw [firstFree, ← hlfree]
        rfl
      · rintro ⟨-, hend⟩
        rw [hlfree, hsum] at hend
        exact hend ht.placed.ramEnd.symm
  | cons c post ih =>
      obtain ⟨fuel, rfl⟩ : ∃ k, fuel = k + 1 := ⟨fuel - 1, by omega⟩
      obtain ⟨hsize, hsum⟩ := ht.bounds
      rw [lfreeLoop, get_bind]
      cases hused : c.used with
      | false =>
          rw [if_neg, first_free_free hused, ← hlfree]
          · rfl
          · rw [hlfree]
            exact fun hnot => hnot.1 ((used_at_head ht).2 hused)
      | true =>
          have hend : h.lfree ≠ h.ramEnd := by
            rw [hlfree, ht.placed.ramEnd, Ne, at_inj ht.placed (by omega) (Nat.le_refl _)]
            omega
          have hne : ¬ h.used h.lfree = 0 := by
            rw [hlfree, used_at_head ht, hused]
            simp
          have ht' : Heap.Tiled { h with lfree := h.at (extent pre + c.size) }
              ((pre ++ [c]) ++ post) := by
            rw [List.append_assoc]
            exact ht.congr rfl rfl rfl
          have hless : post.length < fuel := by
            rw [List.length_cons] at hfuel
            omega
          have hrest := ih ht' (by simp; rfl) hless
          have hnext : h.ram + h.next h.lfree = h.at (extent pre + c.size) := by
            rw [hlfree, next_at_head ht]
            rfl
          rw [if_pos ⟨hne, hend⟩, modify_bind, first_free_used hused, hnext]
          refine hrest.trans ?_
          simp only [extent_append, extent_cons, extent_nil, Nat.add_zero]
          rfl

/-! ## `mem_malloc` -/

theorem sem_wait_eq (hsem : h.memSem = 1) : semWait h = .ret () { h with memSem := 0 } := by
  rw [semWait, gets_bind, if_neg (by rw [hsem]; decide)]
  show Outcome.ret () { h with memSem := h.memSem - 1 } = _
  rw [hsem]

theorem wp_lwip_assert {α : Type} {message : String} {p : Prop} [Decidable p] {f : Mem α}
    {Q : α → Heap → Prop} {E : Halt → Heap → Prop} (hp : p) (hf : wp f Q E h) :
    wp (do { lwipAssert message p; f }) Q E h := by
  rw [wp_bind, lwipAssert, if_pos hp]
  exact hf

theorem assert_bind {α : Type} {message : String} {p : Prop} [Decidable p] {f : Mem α} (hp : p) :
    (do { lwipAssert message p; f }) h = f h := by
  rw [lwipAssert, if_pos hp]
  rfl

theorem add_sizeof (h : Heap) (o : Nat) : h.at o + sizeofStructMem = h.at (o + 12) :=
  at_add h o 12

theorem at_mod (hplaced : h.Placed) (ho : o ≤ 2228224) (hword : o % 4 = 0) :
    (h.at o).toNat % 4 = 0 := by
  have := hplaced.aligned
  rw [at_to_nat hplaced ho]
  omega

theorem update_lfree_spec (ht : h.Tiled (pre ++ cells))
    (hlfree : h.lfree = h.at (firstFree 0 (pre ++ c :: post))) (hfree : c.used = false) :
    updateLfree (h.at (extent pre)) h =
      .ret () { h with lfree := h.at (firstFree 0 (pre ++ cells)) } := by
  have hroomy : Roomy 12 12 pre := fun d hd => ht.roomy d (List.mem_append_left _ hd)
  have hsum := ht.extent
  rw [extent_append] at hsum
  have hle := first_free_le hfree 0 pre post
  rw [Nat.zero_add] at hle
  have hiff : h.at (extent pre) = h.lfree ↔ extent pre = firstFree 0 (pre ++ c :: post) := by
    rw [hlfree, at_inj ht.placed (by omega) (by omega)]
  rw [updateLfree, gets_bind]
  rcases first_free_append hroomy (by decide) 0 with ⟨-, hall⟩ | ⟨hlt, hall⟩
  · -- the cell was the lowest free one
    have heq : extent pre = firstFree 0 (pre ++ c :: post) := by
      rw [hall, first_free_free hfree, Nat.zero_add]
    have hcells : cells.length < maxCells := by
      have hroomy : Roomy 12 12 cells := fun d hd => ht.roomy d (List.mem_append_right _ hd)
      have hlen := length_le_extent hroomy
      unfold maxCells
      omega
    have hloop := lfree_loop_eq ht (by rw [hlfree, ← heq]) hcells
    rw [← Nat.zero_add (extent pre), ← hall] at hloop
    rw [if_pos (hiff.2 heq), bind_of_ret hloop, get_bind, lwipAssert, if_pos]
    · rfl
    · obtain ⟨before, after, hcells', -, hfirst, hhead⟩ := split_first_free (pre ++ cells)
      have ht' := ht
      rw [hcells'] at ht'
      dsimp only
      rw [hfirst]
      cases after with
      | nil =>
          have hend := ht'.extent
          rw [List.append_nil] at hend
          exact .inl ((congrArg h.at hend).trans ht.placed.ramEnd.symm)
      | cons d after => exact .inr ((used_at_head ht').2 (hhead d rfl))
  · have hne : ¬ extent pre = firstFree 0 (pre ++ c :: post) := by
      rw [hall]
      omega
    rw [if_neg fun heq => hne (hiff.1 heq), hall, ← hall (c :: post), ← hlfree]
    rfl

/-- The cell behind `pre` gives a block for `size` bytes. -/
structure Given (h h' : Heap) (pre : List Cell) (c : Cell) (post : List Cell) (n : Nat)
    (v : Word) : Prop where
  block : v = h.at (extent pre + 12)
  becomes : h.Becomes h' (pre ++ (Tiling.cut 12 12 n c ++ post))
  coalesced : Coalesced (pre ++ (Tiling.cut 12 12 n c ++ post))
  lfree : h'.lfree = h'.at (firstFree 0 (pre ++ (Tiling.cut 12 12 n c ++ post)))
  memSem : h'.memSem = h.memSem + 1

theorem take_cell_spec (hl : h.Laid (pre ++ c :: post)) (hfits : Fits 12 size.toNat c)
    (hleast : 12 ≤ size.toNat) (hword : size.toNat % 4 = 0) :
    wp (takeCell size (BitVec.ofNat 32 (extent pre)))
      (fun v h' => Given h h' pre c post size.toNat v) (fun _ _ => False) h := by
  have ht := hl.toTiled
  obtain ⟨hsize, hsum⟩ := ht.bounds
  have ho : extent pre ≤ 2228224 := by omega
  have hpre : extent pre % 4 = 0 := extent_mod fun d hd => ht.words d (by simp [hd])
  obtain ⟨hmark, hlfree, hsem⟩ := mark_spec ht hfits hleast hword
  have hcoalesced : Coalesced (pre ++ (Tiling.cut 12 12 size.toNat c ++ post)) :=
    hl.coalesced.cut hfits.1
  obtain ⟨h₁, hh₁⟩ : ∃ h₁, h₁ = h.mark size (BitVec.ofNat 32 (extent pre)) := ⟨_, rfl⟩
  rw [← hh₁] at hmark hlfree hsem
  have hat : ∀ o, h₁.at o = h.at o := fun o => by rw [Heap.at, Heap.at, hmark.ram]
  have hlfree₁ : h₁.lfree = h₁.at (firstFree 0 (pre ++ c :: post)) := by
    rw [hlfree, hl.lfree, hat]
  have hupdate := update_lfree_spec hmark.tiled hlfree₁ hfits.1
  have hblock : h.ram + BitVec.ofNat 32 (extent pre) + sizeofStructMem = h.at (extent pre + 12) :=
    add_sizeof h (extent pre)
  rw [takeCell, wp_bind, wp_get, wp_bind, wp_modify, ← hh₁, wp_bind]
  rw [hat] at hupdate
  refine (wp_of_ret hupdate).2 ?_
  rw [wp_bind]
  refine wp_lwip_assert ?_ (wp_lwip_assert ?_ (wp_lwip_assert ?_ ?_))
  · have := hfits.2
    have := ht.placed.room
    rw [hblock, ht.placed.ramEnd, BitVec.le_def, BitVec.toNat_add, at_to_nat ht.placed (by omega),
      at_to_nat ht.placed (Nat.le_refl _)]
    omega
  · rw [hblock, ← BitVec.toNat_inj, BitVec.toNat_umod]
    exact at_mod ht.placed (by omega) (by omega)
  · exact (and_three _).2 (at_mod ht.placed ho hpre)
  · refine ⟨hblock, ?_, hcoalesced, rfl, ?_⟩
    · exact ⟨hmark.tiled.congr rfl rfl rfl, hmark.ram, hmark.ramEnd, hmark.bytes⟩
    · show h₁.memSem + 1 = _
      rw [hsem]

/-- What a search for `n` bytes returns. -/
def Found (h : Heap) (cells : List Cell) (n : Nat) (v : Word) (h' : Heap) : Prop :=
  (v = 0 ∧ h' = { h with memSem := h.memSem + 1 } ∧ ∀ c ∈ cells, ¬ Fits 12 n c) ∨
  ∃ pre c post, cells = pre ++ c :: post ∧ (∀ d ∈ pre, ¬ Fits 12 n d) ∧ Fits 12 n c ∧
    Given h h' pre c post n v

theorem search_bound (hmax : size.toNat ≤ 2228224) (ho : o ≤ 2228224) :
    BitVec.ofNat 32 o < memSizeAligned - size ↔ o < 2228224 - size.toNat := by
  have hsub : (memSizeAligned - size).toNat = 2228224 - size.toNat := by
    rw [memSizeAligned]
    bv_omega
  rw [BitVec.lt_def, hsub, BitVec.toNat_ofNat]
  omega

/-- Behind the bound of the search no cell has room. -/
theorem search_ends (ht : h.Tiled (pre ++ post)) (hnone : ∀ d ∈ pre, ¬ Fits 12 n d)
    (hge : ¬ extent pre < 2228224 - n) :
    wp (do { semSignal; pure 0 } : Mem Word) (Found h (pre ++ post) n) (fun _ _ => False) h := by
  have hsum := ht.extent
  rw [extent_append] at hsum
  refine .inl ⟨rfl, rfl, fun d hd => ?_⟩
  rcases List.mem_append.1 hd with hd | hd
  · exact hnone d hd
  · intro hfits
    have := hfits.2
    have := size_le_extent hd
    omega

theorem search_loop_spec (hl : h.Laid (pre ++ post)) (hnone : ∀ d ∈ pre, ¬ Fits 12 size.toNat d)
    (hleast : 12 ≤ size.toNat) (hword : size.toNat % 4 = 0) (hmax : size.toNat ≤ 2228224)
    (hfuel : post.length < fuel) :
    wp (searchLoop size fuel (BitVec.ofNat 32 (extent pre)))
      (Found h (pre ++ post) size.toNat) (fun _ _ => False) h := by
  induction post generalizing pre fuel with
  | nil =>
      obtain ⟨fuel, rfl⟩ : ∃ k, fuel = k + 1 := ⟨fuel - 1, by omega⟩
      have hsum := hl.extent
      rw [List.append_nil] at hsum
      have hcond := search_bound hmax (o := extent pre) (by omega)
      have hge : ¬ extent pre < 2228224 - size.toNat := by omega
      rw [searchLoop, wp_bind, wp_get, if_neg fun hlt => hge (hcond.1 hlt)]
      exact search_ends hl.toTiled hnone hge
  | cons c post ih =>
      obtain ⟨fuel, rfl⟩ : ∃ k, fuel = k + 1 := ⟨fuel - 1, by omega⟩
      have ht := hl.toTiled
      have hsize := ht.bounds.1
      have hsum := ht.bounds.2
      have hcond := search_bound hmax (o := extent pre) (by omega)
      have hnext : h.next (h.ram + BitVec.ofNat 32 (extent pre)) =
          BitVec.ofNat 32 (extent pre + c.size) := next_at_head ht
      have hused : h.used (h.ram + BitVec.ofNat 32 (extent pre)) = 0 ↔ c.used = false :=
        used_at_head ht
      have hroom := room_to_nat (o := extent pre) (s := c.size) (by omega) (by omega)
      have hfits : (h.used (h.ram + BitVec.ofNat 32 (extent pre)) = 0 ∧
          size ≤ h.next (h.ram + BitVec.ofNat 32 (extent pre)) -
            (BitVec.ofNat 32 (extent pre) + sizeofStructMem)) ↔ Fits 12 size.toNat c := by
        rw [hused, hnext, BitVec.le_def, hroom, Fits]
        refine and_congr_right fun _ => ?_
        omega
      rw [searchLoop, wp_bind, wp_get, wp_ite]
      refine ⟨fun _ => ?_, fun hge => search_ends ht hnone fun hlt => hge (hcond.2 hlt)⟩
      dsimp only
      rw [wp_ite, hfits, hnext]
      refine ⟨fun hyes => ?_, fun hno => ?_⟩
      · refine wp_mono_ret (take_cell_spec hl hyes hleast hword) fun v h' hgiven => ?_
        exact .inr ⟨pre, c, post, rfl, hnone, hyes, hgiven⟩
      · have hl' : h.Laid ((pre ++ [c]) ++ post) := by rwa [List.append_assoc]
        have hless : post.length < fuel := by
          rw [List.length_cons] at hfuel
          omega
        have hrest := ih hl' (List.forall_mem_append.2 ⟨hnone, by simpa using hno⟩) hless
        simpa using hrest

theorem mem_malloc_spec {n : Word} (hl : h.Laid cells) (hsem : h.memSem = 1)
    (hn : n.toNat ≤ 0xFFFFFFFC) : wp (memMalloc n) (fun v h' =>
      (v = 0 ∧ h' = h ∧ (n = 0 ∨ ∀ c ∈ cells, ¬ Fits 12 (need n.toNat) c)) ∨
      ∃ pre c post, cells = pre ++ c :: post ∧ (∀ d ∈ pre, ¬ Fits 12 (need n.toNat) d) ∧
        Fits 12 (need n.toNat) c ∧ n ≠ 0 ∧
        Given { h with memSem := 0 } h' pre c post (need n.toNat) v) (fun _ _ => False) h := by
  have hsize := block_size_to_nat hn
  obtain ⟨hleast, -, hword⟩ := need_spec n.toNat
  rw [memMalloc, wp_ite]
  refine ⟨fun hzero => .inl ⟨rfl, rfl, .inl hzero⟩, fun hzero => ?_⟩
  dsimp only
  rw [wp_ite]
  have hmax : memSizeAligned < blockSize n ↔ 2228224 < need n.toNat := by
    rw [BitVec.lt_def, hsize]
    rfl
  rw [hmax]
  refine ⟨fun hlarge => .inl ⟨rfl, rfl, .inr fun c hc hfits => ?_⟩, fun hsmall => ?_⟩
  · have := hfits.2
    have := size_le_extent hc
    have := hl.extent
    omega
  · have hwait : semWait h = .ret () { h with memSem := 0 } := by
      rw [semWait, gets_bind, if_neg (by rw [hsem]; decide)]
      show Outcome.ret () { h with memSem := h.memSem - 1 } = _
      rw [hsem]
    obtain ⟨pre, post, rfl, hused, hfirst, -⟩ := split_first_free cells
    have hl₀ : Heap.Laid { h with memSem := 0 } (pre ++ post) :=
      ⟨hl.toTiled.congr rfl rfl rfl, hl.coalesced, hl.lfree⟩
    have hptr : h.lfree - h.ram = BitVec.ofNat 32 (extent pre) := by
      rw [hl.lfree, hfirst, at_sub_ram]
    have hfuel : post.length < maxCells := by
      have hroomy : Roomy 12 12 post := fun d hd => hl.roomy d (List.mem_append_right _ hd)
      have hlen := length_le_extent hroomy
      have hsum := hl.extent
      rw [extent_append] at hsum
      unfold maxCells
      omega
    rw [wp_bind]
    refine (wp_of_ret hwait).2 ?_
    rw [wp_bind, wp_get, hptr]
    have hnone₀ : ∀ d ∈ pre, ¬ Fits 12 (blockSize n).toNat d := by
      intro d hd hfits
      have hfree := hfits.1
      rw [hused d hd] at hfree
      cases hfree
    have hsearch := search_loop_spec hl₀ hnone₀ (by rw [hsize]; exact hleast)
      (by rw [hsize]; exact hword) (by rw [hsize]; omega) hfuel
    rw [hsize] at hsearch
    refine wp_mono_ret hsearch fun v h' hfound => ?_
    rcases hfound with ⟨hv, hh', hnone⟩ | ⟨pre', c, post', hcells, hnone, hfits, hgiven⟩
    · refine .inl ⟨hv, ?_, .inr hnone⟩
      rw [hh']
      show { h with memSem := 1 } = h
      rw [← hsem]
    · exact .inr ⟨pre', c, post', hcells, hnone, hfits, hzero, hgiven⟩

/-! ## `mem_free` -/

theorem plug_forward_frame {mem : Word} (hne : h.lfree ≠ h.ram + h.next mem) :
    (h.plugForward mem).lfree = h.lfree ∧ (h.plugForward mem).memSem = h.memSem := by
  rw [plug_forward_eq rfl, if_neg hne]
  split <;> exact ⟨rfl, rfl⟩

theorem plug_backward_frame {mem : Word}
    (hne : h.ram + h.prev mem ≠ mem → h.used (h.ram + h.prev mem) = 0 → h.lfree ≠ mem) :
    (h.plugBackward mem).lfree = h.lfree ∧ (h.plugBackward mem).memSem = h.memSem := by
  rw [plug_backward_eq rfl]
  split
  case isTrue hcond =>
    rw [if_neg (hne hcond.1 hcond.2)]
    exact ⟨rfl, rfl⟩
  case isFalse => exact ⟨rfl, rfl⟩

/-- The free cell in front of another is not the lowest free one. -/
theorem lfree_ne_of_prev (ht : h.Tiled (pre ++ c :: post))
    (hlfree : h.lfree = h.at (firstFree 0 (pre ++ c :: post)))
    (hne : h.ram + h.prev (h.at (extent pre)) ≠ h.at (extent pre))
    (hused : h.used (h.ram + h.prev (h.at (extent pre))) = 0) : h.lfree ≠ h.at (extent pre) := by
  obtain ⟨hsize, hsum⟩ := ht.bounds
  have hpmem : h.ram + h.prev (h.at (extent pre)) = h.at (lastOff 0 0 pre) := by
    rw [prev_at ht.placed (by omega), ht.head]
    rfl
  rw [hpmem] at hne hused
  rcases List.eq_nil_or_concat pre with rfl | ⟨pre, d, rfl⟩
  · exact absurd rfl hne
  · rw [List.concat_eq_append] at *
    rw [last_off_concat, Nat.zero_add] at hused
    have ht' : h.Tiled (pre ++ d :: c :: post) := by simpa using ht
    have hd : 12 + 12 ≤ d.size := ht.roomy d (by simp)
    have hle := first_free_le ((used_at_head ht').1 hused) 0 pre (c :: post)
    have hlist : pre ++ [d] ++ c :: post = pre ++ d :: c :: post := by simp
    simp only [extent_append, extent_cons, extent_nil, Nat.add_zero] at hsum ⊢
    rw [hlfree, hlist, Ne, at_inj ht.placed (by omega) (by omega)]
    omega

theorem plug_holes_spec (ht : h.Tiled (pre ++ c :: post)) (hfree : c.used = false)
    (hlfree : h.lfree = h.at (firstFree 0 (pre ++ c :: post))) :
    ∃ h', plugHoles (h.at (extent pre)) h = .ret () h' ∧
      h.Becomes h' (attach pre (join c post)) ∧ h'.memSem = h.memSem ∧
      h'.lfree = h'.at (firstFree 0 (attach pre (join c post))) := by
  obtain ⟨hsize, hsum⟩ := ht.bounds
  have ho : extent pre ≤ 2228224 := by omega
  have hroom := ht.placed.room
  -- forward
  have hfst := ht.plugForward hfree
  have hle := first_free_le hfree 0 pre post
  have hne : h.lfree ≠ h.ram + h.next (h.at (extent pre)) := by
    rw [next_at_head ht, hlfree]
    show h.at _ ≠ h.at (extent pre + c.size)
    rw [Ne, at_inj ht.placed (by omega) (by omega)]
    omega
  obtain ⟨hlfree₁, hsem₁⟩ := plug_forward_frame hne
  -- backward
  obtain ⟨d, rest, hjoin, hdfree⟩ := join_eq_cons hfree post
  obtain ⟨h₁, hh₁⟩ : ∃ h₁, h₁ = h.plugForward (h.at (extent pre)) := ⟨_, rfl⟩
  rw [← hh₁] at hfst hlfree₁ hsem₁
  rw [hjoin] at hfst
  have hat : ∀ o, h₁.at o = h.at o := fun o => by rw [Heap.at, Heap.at, hfst.ram]
  have hfirst : firstFree 0 (pre ++ d :: rest) = firstFree 0 (pre ++ c :: post) := by
    rw [← hjoin]
    exact first_free_append_congr (fun off => first_free_join off c post) 0 pre
  have hsnd := hfst.tiled.plugBackward hdfree
  obtain ⟨hlfree₂, hsem₂⟩ := plug_backward_frame (lfree_ne_of_prev hfst.tiled
    (by rw [hlfree₁, hlfree, hfirst, hat]))
  rw [hat] at hsnd hlfree₂ hsem₂
  refine ⟨h₁.plugBackward (h.at (extent pre)), ?_, ?_, hsem₂.trans hsem₁, ?_⟩
  · rw [plugHoles, get_bind, assert_bind, assert_bind, assert_bind, assert_bind, modify_bind,
      ← hh₁]
    · rfl
    · rw [next_at_head ht, BitVec.le_def, BitVec.toNat_ofNat, memSizeAligned]
      simp
      omega
    · exact (used_at_head ht).2 hfree
    · rw [ht.placed.ramEnd, BitVec.lt_def, at_to_nat ht.placed ho, at_to_nat ht.placed (Nat.le_refl _)]
      omega
    · rw [BitVec.le_def, at_to_nat ht.placed ho]
      omega
  · rw [hjoin]
    refine hfst.trans hsnd fun b hb => ?_
    rw [blocks_attach] at hb
    exact hb
  · rw [first_free_attach, hjoin, hfirst, hlfree₂, hlfree₁, hlfree, Heap.at, Heap.at, hsnd.ram,
      hfst.ram]

theorem mem_free_spec (hl : h.Laid (pre ++ c :: post)) (hused : c.used = true)
    (hsem : h.memSem = 1) :
    ∃ h', memFree (h.at (extent pre + 12)) h = .ret () h' ∧ h.Becomes h' (release pre c post) ∧
      h'.Laid (release pre c post) ∧ h'.memSem = 1 := by
  have ht := hl.toTiled
  obtain ⟨hsize, hsum⟩ := ht.bounds
  have hroom := ht.placed.room
  have ho : extent pre ≤ 2228224 := by omega
  have hb : extent pre + 12 ≤ 2228224 := by omega
  have hpre : extent pre % 4 = 0 := extent_mod fun d hd => ht.words d (by simp [hd])
  have hroomy : Roomy 12 12 pre := fun d hd => ht.roomy d (by simp [hd])
  have hnat := at_to_nat ht.placed hb
  -- what the assertions check
  have hzero : h.at (extent pre + 12) ≠ 0 := by
    intro hzero
    rw [hzero] at hnat
    have : (0 : Word).toNat = 0 := rfl
    omega
  have hlegal : h.ram ≤ h.at (extent pre + 12) ∧ h.at (extent pre + 12) < h.ramEnd := by
    rw [ht.placed.ramEnd, BitVec.le_def, BitVec.lt_def, hnat, at_to_nat ht.placed (Nat.le_refl _)]
    omega
  have hmem : h.at (extent pre + 12) - sizeofStructMem = h.at (extent pre) := by
    rw [← add_sizeof, BitVec.add_sub_cancel]
  have hne : h.used (h.at (extent pre)) ≠ 0 := by
    rw [Ne, used_at_head ht, hused]
    simp
  -- the cell becomes free
  have hfree := ht.setUsed false
  obtain ⟨h₁, hh₁⟩ : ∃ h₁ : Heap, h₁ =
      (if h.at (extent pre) < h.lfree then
        { h.setUsed (h.at (extent pre)) 0 with memSem := 0, lfree := h.at (extent pre) }
      else { h.setUsed (h.at (extent pre)) 0 with memSem := 0 }) := ⟨_, rfl⟩
  have hsame : h₁.ram = h.ram ∧ h₁.ramEnd = h.ramEnd ∧
      h₁.bytes = (h.setUsed (h.at (extent pre)) 0).bytes ∧ h₁.memSem = 0 := by
    rw [hh₁]
    split <;> exact ⟨rfl, rfl, rfl, rfl⟩
  have hat : ∀ o, h₁.at o = h.at o := fun o => by rw [Heap.at, Heap.at, hsame.1]
  have hbecomes : h.Becomes h₁ (pre ++ ⟨c.size, false⟩ :: post) := by
    refine ⟨hfree.tiled.congr hsame.1 hsame.2.1 hsame.2.2.1, hsame.1, hsame.2.1, fun x hx => ?_⟩
    rw [hsame.2.2.1]
    exact hfree.bytes x hx
  have hlfree : h₁.lfree = h₁.at (firstFree 0 (pre ++ ⟨c.size, false⟩ :: post)) := by
    rw [hat, hh₁]
    have hlt : h.at (extent pre) < h.lfree ↔ extent pre < firstFree 0 (pre ++ c :: post) := by
      have hle : firstFree 0 (pre ++ c :: post) ≤ 2228224 := by
        have := first_free_le_extent 0 (pre ++ c :: post)
        have := ht.extent
        omega
      rw [hl.lfree, BitVec.lt_def, at_to_nat ht.placed ho, at_to_nat ht.placed hle]
      omega
    rcases first_free_append hroomy (by decide) 0 with ⟨-, hall⟩ | ⟨hbefore, hall⟩
    · have hge := le_first_free (0 + extent pre + c.size) post
      rw [if_pos]
      · rw [hall, first_free_free rfl, Nat.zero_add]
      · rw [hlt, hall, first_free_used hused]
        omega
    · rw [if_neg]
      · rw [hall, ← hall (c :: post), ← hl.lfree]
        rfl
      · rw [hlt, hall]
        omega
  obtain ⟨h₂, hret, hplug, hsem₂, hlfree₂⟩ := plug_holes_spec hbecomes.tiled rfl hlfree
  rw [hat] at hret
  refine ⟨{ h₂ with memSem := h₂.memSem + 1 }, ?_, ?_, ⟨hplug.tiled.congr rfl rfl rfl, ?_, hlfree₂⟩,
    ?_⟩
  · have hbound : ¬ (h.at (extent pre + 12) < h.ram ∨ h.ramEnd ≤ h.at (extent pre + 12)) := by
      exact fun hor => hor.elim (BitVec.not_lt.2 hlegal.1) (BitVec.not_le.2 hlegal.2)
    rw [memFree, if_neg hzero, get_bind, assert_bind, assert_bind hlegal, if_neg hbound,
      bind_of_ret (sem_wait_eq hsem)]
    · rw [hmem, assert_bind hne, modify_bind, modify_bind]
      have hstate : (if h.at (extent pre) < h.lfree then
          { h.setUsed (h.at (extent pre)) 0 with memSem := 0, lfree := h.at (extent pre) }
        else { h.setUsed (h.at (extent pre)) 0 with memSem := 0 }) = h₁ := hh₁.symm
      refine (congrArg (fun s => (do { plugHoles (h.at (extent pre)); semSignal } : Mem Unit) s)
        hstate).trans ?_
      rw [bind_of_ret hret]
      rfl
    · exact (and_three _).2 (at_mod ht.placed hb (by omega))
  · have hall := hbecomes.trans hplug fun b hb => by
      rwa [blocks_attach, blocks_append, blocks_join, ← blocks_append] at hb
    exact ⟨hall.tiled.congr rfl rfl rfl, hall.ram, hall.ramEnd, hall.bytes⟩
  · exact hl.coalesced.release
  · show h₂.memSem + 1 = 1
    rw [hsem₂, hsame.2.2.2]

/-! ## `mem_realloc` -/

theorem move_next_frame (ptr ptr2 : Word) :
    (h.moveNext ptr ptr2).lfree =
      (if h.lfree = h.ram + h.next (h.ram + ptr) then h.ram + ptr2 else h.lfree) ∧
    (h.moveNext ptr ptr2).memSem = h.memSem := by
  obtain ⟨hlfree, hsem⟩ := relink_frame
    ((((Heap.setUsed (if h.lfree = h.ram + h.next (h.ram + ptr) then
      { h with lfree := h.ram + ptr2 } else h) _ 0).setNext _ _).setPrev _ ptr).setNext _ ptr2) ptr2
  refine ⟨hlfree.trans ?_, hsem.trans ?_⟩
  · show Heap.lfree (if _ then _ else _) = _
    split <;> rfl
  · show Heap.memSem (if _ then _ else _) = _
    split <;> rfl

/-- No free cell follows. -/
theorem shrink_cut_spec (ht : h.Tiled (pre ++ c :: post))
    (hlfree : h.lfree = h.at (firstFree 0 (pre ++ c :: post))) (hused : c.used = true)
    (hleast : 12 ≤ size.toNat) (hword : size.toNat % 4 = 0) (hfit : 12 + size.toNat ≤ c.size)
    (hnext : h.used (h.at (extent pre + c.size)) ≠ 0) :
    let h₁ := h.shrink (BitVec.ofNat 32 (extent pre)) (BitVec.ofNat 32 (c.size - 12)) size
    h.Becomes h₁ (pre ++ (Tiling.cut 12 12 size.toNat c ++ post)) ∧ h₁.memSem = h.memSem ∧
      h₁.lfree = h₁.at (firstFree 0 (pre ++ (Tiling.cut 12 12 size.toNat c ++ post))) := by
  obtain ⟨hsize, hsum⟩ := ht.bounds
  have ho : extent pre ≤ 2228224 := by omega
  have hroomy : Roomy 12 12 pre := fun d hd => ht.roomy d (by simp [hd])
  have hmem : h.next (h.ram + BitVec.ofNat 32 (extent pre)) =
      BitVec.ofNat 32 (extent pre + c.size) := next_at_head ht
  have hnot : ¬ h.used (h.ram + BitVec.ofNat 32 (extent pre + c.size)) = 0 := hnext
  have hlarge : size + sizeofStructMem + minSizeAligned ≤ BitVec.ofNat 32 (c.size - 12) ↔
      12 + size.toNat + (12 + 12) ≤ c.size := by
    have hadd : (size + sizeofStructMem + minSizeAligned).toNat = size.toNat + 24 := by
      rw [sizeofStructMem, minSizeAligned]
      bv_omega
    rw [BitVec.le_def, hadd, BitVec.toNat_ofNat]
    omega
  have hptr2 : BitVec.ofNat 32 (extent pre) + sizeofStructMem + size =
      BitVec.ofNat 32 (extent pre + 12 + size.toNat) := by
    rw [sizeofStructMem]
    bv_omega
  unfold Heap.shrink Tiling.cut
  dsimp only
  rw [hmem, if_neg hnot, hptr2]
  by_cases hcut : 12 + size.toNat + (12 + 12) ≤ c.size
  · rw [if_pos (hlarge.2 hcut), if_pos hcut]
    have hat2 : h.ram + BitVec.ofNat 32 (extent pre + 12 + size.toNat) =
        h.at (extent pre + 12 + size.toNat) := rfl
    rw [hat2]
    obtain ⟨h₀, hh₀⟩ : ∃ h₀ : Heap, h₀ =
        (if h.at (extent pre + 12 + size.toNat) < h.lfree then
          { h with lfree := h.at (extent pre + 12 + size.toNat) } else h) := ⟨_, rfl⟩
    have hsame : h₀.ram = h.ram ∧ h₀.ramEnd = h.ramEnd ∧ h₀.bytes = h.bytes ∧
        h₀.memSem = h.memSem := by
      rw [hh₀]
      split <;> exact ⟨rfl, rfl, rfl, rfl⟩
    rw [← hh₀]
    have ht₀ := ht.congr hsame.1 hsame.2.1 hsame.2.2.1
    have ho2 : extent pre + 12 + size.toNat ≤ 2228224 := by omega
    obtain ⟨-, hheado, -⟩ := insert_spec ht₀.placed ho ho2 (by omega)
    have hself := Heap.Edits.refl (h₀.insert (BitVec.ofNat 32 (extent pre))
      (BitVec.ofNat 32 (extent pre + 12 + size.toNat))) [extent pre]
    have hhead : (h₀.insert (BitVec.ofNat 32 (extent pre))
        (BitVec.ofNat 32 (extent pre + 12 + size.toNat))).headAt (extent pre) =
        { (h₀.insert (BitVec.ofNat 32 (extent pre))
          (BitVec.ofNat 32 (extent pre + 12 + size.toNat))).headAt (extent pre) with
          used := usedByte true } := by
      rw [hheado, ht₀.head, ← hused]
      rfl
    have hsplit := ht₀.split true hleast hword (by omega) hself hhead
    obtain ⟨hlfree₁, hsem₁⟩ := relink_frame (h₀.insert (BitVec.ofNat 32 (extent pre))
      (BitVec.ofNat 32 (extent pre + 12 + size.toNat)))
      (BitVec.ofNat 32 (extent pre + 12 + size.toNat))
    have hbecomes := hsplit.of_same hsame.1 hsame.2.1 hsame.2.2.1
    refine ⟨hbecomes, hsem₁.trans hsame.2.2.2, hlfree₁.trans ?_⟩
    rw [Heap.at, hbecomes.ram]
    show h₀.lfree = h.at _
    rw [hh₀]
    have hle := first_free_le_extent 0 (pre ++ c :: post)
    rw [ht.extent, Nat.zero_add] at hle
    have hlt : h.at (extent pre + 12 + size.toNat) < h.lfree ↔
        extent pre + 12 + size.toNat < firstFree 0 (pre ++ c :: post) := by
      have := ht.placed.room
      rw [hlfree, BitVec.lt_def, at_to_nat ht.placed (by omega), at_to_nat ht.placed hle]
      omega
    rcases first_free_append hroomy (by decide) 0 with ⟨-, hall⟩ | ⟨hbefore, hall⟩
    · have hge := le_first_free (0 + extent pre + c.size) post
      rw [if_pos]
      · rw [hall, List.cons_append, first_free_used rfl, List.cons_append, first_free_free rfl,
          Nat.zero_add, Nat.add_assoc]
      · rw [hlt, hall, first_free_used hused]
        omega
    · rw [if_neg]
      · rw [hall, ← hall (c :: post), ← hlfree]
      · rw [hlt, hall]
        omega
  · have hsame : (⟨c.size, true⟩ : Cell) = c := by rw [← hused]
    rw [if_neg fun hle => hcut (hlarge.1 hle), if_neg hcut, hsame]
    exact ⟨.refl ht, rfl, hlfree⟩

/-- A free cell follows. -/
theorem shrink_move_spec (ht : h.Tiled (pre ++ c :: d :: post))
    (hlfree : h.lfree = h.at (firstFree 0 (pre ++ c :: d :: post))) (hused : c.used = true)
    (hfree : d.used = false) (hleast : 12 ≤ size.toNat) (hword : size.toNat % 4 = 0)
    (hfit : 12 + size.toNat ≤ c.size) (room : Word) :
    let h₁ := h.shrink (BitVec.ofNat 32 (extent pre)) room size
    let cells := pre ++ ⟨12 + size.toNat, true⟩ ::
      ⟨d.size + (c.size - (12 + size.toNat)), false⟩ :: post
    h.Becomes h₁ cells ∧ h₁.memSem = h.memSem ∧ h₁.lfree = h₁.at (firstFree 0 cells) := by
  obtain ⟨hsize, hsum⟩ := ht.bounds
  rw [extent_cons] at hsum
  have hroomy : Roomy 12 12 pre := fun d hd => ht.roomy d (by simp [hd])
  have hmem : h.next (h.ram + BitVec.ofNat 32 (extent pre)) =
      BitVec.ofNat 32 (extent pre + c.size) := next_at_head ht
  have hzero : h.used (h.ram + BitVec.ofNat 32 (extent pre + c.size)) = 0 := by
    have ht' : h.Tiled ((pre ++ [c]) ++ d :: post) := by simpa using ht
    have hiff := used_at_head ht'
    simp only [extent_append, extent_cons, extent_nil, Nat.add_zero] at hiff
    exact hiff.2 hfree
  have hptr2 : BitVec.ofNat 32 (extent pre) + sizeofStructMem + size =
      BitVec.ofNat 32 (extent pre + 12 + size.toNat) := by
    rw [sizeofStructMem]
    bv_omega
  have heq : h.shrink (BitVec.ofNat 32 (extent pre)) room size =
      h.moveNext (BitVec.ofNat 32 (extent pre)) (BitVec.ofNat 32 (extent pre + 12 + size.toNat)) := by
    unfold Heap.shrink
    dsimp only
    rw [hmem, if_pos hzero, hptr2]
  have hmove := ht.moveNext hleast hword hfit
  obtain ⟨hlfree₁, hsem₁⟩ := move_next_frame (h := h) (BitVec.ofNat 32 (extent pre))
    (BitVec.ofNat 32 (extent pre + 12 + size.toNat))
  rw [hused] at hmove
  dsimp only
  rw [heq]
  refine ⟨hmove, hsem₁, hlfree₁.trans ?_⟩
  have hle := first_free_le_extent 0 (pre ++ c :: d :: post)
  rw [ht.extent, Nat.zero_add] at hle
  have hiff : h.lfree = h.ram + BitVec.ofNat 32 (extent pre + c.size) ↔
      firstFree 0 (pre ++ c :: d :: post) = extent pre + c.size := by
    rw [hlfree]
    exact at_inj ht.placed hle (by omega)
  rw [hmem, Heap.at, hmove.ram]
  rcases first_free_append hroomy (by decide) 0 with ⟨-, hall⟩ | ⟨hbefore, hall⟩
  · rw [if_pos]
    · rw [hall, first_free_used rfl, first_free_free rfl, Nat.zero_add, Nat.add_assoc]
    · rw [hiff, hall, first_free_used hused, first_free_free hfree, Nat.zero_add]
  · rw [if_neg]
    · rw [hall, ← hall (c :: d :: post), hlfree]
      rfl
    · rw [hiff, hall]
      omega

theorem shrink_spec (ht : h.Tiled (pre ++ c :: post))
    (hlfree : h.lfree = h.at (firstFree 0 (pre ++ c :: post))) (hused : c.used = true)
    (hleast : 12 ≤ size.toNat) (hword : size.toNat % 4 = 0) (hfit : 12 + size.toNat ≤ c.size) :
    let h₁ := h.shrink (BitVec.ofNat 32 (extent pre)) (BitVec.ofNat 32 (c.size - 12)) size
    let cells := pre ++ shrink 12 12 size.toNat c post
    h.Becomes h₁ cells ∧ h₁.memSem = h.memSem ∧ h₁.lfree = h₁.at (firstFree 0 cells) := by
  obtain ⟨hsize, hsum⟩ := ht.bounds
  cases post with
  | nil =>
      have hend : extent pre + c.size = 2228224 := by
        rw [extent_nil] at hsum
        exact hsum
      have hlast : h.used (h.at (extent pre + c.size)) ≠ 0 := by
        rw [hend, used_at ht.placed (Nat.le_refl _), ht.last.2]
        decide
      have hcut := shrink_cut_spec ht hlfree hused hleast hword hfit hlast
      rw [List.append_nil] at hcut
      exact hcut
  | cons d post =>
      rw [extent_cons] at hsum
      dsimp only
      rw [shrink_cons]
      cases hdused : d.used with
      | false =>
          rw [if_pos rfl]
          exact shrink_move_spec ht hlfree hused hdused hleast hword hfit _
      | true =>
          have ht' : h.Tiled ((pre ++ [c]) ++ d :: post) := by simpa using ht
          have hiff := used_at_head ht'
          simp only [extent_append, extent_cons, extent_nil, Nat.add_zero] at hiff
          have hne : h.used (h.at (extent pre + c.size)) ≠ 0 := by
            rw [Ne, hiff, hdused]
            simp
          rw [if_neg (by simp)]
          exact shrink_cut_spec ht hlfree hused hleast hword hfit hne

theorem mem_realloc_spec {n : Word} (hl : h.Laid (pre ++ c :: post)) (hused : c.used = true)
    (hsem : h.memSem = 1) (hn : n.toNat ≤ 0xFFFFFFFC) (hfit : 12 + need n.toNat ≤ c.size) :
    ∃ h', memRealloc (h.at (extent pre + 12)) n h = .ret (h.at (extent pre + 12)) h' ∧
      h.Becomes h' (pre ++ shrink 12 12 (need n.toNat) c post) ∧
      h'.Laid (pre ++ shrink 12 12 (need n.toNat) c post) ∧ h'.memSem = 1 := by
  have ht := hl.toTiled
  obtain ⟨hsize, hsum⟩ := ht.bounds
  have hroom := ht.placed.room
  have hb : extent pre + 12 ≤ 2228224 := by omega
  have hnat := at_to_nat ht.placed hb
  have hblock := block_size_to_nat hn
  obtain ⟨hleast, -, hword⟩ := need_spec n.toNat
  have hcoalesced : Coalesced (pre ++ shrink 12 12 (need n.toNat) c post) :=
    hl.coalesced.shrink
  have hsmall : ¬ memSizeAligned < blockSize n := by
    rw [BitVec.lt_def, hblock, memSizeAligned]
    simp
    omega
  have hlegal : h.ram ≤ h.at (extent pre + 12) ∧ h.at (extent pre + 12) < h.ramEnd := by
    rw [ht.placed.ramEnd, BitVec.le_def, BitVec.lt_def, hnat, at_to_nat ht.placed (Nat.le_refl _)]
    omega
  have hbound : ¬ (h.at (extent pre + 12) < h.ram ∨ h.ramEnd ≤ h.at (extent pre + 12)) :=
    fun hor => hor.elim (BitVec.not_lt.2 hlegal.1) (BitVec.not_le.2 hlegal.2)
  have hmem : h.at (extent pre + 12) - sizeofStructMem = h.at (extent pre) := by
    rw [← add_sizeof, BitVec.add_sub_cancel]
  -- the room of the block
  have hold : h.next (h.at (extent pre)) - (h.at (extent pre) - h.ram) - sizeofStructMem =
      BitVec.ofNat 32 (c.size - 12) := by
    rw [next_at_head ht, at_sub_ram, sizeofStructMem]
    bv_omega
  have holdnat : (BitVec.ofNat 32 (c.size - 12)).toNat = c.size - 12 := by
    rw [BitVec.toNat_ofNat]
    omega
  have hle : blockSize n ≤ BitVec.ofNat 32 (c.size - 12) := by
    rw [BitVec.le_def, hblock, holdnat]
    omega
  have heq : memRealloc (h.at (extent pre + 12)) n h =
      (if blockSize n = BitVec.ofNat 32 (c.size - 12) then pure (h.at (extent pre + 12))
      else do
        semWait
        modify fun h' => h'.shrink (BitVec.ofNat 32 (extent pre)) (BitVec.ofNat 32 (c.size - 12))
          (blockSize n)
        semSignal
        pure (h.at (extent pre + 12)) : Mem Word) h := by
    unfold memRealloc
    dsimp only
    rw [if_neg hsmall, get_bind, assert_bind hlegal, if_neg hbound, hmem, hold, assert_bind hle,
      if_neg (BitVec.not_lt.2 hle), at_sub_ram]
  by_cases hsame : blockSize n = BitVec.ofNat 32 (c.size - 12)
  · have hcells : shrink 12 12 (need n.toNat) c post = c :: post := by
      refine shrink_self hused ?_ (by decide) post
      rw [← hblock, hsame, holdnat]
      omega
    rw [heq, if_pos hsame, hcells]
    exact ⟨h, rfl, .refl ht, hl, hsem⟩
  · have ht₀ : Heap.Tiled { h with memSem := 0 } (pre ++ c :: post) := ht.congr rfl rfl rfl
    rw [← hblock] at hleast hword hfit
    obtain ⟨hbecomes, hsem₁, hlfree₁⟩ := shrink_spec ht₀ hl.lfree hused hleast hword hfit
    rw [hblock] at hbecomes hlfree₁
    have hall := hbecomes.of_same (h := h) rfl rfl rfl
    rw [heq, if_neg hsame, bind_of_ret (sem_wait_eq hsem)]
    refine ⟨_, rfl, ?_, ⟨hall.tiled.congr rfl rfl rfl, hcoalesced, hlfree₁⟩, ?_⟩
    · exact ⟨hall.tiled.congr rfl rfl rfl, hall.ram, hall.ramEnd, hall.bytes⟩
    · exact congrArg (· + 1) hsem₁

/-! ## `mem_init` -/

/-- The headers that `mem_init` writes. -/
theorem init_heads {h : Heap} {e : Nat} (hp : h.Placed) (ho : o ≤ 2228224) (he : e ≤ 2228224)
    (hapart : o + 12 ≤ e) :
    ∃ h₁ : Heap, h₁ = (((((h.setNext (h.at o) memSizeAligned).setPrev (h.at o) 0).setUsed
        (h.at o) 0).setUsed (h.at e) 1).setNext (h.at e) memSizeAligned).setPrev
        (h.at e) memSizeAligned ∧
      h.Edits h₁ [o, e] ∧ h₁.headAt o = ⟨memSizeAligned, 0, 0⟩ ∧
      h₁.headAt e = ⟨memSizeAligned, memSizeAligned, 1⟩ := by
  have e₁ := edits_set_next hp ho memSizeAligned
  have r₁ := head_at_set_next hp ho memSizeAligned
  have p₁ := e₁.placed hp
  have e₂ := edits_set_prev p₁ ho 0
  have r₂ := head_at_set_prev p₁ ho 0
  have p₂ := e₂.placed p₁
  have e₃ := edits_set_used p₂ ho 0
  have r₃ := head_at_set_used p₂ ho 0
  have p₃ := e₃.placed p₂
  have e₄ := edits_set_used p₃ he 1
  have r₄ := head_at_set_used p₃ he 1
  have p₄ := e₄.placed p₃
  have e₅ := edits_set_next p₄ he memSizeAligned
  have r₅ := head_at_set_next p₄ he memSizeAligned
  have p₅ := e₅.placed p₄
  have e₆ := edits_set_prev p₅ he memSizeAligned
  have r₆ := head_at_set_prev p₅ he memSizeAligned
  refine ⟨_, rfl, ?_, ?_, ?_⟩
  · exact ((e₁.trans (e₂.trans e₃)).trans (e₄.trans (e₅.trans e₆))).mono (by simp)
  · refine (e₆.head_at (by simp; omega)).trans ((e₅.head_at (by simp; omega)).trans
      ((e₄.head_at (by simp; omega)).trans (r₃.trans ?_)))
    rw [r₂, r₁]
  · refine r₆.trans ?_
    rw [r₅, r₄]

/-- The heap is one free cell. -/
theorem mem_init_spec {ramHeap : Word} (h : Heap) (hroom : ramHeap.toNat + ramHeapSize ≤ 2 ^ 32) :
    ∃ h', memInit ramHeap h = .ret () h' ∧ h'.Laid [⟨2228224, false⟩] ∧ h'.memSem = 1 := by
  have hsize : ramHeapSize = 2228252 := rfl
  have halign := mem_align_to_nat (w := ramHeap) (by omega)
  obtain ⟨h₀, hh₀⟩ : ∃ h₀ : Heap, h₀ =
    { h with ram := memAlign ramHeap, ramEnd := memAlign ramHeap + memSizeAligned } := ⟨_, rfl⟩
  have hp : h₀.Placed := by
    refine ⟨?_, ?_, ?_⟩
    · rw [hh₀]
      show (memAlign ramHeap).toNat + 2228236 ≤ _
      omega
    · rw [hh₀]
      show (memAlign ramHeap).toNat % 4 = 0
      omega
    · rw [hh₀]
      rfl
  obtain ⟨h₁, hh₁, hedits, hhead, hlast⟩ := init_heads hp (o := 0) (e := 2228224)
    (by omega) (by omega) (by omega)
  have hram : h₀.at 0 = memAlign ramHeap := by
    rw [hh₀]
    exact BitVec.add_zero _
  have hinit : h.init (memAlign ramHeap) =
      { h₁ with memSem := 1, lfree := h₁.at 0 } := by
    have hat : h₁.at 0 = h₀.at 0 := by rw [Heap.at, Heap.at, hedits.ram]
    have hend : h₀.at 2228224 = memAlign ramHeap + memSizeAligned := by
      rw [hh₀]
      rfl
    rw [hat, hram, hh₁, hram, hend, hh₀]
    simp only [Heap.init, Heap.setNext, Heap.setPrev, Heap.setUsed]
  have htiled : h₁.Tiled [⟨2228224, false⟩] := by
    refine ⟨hedits.placed hp, by simp, ?_, ?_, ⟨hhead.trans ?_, trivial⟩, ?_⟩
    · intro c hc
      rw [List.mem_singleton.1 hc]
      decide
    · intro c hc
      rw [List.mem_singleton.1 hc]
      decide
    · rw [cellHeader, Nat.zero_add]
      rfl
    · rw [hlast]
      exact ⟨rfl, rfl⟩
  refine ⟨{ h₁ with memSem := 1, lfree := h₁.at 0 }, ?_, ⟨htiled.congr rfl rfl rfl, ?_, rfl⟩, rfl⟩
  · rw [memInit, assert_bind (by decide), ← hinit]
    rfl
  · exact List.isChain_singleton _

end Labs.Jos.LwipMem
