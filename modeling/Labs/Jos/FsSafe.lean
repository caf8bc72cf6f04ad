import Labs.Jos.FsBitmap

/-!
# Images on which the file system does not panic

A disk is laid out when each of its files is: its size and the numbers of its blocks are in range,
and its name ends. The blocks of directories and the indirect blocks are kept apart, and
`alloc_block` does not give them away. It does not when they are marked in the bitmap as `fs.c`
marks them, and neither when block 2 is free, as on the images of `fsformat`, since then it is block
2 each time. On such a disk the functions of `fs.c` do not panic, and leave it laid out.
-/

namespace Labs.Jos.Fs

open Prog

/-- The number of blocks of the bitmap. -/
def bitmapBlocks (nblocks : Word) : Nat := (nblocks.toNat + 32767) / 32768

/-- The bit of the block is set. -/
def Taken (m : Bytes) (b : Nat) : Prop :=
  (m.load32 (bitmap + 4 * (b / 32))).getLsbD (b % 32) = true

/-- A file of the disk: the size, the name and the block numbers are those of a file. The blocks of
a directory and the indirect blocks are among `dir` and `ind`. -/
structure FileOk (nblocks : Word) (dir ind : Nat → Prop) (m : Bytes) (f : Nat) : Prop where
  size : (m.load32 (fSize f)).toNat ≤ 1034 * 4096
  named : ∃ n, n < maxnamelen ∧ m (f + n) = 0
  whole : m.load32 (fType f) = ftypeDir → (m.load32 (fSize f)).toNat % 4096 = 0
  first : (m.load32 (fDirect f 0)).toNat < nblocks.toNat
  block : ∀ i, i * 4096 < (m.load32 (fSize f)).toNat → ∃ d,
    BlockAt m nblocks.toNat f i d ∧ 3 ≤ d ∧ d < nblocks.toNat ∧
      (m.load32 (fType f) = ftypeDir → dir d)
  indirect : ndirect * 4096 < (m.load32 (fSize f)).toNat → ind (m.load32 (fIndirect f)).toNat

/-- The root directory, or an entry of a directory. -/
def FileIn (dir : Nat → Prop) (m : Bytes) (f : Nat) : Prop :=
  f = sRoot ∨ ∃ b j, dir b ∧ j < blkfiles ∧ f = b * 4096 + sizeofFile * j ∧ m f ≠ 0

/-- The bitmap keeps the blocks that hold the structure of the file system. -/
def Guarded (nblocks : Word) (dir ind : Nat → Prop) (m : Bytes) : Prop :=
  (∀ b, b < nblocks.toNat → 2 ≤ b ∧ b < 2 + bitmapBlocks nblocks ∨ dir b ∨ ind b → Taken m b) ∨
    ¬ Taken m 2

/-- A disk with the blocks `dir` of directories and the indirect blocks `ind`. -/
structure Layout (nblocks : Word) (dir ind : Nat → Prop) (m : Bytes) : Prop where
  sized : Sized m nblocks
  fits : 2 + bitmapBlocks nblocks < nblocks.toNat
  dirBlock : ∀ b, dir b → 2 + bitmapBlocks nblocks ≤ b ∧ b < nblocks.toNat
  indBlock : ∀ b, ind b → 2 + bitmapBlocks nblocks ≤ b ∧ b < nblocks.toNat
  apart : ∀ b, dir b → ¬ ind b
  file : ∀ f, FileIn dir m f → FileOk nblocks dir ind m f
  guarded : Guarded nblocks dir ind m

/-- An image on which the file server can run. -/
def ValidImage (m : Bytes) : Prop := ∃ nblocks dir ind, Layout nblocks dir ind m

variable {nblocks : Word} {dir ind : Nat → Prop} {m m' : Bytes} {f g r : Nat}

/-! ## Where files are -/

/-- A file lies in block 1, or in a block of a directory. -/
theorem FileIn.place (hf : FileIn dir m f) :
    f = 4104 ∨ ∃ b, dir b ∧ b * 4096 ≤ f ∧ f + 256 ≤ b * 4096 + 4096 := by
  cases hf with
  | inl h => exact Or.inl h
  | inr h =>
      obtain ⟨b, j, hdir, hj, hfj, -⟩ := h
      unfold blkfiles at hj
      unfold sizeofFile at hfj
      exact Or.inr ⟨b, hdir, by omega, by omega⟩

/-- Two files do not overlap. -/
theorem FileIn.disjoint (hf : FileIn dir m f) (hg : FileIn dir m g) (hlo : ∀ b, dir b → 2 ≤ b)
    (hne : g ≠ f) : g + 256 ≤ f ∨ f + 256 ≤ g := by
  unfold FileIn sRoot blkfiles sizeofFile at hf hg
  cases hf with
  | inl hf =>
      cases hg with
      | inl hg => omega
      | inr hg =>
          obtain ⟨b, j, hdir, hj, hgj, -⟩ := hg
          have hb := hlo b hdir
          omega
  | inr hf =>
      obtain ⟨c, k, hdir', hk, hfk, -⟩ := hf
      have hc := hlo c hdir'
      cases hg with
      | inl hg => omega
      | inr hg =>
          obtain ⟨b, j, hdir, hj, hgj, -⟩ := hg
          omega

theorem Layout.dir_lo (hlay : Layout nblocks dir ind m) : ∀ b, dir b → 2 ≤ b := by
  intro b hdir
  have hb := hlay.dirBlock b hdir
  omega

/-- The end of a block of the disk. -/
theorem block_end_le {b n : Nat} (hb : b < n) : b * 4096 + 4096 ≤ n * 4096 := by
  rw [← Nat.succ_mul]
  exact Nat.mul_le_mul_right 4096 hb

theorem Layout.on_disk (hlay : Layout nblocks dir ind m) (hf : FileIn dir m f) :
    OnDisk nblocks f := by
  have hfits := hlay.fits
  unfold OnDisk sizeofFile
  cases hf.place with
  | inl h => omega
  | inr h =>
      obtain ⟨b, hdir, hlo, hhi⟩ := h
      exact hhi.trans (block_end_le (hlay.dirBlock b hdir).2)

/-! ## Blocks are allocated -/

/-- `block_is_free` reads a bit of the bitmap. -/
theorem Layout.returns_block_is_free (hlay : Layout nblocks dir ind m) {b : Nat}
    (hb : b < nblocks.toNat) :
    Returns (blockIsFree (BitVec.ofNat 32 b)) m
      (!(m.load32 (bitmap + 4 * (b / 32))).getLsbD (b % 32)) := by
  have hlt := nblocks.isLt
  have hfits := hlay.fits
  have hbn : (BitVec.ofNat 32 b).toNat = b := by
    rw [BitVec.toNat_ofNat]
    omega
  have hin : ¬ m.load32 sNblocks ≤ BitVec.ofNat 32 b := by
    rw [hlay.sized.number, BitVec.not_le, BitVec.lt_def, hbn]
    exact hb
  have hplace : bitmapWord (BitVec.ofNat 32 b) < nblocks.toNat * 4096 := by
    unfold bitmapBlocks at hfits
    unfold bitmapWord bitmap
    rw [hbn]
    omega
  have hbit := and_bit_beq (m.load32 (bitmap + 4 * (b / 32))) (Nat.mod_lt b (by decide : 0 < 32))
  unfold blockIsFree
  refine returns_get ?_
  rw [if_neg hin]
  refine returns_bind (hlay.sized.returns_pgfault hplace) ?_
  unfold bitmapWord bitmapBit
  rw [hbn, hbit]
  rfl

/-- The memory after a block has been marked. -/
def mark (m : Bytes) (r : Nat) : Bytes :=
  m.store32 (bitmapWord (BitVec.ofNat 32 r))
    (m.load32 (bitmapWord (BitVec.ofNat 32 r)) ||| bitmapBit (BitVec.ofNat 32 r))

/-- The loop of `alloc_block` finds the first free block, if there is one. -/
theorem Layout.alloc_from_cases (hlay : Layout nblocks dir ind m) {n b : Nat}
    (hn : b + n ≤ nblocks.toNat) :
    (∃ r, b ≤ r ∧ r < b + n ∧ ¬ Taken m r ∧ (∀ c, b ≤ c → c < r → Taken m c) ∧
      allocFrom n (BitVec.ofNat 32 b) m = .ret (BitVec.ofNat 32 r) (mark m r)) ∨
    (∀ c, b ≤ c → c < b + n → Taken m c) ∧
      allocFrom n (BitVec.ofNat 32 b) m = .exit (.error (-eNoDisk)) m := by
  induction n generalizing b with
  | zero =>
      refine Or.inr ⟨fun c hlo hhi => ?_, rfl⟩
      omega
  | succ n ih =>
      have hfree := hlay.returns_block_is_free (b := b) (by omega)
      have hnext : BitVec.ofNat 32 b + 1 = BitVec.ofNat 32 (b + 1) := (BitVec.ofNat_add b 1).symm
      rw [allocFrom, bind_of_returns hfree]
      by_cases htaken : Taken m b
      · unfold Taken at htaken
        rw [htaken, if_neg (by decide : ¬ (!true) = true), hnext]
        have hmore : ∀ c, b ≤ c → (c = b ∨ b + 1 ≤ c) := by
          intro c hc
          omega
        cases ih (b := b + 1) (by omega) with
        | inl h =>
            obtain ⟨r, hlo, hhi, hr, hbefore, halloc⟩ := h
            refine Or.inl ⟨r, by omega, by omega, hr, fun c hc hcr => ?_, halloc⟩
            cases hmore c hc with
            | inl h => exact h ▸ htaken
            | inr h => exact hbefore c h hcr
        | inr h =>
            obtain ⟨hall, halloc⟩ := h
            refine Or.inr ⟨fun c hc hcn => ?_, halloc⟩
            cases hmore c hc with
            | inl h => exact h ▸ htaken
            | inr h => exact hall c h (by omega)
      · have hclear : (m.load32 (bitmap + 4 * (b / 32))).getLsbD (b % 32) = false :=
          Bool.eq_false_iff.mpr htaken
        rw [hclear, if_pos (by decide : (!false) = true)]
        refine Or.inl ⟨b, Nat.le_refl b, by omega, htaken, fun c hc hcb => ?_, rfl⟩
        omega

/-- `alloc_block` has a block to give. -/
def HasFree (m : Bytes) : Prop := ∃ b, 2 ≤ b ∧ b < (m.load32 sNblocks).toNat ∧ ¬ Taken m b

/-- `alloc_block` marks the first free block, or fails when there is none. -/
theorem Layout.alloc_block_cases (hlay : Layout nblocks dir ind m) :
    (∃ r, 2 ≤ r ∧ r < nblocks.toNat ∧ ¬ Taken m r ∧ (∀ c, 2 ≤ c → c < r → Taken m c) ∧
      allocBlock m = .ret (BitVec.ofNat 32 r) (mark m r)) ∨
    ¬ HasFree m ∧ allocBlock m = .exit (.error (-eNoDisk)) m := by
  have hfits := hlay.fits
  have hall : allocBlock m = allocFrom (nblocks.toNat - 2) (BitVec.ofNat 32 2) m := by
    rw [← hlay.sized.number]
    rfl
  rw [hall]
  cases hlay.alloc_from_cases (n := nblocks.toNat - 2) (b := 2) (by omega) with
  | inl h =>
      obtain ⟨r, hlo, hhi, hr, hbefore, halloc⟩ := h
      exact Or.inl ⟨r, hlo, by omega, hr, hbefore, halloc⟩
  | inr h =>
      obtain ⟨htaken, halloc⟩ := h
      refine Or.inr ⟨fun hfree => ?_, halloc⟩
      obtain ⟨b, hlo, hhi, hb⟩ := hfree
      rw [hlay.sized.number] at hhi
      exact hb (htaken b hlo (by omega))

/-! ## A block is given to an empty file -/

/-- The memory after `file_get_block` has allocated the first block of a file. -/
def give (m : Bytes) (f r : Nat) : Bytes :=
  ((mark m r).store32 (fDirect f 0) (BitVec.ofNat 32 r)).fill (r * blksize) blksize 0

/-- The place of a bit in the bitmap. -/
theorem bitmap_word_range (hr : r < nblocks.toNat) :
    8192 ≤ bitmapWord (BitVec.ofNat 32 r) ∧
      bitmapWord (BitVec.ofNat 32 r) + 4 ≤ (2 + bitmapBlocks nblocks) * 4096 := by
  have hlt := nblocks.isLt
  have hrn : (BitVec.ofNat 32 r).toNat = r := by
    rw [BitVec.toNat_ofNat]
    omega
  unfold bitmapWord bitmap bitmapBlocks
  rw [hrn]
  omega

/-- Only the bitmap, the number of the block and the block itself are written to. -/
theorem give_same (hr : r < nblocks.toNat) {a : Nat}
    (hbitmap : a < 8192 ∨ (2 + bitmapBlocks nblocks) * 4096 ≤ a)
    (hfile : a < f + 136 ∨ f + 140 ≤ a) (hblock : a < r * 4096 ∨ r * 4096 + 4096 ≤ a) :
    give m f r a = m a := by
  have hword := bitmap_word_range hr
  unfold give mark fDirect blksize
  rw [Bytes.fill_of_not (by omega), Bytes.store32_of_not _ (by omega),
    Bytes.store32_of_not _ (by omega)]

/-- A free block is not one of those that the bitmap guards. If block 2 is free it is that one. -/
theorem Layout.free_block (hlay : Layout nblocks dir ind m) (hr : r < nblocks.toNat)
    (hfree : ¬ Taken m r) (hbefore : ∀ c, 2 ≤ c → c < r → Taken m c) (hlo : 2 ≤ r) :
    ¬ dir r ∧ ¬ ind r ∧ (r = 2 ∨ 2 + bitmapBlocks nblocks ≤ r ∧
      ∀ b, b < nblocks.toNat → 2 ≤ b ∧ b < 2 + bitmapBlocks nblocks ∨ dir b ∨ ind b →
        Taken m b) := by
  cases hlay.guarded with
  | inl hguard =>
      refine ⟨fun h => hfree (hguard r hr (Or.inr (Or.inl h))),
        fun h => hfree (hguard r hr (Or.inr (Or.inr h))), Or.inr ⟨?_, hguard⟩⟩
      by_contra hin
      exact hfree (hguard r hr (Or.inl ⟨hlo, Nat.lt_of_not_le hin⟩))
  | inr htwo =>
      have hr2 : r = 2 := by
        by_contra hne
        exact htwo (hbefore 2 (Nat.le_refl 2) (by omega))
      have hblocks : 0 < bitmapBlocks nblocks := by
        unfold bitmapBlocks
        omega
      refine ⟨fun h => ?_, fun h => ?_, Or.inl hr2⟩
      · have hb := hlay.dirBlock r h
        omega
      · have hb := hlay.indBlock r h
        omega

/-- The blocks of a file are numbered below `NDIRECT + NINDIRECT`. -/
theorem last_block_lt {i n : Nat} (hi : i * 4096 < n * 4096) : i < n :=
  Nat.lt_of_mul_lt_mul_right hi

/-- A file whose bytes stay, and those of the indirect blocks, is a file as before. -/
theorem FileOk.keep (hok : FileOk nblocks dir ind m g)
    (hsame : ∀ x, x < 256 → m' (g + x) = m (g + x))
    (hind : ∀ b, ind b → ∀ y, y < 4096 → m' (b * 4096 + y) = m (b * 4096 + y)) :
    FileOk nblocks dir ind m' g := by
  have hload : ∀ x, x + 4 ≤ 256 → m'.load32 (g + x) = m.load32 (g + x) := by
    intro x hx
    refine Bytes.load32_congr fun i hi => ?_
    rw [Nat.add_assoc]
    exact hsame _ (by omega)
  have hsize : m'.load32 (fSize g) = m.load32 (fSize g) := hload 128 (by decide)
  have htype : m'.load32 (fType g) = m.load32 (fType g) := hload 132 (by decide)
  have hfirst : m'.load32 (fDirect g 0) = m.load32 (fDirect g 0) := hload 136 (by decide)
  have hindirect : m'.load32 (fIndirect g) = m.load32 (fIndirect g) := hload 176 (by decide)
  refine ⟨?_, ?_, ?_, ?_, ?_, ?_⟩
  · rw [hsize]
    exact hok.size
  · obtain ⟨n, hn, hzero⟩ := hok.named
    refine ⟨n, hn, (hsame n ?_).trans hzero⟩
    unfold maxnamelen at hn
    omega
  · rw [hsize, htype]
    exact hok.whole
  · rw [hfirst]
    exact hok.first
  · rw [hsize, htype]
    intro i hi
    obtain ⟨d, hat, hlo, hhi, hdir⟩ := hok.block i hi
    refine ⟨d, ?_, hlo, hhi, hdir⟩
    unfold BlockAt at hat ⊢
    by_cases hi' : i < ndirect
    · rw [if_pos hi'] at hat ⊢
      have hword : m'.load32 (fDirect g i) = m.load32 (fDirect g i) := by
        unfold fDirect
        rw [Nat.add_assoc]
        refine hload _ ?_
        unfold ndirect at hi'
        omega
      rw [hword]
      exact hat
    · rw [if_neg hi'] at hat ⊢
      have hle : ndirect ≤ i := Nat.le_of_not_lt hi'
      have hfar := hok.indirect (Nat.lt_of_le_of_lt (Nat.mul_le_mul_right 4096 hle) hi)
      have hlast := last_block_lt (Nat.lt_of_lt_of_le hi hok.size)
      have hten : ndirect = 10 := rfl
      obtain ⟨k, hklo, hkhi, hk, hword⟩ := hat
      have hkn : (m.load32 (fIndirect g)).toNat = k := by
        have hlt := nblocks.isLt
        rw [hk, BitVec.toNat_ofNat]
        omega
      rw [hkn] at hfar
      refine ⟨k, hklo, hkhi, hindirect.trans hk, ?_⟩
      rw [← hword]
      refine Bytes.load32_congr fun y hy => ?_
      rw [Nat.add_assoc]
      refine hind k hfar _ ?_
      omega
  · rw [hsize, hindirect]
    exact hok.indirect

/-- The first bytes of entries are not among those that are written to. -/
theorem FileIn.give_first (hlay : Layout nblocks dir ind m) (hf : FileIn dir m f)
    (hr : r < nblocks.toNat) (hndir : ¬ dir r) {b j : Nat} (hdir : dir b) (hj : j < blkfiles) :
    give m f r (b * 4096 + sizeofFile * j) = m (b * 4096 + sizeofFile * j) := by
  have hb := (hlay.dirBlock b hdir).1
  have hne : b ≠ r := fun h => hndir (h ▸ hdir)
  have hf' : f = 4104 ∨ ∃ c k, f = c * 4096 + 256 * k := by
    cases hf with
    | inl h => exact Or.inl h
    | inr h =>
        obtain ⟨c, k, -, -, hfk, -⟩ := h
        exact Or.inr ⟨c, k, hfk⟩
  unfold blkfiles at hj
  unfold sizeofFile
  have hbitmap : (2 + bitmapBlocks nblocks) * 4096 ≤ b * 4096 + 256 * j :=
    (Nat.mul_le_mul_right 4096 hb).trans (Nat.le_add_right ..)
  refine give_same hr (Or.inr hbitmap) ?_ ?_
  · cases hf' with
    | inl h => omega
    | inr h =>
        obtain ⟨c, k, h⟩ := h
        omega
  · cases Nat.lt_or_gt_of_ne hne with
    | inl h =>
        have hend := block_end_le h
        omega
    | inr h =>
        have hend := block_end_le h
        omega

/-- The bytes of a file other than the one that is given a block. -/
theorem FileIn.give_other (hlay : Layout nblocks dir ind m) (hf : FileIn dir m f)
    (hg : FileIn dir m g) (hr : r < nblocks.toNat) (hlo : 2 ≤ r) (hndir : ¬ dir r) {x : Nat}
    (hx : x < 256) (hother : g ≠ f ∨ x < 136 ∨ 140 ≤ x) : give m f r (g + x) = m (g + x) := by
  have hfile : g + x < f + 136 ∨ f + 140 ≤ g + x := by
    by_cases hgf : g = f
    · subst hgf
      omega
    · have hdisj := hf.disjoint hg hlay.dir_lo hgf
      omega
  cases hg.place with
  | inl h =>
      refine give_same hr (Or.inl (by omega)) hfile (Or.inl ?_)
      have htwo : 2 * 4096 ≤ r * 4096 := Nat.mul_le_mul_right 4096 hlo
      omega
  | inr h =>
      obtain ⟨b, hdir, hblo, hbhi⟩ := h
      have hb : (2 + bitmapBlocks nblocks) * 4096 ≤ b * 4096 :=
        Nat.mul_le_mul_right 4096 (hlay.dirBlock b hdir).1
      have hne : b ≠ r := fun h => hndir (h ▸ hdir)
      refine give_same hr (Or.inr (hb.trans (hblo.trans (Nat.le_add_right ..)))) hfile ?_
      cases Nat.lt_or_gt_of_ne hne with
      | inl h =>
          have hend := block_end_le h
          omega
      | inr h =>
          have hend := block_end_le h
          omega

/-- The indirect blocks. -/
theorem Layout.give_indirect (hlay : Layout nblocks dir ind m) (hf : FileIn dir m f)
    (hr : r < nblocks.toNat) (hnind : ¬ ind r) {b : Nat} (hind : ind b) {y : Nat} (hy : y < 4096) :
    give m f r (b * 4096 + y) = m (b * 4096 + y) := by
  have hb : (2 + bitmapBlocks nblocks) * 4096 ≤ b * 4096 :=
    Nat.mul_le_mul_right 4096 (hlay.indBlock b hind).1
  have hne : b ≠ r := fun h => hnind (h ▸ hind)
  refine give_same hr (Or.inr (hb.trans (Nat.le_add_right ..))) ?_ ?_
  · cases hf.place with
    | inl h => omega
    | inr h =>
        obtain ⟨c, hdir, hclo, hchi⟩ := h
        have hnot : b ≠ c := fun h => hlay.apart c hdir (h ▸ hind)
        cases Nat.lt_or_gt_of_ne hnot with
        | inl h =>
            have hend := block_end_le h
            omega
        | inr h =>
            have hend := block_end_le h
            omega
  · cases Nat.lt_or_gt_of_ne hne with
    | inl h =>
        have hend := block_end_le h
        omega
    | inr h =>
        have hend := block_end_le h
        omega

/-- A word of the bitmap after a bit in it has been set. -/
theorem taken_mark {b : Nat} (hr : r < nblocks.toNat) (htaken : Taken m b) :
    Taken (mark m r) b := by
  have hlt := nblocks.isLt
  have hrn : (BitVec.ofNat 32 r).toNat = r := by
    rw [BitVec.toNat_ofNat]
    omega
  unfold Taken at htaken ⊢
  unfold mark bitmapWord
  rw [hrn]
  by_cases hsame : b / 32 = r / 32
  · rw [hsame] at htaken ⊢
    rw [Bytes.load32_store32, BitVec.getLsbD_or, htaken, Bool.true_or]
  · rw [Bytes.load32_store32_of_ne _ (by unfold bitmap; omega)]
    exact htaken

/-- The bitmap goes on guarding the structure of the disk. -/
theorem Layout.guarded_give (hlay : Layout nblocks dir ind m) (hf : FileIn dir m f)
    (hr : r < nblocks.toNat) (hfree : ¬ Taken m r) (hbefore : ∀ c, 2 ≤ c → c < r → Taken m c)
    (hlo : 2 ≤ r) : Guarded nblocks dir ind (give m f r) := by
  have hword : ∀ b, b < nblocks.toNat → 2 + bitmapBlocks nblocks ≤ r →
      (give m f r).load32 (bitmap + 4 * (b / 32)) =
        (mark m r).load32 (bitmap + 4 * (b / 32)) := by
    intro b hb habove
    have hrange := bitmap_word_range hb
    have hbn : (BitVec.ofNat 32 b).toNat = b := by
      have hlt := nblocks.isLt
      rw [BitVec.toNat_ofNat]
      omega
    unfold bitmapWord at hrange
    rw [hbn] at hrange
    have hend : (2 + bitmapBlocks nblocks) * 4096 ≤ r * 4096 := Nat.mul_le_mul_right 4096 habove
    refine Bytes.load32_congr fun i hi => ?_
    have hfile : f + 140 ≤ 8192 ∨ (2 + bitmapBlocks nblocks) * 4096 ≤ f := by
      cases hf.place with
      | inl h => exact Or.inl (by omega)
      | inr h =>
          obtain ⟨c, hdir, hclo, -⟩ := h
          exact Or.inr ((Nat.mul_le_mul_right 4096 (hlay.dirBlock c hdir).1).trans hclo)
    unfold give fDirect blksize
    rw [Bytes.fill_of_not (by omega), Bytes.store32_of_not _ (by omega)]
  obtain ⟨hndir, hnind, hcase⟩ := hlay.free_block hr hfree hbefore hlo
  cases hcase with
  | inl htwo =>
      -- block 2 is cleared again, and with it the bit that was set
      refine Or.inr fun htaken => ?_
      have hzero : (give m f r).load32 (bitmap + 4 * (2 / 32)) = 0 := by
        refine Bytes.load32_eq_zero fun i hi => Bytes.fill_of_mem ?_ ?_
        · rw [htwo]
          exact Nat.le_add_right ..
        · rw [htwo]
          unfold bitmap blksize
          omega
      unfold Taken at htaken
      rw [hzero] at htaken
      exact absurd htaken (by decide)
  | inr hguard =>
      obtain ⟨habove, hguard⟩ := hguard
      refine Or.inl fun b hb hstruct => ?_
      have hmark : Taken (mark m r) b := taken_mark hr (hguard b hb hstruct)
      unfold Taken at hmark ⊢
      rw [hword b hb habove]
      exact hmark

/-- The number of the block that was given. -/
theorem FileIn.load_give (hf : FileIn dir m f) (hlo : 2 ≤ r) (hndir : ¬ dir r) :
    (give m f r).load32 (fDirect f 0) = BitVec.ofNat 32 r := by
  have hout : fDirect f 0 + 4 ≤ r * 4096 ∨ r * 4096 + 4096 ≤ fDirect f 0 := by
    unfold fDirect
    cases hf.place with
    | inl h =>
        have htwo : 2 * 4096 ≤ r * 4096 := Nat.mul_le_mul_right 4096 hlo
        exact Or.inl (by omega)
    | inr h =>
        obtain ⟨b, hdir, hblo, hbhi⟩ := h
        have hne : b ≠ r := fun h => hndir (h ▸ hdir)
        cases Nat.lt_or_gt_of_ne hne with
        | inl h =>
            have hend := block_end_le h
            exact Or.inl (by omega)
        | inr h => exact Or.inr ((block_end_le h).trans (hblo.trans (by omega)))
  have hload : (give m f r).load32 (fDirect f 0) =
      ((mark m r).store32 (fDirect f 0) (BitVec.ofNat 32 r)).load32 (fDirect f 0) := by
    refine Bytes.load32_congr fun i hi => Bytes.fill_of_not ?_
    unfold blksize
    omega
  rw [hload, Bytes.load32_store32]

/-- The disk stays laid out, with the same files. -/
theorem Layout.given (hlay : Layout nblocks dir ind m) (hf : FileIn dir m f)
    (hempty : (m.load32 (fSize f)).toNat = 0) (hr : r < nblocks.toNat) (hfree : ¬ Taken m r)
    (hbefore : ∀ c, 2 ≤ c → c < r → Taken m c) (hlo : 2 ≤ r) :
    Layout nblocks dir ind (give m f r) ∧ ∀ g, FileIn dir (give m f r) g ↔ FileIn dir m g := by
  have hlt := nblocks.isLt
  obtain ⟨hndir, hnind, -⟩ := hlay.free_block hr hfree hbefore hlo
  have hfiles : ∀ g, FileIn dir (give m f r) g ↔ FileIn dir m g := by
    intro g
    constructor
    · intro hg
      cases hg with
      | inl h => exact Or.inl h
      | inr h =>
          obtain ⟨b, j, hdir, hj, hgj, hne⟩ := h
          rw [hgj, hf.give_first hlay hr hndir hdir hj, ← hgj] at hne
          exact Or.inr ⟨b, j, hdir, hj, hgj, hne⟩
    · intro hg
      cases hg with
      | inl h => exact Or.inl h
      | inr h =>
          obtain ⟨b, j, hdir, hj, hgj, hne⟩ := h
          rw [hgj, ← hf.give_first hlay hr hndir hdir hj, ← hgj] at hne
          exact Or.inr ⟨b, j, hdir, hj, hgj, hne⟩
  have hind : ∀ b, ind b → ∀ y, y < 4096 → give m f r (b * 4096 + y) = m (b * 4096 + y) :=
    fun b hb y hy => hlay.give_indirect hf hr hnind hb hy
  refine ⟨⟨⟨?_, hlay.sized.fits⟩, hlay.fits, hlay.dirBlock, hlay.indBlock, hlay.apart, ?_,
    hlay.guarded_give hf hr hfree hbefore hlo⟩, hfiles⟩
  · have hnumber : (give m f r).load32 sNblocks = m.load32 sNblocks := by
      refine Bytes.load32_congr fun i hi => give_same hr (Or.inl ?_) ?_ (Or.inl ?_)
      · unfold sNblocks
        omega
      · unfold sNblocks
        cases hf.place with
        | inl h => omega
        | inr h =>
            obtain ⟨c, hdir, hclo, -⟩ := h
            have hc := hlay.dir_lo c hdir
            omega
      · unfold sNblocks
        omega
    exact hnumber.trans hlay.sized.number
  · intro g hg
    rw [hfiles] at hg
    have hok := hlay.file g hg
    by_cases hgf : g = f
    · subst hgf
      have hsame : ∀ x, x < 256 → (x < 136 ∨ 140 ≤ x) → give m g r (g + x) = m (g + x) :=
        fun x hx hother => hf.give_other hlay hf hr hlo hndir hx (Or.inr hother)
      have hsize : (give m g r).load32 (fSize g) = m.load32 (fSize g) := by
        unfold fSize
        refine Bytes.load32_congr fun i hi => ?_
        rw [Nat.add_assoc]
        exact hsame _ (by omega) (by omega)
      have htype : (give m g r).load32 (fType g) = m.load32 (fType g) := by
        unfold fType
        refine Bytes.load32_congr fun i hi => ?_
        rw [Nat.add_assoc]
        exact hsame _ (by omega) (by omega)
      refine ⟨?_, ?_, ?_, ?_, ?_, ?_⟩
      · rw [hsize]
        exact hok.size
      · obtain ⟨n, hn, hzero⟩ := hok.named
        have hn' : n < 128 := hn
        exact ⟨n, hn, (hsame n (by omega) (by omega)).trans hzero⟩
      · rw [hsize, htype]
        exact hok.whole
      · have hrn : (BitVec.ofNat 32 r).toNat = r := by
          rw [BitVec.toNat_ofNat]
          omega
        rw [hf.load_give hlo hndir, hrn]
        exact hr
      · rw [hsize, hempty]
        intro i hi
        exact absurd hi (Nat.not_lt_zero _)
      · rw [hsize, hempty]
        exact fun hi => absurd hi (Nat.not_lt_zero _)
    · exact hok.keep (fun x hx => hf.give_other hlay hg hr hlo hndir hx (Or.inl hgf)) hind

/-! ## The functions of the file system -/

/-- A later state of the disk, with the same files. -/
def Later (nblocks : Word) (dir ind : Nat → Prop) (m m' : Bytes) : Prop :=
  Layout nblocks dir ind m' ∧ ∀ g, FileIn dir m' g ↔ FileIn dir m g

theorem Layout.later (hlay : Layout nblocks dir ind m) : Later nblocks dir ind m m :=
  ⟨hlay, fun _ => Iff.rfl⟩

/-- A block of a file that lies in its size. -/
theorem Layout.returns_get_block (hlay : Layout nblocks dir ind m) (hf : FileIn dir m f) {i : Nat}
    (hi : i * 4096 < (m.load32 (fSize f)).toNat) : ∃ d,
      Returns (fileGetBlock f (BitVec.ofNat 32 i)) m (d * 4096) ∧ 3 ≤ d ∧ d < nblocks.toNat ∧
        (m.load32 (fType f) = ftypeDir → dir d) := by
  have hok := hlay.file f hf
  obtain ⟨d, hat, hlo, hhi, hdir⟩ := hok.block i hi
  have hlast := last_block_lt (Nat.lt_of_lt_of_le hi hok.size)
  exact ⟨d, Fs.returns_get_block hlay.sized (Nat.le_refl _) (hlay.on_disk hf) hlast hat (by omega)
    hhi, hlo, hhi, hdir⟩

/-- The number of blocks stays when a block is marked and its number stored. -/
theorem Layout.sized_mark (hlay : Layout nblocks dir ind m) (hf : FileIn dir m f)
    (hr : r < nblocks.toNat) :
    Sized ((mark m r).store32 (fDirect f 0) (BitVec.ofNat 32 r)) nblocks := by
  have hword := bitmap_word_range hr
  refine ⟨?_, hlay.sized.fits⟩
  unfold mark sNblocks fDirect
  rw [Bytes.load32_store32_of_ne, Bytes.load32_store32_of_ne]
  · exact hlay.sized.number
  · omega
  · cases hf.place with
    | inl h => omega
    | inr h =>
        obtain ⟨c, hdir, hclo, -⟩ := h
        have hc := hlay.dir_lo c hdir
        omega

/-- The file has a first block, or can be given one. -/
def HasFirst (m : Bytes) (f : Nat) : Prop := m.load32 (fDirect f 0) ≠ 0 ∨ HasFree m

/-- The first block of a file, even if the file is empty. -/
theorem Layout.get_first_block (hlay : Layout nblocks dir ind m) (hf : FileIn dir m f) :
    wp (fileGetBlock f 0)
      (fun a m' => HasFirst m f ∧ Later nblocks dir ind m m' ∧
        ∃ d, a = d * 4096 ∧ 0 < d ∧ d < nblocks.toNat)
      (fun e m' => ¬ HasFirst m f ∧ m' = m ∧ e = .error (-eNoDisk)) m := by
  have hlt := nblocks.isLt
  have hok := hlay.file f hf
  have hplace : fDirect f 0 < nblocks.toNat * 4096 := by
    have hdisk := hlay.on_disk hf
    unfold OnDisk sizeofFile at hdisk
    unfold fDirect
    omega
  have hwalk : fileBlockWalk f 0 true m = .ret (fDirect f 0) m := rfl
  have hget : ∀ m : Bytes, (get : Prog Bytes Stop Bytes) m = .ret m m := fun _ => rfl
  by_cases hzero : m.load32 (fDirect f 0) = 0
  · have hempty : (m.load32 (fSize f)).toNat = 0 := by
      by_contra hne
      have hpos : 0 * 4096 < (m.load32 (fSize f)).toNat := by
        rw [Nat.zero_mul]
        exact Nat.pos_of_ne_zero hne
      obtain ⟨d, hat, hdlo, hdhi, -⟩ := hok.block 0 hpos
      have hd : m.load32 (fDirect f 0) = BitVec.ofNat 32 d := hat
      have hnat := congrArg BitVec.toNat (hd.symm.trans hzero)
      have hz : (0 : Word).toNat = 0 := rfl
      rw [BitVec.toNat_ofNat] at hnat
      omega
    cases hlay.alloc_block_cases with
    | inl halloc =>
        obtain ⟨r, hlo, hr, hfree, hbefore, halloc⟩ := halloc
        obtain ⟨hndir, -, -⟩ := hlay.free_block hr hfree hbefore hlo
        have hlater := hlay.given hf hempty hr hfree hbefore hlo
        have hpos : 0 < r := Nat.lt_of_lt_of_le Nat.zero_lt_two hlo
        have hblk := returns_diskaddr (hlay.sized_mark hf hr) hpos hr
        have hlast := returns_diskaddr hlater.1.sized hpos hr
        have hrun : fileGetBlock f 0 m = .ret (r * 4096) (give m f r) := by
          unfold fileGetBlock
          rw [bind_of_ret hwalk, bind_of_returns (hlay.sized.returns_pgfault hplace),
            bind_of_ret (hget m), if_pos hzero, bind_of_ret halloc]
          show (diskaddr (BitVec.ofNat 32 r) >>= fun blk => _) _ = _
          rw [bind_of_ret hblk]
          show diskaddr ((give m f r).load32 (fDirect f 0)) (give m f r) = _
          rw [hf.load_give hlo hndir]
          exact hlast
        rw [wp_of_ret hrun]
        have hhas : HasFree m := ⟨r, hlo, by rw [hlay.sized.number]; exact hr, hfree⟩
        exact ⟨Or.inr hhas, hlater, r, rfl, hpos, hr⟩
    | inr hfull =>
        obtain ⟨hnone, halloc⟩ := hfull
        have hrun : fileGetBlock f 0 m = .exit (.error (-eNoDisk)) m := by
          unfold fileGetBlock
          rw [bind_of_ret hwalk, bind_of_returns (hlay.sized.returns_pgfault hplace),
            bind_of_ret (hget m), if_pos hzero, bind_of_exit halloc]
        rw [wp_of_exit hrun]
        refine ⟨fun hfirst => ?_, rfl, rfl⟩
        cases hfirst with
        | inl h => exact h hzero
        | inr h => exact hnone h
  · have hd : BitVec.ofNat 32 (m.load32 (fDirect f 0)).toNat = m.load32 (fDirect f 0) := by
      rw [BitVec.ofNat_toNat, BitVec.setWidth_eq]
    have hpos : 0 < (m.load32 (fDirect f 0)).toNat :=
      Nat.pos_of_ne_zero fun h => hzero (BitVec.eq_of_toNat_eq h)
    have haddr := returns_diskaddr hlay.sized hpos hok.first
    rw [hd] at haddr
    have hrun : fileGetBlock f 0 m = .ret ((m.load32 (fDirect f 0)).toNat * 4096) m := by
      unfold fileGetBlock
      rw [bind_of_ret hwalk, bind_of_returns (hlay.sized.returns_pgfault hplace),
        bind_of_ret (hget m), if_neg hzero]
      exact haddr
    rw [wp_of_ret hrun]
    exact ⟨Or.inl hzero, hlay.later, _, rfl, hpos, hok.first⟩

/-- What `dir_lookup` finds in a block of a directory is a file. -/
theorem find_in_block_file {b : Nat} {name : List Byte} (hdir : dir b) {c : Byte}
    {rest : List Byte} (hname : name = c :: rest) (hc : c ≠ 0)
    (hfind : findInBlock m (b * 4096) name = some g) : FileIn dir m g := by
  have hmem := List.mem_of_find?_eq_some hfind
  have hcmp := List.find?_some hfind
  obtain ⟨j, hj, hgj⟩ := List.mem_map.mp hmem
  rw [hname] at hcmp
  unfold strcmp at hcmp
  rw [Bool.and_eq_true] at hcmp
  have hfirst : m g = c := eq_of_beq hcmp.1
  refine Or.inr ⟨b, j, hdir, List.mem_range.mp hj, hgj.symm, ?_⟩
  rw [hfirst]
  exact hc

/-- The loop of `dir_lookup`. -/
theorem Layout.lookup_from (hlay : Layout nblocks dir ind m) (hf : FileIn dir m f)
    (htype : m.load32 (fType f) = ftypeDir) {name rest : List Byte} {c : Byte}
    (hname : name = c :: rest) (hc : c ≠ 0) {n i : Nat}
    (hn : (i + n) * 4096 = (m.load32 (fSize f)).toNat) :
    (∃ g, dirLookupFrom f name n (BitVec.ofNat 32 i) m = .ret g m ∧ FileIn dir m g) ∨
      ∃ r, dirLookupFrom f name n (BitVec.ofNat 32 i) m = .exit (.error r) m := by
  induction n generalizing i with
  | zero => exact Or.inr ⟨-eNotFound, rfl⟩
  | succ n ih =>
      have hi : i * 4096 < (m.load32 (fSize f)).toNat := by
        rw [← hn]
        exact Nat.mul_lt_mul_of_pos_right (by omega) (by decide)
      obtain ⟨d, hblock, -, -, hdir⟩ := hlay.returns_get_block hf hi
      have hnext : BitVec.ofNat 32 i + 1 = BitVec.ofNat 32 (i + 1) := (BitVec.ofNat_add i 1).symm
      have hrest := ih (i := i + 1) (by rw [← hn, Nat.add_assoc, Nat.add_comm 1 n])
      rw [dirLookupFrom, bind_of_returns hblock, get_bind]
      cases hfind : findInBlock m (d * 4096) name with
      | some g => exact Or.inl ⟨g, rfl, find_in_block_file (hdir htype) hname hc hfind⟩
      | none =>
          dsimp only
          rw [hnext]
          exact hrest

/-- A size is a number of bytes that is not negative. -/
theorem Layout.size_lt (hlay : Layout nblocks dir ind m) (hf : FileIn dir m f) :
    (m.load32 (fSize f)).toNat < 2 ^ 31 :=
  Nat.lt_of_le_of_lt (hlay.file f hf).size (by decide)

theorem Layout.size_place (hlay : Layout nblocks dir ind m) (hf : FileIn dir m f) {x : Nat}
    (hx : x < 256) : f + x < nblocks.toNat * 4096 := by
  have hdisk := hlay.on_disk hf
  unfold OnDisk sizeofFile at hdisk
  omega

/-- `dir_lookup` in a directory. -/
theorem Layout.lookup (hlay : Layout nblocks dir ind m) (hf : FileIn dir m f)
    (htype : m.load32 (fType f) = ftypeDir) {name rest : List Byte} {c : Byte}
    (hname : name = c :: rest) (hc : c ≠ 0) :
    (∃ g, dirLookup f name m = .ret g m ∧ FileIn dir m g) ∨
      ∃ r, dirLookup f name m = .exit (.error r) m := by
  have hwhole := (hlay.file f hf).whole htype
  have hlt := hlay.size_lt hf
  have hsize : BitVec.ofNat 32 (m.load32 (fSize f)).toNat = m.load32 (fSize f) := by
    rw [BitVec.ofNat_toNat, BitVec.setWidth_eq]
  have hplace : fSize f < nblocks.toNat * 4096 := hlay.size_place hf (by decide : 128 < 256)
  have hrem := srem_block hlt
  have hdiv := sdiv_block hlt
  rw [hsize, hwhole] at hrem
  rw [hsize] at hdiv
  have hrun : dirLookup f name m =
      dirLookupFrom f name ((m.load32 (fSize f)).toNat / 4096) (BitVec.ofNat 32 0) m := by
    have hcount : (BitVec.ofNat 32 ((m.load32 (fSize f)).toNat / 4096)).toNat =
        (m.load32 (fSize f)).toNat / 4096 := by
      rw [BitVec.toNat_ofNat]
      omega
    unfold dirLookup
    rw [bind_of_returns (hlay.sized.returns_pgfault hplace), get_bind, hrem, hdiv, hcount]
    exact congrFun (if_neg fun h => h rfl) m
  rw [hrun]
  refine hlay.lookup_from hf htype hname hc ?_
  rw [Nat.zero_add]
  exact Nat.div_mul_cancel (Nat.dvd_of_mod_eq_zero hwhole)

/-- A path does not begin with a slash. -/
def NoSlash (path : List Byte) : Prop := ∀ c rest, path = c :: rest → c ≠ slash

theorem no_slash_skip (path : List Byte) : NoSlash (skipSlash path) := by
  intro c rest hpath
  unfold skipSlash at hpath
  have hnot := List.head?_dropWhile_not (· == slash) path
  rw [hpath] at hnot
  exact beq_eq_false_iff_ne.mp hnot

/-- The loop of `walk_path`. -/
theorem Layout.walk_from (hlay : Layout nblocks dir ind m) {n : Nat} {path : List Byte}
    (hf : FileIn dir m f) (hn : path.length ≤ n) (hslash : NoSlash path)
    (hzero : (0 : Byte) ∉ path) :
    (∃ g, walkFrom n f path m = .ret g m ∧ FileIn dir m g) ∨
      ∃ r, walkFrom n f path m = .exit (.error r) m := by
  induction n generalizing f path with
  | zero =>
      cases path with
      | nil => exact Or.inl ⟨f, rfl, hf⟩
      | cons c path => exact absurd hn (Nat.not_succ_le_zero _)
  | succ n ih =>
      cases path with
      | nil => exact Or.inl ⟨f, rfl, hf⟩
      | cons c path =>
          have hc : c ≠ slash := hslash c path rfl
          have hc0 : c ≠ 0 := fun h => hzero (h ▸ List.mem_cons_self)
          have hname : (c :: path).takeWhile (· != slash) = c :: path.takeWhile (· != slash) := by
            rw [List.takeWhile_cons, bne_iff_ne.mpr hc, if_pos rfl]
          have hplace : fType f < nblocks.toNat * 4096 :=
            hlay.size_place hf (by decide : 132 < 256)
          have hrest := rest_length_lt c path
          have hsub : (skipSlash ((c :: path).dropWhile (· != slash))).Sublist (c :: path) :=
            (List.dropWhile_sublist _).trans (List.dropWhile_sublist _)
          rw [walkFrom]
          split
          · exact Or.inr ⟨-eBadPath, rfl⟩
          · rw [bind_of_returns (hlay.sized.returns_pgfault hplace), get_bind]
            split
            · exact Or.inr ⟨-eNotFound, rfl⟩
            · rename_i htype
              cases hlay.lookup hf (not_not.mp htype) hname hc0 with
              | inl h =>
                  obtain ⟨g, hret, hg⟩ := h
                  rw [bind_of_ret hret]
                  exact ih hg (by omega) (no_slash_skip _) fun h => hzero (hsub.subset h)
              | inr h =>
                  obtain ⟨r, hexit⟩ := h
                  rw [bind_of_exit hexit]
                  exact Or.inr ⟨r, rfl⟩

/-- `file_open` finds a file, or returns an error. -/
theorem Layout.open_cases (hlay : Layout nblocks dir ind m) {path : List Byte}
    (hzero : (0 : Byte) ∉ path) :
    (∃ g, fileOpen path m = .ret g m ∧ FileIn dir m g) ∨
      ∃ r, fileOpen path m = .exit (.error r) m :=
  hlay.walk_from (Or.inl rfl) (skip_slash_length_le path) (no_slash_skip path) fun h =>
    hzero ((List.dropWhile_sublist _).subset h)

theorem Layout.open_wp (hlay : Layout nblocks dir ind m) {path : List Byte}
    (hzero : (0 : Byte) ∉ path) :
    wp (fileOpen path) (fun f m' => m' = m ∧ FileIn dir m f)
      (fun e m' => m' = m ∧ ∃ r, e = .error r) m := by
  cases hlay.open_cases hzero with
  | inl h =>
      obtain ⟨g, hret, hg⟩ := h
      rw [wp_of_ret hret]
      exact ⟨rfl, hg⟩
  | inr h =>
      obtain ⟨r, hexit⟩ := h
      rw [wp_of_exit hexit]
      exact ⟨rfl, r, rfl⟩

/-! ## Reading -/

/-- The bytes of a file. -/
theorem Layout.stored (hlay : Layout nblocks dir ind m) (hf : FileIn dir m f) :
    ∃ data : List Byte, data.length = (m.load32 (fSize f)).toNat ∧
      Stored m nblocks.toNat f data.length fun i => data.getD i 0 := by
  have hok := hlay.file f hf
  choose! d hd using hok.block
  let data := (List.range (m.load32 (fSize f)).toNat).map fun i =>
    m (d (i / 4096) * 4096 + i % 4096)
  have hlen : data.length = (m.load32 (fSize f)).toNat := by
    simp [data]
  refine ⟨data, hlen, ?_, fun b hb => ?_⟩
  · rw [hlen, BitVec.ofNat_toNat, BitVec.setWidth_eq]
  · rw [hlen] at hb ⊢
    obtain ⟨hat, hlo, hhi, -⟩ := hd b hb
    refine ⟨d b, hat, hlo, hhi, fun x hx hin => ?_⟩
    have hdiv : (b * 4096 + x) / 4096 = b := by omega
    have hmod : (b * 4096 + x) % 4096 = x := by omega
    have hget : data[b * 4096 + x]? = some (m (d b * 4096 + x)) := by
      rw [List.getElem?_map, List.getElem?_range hin, Option.map_some, hdiv, hmod]
    rw [List.getD_eq_getElem?_getD, hget, Option.getD_some]

/-- `file_read` puts bytes in the buffer. An offset that is negative is taken for one in the block
before the first one, unless the read goes on past 0. -/
def Copies (m : Bytes) (f : Nat) (count offset : Word) : Prop :=
  0 < count.toNat ∧ (0 ≤ offset.toInt ∧ offset.toNat < (m.load32 (fSize f)).toNat ∨
    -4096 < offset.toInt ∧ offset.toInt + count.toNat < 0 ∧ HasFirst m f)

/-- Reading at an offset that is not negative. -/
theorem Layout.read_positive (hlay : Layout nblocks dir ind m) (hf : FileIn dir m f)
    {count offset : Word} (hoff : 0 ≤ offset.toInt) :
    wp (fileRead f count offset)
      (fun a m' => Later nblocks dir ind m m' ∧ (a.2 ≠ [] ↔ Copies m f count offset))
      (fun e m' => ¬ Copies m f count offset ∧ m' = m ∧ ∃ r, e = .error r) m := by
  obtain ⟨data, hlen, hstored⟩ := hlay.stored hf
  have hle : data.length ≤ 1034 * 4096 := by
    rw [hlen]
    exact (hlay.file f hf).size
  have hread : fileRead f count offset m = _ :=
    returns_read hlay.sized (Nat.le_refl _) (hlay.on_disk hf) hstored hle count offset hoff
  rw [wp_of_ret hread]
  refine ⟨hlay.later, ?_⟩
  have hempty : (data.drop offset.toNat).take count.toNat = [] ↔
      count.toNat = 0 ∨ data.length ≤ offset.toNat := by
    rw [List.take_eq_nil_iff, List.drop_eq_nil_iff]
  show (data.drop offset.toNat).take count.toNat ≠ [] ↔ _
  unfold Copies
  rw [Ne, hempty, ← hlen, not_or, Nat.not_le, Nat.pos_iff_ne_zero]
  constructor
  · intro ⟨hcount, hin⟩
    exact ⟨hcount, Or.inl ⟨hoff, hin⟩⟩
  · intro ⟨hcount, hcase⟩
    refine ⟨hcount, ?_⟩
    cases hcase with
    | inl h => exact h.2
    | inr h =>
        have hneg := h.2.1
        omega

/-- Negative numbers are divided with their sign apart. -/
theorem sdiv_block_neg {x : Word} (hx : 2 ^ 31 ≤ x.toNat) :
    x.sdiv (BitVec.ofNat 32 blksize) = -(BitVec.ofNat 32 ((2 ^ 32 - x.toNat) / 4096)) := by
  have hlt := x.isLt
  have hmsb : x.msb = true := by
    rw [BitVec.msb_eq_true_iff_two_mul_ge]
    omega
  have hmsb' : (BitVec.ofNat 32 blksize).msb = false := by decide
  rw [BitVec.sdiv_eq, hmsb, hmsb']
  apply BitVec.eq_of_toNat_eq
  unfold blksize
  simp only [BitVec.udiv_eq, BitVec.toNat_udiv, BitVec.toNat_ofNat, BitVec.toNat_neg, Nat.reducePow,
    Nat.reduceMod]
  omega

/-- The remainder of a number that is little below zero is the number itself. -/
theorem srem_block_neg {x : Word} (hx : 2 ^ 32 - 4096 < x.toNat) :
    x.srem (BitVec.ofNat 32 blksize) = x := by
  have hlt := x.isLt
  have hmsb : x.msb = true := by
    rw [BitVec.msb_eq_true_iff_two_mul_ge]
    omega
  have hmsb' : (BitVec.ofNat 32 blksize).msb = false := by decide
  rw [BitVec.srem_eq, hmsb, hmsb']
  apply BitVec.eq_of_toNat_eq
  unfold blksize
  simp only [BitVec.toNat_umod, BitVec.toNat_ofNat, BitVec.toNat_neg, Nat.reducePow, Nat.reduceMod]
  omega

theorem read_from_done {stop pos : Word} {n : Nat} (hdone : ¬ pos < stop) :
    readFrom f stop n pos m = .ret [] m := by
  cases n with
  | zero => rfl
  | succ n =>
      rw [readFrom, if_neg hdone]
      rfl

/-- Blocks with large numbers do not exist. -/
theorem get_block_far {i : Word} (hi : 1034 ≤ i.toNat) :
    fileGetBlock f i m = .exit (.error (-eInvalid)) m := by
  have hten : ndirect = 10 := rfl
  have hfull : ndirect + nindirect = 1034 := rfl
  have hwalk : fileBlockWalk f i true m = .exit (.error (-eInvalid)) m := by
    unfold fileBlockWalk
    rw [if_neg (by omega), if_neg (by omega)]
    rfl
  unfold fileGetBlock
  exact bind_of_exit hwalk

/-- The loop of `file_read` takes all bytes at once when it begins little below zero. -/
theorem read_len_negative {count offset : Word} (hnear : 2 ^ 32 - 4096 < offset.toNat)
    (hbelow : offset.toNat + count.toNat < 2 ^ 32) : readLen offset (offset + count) = count := by
  apply BitVec.eq_of_toNat_eq
  rw [readLen, min_u_to_nat, srem_block_neg hnear]
  have hsub : offset + count - offset = count := by
    rw [BitVec.add_comm, BitVec.add_sub_cancel]
  have hleft : (BitVec.ofNat 32 blksize - offset).toNat = 4096 + (2 ^ 32 - offset.toNat) := by
    unfold blksize
    rw [BitVec.toNat_sub, BitVec.toNat_ofNat]
    omega
  rw [hsub, hleft]
  omega

/-- The one round of the loop of `file_read` at an offset that is negative. -/
theorem Layout.read_from_negative (hlay : Layout nblocks dir ind m) (hf : FileIn dir m f)
    {count offset : Word} {k : Nat} (hoff : 2 ^ 31 ≤ offset.toNat) (hpos : 0 < count.toNat)
    (hbelow : offset.toNat + count.toNat < 2 ^ 32) :
    wp (readFrom f (offset + count) (k + 1) offset)
      (fun bytes m' => Later nblocks dir ind m m' ∧ bytes ≠ [] ∧
        (2 ^ 32 - 4096 < offset.toNat ∧ HasFirst m f))
      (fun e m' => ¬ (2 ^ 32 - 4096 < offset.toNat ∧ HasFirst m f) ∧ m' = m ∧ ∃ r, e = .error r)
      m := by
  have hstop : (offset + count).toNat = offset.toNat + count.toNat := by
    rw [BitVec.toNat_add]
    exact Nat.mod_eq_of_lt hbelow
  have hlt : offset < offset + count := by
    rw [BitVec.lt_def, hstop]
    omega
  rw [readFrom, if_pos hlt, sdiv_block_neg hoff]
  by_cases hnear : 2 ^ 32 - 4096 < offset.toNat
  · have hzero : (2 ^ 32 - offset.toNat) / 4096 = 0 := by omega
    have hblock : -(BitVec.ofNat 32 0) = (0 : Word) := rfl
    have hint : offset.toInt = (offset.toNat : Int) - 2 ^ 32 := by
      rw [BitVec.toInt_eq_toNat_cond, if_neg (by omega)]
      rfl
    have hlen : readLen offset (offset + count) = count := read_len_negative hnear hbelow
    rw [hzero, hblock, wp_bind]
    refine wp_mono (hlay.get_first_block hf) ?_ ?_
    · rintro a m' ⟨hfirst, hlater, d, ha, hdlo, hdhi⟩
      have hplace : ((a : Int) + offset.toInt).toNat < nblocks.toNat * 4096 := by
        have hend := block_end_le hdhi
        omega
      have hdone : ¬ offset + count < offset + count := BitVec.lt_irrefl _
      dsimp only
      rw [srem_block_neg hnear, hlen]
      have hrun : (do
          bcPgfault ((a : Int) + offset.toInt).toNat
          let m ← get
          let rest ← readFrom f (offset + count) k (offset + count)
          pure (m.load ((a : Int) + offset.toInt).toNat count.toNat ++ rest) :
            Prog Bytes Stop (List Byte)) m' =
          .ret (m'.load ((a : Int) + offset.toInt).toNat count.toNat ++ []) m' := by
        rw [bind_of_returns (hlater.1.sized.returns_pgfault hplace), get_bind,
          bind_of_ret (read_from_done hdone)]
        rfl
      rw [wp_of_ret hrun]
      refine ⟨hlater, fun hnil => ?_, hnear, hfirst⟩
      have hnone := congrArg List.length hnil
      rw [List.append_nil, Bytes.load_length, List.length_nil] at hnone
      omega
    · rintro e m' ⟨hnone, hm, he⟩
      exact ⟨fun h => hnone h.2, hm, _, he⟩
  · have hlarge : 1034 ≤ (-(BitVec.ofNat 32 ((2 ^ 32 - offset.toNat) / 4096))).toNat := by
      rw [BitVec.toNat_neg, BitVec.toNat_ofNat]
      omega
    rw [wp_of_exit (bind_of_exit (get_block_far hlarge))]
    exact ⟨fun h => hnear h.1, rfl, _, rfl⟩

/-- A number that is negative. -/
theorem to_int_of_negative {x : Word} (hx : x.toInt < 0) :
    2 ^ 31 ≤ x.toNat ∧ x.toInt = (x.toNat : Int) - 2 ^ 32 := by
  have hlt := x.isLt
  rw [BitVec.toInt_eq_toNat_cond] at hx ⊢
  split at hx
  · omega
  · rw [if_neg ‹_›]
    exact ⟨by omega, rfl⟩

/-- Reading at an offset that is negative. -/
theorem Layout.read_negative (hlay : Layout nblocks dir ind m) (hf : FileIn dir m f)
    {count offset : Word} (hneg : offset.toInt < 0) :
    wp (fileRead f count offset)
      (fun a m' => Later nblocks dir ind m m' ∧ (a.2 ≠ [] ↔ Copies m f count offset))
      (fun e m' => ¬ Copies m f count offset ∧ m' = m ∧ ∃ r, e = .error r) m := by
  obtain ⟨hoff, hint⟩ := to_int_of_negative hneg
  have hlt := offset.isLt
  have hsize := hlay.size_lt hf
  have hplace : fSize f < nblocks.toNat * 4096 := hlay.size_place hf (by decide : 128 < 256)
  have hcopies : Copies m f count offset ↔ 0 < count.toNat ∧
      2 ^ 32 - 4096 < offset.toNat ∧ offset.toNat + count.toNat < 2 ^ 32 ∧ HasFirst m f := by
    unfold Copies
    rw [hint]
    constructor
    · intro ⟨hpos, hcase⟩
      cases hcase with
      | inl h => omega
      | inr h =>
          obtain ⟨hnear, hbelow, hfirst⟩ := h
          exact ⟨hpos, by omega, by omega, hfirst⟩
    · intro ⟨hpos, hnear, hbelow, hfirst⟩
      exact ⟨hpos, Or.inr ⟨by omega, by omega, hfirst⟩⟩
  have hin : ¬ (m.load32 (fSize f)).sle offset = true := by
    have hsize' : (m.load32 (fSize f)).toInt = (m.load32 (fSize f)).toNat := by
      rw [BitVec.toInt_eq_toNat_cond, if_pos (by omega)]
    rw [BitVec.sle_iff_toInt_le, hsize']
    omega
  have hcount : (minU count (m.load32 (fSize f) - offset)).toNat =
      min count.toNat ((m.load32 (fSize f)).toNat + (2 ^ 32 - offset.toNat)) := by
    rw [min_u_to_nat, BitVec.toNat_sub]
    omega
  have hrun : fileRead f count offset m = (do
      let bytes ← readFrom f (offset + minU count (m.load32 (fSize f) - offset))
        (minU count (m.load32 (fSize f) - offset)).toNat offset
      pure (minU count (m.load32 (fSize f) - offset), bytes) :
        Prog Bytes Stop (Word × List Byte)) m := by
    unfold fileRead
    rw [bind_of_returns (hlay.sized.returns_pgfault hplace), get_bind, if_neg hin]
  unfold wp
  rw [hrun, hcopies]
  by_cases hpos : 0 < count.toNat
  · by_cases hbelow : offset.toNat + count.toNat < 2 ^ 32
    · -- all of the bytes lie below offset 0
      have hall : minU count (m.load32 (fSize f) - offset) = count := by
        apply BitVec.eq_of_toNat_eq
        rw [hcount]
        omega
      obtain ⟨k, hk⟩ : ∃ k, count.toNat = k + 1 := ⟨count.toNat - 1, by omega⟩
      have hround := hlay.read_from_negative hf (k := k) hoff hpos hbelow
      rw [hall, hk]
      show wp (readFrom f (offset + count) (k + 1) offset >>= fun bytes => pure (count, bytes)) _ _ m
      rw [wp_bind]
      refine wp_mono hround ?_ ?_
      · intro bytes m' ⟨hlater, hne, hnear, hfirst⟩
        exact ⟨hlater, fun _ => ⟨by omega, hnear, by omega, hfirst⟩, fun _ => hne⟩
      · intro e m' ⟨hnot, hm, he⟩
        exact ⟨fun h => hnot ⟨h.2.1, h.2.2.2⟩, hm, he⟩
    · -- the end of the read is past 0, and no byte is read
      have hdone : ¬ offset < offset + minU count (m.load32 (fSize f) - offset) := by
        rw [BitVec.lt_def, BitVec.toNat_add, hcount]
        omega
      rw [bind_of_ret (read_from_done hdone)]
      exact ⟨hlay.later, fun h => absurd rfl h, fun h => absurd h.2.2.1 hbelow⟩
  · have hzero : (minU count (m.load32 (fSize f) - offset)).toNat = 0 := by
      rw [hcount]
      omega
    rw [hzero]
    exact ⟨hlay.later, fun h => absurd rfl h, fun h => absurd h.1 hpos⟩

/-- `file_read` does not panic, and puts bytes in the buffer exactly when `Copies` says so. -/
theorem Layout.read (hlay : Layout nblocks dir ind m) (hf : FileIn dir m f)
    (count offset : Word) :
    wp (fileRead f count offset)
      (fun a m' => Later nblocks dir ind m m' ∧ (a.2 ≠ [] ↔ Copies m f count offset))
      (fun e m' => ¬ Copies m f count offset ∧ m' = m ∧ ∃ r, e = .error r) m := by
  by_cases hneg : offset.toInt < 0
  · exact hlay.read_negative hf hneg
  · exact hlay.read_positive hf (Int.not_lt.mp hneg)

/-! ## The images of `fsformat` -/

section Image

variable {used start : Nat} {files : List (List Byte × List Byte)}

/-- A block number holds in a larger part of the disk. -/
theorem BlockAt.mono {used' b d : Nat} (h : BlockAt m used f b d) (hle : used ≤ used') :
    BlockAt m used' f b d := by
  unfold BlockAt at h ⊢
  split at h
  case isTrue hdirect =>
    rw [if_pos hdirect]
    exact h
  case isFalse hdirect =>
    obtain ⟨i, hlo, hhi, hload, hnum⟩ := h
    rw [if_neg hdirect]
    exact ⟨i, hlo, by omega, hload, hnum⟩

/-- A file of an image is in order, unless it is empty: then nothing is known of its first block
number. -/
theorem IsImage.file_ok (himage : IsImage m nblocks used start files)
    (hbelow : FilesBelow m start files) {q : Nat} {name data : List Byte}
    (hget : files[q]? = some (name, data)) (hname : (basename name).length < maxnamelen)
    (hdata : data ≠ []) :
    FileOk nblocks (fun b => start ≤ b ∧ b < start + dirBlocks files.length)
      (fun b => 3 ≤ b ∧ b < start) m (start * 4096 + sizeofFile * q) := by
  obtain ⟨hlen, -, hat⟩ := hbelow q name data hget
  obtain ⟨hnamed, htype, hstored⟩ := hat hname
  have hsmall := himage.small
  have hfit := himage.fit
  have hmax : data.length ≤ 1034 * 4096 := Nat.le_of_lt hlen
  have hpos : 0 < data.length := List.length_pos_iff.2 hdata
  have hsize : (m.load32 (fSize (start * 4096 + sizeofFile * q))).toNat = data.length := by
    rw [hstored.size, BitVec.toNat_ofNat]
    omega
  have hnot : m.load32 (fType (start * 4096 + sizeofFile * q)) ≠ ftypeDir := by
    rw [htype]
    decide
  refine ⟨?_, ⟨_, hname, hnamed.2⟩, fun hdir => absurd hdir hnot, ?_, fun i hi => ?_, fun hi => ?_⟩
  · rw [hsize]
    exact hmax
  · obtain ⟨d, hblock, -, hlt, -⟩ := hstored.block 0 (by omega)
    have hload : m.load32 (fDirect (start * 4096 + sizeofFile * q) 0) = BitVec.ofNat 32 d := hblock
    rw [hload, BitVec.toNat_ofNat]
    omega
  · obtain ⟨d, hblock, hlo, hlt, -⟩ := hstored.block i (by omega)
    exact ⟨d, hblock.mono (by omega), hlo, by omega, fun hdir => absurd hdir hnot⟩
  · rw [hsize] at hi
    obtain ⟨d, hblock, -⟩ := hstored.block ndirect hi
    unfold BlockAt at hblock
    rw [if_neg (Nat.lt_irrefl _)] at hblock
    obtain ⟨b, hlo, hlt, hload, -⟩ := hblock
    rw [hload, BitVec.toNat_ofNat]
    omega

/-- The root directory of an image is in order. -/
theorem IsImage.root_ok (himage : IsImage m nblocks used start files)
    (hroot : ∃ n, n < maxnamelen ∧ m (sRoot + n) = 0) (ind : Nat → Prop) :
    FileOk nblocks (fun b => start ≤ b ∧ b < start + dirBlocks files.length) ind m sRoot := by
  have height := dir_blocks_le himage.count
  have hfit := himage.fit
  have hsmall := himage.small
  have habove := himage.above
  have hsize : (m.load32 (fSize sRoot)).toNat = 4096 * dirBlocks files.length := by
    rw [himage.size, BitVec.toNat_ofNat]
    omega
  have hten : ndirect = 10 := rfl
  have hone : 0 < dirBlocks files.length := by
    unfold dirBlocks blocks sizeofFile
    split <;> omega
  refine ⟨by omega, hroot, fun _ => by omega, ?_, fun i hi => ?_, fun hi => by omega⟩
  · rw [himage.direct 0 hone, BitVec.toNat_ofNat]
    omega
  · refine ⟨start + i, ?_, by omega, by omega, fun _ => by omega⟩
    unfold BlockAt
    rw [if_pos (by omega)]
    exact himage.direct i (by omega)

/-- `fsformat` leaves block 2 marked as free. -/
theorem IsImage.free (himage : IsImage m nblocks used start files) (hmarked : Marked m used) :
    ¬ Taken m 2 := by
  intro htaken
  have hlo := himage.lo
  unfold Taken at htaken
  rw [hmarked 2 (by decide), decide_eq_true_eq] at htaken
  omega

/-- The images of `fsformat` are laid out, if the names of the files are not too long and no file is
empty. -/
theorem IsImage.layout (himage : IsImage m nblocks used start files)
    (hbelow : FilesBelow m start files) (hfree : ¬ Taken m 2)
    (hroot : ∃ n, n < maxnamelen ∧ m (sRoot + n) = 0)
    (hfiles : ∀ file ∈ files, (basename file.1).length < maxnamelen ∧ file.2 ≠ []) :
    Layout nblocks (fun b => start ≤ b ∧ b < start + dirBlocks files.length)
      (fun b => 3 ≤ b ∧ b < start) m := by
  have hsmall := himage.small
  have hlo := himage.lo
  have hlt := himage.lt
  have hfit := himage.fit
  have habove := himage.above
  have hbitmap : bitmapBlocks nblocks = 1 := by
    unfold bitmapBlocks
    omega
  refine ⟨himage.sized, by omega, fun b hb => by omega, fun b hb => by omega, fun b hb hi => by omega,
    fun f hf => ?_, .inr hfree⟩
  rcases hf with rfl | ⟨b, j, hb, hj, rfl, hne⟩
  · exact himage.root_ok hroot _
  · -- an entry of the directory that is not empty is that of a file
    have hplace : b * 4096 + sizeofFile * j =
        start * 4096 + sizeofFile * ((b - start) * blkfiles + j) := by
      unfold sizeofFile blkfiles
      omega
    rw [hplace] at hne ⊢
    have hcount : (b - start) * blkfiles + j < blkfiles * dirBlocks files.length := by
      unfold blkfiles at hj ⊢
      omega
    cases hget : files[(b - start) * blkfiles + j]? with
    | none => exact absurd (himage.empty _ (List.getElem?_eq_none_iff.1 hget) hcount) hne
    | some file =>
        obtain ⟨name, data⟩ := file
        obtain ⟨hname, hdata⟩ := hfiles _ (List.mem_of_getElem? hget)
        exact himage.file_ok hbelow hget hname hdata

end Image

/-- A server can run on the image with one file. -/
theorem one_file_valid : ValidImage oneFile := by
  obtain ⟨used, start, himage, hmarked, hbelow⟩ := fsformat_image fsformat_one_file
  exact ⟨_, _, _, himage.layout hbelow (himage.free hmarked) ⟨1, by decide, by decide +kernel⟩
    (by decide)⟩

end Labs.Jos.Fs
