import Labs.Jos.FsRead

/-!
# The bitmap of an image

`fsformat` sets the bits of the free blocks, and `block_is_free` takes the blocks whose bit is clear
for free ones: on every image it says the opposite of what it should.
-/

namespace Labs.Jos.Fs

open Prog

/-- The block `b` belongs to the file `f`: it is one of its data blocks or its indirect block. -/
def OfFile (m : Bytes) (f b : Nat) : Prop :=
  (∃ i, i < min (blocks (m.load32 (fSize f)).toNat) ndirect ∧
    (m.load32 (fDirect f i)).toNat = b) ∨
  ndirect ≤ blocks (m.load32 (fSize f)).toNat ∧ ((m.load32 (fIndirect f)).toNat = b ∨
    ∃ i, ndirect ≤ i ∧ i < blocks (m.load32 (fSize f)).toNat ∧
      (m.load32 ((m.load32 (fIndirect f)).toNat * 4096 + 4 * (i - ndirect))).toNat = b)

/-- `f` is an entry of the root directory. -/
def IsEntry (m : Bytes) (f : Nat) : Prop :=
  ∃ d j, OfFile m sRoot d ∧ j < blkfiles ∧ f = d * 4096 + sizeofFile * j ∧ m f ≠ 0

/-- The block is in use: the boot block, the superblock, a block of the bitmap, or a block of the
directory or of a file in it. -/
def InUse (m : Bytes) (b : Nat) : Prop :=
  b = 0 ∨ b = 1 ∨ 2 ≤ b ∧ b < 2 + ((m.load32 sNblocks).toNat + 32767) / 32768 ∨
    OfFile m sRoot b ∨ ∃ f, IsEntry m f ∧ OfFile m f b

/-- `block_is_free` says for every block of the disk whether it is in use. -/
def FreeAgrees (img : Bytes) : Prop :=
  ∀ b : Word, b < img.load32 sNblocks →
    ∃ free, blockIsFree b img = .ret free img ∧ (free = true ↔ ¬ InUse img b.toNat)

/-- The calls of `alloc_block`, starting from an image, that have returned the blocks `bs`. -/
inductive AllocRun (img : Bytes) : List Word → Bytes → Prop where
  | start : AllocRun img [] img
  | alloc {bs : List Word} {m m' : Bytes} {b : Word} (hrun : AllocRun img bs m)
      (halloc : allocBlock m = .ret b m') : AllocRun img (bs ++ [b]) m'

/-- `alloc_block` returns no block in use and none twice, and fails only when none is left. -/
def AllocAgrees (img : Bytes) : Prop :=
  ∀ bs m, AllocRun img bs m →
    (∀ b m', allocBlock m = .ret b m' → ¬ InUse img b.toNat ∧ b ∉ bs) ∧
    ∀ m', allocBlock m = .exit (.error (-eNoDisk)) m' →
      ∀ b : Word, b < img.load32 sNblocks → InUse img b.toNat ∨ b ∈ bs

/-- A word has no bit in common with a single bit when that bit is clear. -/
theorem and_bit_beq (w : Word) {k : Nat} (hk : k < 32) :
    (w &&& ((1 : Word) <<< k) == 0) = !w.getLsbD k := by
  have hbit : (1 : Word) <<< k = BitVec.twoPow 32 k := (BitVec.twoPow_eq 32 k).symm
  rw [hbit, BitVec.and_twoPow]
  cases w.getLsbD k with
  | true =>
      have hne : BitVec.twoPow 32 k ≠ 0 := by
        intro hzero
        have hset := congrArg (fun v : Word => v.getLsbD k) hzero
        simp [hk] at hset
      exact beq_eq_false_iff_ne.mpr hne
  | false => rfl

variable {m img : Bytes} {nblocks : Word} {used start : Nat}
  {files : List (List Byte × List Byte)}

/-- On an image `block_is_free` holds for the blocks in use. -/
theorem IsImage.returns_block_is_free (himage : IsImage m nblocks used start files)
    (hmarked : Marked m used) {b : Word} (hb : b < nblocks) :
    Returns (blockIsFree b) m (decide (b.toNat < used)) := by
  have hsmall := himage.small
  have hlt : b.toNat < nblocks.toNat := hb
  have hmod : b.toNat % 32 < 32 := Nat.mod_lt _ (by decide)
  unfold blockIsFree
  refine returns_get ?_
  rw [himage.number, if_neg (BitVec.not_le.mpr hb)]
  have hbit := and_bit_beq (m.load32 (bitmapWord b)) hmod
  have hclear : (m.load32 (bitmapWord b)).getLsbD (b.toNat % 32) = decide (used ≤ b.toNat) :=
    hmarked b.toNat (by omega)
  have hfree : (m.load32 (bitmapWord b) &&& bitmapBit b == 0) = decide (b.toNat < used) := by
    unfold bitmapBit
    rw [hbit, hclear, Bool.eq_iff_iff]
    simp
  have hplace : bitmapWord b < nblocks.toNat * 4096 := by
    have hlo := himage.lo
    have hend := himage.lt
    unfold bitmapWord bitmap
    omega
  rw [hfree]
  exact returns_bind (himage.sized.returns_pgfault hplace) rfl

/-- On an image `alloc_block` returns the first block of the bitmap. -/
theorem IsImage.alloc_block_eq (himage : IsImage m nblocks used start files)
    (hmarked : Marked m used) : ∃ m', allocBlock m = .ret 2 m' := by
  have hlo := himage.lo
  have hlt := himage.lt
  obtain ⟨n, hn⟩ : ∃ n, nblocks.toNat - 2 = n + 1 := ⟨nblocks.toNat - 3, by omega⟩
  have htwo : (2 : Word) < nblocks := by
    show (2 : Word).toNat < nblocks.toNat
    have htwo : (2 : Word).toNat = 2 := rfl
    omega
  have hfree := himage.returns_block_is_free hmarked htwo
  have hused : decide ((2 : Word).toNat < used) = true := decide_eq_true hlo
  rw [hused] at hfree
  unfold allocBlock
  show ∃ m', allocFrom ((m.load32 sNblocks).toNat - 2) 2 m = .ret 2 m'
  rw [himage.number, hn, allocFrom, bind_of_returns hfree, if_pos rfl]
  exact ⟨_, rfl⟩

theorem IsImage.not_free_agrees (himage : IsImage m nblocks used start files)
    (hmarked : Marked m used) : ¬ FreeAgrees m := by
  intro hagrees
  have hlo := himage.lo
  have hlt := himage.lt
  have hzero : (0 : Word) < nblocks := by
    show (0 : Word).toNat < nblocks.toNat
    have hzero : (0 : Word).toNat = 0 := rfl
    omega
  obtain ⟨free, hret, hfree⟩ := hagrees 0 (by rw [himage.number]; exact hzero)
  have hboot : decide ((0 : Word).toNat < used) = true := decide_eq_true (by show 0 < used; omega)
  have hret' : blockIsFree 0 m = .ret true m := by
    rw [← hboot]
    exact himage.returns_block_is_free hmarked hzero
  rw [hret'] at hret
  obtain rfl : true = free := (Outcome.ret.inj hret).1
  exact hfree.mp rfl (Or.inl rfl)

theorem IsImage.not_alloc_agrees (himage : IsImage m nblocks used start files)
    (hmarked : Marked m used) : ¬ AllocAgrees m := by
  intro hagrees
  have hlo := himage.lo
  have hlt := himage.lt
  obtain ⟨m', halloc⟩ := himage.alloc_block_eq hmarked
  have huse : InUse m (2 : Word).toNat := by
    have htwo : (2 : Word).toNat = 2 := rfl
    rw [htwo]
    refine Or.inr (Or.inr (Or.inl ⟨Nat.le_refl 2, ?_⟩))
    rw [himage.number]
    omega
  exact ((hagrees [] m .start).1 2 m' halloc).1 huse

/-- On no image does the file server agree with `fsformat` on the bitmap. -/
theorem bitmap_never_agrees {junk : Bytes} (hfmt : fsformat nblocks files junk = some img) :
    ¬ FreeAgrees img ∧ ¬ AllocAgrees img := by
  obtain ⟨used, start, himage, hmarked, -⟩ := fsformat_image hfmt
  exact ⟨himage.not_free_agrees hmarked, himage.not_alloc_agrees hmarked⟩

theorem bitmap_never_agrees_one_file : ∃ img,
    fsformat 16 [([0x61], [1, 2, 3])] (fun _ => 0) = some img ∧
      ¬ FreeAgrees img ∧ ¬ AllocAgrees img := by
  have hsome : (fsformat 16 [([0x61], [1, 2, 3])] fun _ => 0).isSome = true := by decide +kernel
  obtain ⟨img, himg⟩ := Option.isSome_iff_exists.mp hsome
  exact ⟨img, himg, bitmap_never_agrees himg⟩

/-- On the image of no files the boot block is free, and the first block that `alloc_block` returns
is the bitmap itself. -/
theorem bitmap_inverted : ∃ img, fsformat 8 [] (fun _ => 0) = some img ∧
    ¬ (FreeAgrees img ∧ AllocAgrees img) := by
  have hsome : (fsformat 8 [] fun _ => 0).isSome = true := by decide +kernel
  obtain ⟨img, himg⟩ := Option.isSome_iff_exists.mp hsome
  obtain ⟨used, start, himage, hmarked, -⟩ := fsformat_image himg
  exact ⟨img, himg, fun hagrees => himage.not_free_agrees hmarked hagrees.1⟩

end Labs.Jos.Fs
