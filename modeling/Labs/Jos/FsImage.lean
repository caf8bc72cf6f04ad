import Labs.Jos.Fsformat

/-!
# What an image holds

`Stored` says that a memory holds a file: its size, the numbers of its blocks, and its bytes in
them. Each function of `fsformat` has one lemma about the memory it leaves; a file once stored
stays stored because later writes go to other addresses.
-/

namespace Labs.Jos.Fs

open Prog

/-- The number of blocks of `len` bytes. -/
def blocks (len : Nat) : Nat := (len + 4095) / 4096

/-- The block number `d` is where the block `b` of the file `f` is looked up. The indirect block,
if there is one, lies in the blocks `3, …, used - 1`. -/
def BlockAt (m : Bytes) (used f b d : Nat) : Prop :=
  if b < ndirect then m.load32 (fDirect f b) = BitVec.ofNat 32 d
  else ∃ ind, 3 ≤ ind ∧ ind < used ∧ m.load32 (fIndirect f) = BitVec.ofNat 32 ind ∧
    m.load32 (ind * 4096 + 4 * (b - ndirect)) = BitVec.ofNat 32 d

/-- The file `f` has the `len` bytes `content`, in blocks from 3 on and below `used`. -/
structure Stored (m : Bytes) (used f len : Nat) (content : Nat → Byte) : Prop where
  size : m.load32 (fSize f) = BitVec.ofNat 32 len
  block : ∀ b, b * 4096 < len → ∃ d, BlockAt m used f b d ∧ 3 ≤ d ∧ d < used ∧
    ∀ x, x < 4096 → b * 4096 + x < len → m (d * 4096 + x) = content (b * 4096 + x)

/-- The string at `f` is `name`. -/
def Named (m : Bytes) (f : Nat) (name : List Byte) : Prop :=
  (∀ i, i < name.length → m (f + i) = name.getD i 0) ∧ m (f + name.length) = 0

/-- A regular file in a directory. -/
structure FileAt (m : Bytes) (used f : Nat) (name data : List Byte) : Prop where
  named : Named m f name
  type : m.load32 (fType f) = ftypeReg
  stored : Stored m used f data.length fun i => data.getD i 0

section Move

variable {m m' : Bytes} {used used' f f' len b d : Nat} {content : Nat → Byte}

/-- The 256 bytes of a `struct File`, and the blocks from 3 on and below `used`, are the same. -/
def Moved (m m' : Bytes) (used f f' : Nat) : Prop :=
  (∀ i, i < sizeofFile → m' (f' + i) = m (f + i)) ∧
    ∀ a, 3 * 4096 ≤ a → a < used * 4096 → m' a = m a

theorem Moved.load32 (hmoved : Moved m m' used f f') {i : Nat} (hi : i + 4 ≤ sizeofFile) :
    m'.load32 (f' + i) = m.load32 (f + i) := by
  refine Bytes.load32_congr fun j hj => ?_
  rw [Nat.add_assoc, Nat.add_assoc]
  exact hmoved.1 (i + j) (by omega)

theorem Moved.block_at (hmoved : Moved m m' used f f') (hused : used ≤ used')
    (hb : b < 1034) (hat : BlockAt m used f b d) : BlockAt m' used' f' b d := by
  unfold BlockAt at hat ⊢
  by_cases hdirect : b < ndirect
  · rw [if_pos hdirect] at hat ⊢
    have hload : m'.load32 (fDirect f' b) = m.load32 (fDirect f b) := by
      unfold fDirect
      rw [Nat.add_assoc, Nat.add_assoc]
      exact hmoved.load32 (by unfold ndirect at hdirect; unfold sizeofFile; omega)
    exact hload.trans hat
  · rw [if_neg hdirect] at hat ⊢
    obtain ⟨ind, hlo, hhi, hind, hnum⟩ := hat
    refine ⟨ind, hlo, Nat.lt_of_lt_of_le hhi hused,
      (hmoved.load32 (i := 176) (by decide)).trans hind, ?_⟩
    have hrange : ind * 4096 + 4096 ≤ used * 4096 := by omega
    have hword : 4 * (b - ndirect) + 4 ≤ 4096 := by
      unfold ndirect
      omega
    rw [← hnum]
    refine Bytes.load32_congr fun j hj => hmoved.2 _ ?_ ?_
    · omega
    · omega

/-- The addresses in a block. -/
theorem block_range {x : Nat} (hlo : 3 ≤ d) (hhi : d < used) (hx : x < 4096) :
    3 * 4096 ≤ d * 4096 + x ∧ d * 4096 + x < used * 4096 := by
  omega

/-- A file stays stored when its bytes move and those of its blocks stay. -/
theorem Stored.move (hstored : Stored m used f len content) (hmoved : Moved m m' used f f')
    (hused : used ≤ used') (hlen : len ≤ maxfilesize) : Stored m' used' f' len content where
  size := (hmoved.load32 (i := 128) (by decide)).trans hstored.size
  block b hb := by
    obtain ⟨d, hat, hlo, hhi, hbytes⟩ := hstored.block b hb
    have hlt : b < 1034 := by
      unfold maxfilesize ndirect nindirect blksize at hlen
      omega
    clear hlen
    refine ⟨d, hmoved.block_at hused hlt hat, hlo, Nat.lt_of_lt_of_le hhi hused, ?_⟩
    intro x hx hin
    obtain ⟨habove, hbelow⟩ := block_range hlo hhi hx
    rw [← hbytes x hx hin]
    exact hmoved.2 _ habove hbelow

theorem Named.move {name : List Byte} (hnamed : Named m f name)
    (hsame : ∀ i, i < sizeofFile → m' (f' + i) = m (f + i)) (hlen : name.length < maxnamelen) :
    Named m' f' name := by
  have hfit : name.length < sizeofFile := by
    unfold maxnamelen at hlen
    unfold sizeofFile
    omega
  refine ⟨fun i hi => ?_, ?_⟩
  · rw [hsame i (by omega)]
    exact hnamed.1 i hi
  · rw [hsame _ hfit]
    exact hnamed.2

theorem FileAt.move {name data : List Byte} (hfile : FileAt m used f name data)
    (hmoved : Moved m m' used f f') (hused : used ≤ used') (hname : name.length < maxnamelen)
    (hlen : data.length ≤ maxfilesize) : FileAt m' used' f' name data where
  named := hfile.named.move hmoved.1 hname
  type := (hmoved.load32 (i := 132) (by decide)).trans hfile.type
  stored := hfile.stored.move hmoved hused hlen

end Move

/-! ## The functions of the formatter -/

section

variable {nblocks : Word} {s : Formatter}

/-- Rounding up to whole blocks. -/
theorem roundup_u_to_nat {n : Nat} (hn : n ≤ 2 ^ 31) :
    (roundupU (BitVec.ofNat 32 n) (BitVec.ofNat 32 blksize)).toNat = 4096 * blocks n := by
  have hone : (1 : Word).toNat = 1 := rfl
  unfold roundupU blocks blksize
  simp only [hone, BitVec.toNat_sub, BitVec.toNat_add, BitVec.toNat_umod, BitVec.toNat_ofNat,
    Nat.reducePow, Nat.reduceMod]
  omega

theorem blockof_to_nat {pos : Nat} (hpos : pos / 4096 < 2 ^ 32) :
    (blockof pos).toNat = pos / 4096 := by
  unfold blockof blksize
  rw [BitVec.toNat_ofNat]
  exact Nat.mod_eq_of_lt hpos

/-- What a program of the formatter establishes when it does not panic. -/
def Makes {α : Type} (x : Prog Formatter Stop α) (s : Formatter)
    (Q : α → Formatter → Prop) : Prop :=
  wp x Q (fun _ _ => True) s

theorem makes_bind {α β : Type} {x : Prog Formatter Stop α} {f : α → Prog Formatter Stop β}
    {Q : β → Formatter → Prop} (h : Makes x s fun a t => Makes (f a) t Q) :
    Makes (x >>= f) s Q :=
  wp_bind.mpr h

theorem Makes.imp {α : Type} {x : Prog Formatter Stop α} {Q Q' : α → Formatter → Prop}
    (h : Makes x s Q) (himp : ∀ a t, Q a t → Q' a t) : Makes x s Q' :=
  wp_mono_ret h himp

theorem makes_write {f : Bytes → Bytes} {Q : Unit → Formatter → Prop}
    (h : Q () { s with mem := f s.mem }) : Makes (write f) s Q :=
  h

/-- `alloc` takes whole blocks, and leaves at least one. -/
theorem makes_alloc {n : Nat} (hn : n ≤ 2 ^ 31) (hpos : s.diskpos < 2 ^ 31) :
    Makes (alloc nblocks (BitVec.ofNat 32 n)) s fun a t =>
      a = s.diskpos ∧ t = { s with diskpos := s.diskpos + 4096 * blocks n } ∧
        t.diskpos / 4096 < nblocks.toNat := by
  unfold alloc
  refine makes_bind (x := get) (makes_bind (x := modify _) ?_)
  rw [roundup_u_to_nat hn]
  have hblocks : blocks n ≤ 2 ^ 19 := by
    unfold blocks
    omega
  show wp (if _ then _ else _) _ _ _
  rw [wp_ite]
  refine ⟨fun _ => trivial, fun hlt => ⟨rfl, rfl, ?_⟩⟩
  have hlt' : (blockof (s.diskpos + 4096 * blocks n)).toNat < nblocks.toNat :=
    Nat.not_le.mp hlt
  rw [blockof_to_nat (by omega)] at hlt'
  exact hlt'

/-- `alloc` of one block. -/
theorem makes_alloc_block (pos : Nat) (hat : s.diskpos = pos) (hpos : pos < 2 ^ 31) :
    Makes (alloc nblocks (BitVec.ofNat 32 blksize)) s fun a t =>
      a = pos ∧ t = ⟨s.mem, pos + 4096, s.n⟩ ∧ (pos + 4096) / 4096 < nblocks.toNat := by
  refine (makes_alloc (n := 4096) (by decide) (by omega)).imp ?_
  rintro a t ⟨rfl, rfl, hlt⟩
  rw [← hat]
  exact ⟨rfl, rfl, hlt⟩

/-- Words are stored one after the other. -/
theorem makes_store_words (base k : Nat) (v : Nat → Word) :
    Makes (forUpto k fun i => write fun m => m.store32 (base + 4 * i) (v i)) s fun _ t =>
      t.diskpos = s.diskpos ∧ t.n = s.n ∧
        (∀ j, j < k → t.mem.load32 (base + 4 * j) = v j) ∧
        ∀ a, ¬ (base ≤ a ∧ a < base + 4 * k) → t.mem a = s.mem a := by
  refine wp_for_upto (I := fun k (t : Formatter) => t.diskpos = s.diskpos ∧ t.n = s.n ∧
    (∀ j, j < k → t.mem.load32 (base + 4 * j) = v j) ∧
      ∀ a, ¬ (base ≤ a ∧ a < base + 4 * k) → t.mem a = s.mem a) ?_ ?_
  · exact ⟨rfl, rfl, fun j hj => absurd hj (Nat.not_lt_zero j), fun a _ => rfl⟩
  · rintro i hi t ⟨hdiskpos, hn, hwords, hsame⟩
    refine ⟨hdiskpos, hn, fun j hj => ?_, fun a ha => ?_⟩
    · by_cases hji : j = i
      · rw [hji]
        exact Bytes.load32_store32 _
      · show Bytes.load32 (Bytes.store32 _ _ _) _ = _
        rw [Bytes.load32_store32_of_ne _ (by omega)]
        exact hwords j (by omega)
    · show Bytes.store32 _ _ _ a = _
      rw [Bytes.store32_of_not _ (by omega)]
      exact hsame a (by omega)

theorem blocks_to_nat {n : Nat} (hn : n ≤ 2 ^ 31) :
    (roundupU (BitVec.ofNat 32 n) (BitVec.ofNat 32 blksize) / BitVec.ofNat 32 blksize).toNat =
      blocks n := by
  rw [BitVec.toNat_udiv, roundup_u_to_nat hn]
  exact Nat.mul_div_cancel_left _ (by decide)

/-- The bytes that `finishfile` leaves alone when `diskpos` goes from `lo` to `hi`. -/
def Outside (f lo hi a : Nat) : Prop :=
  ¬ (f + 128 ≤ a ∧ a < f + 132) ∧ ¬ (f + 136 ≤ a ∧ a < f + 180) ∧ ¬ (lo ≤ a ∧ a < hi)

/-- The numbers that `finishfile` has stored in a file of `n` blocks from `st` on. -/
structure Numbered (m : Bytes) (f st n ind : Nat) : Prop where
  direct : ∀ b, b < min n ndirect → m.load32 (fDirect f b) = BitVec.ofNat 32 (st + b)
  indirect : ndirect ≤ n → m.load32 (fIndirect f) = BitVec.ofNat 32 ind ∧
    ∀ b, ndirect ≤ b → b < n → m.load32 (ind * 4096 + 4 * (b - ndirect)) = BitVec.ofNat 32 (st + b)

theorem Numbered.stored {m : Bytes} {f st n ind len used : Nat} {content : Nat → Byte}
    (hnum : Numbered m f st n ind) (hn : n = blocks len)
    (hsize : m.load32 (fSize f) = BitVec.ofNat 32 len) (hst : 3 ≤ st) (hused : st + n ≤ used)
    (hind : ndirect ≤ n → 3 ≤ ind ∧ ind < used)
    (hcontent : ∀ x, x < len → m (st * 4096 + x) = content x) :
    Stored m used f len content where
  size := hsize
  block b hb := by
    have hbn : b < n := by
      rw [hn]
      unfold blocks
      omega
    have hat : BlockAt m used f b (st + b) := by
      unfold BlockAt
      by_cases hdirect : b < ndirect
      · rw [if_pos hdirect]
        exact hnum.direct b (Nat.lt_min.mpr ⟨hbn, hdirect⟩)
      · rw [if_neg hdirect]
        have hle : ndirect ≤ b := Nat.le_of_not_lt hdirect
        obtain ⟨hlo, hhi⟩ := hind (by omega)
        obtain ⟨hword, hwords⟩ := hnum.indirect (by omega)
        exact ⟨ind, hlo, hhi, hword, hwords b hle hbn⟩
    refine ⟨st + b, hat, by omega, by omega, fun x hx hin => ?_⟩
    have haddr : (st + b) * 4096 + x = st * 4096 + (b * 4096 + x) := by omega
    rw [haddr]
    exact hcontent _ hin

/-- `finishfile` stores the size and the numbers of the blocks from `st` on. -/
theorem makes_finishfile {f st len : Nat} (hlen : len ≤ 1034 * 4096)
    (hpos : s.diskpos < 2 ^ 31) (halign : s.diskpos % 4096 = 0)
    (hf : f + 256 ≤ s.diskpos ∨ s.diskpos + 4096 ≤ f) :
    Makes (finishfile nblocks f (BitVec.ofNat 32 st) (BitVec.ofNat 32 len)) s fun _ t =>
      t.n = s.n ∧ t.mem.load32 (fSize f) = BitVec.ofNat 32 len ∧
        Numbered t.mem f st (blocks len) (s.diskpos / 4096) ∧
        (blocks len < ndirect ∧ t.diskpos = s.diskpos ∨
          ndirect ≤ blocks len ∧ t.diskpos = s.diskpos + 4096 ∧
            t.diskpos / 4096 < nblocks.toNat) ∧
        ∀ a, Outside f s.diskpos t.diskpos a → t.mem a = s.mem a := by
  have hadd : ∀ i, BitVec.ofNat 32 st + BitVec.ofNat 32 i = BitVec.ofNat 32 (st + i) :=
    fun i => (BitVec.ofNat_add st i).symm
  have hblocks : blocks len ≤ 1034 := by
    unfold blocks
    omega
  unfold finishfile
  rw [blocks_to_nat (by omega)]
  refine makes_bind (makes_write ?_)
  refine makes_bind ((makes_store_words (f + 136) (min (blocks len) ndirect) fun i =>
    BitVec.ofNat 32 st + BitVec.ofNat 32 i).imp ?_)
  rintro - s₁ ⟨hpos₁', hn₁, hdirect, hframe₁⟩
  have hpos₁ : s₁.diskpos = s.diskpos := hpos₁'
  have hmin : min (blocks len) ndirect ≤ 10 := Nat.min_le_right ..
  have hsize₁ : s₁.mem.load32 (fSize f) = BitVec.ofNat 32 len := by
    have hsame : s₁.mem.load32 (fSize f) =
        Bytes.load32 (s.mem.store32 (fSize f) (BitVec.ofNat 32 len)) (fSize f) := by
      refine Bytes.load32_congr fun i hi => hframe₁ _ ?_
      unfold fSize
      omega
    exact hsame.trans (Bytes.load32_store32 _)
  have hsame₁ : ∀ a, Outside f s.diskpos s.diskpos a → s₁.mem a = s.mem a := by
    rintro a ⟨hsize, hwords, -⟩
    rw [hframe₁ a (by omega)]
    exact Bytes.store32_of_not _ hsize
  by_cases hfull : min (blocks len) ndirect = ndirect
  · have hle : ndirect ≤ blocks len := by
      rw [← hfull]
      exact Nat.min_le_left ..
    have hten : ndirect = 10 := rfl
    rw [if_pos hfull]
    refine makes_bind ((makes_alloc (n := 4096) (by decide) (by omega)).imp ?_)
    rintro ind s₂ ⟨rfl, rfl, hlt⟩
    have hlt' : (s₁.diskpos + 4096) / 4096 < nblocks.toNat := hlt
    have haddr : s₁.diskpos = s.diskpos / 4096 * 4096 := by omega
    refine makes_bind (makes_write ?_)
    refine (makes_store_words s₁.diskpos (blocks len - ndirect) fun i =>
      BitVec.ofNat 32 st + BitVec.ofNat 32 (ndirect + i)).imp ?_
    rintro - s₃ ⟨hpos₃', hn₃, hwords, hframe₃⟩
    have hpos₃ : s₃.diskpos = s.diskpos + 4096 := by
      rw [← hpos₁]
      exact hpos₃'
    -- outside the indirect block only the number of that block is new
    have hout : ∀ a, ¬ (s.diskpos ≤ a ∧ a < s.diskpos + 4096) →
        s₃.mem a = s₁.mem.store32 (fIndirect f) (blockof s₁.diskpos) a := by
      intro a ha
      exact hframe₃ a (by omega)
    have hload : ∀ b, f + 128 ≤ b → b + 4 ≤ f + 176 → s₃.mem.load32 b = s₁.mem.load32 b := by
      intro b hlo hhi
      have hnext : s₃.mem.load32 b =
          Bytes.load32 (s₁.mem.store32 (fIndirect f) (blockof s₁.diskpos)) b :=
        Bytes.load32_congr fun i hi => hout _ (by omega)
      rw [hnext]
      exact Bytes.load32_store32_of_ne _ (Or.inl hhi)
    refine ⟨hn₃.trans hn₁, ?_, ⟨fun b hb => ?_, fun _ => ⟨?_, fun b hlo hhi => ?_⟩⟩,
      Or.inr ⟨hle, hpos₃, by rw [hpos₃, ← hpos₁]; exact hlt'⟩, fun a ha => ?_⟩
    · rw [hload (fSize f) (Nat.le_refl _) (by unfold fSize; omega)]
      exact hsize₁
    · have hb' : b < 10 := Nat.lt_of_lt_of_le hb hmin
      rw [hload (fDirect f b) (by unfold fDirect; omega) (by unfold fDirect; omega), ← hadd b]
      exact hdirect b hb
    · have hnext : s₃.mem.load32 (fIndirect f) =
          Bytes.load32 (s₁.mem.store32 (fIndirect f) (blockof s₁.diskpos)) (fIndirect f) :=
        Bytes.load32_congr fun i hi => hout _ (by unfold fIndirect; omega)
      rw [hnext, Bytes.load32_store32, hpos₁]
      rfl
    · have hword := hwords (b - ndirect) (by omega)
      have hindex : ndirect + (b - ndirect) = b := by omega
      rw [haddr, hindex, hadd] at hword
      exact hword
    · obtain ⟨hsize, hdir, hpos⟩ := ha
      rw [hpos₃] at hpos
      rw [hout a hpos, Bytes.store32_of_not _ (by unfold fIndirect; omega)]
      exact hsame₁ a ⟨hsize, hdir, by omega⟩
  · rw [if_neg hfull]
    have hlt : blocks len < ndirect := by
      unfold ndirect at hfull ⊢
      omega
    refine ⟨hn₁, hsize₁, ⟨fun b hb => ?_, fun hle => absurd hlt (Nat.not_lt.mpr hle)⟩,
      Or.inl ⟨hlt, hpos₁⟩, fun a ha => ?_⟩
    · rw [← hadd b]
      exact hdirect b hb
    · rw [hpos₁] at ha
      exact hsame₁ a ha

/-- `f_name` of the file `f` begins as `name` does, which may be too long for it. -/
def Begins (m : Bytes) (f : Nat) (name : List Byte) : Prop :=
  ∀ j, j < maxnamelen → j < name.length → m (f + j) = name.getD j 0

theorem Begins.move {m m' : Bytes} {f f' : Nat} {name : List Byte} (hbegins : Begins m f name)
    (hsame : ∀ j, j < maxnamelen → m' (f' + j) = m (f + j)) : Begins m' f' name :=
  fun j hj hin => (hsame j hj).trans (hbegins j hj hin)

/-- The state of `fsformat` after the files `done`. -/
structure Written (nblocks : Word) (s : Formatter) (done : List (List Byte × List Byte)) :
    Prop where
  small : nblocks.toNat ≤ 1024
  align : s.diskpos % 4096 = 0
  lo : 3 * 4096 ≤ s.diskpos
  lt : s.diskpos / 4096 < nblocks.toNat
  count : s.n = done.length
  le : done.length ≤ maxDirEnts
  magic : s.mem.load32 sMagic = fsMagic
  number : s.mem.load32 sNblocks = nblocks
  root : s.mem.load32 (fType sRoot) = ftypeDir
  bits : ∀ a, 8192 ≤ a → a < 12288 → s.mem a = 0xFF
  zero : ∀ a, s.diskpos ≤ a → a < ents nblocks → s.mem a = 0
  file : ∀ i name data, done[i]? = some (name, data) → data.length < maxfilesize ∧
    ((basename name).length < maxnamelen →
      FileAt s.mem (s.diskpos / 4096) (ents nblocks + sizeofFile * i) (basename name) data)
  begins : ∀ i name data, done[i]? = some (name, data) →
    Begins s.mem (ents nblocks + sizeofFile * i) (basename name)

/-- The memory after `opendisk`. -/
def diskMem (m : Bytes) (nblocks : Word) : Bytes :=
  ((((m.store32 4096 fsMagic).store32 4100 nblocks).store32 (fType 4104) ftypeDir).store 4104
    [slash, 0]).fill 8192 4096 0xFF

theorem disk_mem_of_not {m : Bytes} {a : Nat} (ha : ¬ (4096 ≤ a ∧ a < 12288)) :
    diskMem m nblocks a = m a := by
  unfold diskMem fType
  rw [Bytes.fill_of_not (by omega), Bytes.store_of_not (by simp; omega),
    Bytes.store32_of_not _ (by omega), Bytes.store32_of_not _ (by omega),
    Bytes.store32_of_not _ (by omega)]

theorem disk_mem_load32 {m : Bytes} {a : Nat} (ha : a + 4 ≤ 4104 ∨ 4106 ≤ a)
    (ha' : a + 4 ≤ 8192) : (diskMem m nblocks).load32 a =
      Bytes.load32 (((m.store32 4096 fsMagic).store32 4100 nblocks).store32 (fType 4104)
        ftypeDir) a := by
  refine Bytes.load32_congr fun i hi => ?_
  unfold diskMem
  rw [Bytes.fill_of_not (by omega), Bytes.store_of_not (by simp; omega)]

theorem makes_opendisk (hle : nblocks ≤ 1024) (hpos : s.diskpos = 0) (hn : s.n = 0)
    (hzero : ∀ a, a < ents nblocks → s.mem a = 0) :
    Makes (opendisk nblocks) s fun _ t => Written nblocks t [] := by
  have hnat : nblocks.toNat ≤ 1024 := hle
  unfold opendisk
  refine makes_bind ((makes_alloc_block 0 hpos (by decide)).imp ?_)
  rintro - s₁ ⟨-, rfl, hlt₁⟩
  have hbits : (nblocks + BitVec.ofNat 32 (8 * blksize) - 1) / BitVec.ofNat 32 (8 * blksize) =
      1 := by
    have hone : (1 : Word).toNat = 1 := rfl
    apply BitVec.eq_of_toNat_eq
    unfold blksize
    simp only [hone, BitVec.toNat_udiv, BitVec.toNat_sub, BitVec.toNat_add, BitVec.toNat_ofNat,
      Nat.reducePow, Nat.reduceMod, Nat.reduceMul]
    omega
  have hlen : (1 * BitVec.ofNat 32 blksize : Word) = BitVec.ofNat 32 blksize := BitVec.one_mul _
  refine makes_bind ((makes_alloc_block 4096 (Nat.zero_add _) (by decide)).imp ?_)
  rintro super s₂ ⟨rfl, rfl, hlt₂⟩
  refine makes_bind (makes_write (makes_bind (makes_write (makes_bind (makes_write
    (makes_bind (makes_write ?_)))))))
  rw [hbits]
  show Makes (alloc nblocks (1 * BitVec.ofNat 32 blksize) >>= fun bitmap => write fun m =>
    m.fill bitmap (1 * BitVec.ofNat 32 blksize : Word).toNat 0xFF) _ _
  rw [hlen]
  refine makes_bind ((makes_alloc_block 8192 rfl (by decide)).imp ?_)
  rintro bitmap s₃ ⟨rfl, rfl, hlt₃⟩
  have hlt₃' : 12288 / 4096 < nblocks.toNat := hlt₃
  refine makes_write ?_
  show Written nblocks ⟨diskMem s.mem nblocks, 12288, s.n⟩ []
  have hsize : 12288 ≤ ents nblocks := by
    unfold ents blksize
    omega
  have halign : 12288 % 4096 = 0 := by decide
  refine ⟨hnat, halign, Nat.le_refl _, hlt₃', hn, Nat.zero_le _, ?_, ?_, ?_, fun a hlo hhi => ?_,
    fun a hlo hhi => ?_, fun i name data hi => ?_, fun i name data hi => ?_⟩
  · show (diskMem s.mem nblocks).load32 4096 = _
    rw [disk_mem_load32 (by omega) (by omega), Bytes.load32_store32_of_ne _ (by unfold fType; omega),
      Bytes.load32_store32_of_ne _ (by omega), Bytes.load32_store32]
  · show (diskMem s.mem nblocks).load32 4100 = _
    rw [disk_mem_load32 (by omega) (by omega), Bytes.load32_store32_of_ne _ (by unfold fType; omega),
      Bytes.load32_store32]
  · show (diskMem s.mem nblocks).load32 (fType 4104) = _
    rw [disk_mem_load32 (by unfold fType; omega) (by unfold fType; omega), Bytes.load32_store32]
  · exact Bytes.fill_of_mem hlo hhi
  · have hbehind : 12288 ≤ a := hlo
    exact (disk_mem_of_not (by omega)).trans (hzero a hhi)
  · cases hi
  · cases hi

/-- The memory after `diradd` for the entry `f`. -/
def entryMem (m : Bytes) (f : Nat) (type : Word) (name : List Byte) : Bytes :=
  (m.store f (name ++ [0])).store32 (fType f) type

theorem entry_mem_of_lt {m : Bytes} {f a : Nat} {type : Word} {name : List Byte} (ha : a < f) :
    entryMem m f type name a = m a := by
  unfold entryMem fType
  rw [Bytes.store32_of_not _ (by omega), Bytes.store_of_not (by omega)]

theorem entry_mem_named {m : Bytes} {f : Nat} {type : Word} {name : List Byte}
    (hname : name.length < maxnamelen) : Named (entryMem m f type name) f name := by
  have hlen : (name ++ [0]).length = name.length + 1 := List.length_append
  have hshort : name.length < 128 := hname
  have hbyte : ∀ i, i < name.length + 1 →
      entryMem m f type name (f + i) = (name ++ [0]).getD i 0 := by
    intro i hi
    unfold entryMem fType
    rw [Bytes.store32_of_not _ (by omega), Bytes.store_add (by omega)]
  refine ⟨fun i hi => ?_, ?_⟩
  · rw [hbyte i (by omega), List.getD_append _ _ _ _ hi]
  · rw [hbyte _ (Nat.lt_succ_self _), List.getD_append_right _ _ _ _ (Nat.le_refl _)]
    simp

theorem entry_mem_begins {m : Bytes} {f : Nat} {type : Word} {name : List Byte} :
    Begins (entryMem m f type name) f name := by
  intro j hj hin
  have hlen : (name ++ [0]).length = name.length + 1 := List.length_append
  have hfield : j < 128 := hj
  unfold entryMem fType
  rw [Bytes.store32_of_not _ (by omega), Bytes.store_add (by omega), List.getD_append _ _ _ _ hin]

theorem makes_diradd (type : Word) (name : List Byte) :
    Makes (diradd nblocks type name) s fun f t => f = ents nblocks + sizeofFile * s.n ∧
      s.n < maxDirEnts ∧ t = ⟨entryMem s.mem f type name, s.diskpos, s.n + 1⟩ := by
  unfold diradd
  refine makes_bind (x := get) (makes_bind (x := modify _) ?_)
  show wp (if _ then _ else _) _ _ _
  rw [wp_ite]
  exact ⟨fun _ => trivial, fun hle => ⟨rfl, Nat.lt_of_succ_le (Nat.not_lt.mp hle), rfl⟩⟩

/-- The end of the image, before the entries. -/
theorem diskpos_le_ents (pos : Nat) (halign : pos % 4096 = 0) (hlt : pos / 4096 < nblocks.toNat) :
    pos + 4096 ≤ ents nblocks := by
  unfold ents blksize
  omega

/-- One more file has been written when the memory below `diskpos` is as it was, the rest of the
image is zero, and the new file is there. -/
theorem Written.push {t : Formatter} {done : List (List Byte × List Byte)} {name data : List Byte}
    (hs : Written nblocks s done) (halign : t.diskpos % 4096 = 0) (hle : s.diskpos ≤ t.diskpos)
    (hlt : t.diskpos / 4096 < nblocks.toNat) (hcount : t.n = s.n + 1) (hroom : s.n < maxDirEnts)
    (hsame : ∀ a, a < s.diskpos ∨ t.diskpos ≤ a → a < ents nblocks + sizeofFile * s.n →
      t.mem a = s.mem a)
    (hlen : data.length < maxfilesize)
    (hfile : (basename name).length < maxnamelen →
      FileAt t.mem (t.diskpos / 4096) (ents nblocks + sizeofFile * s.n) (basename name) data)
    (hbegins : Begins t.mem (ents nblocks + sizeofFile * s.n) (basename name)) :
    Written nblocks t (done ++ [(name, data)]) := by
  have hend := diskpos_le_ents _ halign hlt
  have hlo := hs.lo
  have hload : ∀ a, a + 4 ≤ 12288 → t.mem.load32 a = s.mem.load32 a :=
    fun a ha => Bytes.load32_congr fun i hi => hsame _ (by omega) (by omega)
  have hcount' : (done ++ [(name, data)]).length = done.length + 1 := List.length_append
  -- a file is one of those before, or the new one
  have hcases : ∀ {i : Nat} {name' data' : List Byte},
      (done ++ [(name, data)])[i]? = some (name', data') →
      done[i]? = some (name', data') ∧ sizeofFile * i + sizeofFile ≤ sizeofFile * s.n ∨
        i = s.n ∧ (name, data) = (name', data') := by
    intro i name' data' hi
    rw [hs.count]
    by_cases hlt : i < done.length
    · rw [List.getElem?_append_left hlt] at hi
      refine Or.inl ⟨hi, ?_⟩
      unfold sizeofFile
      omega
    · have hlast : i < (done ++ [(name, data)]).length := (List.getElem?_eq_some_iff.mp hi).1
      have hi' : i = done.length := by omega
      rw [hi', List.getElem?_append_right (Nat.le_refl _), Nat.sub_self] at hi
      exact Or.inr ⟨hi', Option.some.inj hi⟩
  refine ⟨hs.small, halign, hlo.trans hle, hlt, ?_, ?_, ?_, ?_, ?_, fun a hlo hhi => ?_,
    fun a hlo hhi => ?_, fun i name' data' hi => ?_, fun i name' data' hi => ?_⟩
  · rw [hcount', hcount, hs.count]
  · rw [hcount', ← hs.count]
    exact hroom
  · rw [hload _ (by decide)]
    exact hs.magic
  · rw [hload _ (by decide)]
    exact hs.number
  · rw [hload _ (by decide)]
    exact hs.root
  · rw [hsame a (by omega) (by omega)]
    exact hs.bits a hlo hhi
  · rw [hsame a (Or.inr hlo) (by omega)]
    exact hs.zero a (hle.trans hlo) hhi
  · obtain ⟨hold, hsize⟩ | ⟨rfl, heq⟩ := hcases hi
    · obtain ⟨hshort, hat⟩ := hs.file i name' data' hold
      refine ⟨hshort, fun hname => ?_⟩
      refine (hat hname).move ⟨fun j hj => hsame _ (Or.inr ?_) ?_, fun a hlo hhi => ?_⟩
        (Nat.div_le_div_right hle) hname (Nat.le_of_lt hshort)
      · omega
      · omega
      · have hbelow : a < s.diskpos := by omega
        exact hsame a (Or.inl hbelow) (by omega)
    · obtain ⟨rfl, rfl⟩ := Prod.mk.inj heq
      exact ⟨hlen, hfile⟩
  · obtain ⟨hold, hsize⟩ | ⟨rfl, heq⟩ := hcases hi
    · refine (hs.begins i name' data' hold).move fun j hj => hsame _ (Or.inr ?_) ?_
      · omega
      · have hfield : j < 128 := hj
        unfold sizeofFile at hsize ⊢
        omega
    · obtain ⟨rfl, rfl⟩ := Prod.mk.inj heq
      exact hbegins

theorem makes_writefile {done : List (List Byte × List Byte)} (hs : Written nblocks s done)
    (name data : List Byte) :
    Makes (writefile nblocks name data) s fun _ t => Written nblocks t (done ++ [(name, data)]) := by
  have hmax : maxfilesize = 1034 * 4096 := rfl
  have hten : ndirect = 10 := rfl
  have hsmall := hs.small
  have hlast := hs.lt
  have halign := hs.align
  have hlo := hs.lo
  have hend := diskpos_le_ents _ halign hlast
  unfold writefile
  by_cases hlarge : maxfilesize ≤ data.length
  · rw [if_pos hlarge]
    trivial
  have hlen : data.length < 1034 * 4096 := by omega
  have hblocks : blocks data.length ≤ 1034 := by
    unfold blocks
    omega
  have hfit : data.length ≤ 4096 * blocks data.length := by
    unfold blocks
    omega
  rw [if_neg hlarge]
  refine makes_bind ((makes_diradd ftypeReg (basename name)).imp ?_)
  rintro f s₁ ⟨hf, hroom, rfl⟩
  have hstart : s.diskpos < 2 ^ 31 := by omega
  refine makes_bind ((makes_alloc (n := data.length) (by omega) (by exact hstart)).imp ?_)
  rintro start s₂ ⟨rfl, rfl, hlt₂⟩
  have hlt₂' : (s.diskpos + 4096 * blocks data.length) / 4096 < nblocks.toNat := hlt₂
  have hend₂ := diskpos_le_ents (s.diskpos + 4096 * blocks data.length) (by omega) hlt₂'
  refine makes_bind (makes_write ?_)
  let s₃ : Formatter := ⟨(entryMem s.mem f ftypeReg (basename name)).store s.diskpos data,
    s.diskpos + 4096 * blocks data.length, s.n + 1⟩
  have hpos₃ : s₃.diskpos = s.diskpos + 4096 * blocks data.length := rfl
  have hst : blockof s.diskpos = BitVec.ofNat 32 (s.diskpos / 4096) := rfl
  have hentry : ents nblocks ≤ f := by
    rw [hf]
    exact Nat.le_add_right ..
  show Makes (finishfile nblocks f (blockof s.diskpos) (BitVec.ofNat 32 data.length)) s₃ _
  rw [hst]
  refine (makes_finishfile (s := s₃) (by omega) (by omega) (by omega) (by omega)).imp ?_
  rintro - t ⟨hn, hsize, hnum, hgrow, hsame⟩
  rw [hpos₃] at hnum hgrow hsame
  -- the new `diskpos` leaves room for the indirect block
  have hgrow' : s.diskpos + 4096 * blocks data.length ≤ t.diskpos ∧ t.diskpos % 4096 = 0 ∧
      t.diskpos / 4096 < nblocks.toNat ∧ (ndirect ≤ blocks data.length →
        t.diskpos = s.diskpos + 4096 * blocks data.length + 4096) := by
    obtain ⟨hshort, hpos⟩ | ⟨hlong, hpos, hlt⟩ := hgrow
    · rw [hpos]
      exact ⟨Nat.le_refl _, by omega, hlt₂', fun hle => by omega⟩
    · exact ⟨by omega, by omega, hlt, fun _ => hpos⟩
  obtain ⟨hle, halign', hlt, hind⟩ := hgrow'
  have hend₃ := diskpos_le_ents _ halign' hlt
  -- below the entry, only the blocks of the file change
  have hbelow : ∀ a, a < f → ¬ (s.diskpos ≤ a ∧ a < t.diskpos) → t.mem a = s.mem a := by
    intro a ha hout
    rw [hsame a ⟨by omega, by omega, by omega⟩]
    show Bytes.store _ _ _ a = _
    rw [Bytes.store_of_not (by omega), entry_mem_of_lt ha]
  have hentry' : ∀ a, ents nblocks ≤ a → Outside f 0 0 a →
      t.mem a = entryMem s.mem f ftypeReg (basename name) a := by
    rintro a ha ⟨hsize, hwords, -⟩
    rw [hsame a ⟨hsize, hwords, by omega⟩]
    exact Bytes.store_of_not (by omega)
  refine hs.push halign' (by omega) hlt hn hroom (fun a ha hlt => ?_) (by omega)
    (fun hname => ?_) ?_
  · refine hbelow a (by rw [hf]; exact hlt) (by omega)
  · rw [← hf]
    have hshort : (basename name).length < 128 := hname
    refine ⟨⟨fun i hi => ?_, ?_⟩, ?_, ?_⟩
    · rw [hentry' _ (by omega) ⟨by omega, by omega, by omega⟩]
      exact (entry_mem_named hname).1 i hi
    · rw [hentry' _ (by omega) ⟨by omega, by omega, by omega⟩]
      exact (entry_mem_named hname).2
    · have htype : t.mem.load32 (fType f) =
          (entryMem s.mem f ftypeReg (basename name)).load32 (fType f) := by
        refine Bytes.load32_congr fun i hi => hentry' _ ?_ ⟨?_, ?_, ?_⟩
        · unfold fType
          omega
        · unfold fType
          omega
        · unfold fType
          omega
        · omega
      rw [htype]
      exact Bytes.load32_store32 _
    · refine hnum.stored rfl hsize (by omega) (by omega) (fun hlong => ?_) fun x hx => ?_
      · have hpos := hind hlong
        omega
      · have haddr : s.diskpos / 4096 * 4096 + x = s.diskpos + x := by omega
        rw [haddr, hsame _ ⟨by omega, by omega, by omega⟩]
        exact Bytes.store_add hx
  · rw [← hf]
    have hbegins : Begins (entryMem s.mem f ftypeReg (basename name)) f (basename name) :=
      entry_mem_begins
    refine hbegins.move fun j hj => ?_
    have hfield : j < 128 := hj
    exact hentry' _ (by omega) ⟨by omega, by omega, by omega⟩

/-- The number of blocks of the root directory with `n` entries. -/
def dirBlocks (n : Nat) : Nat := if n = 0 then 1 else blocks (n * sizeofFile)

theorem dir_blocks_le {n : Nat} (hn : n ≤ maxDirEnts) : dirBlocks n ≤ 8 := by
  have hmax : n ≤ 128 := hn
  unfold dirBlocks blocks sizeofFile
  split
  · omega
  · omega

theorem dir_size_le {n : Nat} (hn : n ≤ maxDirEnts) : n * sizeofFile ≤ 32768 := by
  have hmax : n ≤ 128 := hn
  unfold sizeofFile
  omega

theorem entries_le {n : Nat} : n * sizeofFile ≤ 4096 * dirBlocks n := by
  unfold dirBlocks blocks sizeofFile
  split
  · omega
  · omega

/-- The size of an empty directory is rounded up to a block, as that of an `int`. -/
theorem roundup_i_eq {n : Nat} (hn : n ≤ maxDirEnts) :
    roundupI (BitVec.ofNat 32 (n * sizeofFile)) (BitVec.ofNat 32 blksize) =
      BitVec.ofNat 32 (4096 * dirBlocks n) := by
  have hmax : n ≤ 128 := hn
  by_cases hz : n = 0
  · rw [hz]
    decide
  · have hpos : 1 ≤ n := Nat.pos_of_ne_zero hz
    have hone : (1 : Word).toNat = 1 := rfl
    have hminus : (BitVec.ofNat 32 (n * sizeofFile) - 1).toNat = n * sizeofFile - 1 := by
      unfold sizeofFile
      rw [BitVec.toNat_sub, BitVec.toNat_ofNat, hone]
      omega
    have hrem : (BitVec.ofNat 32 (n * sizeofFile) - 1).srem (BitVec.ofNat 32 blksize) =
        (BitVec.ofNat 32 (n * sizeofFile) - 1) % BitVec.ofNat 32 blksize := by
      have hmsb : (BitVec.ofNat 32 (n * sizeofFile) - 1).msb = false := by
        rw [BitVec.msb_eq_false_iff_two_mul_lt, hminus]
        unfold sizeofFile
        omega
      have hmsb' : (BitVec.ofNat 32 blksize).msb = false := by decide
      rw [BitVec.srem_eq, hmsb, hmsb']
    apply BitVec.eq_of_toNat_eq
    unfold roundupI
    rw [hrem]
    unfold dirBlocks blocks
    rw [if_neg hz, BitVec.toNat_sub, BitVec.toNat_add, BitVec.toNat_umod, hminus]
    unfold sizeofFile blksize
    simp only [BitVec.toNat_ofNat, Nat.reducePow, Nat.reduceMod]
    omega

/-- An image of the files `files`: blocks below `used` have been taken, and the directory lies in
the blocks from `start` on. -/
structure IsImage (m : Bytes) (nblocks : Word) (used start : Nat)
    (files : List (List Byte × List Byte)) : Prop where
  small : nblocks.toNat ≤ 1024
  lo : 3 ≤ used
  lt : used < nblocks.toNat
  count : files.length ≤ maxDirEnts
  number : m.load32 sNblocks = nblocks
  root : m.load32 (fType sRoot) = ftypeDir
  above : 3 ≤ start
  below : start * 4096 + files.length * sizeofFile ≤ used * 4096
  fit : start + dirBlocks files.length ≤ nblocks.toNat
  size : m.load32 (fSize sRoot) = BitVec.ofNat 32 (4096 * dirBlocks files.length)
  direct : ∀ b, b < dirBlocks files.length →
    m.load32 (fDirect sRoot b) = BitVec.ofNat 32 (start + b)
  file : ∀ i name data, files[i]? = some (name, data) → data.length < maxfilesize ∧
    ((basename name).length < maxnamelen →
      FileAt m used (start * 4096 + sizeofFile * i) (basename name) data)
  empty : ∀ i, files.length ≤ i → i < blkfiles * dirBlocks files.length →
    m (start * 4096 + sizeofFile * i) = 0

/-- The entries of the directory end on the disk. -/
theorem IsImage.entries_end {m : Bytes} {used start : Nat} {files : List (List Byte × List Byte)}
    (himage : IsImage m nblocks used start files) :
    start * 4096 + files.length * sizeofFile ≤ ents nblocks := by
  have hents : ents nblocks = nblocks.toNat * 4096 := rfl
  have hlt := himage.lt
  have hbelow := himage.below
  omega

/-- The files of an image, in blocks below the directory. -/
def FilesBelow (m : Bytes) (start : Nat) (files : List (List Byte × List Byte)) : Prop :=
  ∀ i name data, files[i]? = some (name, data) → data.length < maxfilesize ∧
    Begins m (start * 4096 + sizeofFile * i) (basename name) ∧
    ((basename name).length < maxnamelen →
      FileAt m start (start * 4096 + sizeofFile * i) (basename name) data)

/-- A memory that has the same bytes outside the bitmap. -/
theorem IsImage.congr {m m' : Bytes} {used start : Nat} {files : List (List Byte × List Byte)}
    (himage : IsImage m nblocks used start files)
    (hsame : ∀ a, a < ents nblocks → ¬ (8192 ≤ a ∧ a < 12288) → m' a = m a) :
    IsImage m' nblocks used start files := by
  have hents : ents nblocks = nblocks.toNat * 4096 := rfl
  have hlo := himage.lo
  have hlt := himage.lt
  have habove := himage.above
  have hfit := himage.fit
  have hbelow := himage.below
  have hload : ∀ a, a + 4 ≤ 8192 → m'.load32 a = m.load32 a :=
    fun a ha => Bytes.load32_congr fun i hi => hsame _ (by omega) (by omega)
  have hten : dirBlocks files.length ≤ 8 := dir_blocks_le himage.count
  refine ⟨himage.small, hlo, hlt, himage.count, ?_, ?_, habove, hbelow, hfit, ?_,
    fun b hb => ?_, fun i name data hi => ?_, fun i hlo hi => ?_⟩
  · rw [hload _ (by decide)]
    exact himage.number
  · rw [hload _ (by decide)]
    exact himage.root
  · rw [hload _ (by decide)]
    exact himage.size
  · have hdirect : fDirect sRoot b + 4 ≤ 8192 := by
      unfold fDirect sRoot
      omega
    rw [hload _ hdirect]
    exact himage.direct b hb
  · obtain ⟨hshort, hat⟩ := himage.file i name data hi
    have hindex : i < files.length := (List.getElem?_eq_some_iff.mp hi).1
    refine ⟨hshort, fun hname => (hat hname).move ⟨fun j hj => ?_, fun a hlo hhi => ?_⟩
      (Nat.le_refl _) hname (Nat.le_of_lt hshort)⟩
    · have hj' : j < 256 := hj
      have hentry : start * 4096 + sizeofFile * i + j < used * 4096 := by
        unfold sizeofFile at hbelow ⊢
        omega
      exact hsame _ (by omega) (by omega)
    · exact hsame a (by omega) (by omega)
  · have hi' : i < 16 * dirBlocks files.length := hi
    have hentry : start * 4096 + sizeofFile * i < nblocks.toNat * 4096 := by
      unfold sizeofFile
      omega
    rw [hsame _ (by omega) (by omega)]
    exact himage.empty i hlo hi

/-- So do its files, if they lie on the disk. -/
theorem FilesBelow.congr {m m' : Bytes} {start : Nat} {files : List (List Byte × List Byte)}
    (hfiles : FilesBelow m start files) (hlo : 3 ≤ start)
    (hend : start * 4096 + files.length * sizeofFile ≤ ents nblocks)
    (hsame : ∀ a, a < ents nblocks → ¬ (8192 ≤ a ∧ a < 12288) → m' a = m a) :
    FilesBelow m' start files := by
  intro i name data hi
  obtain ⟨hshort, hbegins, hat⟩ := hfiles i name data hi
  have hindex : i < files.length := (List.getElem?_eq_some_iff.mp hi).1
  have hentry : sizeofFile * i + sizeofFile ≤ files.length * sizeofFile := by
    unfold sizeofFile
    omega
  have hbytes : ∀ j, j < sizeofFile → m' (start * 4096 + sizeofFile * i + j) =
      m (start * 4096 + sizeofFile * i + j) := by
    intro j hj
    exact hsame _ (by omega) (by omega)
  refine ⟨hshort, hbegins.move fun j hj => hbytes j ?_, fun hname => (hat hname).move
    ⟨fun j hj => hbytes j hj, fun a hlo' hhi => ?_⟩ (Nat.le_refl _) hname (Nat.le_of_lt hshort)⟩
  · have hfield : j < 128 := hj
    unfold sizeofFile
    omega
  · exact hsame a (by omega) (by omega)

/-- `finishdir` completes the image, apart from the bitmap. -/
theorem makes_finishdir {files : List (List Byte × List Byte)} (hs : Written nblocks s files) :
    Makes (finishdir nblocks) s fun _ t => t.diskpos % 4096 = 0 ∧
      (∃ start, IsImage t.mem nblocks (t.diskpos / 4096) start files ∧
        FilesBelow t.mem start files) ∧
      ∀ a, 8192 ≤ a → a < 12288 → t.mem a = 0xFF := by
  have hents : ents nblocks = nblocks.toNat * 4096 := rfl
  have hsmall := hs.small
  have halign := hs.align
  have hlo := hs.lo
  have hlast := hs.lt
  have hmax : files.length ≤ 128 := hs.le
  have hroot : sRoot = 4104 := rfl
  have height := dir_blocks_le hs.le
  have hentries := entries_le (n := files.length)
  have hsize := dir_size_le hs.le
  have htoNat : (BitVec.ofNat 32 (files.length * sizeofFile)).toNat = files.length * sizeofFile := by
    rw [BitVec.toNat_ofNat]
    omega
  have hblocks : files.length * sizeofFile ≤ 4096 * blocks (files.length * sizeofFile) ∧
      (files.length ≠ 0 → dirBlocks files.length = blocks (files.length * sizeofFile)) ∧
      (files.length = 0 → dirBlocks files.length = 1 ∧
        blocks (files.length * sizeofFile) = 0) := by
    refine ⟨by unfold blocks; omega, fun hne => if_neg hne, fun hz => ?_⟩
    rw [hz]
    exact ⟨rfl, rfl⟩
  obtain ⟨hcover, hfull, hnone⟩ := hblocks
  unfold finishdir
  refine makes_bind (x := get) ?_
  show Makes (alloc nblocks (BitVec.ofNat 32 (s.n * sizeofFile)) >>= _) s _
  rw [hs.count]
  refine makes_bind ((makes_alloc (by omega) (by omega)).imp ?_)
  rintro start s₁ ⟨rfl, rfl, hlt₁⟩
  have hlt₁' : (s.diskpos + 4096 * blocks (files.length * sizeofFile)) / 4096 <
      nblocks.toNat := hlt₁
  refine makes_bind (makes_write ?_)
  rw [htoNat, roundup_i_eq hs.le]
  let s₂ : Formatter := ⟨s.mem.move s.diskpos (ents nblocks) (files.length * sizeofFile),
    s.diskpos + 4096 * blocks (files.length * sizeofFile), s.n⟩
  have hst : blockof s.diskpos = BitVec.ofNat 32 (s.diskpos / 4096) := rfl
  show Makes (finishfile nblocks sRoot (blockof s.diskpos) _) s₂ _
  rw [hst]
  have hpos₂ : s₂.diskpos = s.diskpos + 4096 * blocks (files.length * sizeofFile) := rfl
  refine (makes_finishfile (s := s₂) (by omega) (by omega) (by omega) (by omega)).imp ?_
  rintro - t ⟨-, hsize', hnum, hgrow, hsame⟩
  have hdir : blocks (4096 * dirBlocks files.length) = dirBlocks files.length := by
    unfold blocks
    omega
  rw [hdir] at hnum hgrow
  have hten : ndirect = 10 := rfl
  have hpos : t.diskpos = s.diskpos + 4096 * blocks (files.length * sizeofFile) := by
    obtain ⟨-, hpos⟩ | ⟨hlong, -⟩ := hgrow
    · exact hpos
    · omega
  have halign' : t.diskpos % 4096 = 0 := by omega
  have hout : ∀ a, ¬ (4232 ≤ a ∧ a < 4236) → ¬ (4240 ≤ a ∧ a < 4284) → t.mem a = s₂.mem a := by
    intro a hsize hwords
    refine hsame a ⟨?_, ?_, ?_⟩
    · omega
    · omega
    · omega
  have hlow : ∀ a, a < s.diskpos → ¬ (4232 ≤ a ∧ a < 4236) → ¬ (4240 ≤ a ∧ a < 4284) →
      t.mem a = s.mem a := by
    intro a ha hsize hwords
    rw [hout a hsize hwords]
    exact Bytes.move_of_not (by omega)
  have hstart : s.diskpos / 4096 * 4096 = s.diskpos := by omega
  have hfit : s.diskpos / 4096 + dirBlocks files.length ≤ nblocks.toNat := by
    by_cases hz : files.length = 0
    · have hone := (hnone hz).1
      omega
    · have heq := hfull hz
      omega
  have hfiles : FilesBelow t.mem (s.diskpos / 4096) files := by
    intro i name data hi
    obtain ⟨hshort, hat⟩ := hs.file i name data hi
    have hindex : i < files.length := (List.getElem?_eq_some_iff.mp hi).1
    have hbytes : ∀ j, j < sizeofFile → t.mem (s.diskpos / 4096 * 4096 + sizeofFile * i + j) =
        s.mem (ents nblocks + sizeofFile * i + j) := by
      intro j hj
      have hin : sizeofFile * i + j < files.length * sizeofFile := by
        unfold sizeofFile at hj ⊢
        omega
      rw [hstart, Nat.add_assoc, hout _ (by omega) (by omega), Nat.add_assoc]
      exact Bytes.move_add hin
    refine ⟨hshort, (hs.begins i name data hi).move fun j hj => hbytes j ?_, fun hname =>
      (hat hname).move ⟨fun j hj => hbytes j hj, fun a hlo' hhi => ?_⟩ (Nat.le_refl _) hname
        (Nat.le_of_lt hshort)⟩
    · have hfield : j < 128 := hj
      unfold sizeofFile
      omega
    · exact hlow a (by omega) (by omega) (by omega)
  refine ⟨halign', ⟨s.diskpos / 4096, ⟨hs.small, by omega, by omega, hs.le, ?_, ?_, by omega,
    by omega, hfit, hsize', fun b hb => ?_, fun i name data hi => ?_, fun i hlo' hi => ?_⟩,
    hfiles⟩, fun a hlo' hhi => ?_⟩
  · have hnumber : t.mem.load32 sNblocks = s.mem.load32 sNblocks := by
      have hat : sNblocks = 4100 := rfl
      refine Bytes.load32_congr fun i hi => hlow _ ?_ ?_ ?_
      · omega
      · omega
      · omega
    rw [hnumber]
    exact hs.number
  · have htype : t.mem.load32 (fType sRoot) = s.mem.load32 (fType sRoot) := by
      have hat : fType sRoot = 4236 := rfl
      refine Bytes.load32_congr fun i hi => hlow _ ?_ ?_ ?_
      · omega
      · omega
      · omega
    rw [htype]
    exact hs.root
  · exact hnum.direct b (Nat.lt_min.mpr ⟨hb, by omega⟩)
  · obtain ⟨hshort, -, hat⟩ := hfiles i name data hi
    exact ⟨hshort, fun hname => (hat hname).move ⟨fun _ _ => rfl, fun _ _ _ => rfl⟩
      (Nat.div_le_div_right (by omega)) hname (Nat.le_of_lt hshort)⟩
  · have hi' : i < 16 * dirBlocks files.length := hi
    have hbehind : files.length * sizeofFile ≤ sizeofFile * i ∧
        sizeofFile * i + sizeofFile ≤ 4096 * dirBlocks files.length := by
      unfold sizeofFile
      omega
    obtain ⟨hbehind, hinside⟩ := hbehind
    have hbyte : 0 < sizeofFile := by decide
    rw [hstart, hout _ (by omega) (by omega)]
    show Bytes.move _ _ _ _ _ = _
    rw [Bytes.move_of_not (by omega)]
    exact hs.zero _ (by omega) (by omega)
  · rw [hlow a (by omega) (by omega) (by omega)]
    exact hs.bits a hlo' hhi

/-- The bit of a block is clear for the blocks below `k` and set for all others. -/
def Marked (m : Bytes) (k : Nat) : Prop :=
  ∀ b, b < 32768 → (m.load32 (bitmap + 4 * (b / 32))).getLsbD (b % 32) = decide (k ≤ b)

theorem marked_zero {m : Bytes} (hbits : ∀ a, 8192 ≤ a → a < 12288 → m a = 0xFF) :
    Marked m 0 := by
  intro b hb
  have hword : m.load32 (bitmap + 4 * (b / 32)) = 0xFFFFFFFF := by
    have hbyte : ∀ i, i < 4 → m (bitmap + 4 * (b / 32) + i) = 0xFF := by
      intro i hi
      unfold bitmap
      exact hbits _ (by omega) (by omega)
    have hfirst : m (bitmap + 4 * (b / 32)) = 0xFF := hbyte 0 (by decide)
    unfold Bytes.load32
    rw [hbyte 3 (by decide), hbyte 2 (by decide), hbyte 1 (by decide), hfirst]
    rfl
  have hall : (0xFFFFFFFF : Word) = BitVec.allOnes 32 := rfl
  rw [hword, hall, BitVec.getLsbD_allOnes]
  have hlt : b % 32 < 32 := Nat.mod_lt b (by decide)
  simp [hlt]

/-- The bit of the next block is cleared. -/
theorem Marked.clear {m : Bytes} {k : Nat} (hm : Marked m k) :
    Marked (m.store32 (bitmap + 4 * (k / 32))
      (m.load32 (bitmap + 4 * (k / 32)) &&& ~~~ ((1 : Word) <<< (k % 32)))) (k + 1) := by
  intro b hb
  have hlt : b % 32 < 32 := Nat.mod_lt b (by decide)
  by_cases hword : b / 32 = k / 32
  · have hold := hm b hb
    have hone : ((1 : Word) <<< (k % 32)).getLsbD (b % 32) = decide (b = k) := by
      rw [BitVec.getLsbD_shiftLeft]
      have hbit : (1 : Word).getLsbD (b % 32 - k % 32) = decide (b % 32 - k % 32 = 0) := by
        rw [show (1 : Word) = 1#32 from rfl, BitVec.getLsbD_one]
        simp
      rw [hbit, Bool.eq_iff_iff]
      simp only [hlt, decide_true, Bool.true_and, Bool.and_eq_true, Bool.not_eq_true',
        decide_eq_false_iff_not, decide_eq_true_eq]
      omega
    rw [hword, Bytes.load32_store32, BitVec.getLsbD_and, BitVec.getLsbD_not, hone, ← hword, hold,
      Bool.eq_iff_iff]
    simp only [hlt, decide_true, Bool.true_and, Bool.and_eq_true, Bool.not_eq_true',
      decide_eq_false_iff_not, decide_eq_true_eq]
    omega
  · rw [Bytes.load32_store32_of_ne _ (by omega), hm b hb, Bool.eq_iff_iff, decide_eq_true_eq,
      decide_eq_true_eq]
    constructor
    · intro hle
      have hne : b ≠ k := by
        intro heq
        exact hword (by rw [heq])
      omega
    · omega

/-- `finishdisk` clears the bits of the blocks in use. -/
theorem makes_finishdisk (hle : s.diskpos / 4096 ≤ 1024)
    (hbits : ∀ a, 8192 ≤ a → a < 12288 → s.mem a = 0xFF) :
    Makes finishdisk s fun _ t => Marked t.mem (s.diskpos / 4096) ∧
      ∀ a, ¬ (8192 ≤ a ∧ a < 12288) → t.mem a = s.mem a := by
  unfold finishdisk
  refine makes_bind (x := get) ?_
  have hblk : s.diskpos / blksize = s.diskpos / 4096 := rfl
  show Makes (forUpto (s.diskpos / blksize) _) s _
  rw [hblk]
  refine wp_for_upto (I := fun i (t : Formatter) => Marked t.mem i ∧
    ∀ a, ¬ (8192 ≤ a ∧ a < 12288) → t.mem a = s.mem a) ⟨marked_zero hbits, fun a _ => rfl⟩ ?_
  rintro i hi t ⟨hmarked, hsame⟩
  refine ⟨hmarked.clear, fun a ha => ?_⟩
  have hat : bitmap = 8192 := rfl
  show Bytes.store32 _ _ _ a = _
  rw [Bytes.store32_of_not _ (by omega)]
  exact hsame a ha

theorem makes_files {files done : List (List Byte × List Byte)} (hs : Written nblocks s done) :
    Makes (forEach files fun file => writefile nblocks file.1 file.2) s fun _ t =>
      Written nblocks t (done ++ files) := by
  induction files generalizing s done with
  | nil =>
      rw [List.append_nil]
      exact hs
  | cons file files ih =>
      refine makes_bind ((makes_writefile hs file.1 file.2).imp fun _ t ht => ?_)
      have hrest := ih ht
      rw [List.append_assoc] at hrest
      exact hrest

theorem makes_image {files : List (List Byte × List Byte)} (hle : nblocks ≤ 1024)
    (hpos : s.diskpos = 0) (hn : s.n = 0) (hzero : ∀ a, a < ents nblocks → s.mem a = 0) :
    Makes (makeImage nblocks files) s fun _ t => ∃ used start,
      IsImage t.mem nblocks used start files ∧ Marked t.mem used ∧
        FilesBelow t.mem start files := by
  refine makes_bind ((makes_opendisk hle hpos hn hzero).imp fun _ s₁ hs₁ => ?_)
  refine makes_bind ((makes_files hs₁).imp fun _ s₂ hs₂ => ?_)
  rw [List.nil_append] at hs₂
  refine makes_bind ((makes_finishdir hs₂).imp fun _ s₃ hs₃ => ?_)
  obtain ⟨-, ⟨start, himage, hfiles⟩, hbits⟩ := hs₃
  have hlt := himage.lt
  have hsmall := himage.small
  refine (makes_finishdisk (by omega) hbits).imp fun _ t ht => ?_
  obtain ⟨hmarked, hsame⟩ := ht
  exact ⟨s₃.diskpos / 4096, start, himage.congr fun a _ ha => hsame a ha, hmarked,
    hfiles.congr himage.above himage.entries_end fun a _ ha => hsame a ha⟩

/-- Every image that `fsformat` makes holds the files, and its bitmap has a clear bit for each block
in use. -/
theorem fsformat_image {files : List (List Byte × List Byte)} {junk img : Bytes}
    (hfmt : fsformat nblocks files junk = some img) :
    ∃ used start, IsImage img nblocks used start files ∧ Marked img used ∧
      FilesBelow img start files := by
  unfold fsformat at hfmt
  split at hfmt
  · cases hfmt
  rename_i hbounds
  have hle : nblocks ≤ 1024 := Nat.not_lt.mp fun hlt => hbounds (Or.inr hlt)
  let s₀ : Formatter := ⟨fun a => if a < ents nblocks then 0 else junk a, 0, 0⟩
  have hmade : Makes (makeImage nblocks files) s₀ _ :=
    makes_image hle rfl rfl fun a ha => if_pos ha
  split at hfmt
  · rename_i _ t hret
    obtain ⟨used, start, himage, hmarked, hfiles⟩ := (wp_of_ret hret).mp hmade
    obtain rfl := Option.some.inj hfmt
    have hlo := himage.lo
    have hlt := himage.lt
    have hat : bitmap = 8192 := rfl
    have hents : ents nblocks = nblocks.toNat * 4096 := rfl
    refine ⟨used, start, himage.congr fun a ha _ => if_pos ha, fun b hb => ?_,
      hfiles.congr himage.above himage.entries_end fun a ha _ => if_pos ha⟩
    have hword : Bytes.load32 (fun a => if a < ents nblocks then t.mem a else 0)
        (bitmap + 4 * (b / 32)) = t.mem.load32 (bitmap + 4 * (b / 32)) :=
      Bytes.load32_congr fun i hi => if_pos (by omega)
    rw [← hmarked b hb, hword]
  · cases hfmt

end

end Labs.Jos.Fs
