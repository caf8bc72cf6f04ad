import Labs.Jos.ServSafe
import Mathlib.Data.Nat.Find

/-!
# What the file server reads

The offset at which `serve_read` reads lies in the page of the open file, where its clients may
store any number. On the images of `fsformat` every read is compared here with the bytes of the
file. The invariant of a run is that the disk still holds the files of the image, up to the bitmap
and the first block numbers of empty files: a read at an offset little below zero makes up a first
block for an empty file.
-/

namespace Labs.Jos.Fs

open Prog

/-- The number of the block `b` of the file `f`. -/
def blockNo (m : Bytes) (f b : Nat) : Word :=
  if b < ndirect then m.load32 (fDirect f b)
  else m.load32 ((m.load32 (fIndirect f)).toNat * 4096 + 4 * (b - ndirect))

/-- Byte `x` of the file `f`. -/
def fileByte (m : Bytes) (f x : Nat) : Byte :=
  m ((blockNo m f (x / 4096)).toNat * 4096 + x % 4096)

/-- The file with the number `q` in the directory that begins in the block `start`. -/
def entry (start q : Nat) : Nat := start * 4096 + sizeofFile * q

/-- The root directory, or one of the files in it whose name is not too long to be looked up. -/
def Openable (start : Nat) (files : List (List Byte × List Byte)) (f : Nat) : Prop :=
  f = sRoot ∨ ∃ q name data, files[q]? = some (name, data) ∧
    (basename name).length < maxnamelen ∧ f = entry start q

/-- An address of the bitmap, or of the first block number of an empty file. -/
def Scratch (start : Nat) (files : List (List Byte × List Byte)) (a : Nat) : Prop :=
  8192 ≤ a ∧ a < 12288 ∨ ∃ q name, files[q]? = some (name, []) ∧
    fDirect (entry start q) 0 ≤ a ∧ a < fDirect (entry start q) 0 + 4

/-- The disk holds the files `files`, and `alloc_block` finds block 2 free. -/
structure Holding (nblocks : Word) (used start : Nat) (files : List (List Byte × List Byte))
    (m : Bytes) : Prop where
  image : IsImage m nblocks used start files
  below : FilesBelow m start files
  named : ∀ file ∈ files, (0 : Byte) ∉ file.1
  free : ¬ Taken m 2

variable {nblocks : Word} {used start f : Nat} {files : List (List Byte × List Byte)}
  {m m' : Bytes}

/-- A stored file has the bytes that it is said to have. -/
theorem Stored.file_byte {len x : Nat} {content : Nat → Byte} (hstored : Stored m used f len content)
    (hused : used ≤ 2 ^ 32) (hx : x < len) : fileByte m f x = content x := by
  obtain ⟨d, hat, -, hhi, hbytes⟩ := hstored.block (x / 4096) (by omega)
  have hno : (blockNo m f (x / 4096)).toNat = d := by
    unfold BlockAt at hat
    unfold blockNo
    split at hat
    case isTrue hdirect =>
      rw [if_pos hdirect, hat, BitVec.toNat_ofNat]
      omega
    case isFalse hdirect =>
      obtain ⟨ind, -, hind, hload, hnum⟩ := hat
      have hnat : (BitVec.ofNat 32 ind).toNat = ind := by
        rw [BitVec.toNat_ofNat]
        omega
      rw [if_neg hdirect, hload, hnat, hnum, BitVec.toNat_ofNat]
      omega
  have hsplit : x / 4096 * 4096 + x % 4096 = x := by omega
  rw [fileByte, hno, hbytes (x % 4096) (by omega) (by omega), hsplit]

/-- The contents of a file as a list. -/
theorem Stored.to_list {len : Nat} {content : Nat → Byte} (hstored : Stored m used f len content) :
    ∃ data : List Byte, data.length = len ∧
      Stored m used f data.length fun i => data.getD i 0 := by
  have hlen : ((List.range len).map content).length = len := by simp
  refine ⟨(List.range len).map content, hlen, ?_, fun b hb => ?_⟩
  · rw [hlen]
    exact hstored.size
  · rw [hlen] at hb ⊢
    obtain ⟨d, hat, hlo, hhi, hbytes⟩ := hstored.block b hb
    refine ⟨d, hat, hlo, hhi, fun x hx hin => ?_⟩
    have hget : ((List.range len).map content)[b * 4096 + x]? = some (content (b * 4096 + x)) := by
      rw [List.getElem?_map, List.getElem?_range hin]
      rfl
    rw [hbytes x hx hin, List.getD_eq_getElem?_getD, hget, Option.getD_some]

/-- The root directory is stored in its own blocks. -/
theorem IsImage.root_stored (himage : IsImage m nblocks used start files) :
    ∃ content, Stored m nblocks.toNat sRoot (4096 * dirBlocks files.length) content := by
  have height := dir_blocks_le himage.count
  have habove := himage.above
  have hfit := himage.fit
  have hten : ndirect = 10 := rfl
  refine ⟨fun i => m ((start + i / 4096) * 4096 + i % 4096), himage.size, fun b hb => ?_⟩
  have hat : BlockAt m nblocks.toNat sRoot b (start + b) := by
    unfold BlockAt
    rw [if_pos (by omega)]
    exact himage.direct b (by omega)
  refine ⟨start + b, hat, by omega, by omega, fun x hx _ => ?_⟩
  have hdiv : (b * 4096 + x) / 4096 = b := by omega
  have hmod : (b * 4096 + x) % 4096 = x := by omega
  show _ = m _
  rw [hdiv, hmod]

/-- Every file that can be opened is stored. -/
theorem Holding.stored (h : Holding nblocks used start files m) (hf : Openable start files f) :
    ∃ (data : List Byte) (used' : Nat), used' ≤ nblocks.toNat ∧ OnDisk nblocks f ∧
      data.length ≤ 1034 * 4096 ∧ Stored m used' f data.length fun i => data.getD i 0 := by
  have height := dir_blocks_le h.image.count
  rcases hf with rfl | ⟨q, name, data, hget, hname, rfl⟩
  · obtain ⟨content, hcontent⟩ := h.image.root_stored
    obtain ⟨data, hlen, hdata⟩ := hcontent.to_list
    exact ⟨data, _, Nat.le_refl _, h.image.root_on_disk, by omega, hdata⟩
  · obtain ⟨hlen, hat⟩ := h.image.file q name data hget
    exact ⟨data, used, Nat.le_of_lt h.image.lt, h.image.entry_on_disk hget, Nat.le_of_lt hlen,
      (hat hname).stored⟩

/-- The first bytes of an entry are not scratch. -/
theorem not_scratch_entry {i j : Nat} (hstart : 3 ≤ start) (hj : j < 136) :
    ¬ Scratch start files (entry start i + j) := by
  unfold Scratch fDirect entry sizeofFile
  rintro (hmap | ⟨q, name, -, hlo, hhi⟩)
  · omega
  · omega

/-- Neither is any byte of an entry of a file that is not empty. -/
theorem not_scratch_full {i j : Nat} {name data : List Byte} (hstart : 3 ≤ start) (hj : j < 256)
    (hget : files[i]? = some (name, data)) (hne : data ≠ []) :
    ¬ Scratch start files (entry start i + j) := by
  unfold Scratch fDirect entry sizeofFile
  rintro (hmap | ⟨q, name', hq, hlo, hhi⟩)
  · omega
  · obtain rfl : i = q := by omega
    rw [hget] at hq
    exact hne (congrArg Prod.snd (Option.some.inj hq))

/-- Addresses before the bitmap, and those of the blocks before the directory, are not scratch. -/
theorem not_scratch_low {a : Nat} (hstart : 3 ≤ start)
    (ha : a < 8192 ∨ 12288 ≤ a ∧ a < start * 4096) : ¬ Scratch start files a := by
  unfold Scratch fDirect entry sizeofFile
  rintro (hmap | ⟨q, name, -, hlo, hhi⟩)
  · omega
  · omega

/-- The files stay below the directory. -/
theorem Holding.below_change (h : Holding nblocks used start files m)
    (hsame : ∀ a, a < ents nblocks → ¬ Scratch start files a → m' a = m a) :
    FilesBelow m' start files := by
  intro i name data hget
  have habove := h.image.above
  have hindex : i < files.length := (List.getElem?_eq_some_iff.mp hget).1
  have hend : start * 4096 + files.length * 256 ≤ ents nblocks := h.image.entries_end
  generalize ents nblocks = last at hend hsame
  have hentry : ∀ j, j < 256 → entry start i + j < last := by
    intro j hj
    unfold entry sizeofFile
    omega
  have hblock : ∀ a, 3 * 4096 ≤ a → a < start * 4096 → m' a = m a := by
    intro a hlo hhi
    exact hsame a (by omega) (not_scratch_low habove (by omega))
  have hfirst : ∀ j, j < 136 → m' (entry start i + j) = m (entry start i + j) := by
    intro j hj
    exact hsame _ (hentry j (by omega)) (not_scratch_entry habove hj)
  obtain ⟨hlen, hbegins, hat⟩ := h.below i name data hget
  refine ⟨hlen, hbegins.move fun j hj => hfirst j (Nat.lt_trans hj (by decide)), fun hname => ?_⟩
  by_cases hnil : data = []
  · subst hnil
    clear hlen
    have hshort : (basename name).length < 128 := hname
    refine ⟨⟨fun j hj => ?_, ?_⟩, ?_, ?_, fun b hb => absurd hb (Nat.not_lt_zero _)⟩
    · exact (hfirst j (by omega)).trans ((hat hname).named.1 j hj)
    · exact (hfirst _ (by omega)).trans (hat hname).named.2
    · refine (Bytes.load32_congr fun j hj => ?_).trans (hat hname).type
      have hbyte := hfirst (132 + j) (by omega)
      rw [← Nat.add_assoc] at hbyte
      exact hbyte
    · refine (Bytes.load32_congr fun j hj => ?_).trans (hat hname).stored.size
      have hbyte := hfirst (128 + j) (by omega)
      rw [← Nat.add_assoc] at hbyte
      exact hbyte
  · refine (hat hname).move ⟨fun j hj => ?_, hblock⟩ (Nat.le_refl _) hname (Nat.le_of_lt hlen)
    exact hsame _ (hentry j hj) (not_scratch_full habove hj hget hnil)

/-- A disk that changes only at scratch addresses goes on holding the files. -/
theorem Holding.change (h : Holding nblocks used start files m)
    (hsame : ∀ a, a < ents nblocks → ¬ Scratch start files a → m' a = m a)
    (hfree : ¬ Taken m' 2) : Holding nblocks used start files m' := by
  have himage := h.image
  have hents : ents nblocks = nblocks.toNat * 4096 := rfl
  have hlo := himage.lo
  have hlt := himage.lt
  have habove := himage.above
  have hfit := himage.fit
  have hbelow := himage.below
  have height := dir_blocks_le himage.count
  have hfiles := h.below_change hsame
  have hload : ∀ a, a + 4 ≤ 8192 → m'.load32 a = m.load32 a := by
    intro a ha
    refine Bytes.load32_congr fun i hi => hsame _ ?_ (not_scratch_low habove (by omega))
    rw [hents]
    omega
  refine ⟨⟨himage.small, hlo, hlt, himage.count, ?_, ?_, habove, hbelow, hfit, ?_,
    fun b hb => ?_, fun i name data hget => ?_, fun i hi hi' => ?_⟩, hfiles, h.named, hfree⟩
  · rw [hload _ (by decide)]
    exact himage.number
  · rw [hload _ (by decide)]
    exact himage.root
  · rw [hload _ (by decide)]
    exact himage.size
  · have hdirect : fDirect sRoot b + 4 ≤ 8192 := by
      unfold fDirect sRoot
      omega
    rw [hload _ hdirect]
    exact himage.direct b hb
  · have hle : start ≤ used := by omega
    obtain ⟨hshort, -, hat⟩ := hfiles i name data hget
    exact ⟨hshort, fun hname => (hat hname).move ⟨fun _ _ => rfl, fun _ _ _ => rfl⟩ hle hname
      (Nat.le_of_lt hshort)⟩
  · have hlast : entry start i + 0 < ents nblocks := by
      rw [hents]
      unfold entry sizeofFile
      unfold blkfiles at hi'
      omega
    have hsame' := hsame _ hlast (not_scratch_entry habove (by decide))
    rw [Nat.add_zero] at hsame'
    exact hsame'.trans (himage.empty i hi hi')

/-! ## Opening a file -/

/-- A string that is the same as `name` ends where `name` does. -/
theorem strcmp_end {a : Nat} {name : List Byte} (hcmp : strcmp m a name = true) :
    m (a + name.length) = 0 := by
  induction name generalizing a with
  | nil => exact beq_iff_eq.mp hcmp
  | cons c name ih =>
      rw [strcmp, Bool.and_eq_true] at hcmp
      have hend := ih hcmp.2
      rwa [Nat.add_assoc, Nat.add_comm 1] at hend

/-- The file found under a name that is not too long has such a name. -/
theorem Holding.short_of_strcmp (h : Holding nblocks used start files m) {q : Nat}
    {name data path : List Byte} (hget : files[q]? = some (name, data))
    (hcmp : strcmp m (entry start q) path = true) (hlen : path.length < maxnamelen) :
    (basename name).length < maxnamelen := by
  by_contra hlong
  have hin : path.length < (basename name).length := by omega
  have hbyte := (h.below q name data hget).2.1 path.length hlen hin
  have hzero : m (entry start q + path.length) = 0 := strcmp_end hcmp
  rw [entry, hbyte, List.getD_eq_getElem _ _ hin] at hzero
  have hmem : (0 : Byte) ∈ basename name := hzero ▸ List.getElem_mem hin
  unfold basename at hmem
  rw [List.mem_reverse] at hmem
  exact h.named _ (List.mem_of_getElem? hget)
    (List.mem_reverse.mp ((List.takeWhile_sublist _).subset hmem))

/-- `dir_lookup` finds one of the files. -/
theorem Holding.lookup (h : Holding nblocks used start files m) {c : Byte} {name : List Byte}
    (hc : c ≠ 0) (hlen : (c :: name).length < maxnamelen) :
    wp (dirLookup sRoot (c :: name)) (fun g m' => m' = m ∧ Openable start files g)
      (fun _ m' => m' = m) m := by
  have hdir := h.image.dir_lookup_eq (c :: name)
  by_cases hex : ∃ q, q < blkfiles * dirBlocks files.length ∧
      strcmp m (start * 4096 + sizeofFile * q) (c :: name) = true
  · classical
    obtain ⟨hq, hcmp⟩ := Nat.find_spec hex
    have hleast : FirstAt m (start * 4096) (c :: name) (Nat.find hex) := by
      refine ⟨hcmp, fun p hp => ?_⟩
      by_contra htrue
      exact Nat.find_min hex hp ⟨Nat.lt_trans hp hq, Bool.eq_true_of_not_eq_false htrue⟩
    have hret := h.image.returns_lookup_from (Nat.zero_add _) (Nat.zero_le _) hq hleast
    rw [wp_of_ret (hdir.trans hret)]
    have hfound : Nat.find hex < files.length := by
      by_contra hbehind
      have hzero := h.image.empty _ (Nat.le_of_not_lt hbehind) hq
      rw [strcmp, hzero, Bool.and_eq_true, beq_iff_eq] at hcmp
      exact hc hcmp.1.symm
    obtain ⟨⟨path, data⟩, hget⟩ : ∃ file, files[Nat.find hex]? = some file :=
      ⟨_, List.getElem?_eq_getElem hfound⟩
    exact ⟨rfl, .inr ⟨_, path, data, hget, h.short_of_strcmp hget hcmp hlen, rfl⟩⟩
  · have hnone : ∀ q, q < blkfiles * dirBlocks files.length →
        strcmp m (start * 4096 + sizeofFile * q) (c :: name) = false := by
      intro q hq
      by_contra htrue
      exact hex ⟨q, hq, Bool.eq_true_of_not_eq_false htrue⟩
    rw [wp_of_exit (hdir.trans (h.image.lookup_from_none (Nat.zero_add _) hnone))]

/-- Only the root directory is a directory. -/
theorem Holding.root_of_type (h : Holding nblocks used start files m)
    (hf : Openable start files f) (htype : m.load32 (fType f) = ftypeDir) : f = sRoot := by
  rcases hf with hroot | ⟨q, name, data, hget, hname, rfl⟩
  · exact hroot
  · have hreg : m.load32 (fType (entry start q)) = ftypeReg :=
      ((h.below q name data hget).2.2 hname).type
    rw [hreg] at htype
    exact absurd htype (by decide)

/-- The files lie on the disk. -/
theorem Holding.on_disk (h : Holding nblocks used start files m)
    (hf : Openable start files f) : OnDisk nblocks f := by
  obtain ⟨-, -, -, hdisk, -⟩ := h.stored hf
  exact hdisk

/-- The bytes of a `struct File` can be read. -/
theorem Holding.returns_pgfault (h : Holding nblocks used start files m)
    (hf : Openable start files f) {i : Nat} (hi : i < 256) :
    Returns (bcPgfault (f + i)) m () := by
  have hdisk : f + 256 ≤ nblocks.toNat * 4096 := h.on_disk hf
  exact h.image.sized.returns_pgfault (by omega)

/-- The loop of `walk_path`. -/
theorem Holding.walk_from (h : Holding nblocks used start files m) {n : Nat} {path : List Byte}
    (hf : Openable start files f) (hslash : NoSlash path) (hzero : (0 : Byte) ∉ path) :
    wp (walkFrom n f path) (fun g m' => m' = m ∧ Openable start files g)
      (fun _ m' => m' = m) m := by
  induction n generalizing f path with
  | zero =>
      cases path with
      | nil => exact ⟨rfl, hf⟩
      | cons c path => exact rfl
  | succ n ih =>
      cases path with
      | nil => exact ⟨rfl, hf⟩
      | cons c path =>
          have hc : c ≠ slash := hslash c path rfl
          have hc0 : c ≠ 0 := fun heq => hzero (heq ▸ List.mem_cons_self)
          have hname : (c :: path).takeWhile (· != slash) = c :: path.takeWhile (· != slash) := by
            rw [List.takeWhile_cons, bne_iff_ne.mpr hc, if_pos rfl]
          have hsub : (skipSlash ((c :: path).dropWhile (· != slash))).Sublist (c :: path) :=
            (List.dropWhile_sublist _).trans (List.dropWhile_sublist _)
          have hpgfault : Returns (bcPgfault (fType f)) m () := h.returns_pgfault hf (by decide)
          rw [walkFrom, wp_ite]
          refine ⟨fun _ => rfl, fun hshort => ?_⟩
          rw [hname] at hshort
          rw [wp_bind, wp_of_ret hpgfault, wp_bind, wp_get, wp_ite]
          refine ⟨fun _ => rfl, fun htype => ?_⟩
          obtain rfl := h.root_of_type hf (not_not.mp htype)
          rw [wp_bind, hname]
          refine wp_mono_ret (h.lookup hc0 (Nat.lt_of_not_le hshort)) fun g m' hg => ?_
          obtain ⟨rfl, hg⟩ := hg
          exact ih hg (no_slash_skip _) fun hmem => hzero (hsub.subset hmem)

/-- `file_open` returns the root directory or one of the files. -/
theorem Holding.open_wp (h : Holding nblocks used start files m) {path : List Byte}
    (hzero : (0 : Byte) ∉ path) :
    wp (fileOpen path) (fun g m' => m' = m ∧ Openable start files g) (fun _ m' => m' = m) m :=
  h.walk_from (.inl rfl) (no_slash_skip path) fun hmem =>
    hzero ((List.dropWhile_sublist _).subset hmem)

/-! ## Reading -/

/-- `diskaddr` panics or returns the address of a block. -/
theorem diskaddr_wp (b : Word) :
    wp (diskaddr b) (fun a m' => a = b.toNat * 4096 ∧ m' = m) (fun e _ => e = .panic) m := by
  rw [diskaddr, wp_bind, wp_get, wp_ite]
  exact ⟨fun _ => rfl, fun _ => ⟨rfl, rfl⟩⟩

/-- An access to the map panics or changes nothing. -/
theorem bc_pgfault_wp (a : Nat) :
    wp (bcPgfault a) (fun _ m' => m' = m) (fun e _ => e = .panic) m := by
  rw [bcPgfault, wp_bind, wp_get, wp_ite]
  exact ⟨fun _ => rfl, fun _ => rfl⟩

/-- `alloc_block` takes block 2 for a free one. -/
theorem Holding.alloc_block (h : Holding nblocks used start files m) :
    allocBlock m = .ret 2 (mark m 2) := by
  have hlo := h.image.lo
  have hlt := h.image.lt
  have hnumber := h.image.number
  obtain ⟨n, hn⟩ : ∃ n, nblocks.toNat - 2 = n + 1 := ⟨nblocks.toNat - 3, by omega⟩
  have htwo : ¬ nblocks ≤ (2 : Word) := by
    rw [BitVec.le_def, show (2 : Word).toNat = 2 from rfl]
    omega
  have hplace : bitmapWord 2 < nblocks.toNat * 4096 := by
    rw [show bitmapWord 2 = 8192 from rfl]
    omega
  have hbit : (m.load32 (bitmapWord 2) &&& bitmapBit 2 == 0) = true := by
    have hfree := h.free
    unfold bitmapBit
    rw [and_bit_beq _ (by decide)]
    simpa [Taken, bitmapWord] using hfree
  have hfree : blockIsFree 2 m = .ret true m := by
    unfold blockIsFree
    rw [get_bind, hnumber, if_neg htwo, bind_of_returns (h.image.sized.returns_pgfault hplace),
      hbit]
    rfl
  unfold allocBlock
  rw [get_bind, hnumber, hn, allocFrom, bind_of_ret hfree]
  rfl

/-- A file whose first block number is zero is empty. -/
theorem Holding.empty_of_zero (h : Holding nblocks used start files m)
    (hf : Openable start files f) (hzero : m.load32 (fDirect f 0) = 0) :
    ∃ q name, files[q]? = some (name, []) ∧ f = entry start q := by
  have hlt := nblocks.isLt
  have hno : ∀ d, 3 ≤ d → d < nblocks.toNat → m.load32 (fDirect f 0) ≠ BitVec.ofNat 32 d := by
    intro d hlo hhi heq
    have hnat := congrArg BitVec.toNat (heq.symm.trans hzero)
    rw [BitVec.toNat_ofNat, show (0 : Word).toNat = 0 from rfl] at hnat
    omega
  have habove := h.image.above
  have hfit := h.image.fit
  rcases hf with rfl | ⟨q, name, data, hget, hname, rfl⟩
  · have hpos : 0 < dirBlocks files.length := by
      unfold dirBlocks blocks sizeofFile
      split <;> omega
    have hdirect := h.image.direct 0 hpos
    exact absurd hdirect (hno start habove (by omega))
  · have hstored := ((h.image.file q name data hget).2 hname).stored
    refine ⟨q, name, ?_, rfl⟩
    by_cases hnil : data = []
    · rw [hget, hnil]
    · have hlen : 0 * 4096 < data.length := by
        rw [Nat.zero_mul]
        exact List.length_pos_iff.mpr hnil
      obtain ⟨d, hat, hlo, hhi, -⟩ := hstored.block 0 hlen
      exact absurd hat (hno d hlo (Nat.lt_trans hhi h.image.lt))

/-- The first block of a file, which an empty file may be given. -/
theorem Holding.get_first_block (h : Holding nblocks used start files m)
    (hf : Openable start files f) :
    wp (fileGetBlock f 0) (fun _ m' => Holding nblocks used start files m')
      (fun e _ => e = .panic) m := by
  have hwalk : fileBlockWalk f 0 true m = .ret (fDirect f 0) m := rfl
  have hlast : ∀ m₁, Holding nblocks used start files m₁ →
      wp (do let m ← get; diskaddr (m.load32 (fDirect f 0)))
        (fun _ m' => Holding nblocks used start files m') (fun e _ => e = .panic) m₁ := by
    intro m₁ h₁
    rw [wp_bind, wp_get]
    refine wp_mono_ret (diskaddr_wp _) fun a m' hm' => ?_
    rw [hm'.2]
    exact h₁
  rw [fileGetBlock, wp_bind, wp_of_ret hwalk, wp_bind]
  refine wp_mono_ret (bc_pgfault_wp _) fun _ m₁ hm₁ => ?_
  rw [hm₁, wp_bind, wp_get]
  show wp (if m.load32 (fDirect f 0) = 0 then _ else _) _ _ m
  rw [wp_ite]
  refine ⟨fun hzero => ?_, fun _ => hlast m h⟩
  obtain ⟨q, name, hget, rfl⟩ := h.empty_of_zero hf hzero
  have hstart := h.image.above
  rw [wp_bind, wp_of_ret h.alloc_block, wp_bind, wp_modify, wp_bind]
  refine wp_mono_ret (diskaddr_wp _) fun a m₂ hm₂ => ?_
  obtain ⟨rfl, rfl⟩ := hm₂
  rw [wp_bind, wp_modify]
  refine hlast _ (h.change (fun a _ ha => ?_) ?_)
  · have hmap : ¬ (8192 ≤ a ∧ a < 8192 + 4096) := fun hin => ha (.inl ⟨hin.1, by omega⟩)
    have hword : ¬ (fDirect (entry start q) 0 ≤ a ∧ a < fDirect (entry start q) 0 + 4) :=
      fun hin => ha (.inr ⟨q, name, hget, hin⟩)
    have hbit : ¬ (8192 ≤ a ∧ a < 8192 + 4) := fun hin => hmap ⟨hin.1, by omega⟩
    exact (Bytes.fill_of_not hmap).trans
      ((Bytes.store32_of_not _ hword).trans (Bytes.store32_of_not _ hbit))
  · intro htaken
    have hword : (((mark m 2).store32 (fDirect (entry start q) 0) 2).fill 8192 4096 0).load32
        8192 = 0 :=
      Bytes.load32_eq_zero fun i hi => Bytes.fill_of_mem (by omega) (by omega)
    have hbit : ((((mark m 2).store32 (fDirect (entry start q) 0) 2).fill 8192 4096 0).load32
        8192).getLsbD 2 = true := htaken
    rw [hword] at hbit
    exact absurd hbit (by decide)

/-- A read at a negative offset that `file_read` refuses: it begins before the block in front of the
first one, and ends before it comes to offset 0. -/
def Refused (count offset : Word) : Prop :=
  offset.toInt + count.toNat < 0 ∧ offset.toInt ≤ -4096

/-- The loop of `file_read` at a negative offset. Unless it goes past 0 at once it makes one round,
for a block that does not exist or for the first one. -/
theorem Holding.read_from_negative (h : Holding nblocks used start files m)
    (hf : Openable start files f) {count offset : Word} {k : Nat}
    (hneg : offset.toInt < 0)
    (hpos : 0 < count.toNat) :
    wp (readFrom f (offset + count) (k + 1) offset)
      (fun _ m' => Holding nblocks used start files m' ∧ ¬ Refused count offset)
      (fun e m' => e = .panic ∧ ¬ Refused count offset ∨
        e = .error (-eInvalid) ∧ m' = m ∧ Refused count offset) m := by
  obtain ⟨hoff, hint⟩ := to_int_of_negative hneg
  have hlt := offset.isLt
  have hcount := count.isLt
  unfold Refused
  rw [hint]
  by_cases hbelow : offset.toNat + count.toNat < 2 ^ 32
  · have hstop : (offset + count).toNat = offset.toNat + count.toNat := by
      rw [BitVec.toNat_add]
      exact Nat.mod_eq_of_lt hbelow
    have hgo : offset < offset + count := by
      rw [BitVec.lt_def, hstop]
      omega
    rw [readFrom, if_pos hgo, sdiv_block_neg hoff]
    by_cases hnear : 2 ^ 32 - 4096 < offset.toNat
    · have hzero : (2 ^ 32 - offset.toNat) / 4096 = 0 := by omega
      have hblock : -(BitVec.ofNat 32 0) = (0 : Word) := rfl
      have hnot : ¬ ((offset.toNat : Int) - 2 ^ 32 + count.toNat < 0 ∧
          (offset.toNat : Int) - 2 ^ 32 ≤ -4096) := by omega
      have hround : readLen offset (offset + count) = count := read_len_negative hnear hbelow
      rw [hzero, hblock, wp_bind]
      refine wp_mono (h.get_first_block hf) (fun a m₁ h₁ => ?_) fun e _ he => .inl ⟨he, hnot⟩
      dsimp only
      rw [wp_bind]
      refine wp_mono (bc_pgfault_wp _) (fun _ m₂ hm₂ => ?_) fun e _ he => .inl ⟨he, hnot⟩
      rw [hm₂, wp_bind, wp_get, wp_bind, hround, wp_of_ret (read_from_done (BitVec.lt_irrefl _))]
      exact ⟨h₁, hnot⟩
    · have hfar : 1034 ≤ (-(BitVec.ofNat 32 ((2 ^ 32 - offset.toNat) / 4096))).toNat := by
        rw [BitVec.toNat_neg, BitVec.toNat_ofNat]
        omega
      rw [wp_of_exit (bind_of_exit (get_block_far hfar))]
      exact .inr ⟨rfl, rfl, by omega, by omega⟩
  · have hdone : ¬ offset < offset + count := by
      rw [BitVec.lt_def, BitVec.toNat_add]
      omega
    rw [wp_of_ret (read_from_done hdone)]
    exact ⟨h, by omega⟩

/-- `file_read` at a negative offset: nothing is asked for, or the read is refused, or it reports
bytes all the same, if it does not panic. -/
theorem Holding.read_negative (h : Holding nblocks used start files m)
    (hf : Openable start files f) {count offset : Word} (hneg : offset.toInt < 0) :
    wp (fileRead f count offset)
      (fun a m' => Holding nblocks used start files m' ∧
        (count = 0 ∧ a = (0, []) ∨ count ≠ 0 ∧ 0 < a.1.toNat ∧ ¬ Refused count offset))
      (fun e m' => count ≠ 0 ∧ (e = .panic ∧ ¬ Refused count offset ∨
        e = .error (-eInvalid) ∧ m' = m ∧ Refused count offset)) m := by
  obtain ⟨data, used', hused, hdisk, hlen, hstored⟩ := h.stored hf
  obtain ⟨hoff, hint⟩ := to_int_of_negative hneg
  have hlt := offset.isLt
  have hplace : Returns (bcPgfault (fSize f)) m () := h.returns_pgfault hf (by decide)
  have hsize : (m.load32 (fSize f)).toNat = data.length := by
    rw [hstored.size, BitVec.toNat_ofNat]
    omega
  have hin : ¬ (m.load32 (fSize f)).sle offset = true := by
    have hsize' : (m.load32 (fSize f)).toInt = data.length := by
      rw [BitVec.toInt_eq_toNat_cond, if_pos (by omega), hsize]
    rw [BitVec.sle_iff_toInt_le, hsize']
    omega
  have hcount : (minU count (m.load32 (fSize f) - offset)).toNat =
      min count.toNat (data.length + (2 ^ 32 - offset.toNat)) := by
    rw [min_u_to_nat, BitVec.toNat_sub, hsize]
    omega
  rw [fileRead, wp_bind, wp_of_ret hplace, wp_bind, wp_get, if_neg hin, wp_bind]
  generalize minU count (m.load32 (fSize f) - offset) = given at hcount
  by_cases hzero : count = 0
  · have hgiven : given = 0 := by
      apply BitVec.eq_of_toNat_eq
      rw [hcount, hzero]
      exact Nat.zero_min _
    subst hgiven
    exact ⟨h, .inl ⟨hzero, rfl⟩⟩
  · have hpos : 0 < count.toNat := Nat.pos_of_ne_zero fun heq => hzero (BitVec.eq_of_toNat_eq heq)
    have hgpos : 0 < given.toNat := by omega
    -- the end of the read is below 0 for the bytes asked for when it is for those given
    have hrefused : Refused given offset ↔ Refused count offset := by
      unfold Refused
      rw [hint, hcount]
      omega
    obtain ⟨k, hk⟩ : ∃ k, given.toNat = k + 1 := ⟨given.toNat - 1, by omega⟩
    have hloop := h.read_from_negative hf (k := k) hneg hgpos
    rw [hrefused] at hloop
    rw [hk]
    refine wp_mono hloop (fun bytes m' hm' => ?_) fun e m' he => ⟨hzero, he⟩
    exact ⟨hm'.1, .inr ⟨hzero, hgpos, hm'.2⟩⟩

/-- `file_read` leaves the files on the disk as they are. -/
theorem Holding.read_wp (h : Holding nblocks used start files m)
    (hf : Openable start files f) (count offset : Word) :
    wp (fileRead f count offset) (fun _ m' => Holding nblocks used start files m')
      (fun e m' => e = .panic ∨ Holding nblocks used start files m') m := by
  by_cases hneg : offset.toInt < 0
  · refine wp_mono (h.read_negative hf hneg) (fun _ m' hm' => hm'.1) fun e m' he => ?_
    rcases he.2 with hpanic | herror
    · exact .inl hpanic.1
    · rw [herror.2.1]
      exact .inr h
  · obtain ⟨data, used', hused, hdisk, hlen, hstored⟩ := h.stored hf
    have hread : fileRead f count offset m = _ := returns_read h.image.sized hused hdisk hstored hlen
      count offset (Int.not_lt.mp hneg)
    rw [wp_of_ret hread]
    exact h

/-- An image holds its files. -/
theorem holding_of_fsformat {junk img : Bytes} (hfmt : fsformat nblocks files junk = some img)
    (hnamed : ∀ file ∈ files, (0 : Byte) ∉ file.1) :
    ∃ used start, Holding nblocks used start files img := by
  obtain ⟨used, start, himage, hmarked, hbelow⟩ := fsformat_image hfmt
  exact ⟨used, start, himage, hbelow, hnamed, himage.free hmarked⟩

end Labs.Jos.Fs

namespace Labs.Jos.Serv

open Prog
open Fs (Stop Holding Openable Refused)

/-- The disk holds the files, and the open files are among them. -/
structure Serving (nblocks : Word) (used start : Nat) (files : List (List Byte × List Byte))
    (s : Server) : Prop where
  disk : Holding nblocks used start files s.disk
  file : ∀ i f, (s.opentab i).oFile = some f → Openable start files f

/-- `serve_read` returns an error, or as many bytes as it says, all of them from the file `f` at
the offset. -/
def ReadConfined (s : Server) (f : Nat) (offset : Word) : Prop :=
  wp serveRead
    (fun r s' => ∃ page, readReq s' = .ret page s' ∧ ∀ j < r.toNat,
      0 ≤ offset.toInt + j ∧ offset.toInt + j < (s.disk.load32 (Fs.fSize f)).toNat ∧
        page j = Fs.fileByte s.disk f (offset.toInt + j).toNat)
    (fun e _ => ∃ r, e = .error r ∧ r < 0) s

/-- The number of bytes that a read asks for. -/
def reqCount (req : Bytes) : Word := Fs.minU (reqN req) (BitVec.ofNat 32 4096)

/-- The reads that go well: no bytes are asked for; or the offset is negative and the read refused;
or it is not negative, and any bytes that there are fit in a request page that may be written to.
When that page is the one of the open file itself, the fifth byte already lies in its offset. -/
def ReadFits (s : Server) (req : Bytes) (f : Nat) (offset : Word) : Prop :=
  reqCount req = 0 ∨ offset.toInt < 0 ∧ Refused (reqCount req) offset ∨
    0 ≤ offset.toInt ∧ ((s.disk.load32 (Fs.fSize f)).toNat ≤ offset.toNat ∨
      s.Writable ∧ (s.isArg (slot (reqFileid req)) = true →
        min (reqCount req).toNat ((s.disk.load32 (Fs.fSize f)).toNat - offset.toNat) ≤ 4))

variable {nblocks : Word} {used start : Nat} {files : List (List Byte × List Byte)}
  {s s' : Server} {mem : Bool} {i : Ix}

/-! ## Runs of the server -/

/-- The server goes on as long as its files are the same. -/
theorem Serving.sent (h : Serving nblocks used start files s) (hdisk : s'.disk = s.disk)
    (hopen : ∀ i, (s'.opentab i).oFile = (s.opentab i).oFile) :
    Serving nblocks used start files s' where
  disk := hdisk ▸ h.disk
  file i f hf := h.file i f ((hopen i).symm.trans hf)

/-- What a program of the server keeps, unless it panics. -/
def KeepsServing {α : Type} (nblocks : Word) (used start : Nat)
    (files : List (List Byte × List Byte)) (x : Prog Server Stop α) : Prop :=
  ∀ s, Serving nblocks used start files s →
    wp x (fun _ s' => Serving nblocks used start files s')
      (fun e s' => e = .panic ∨ Serving nblocks used start files s') s

theorem keeps_read_req : KeepsServing nblocks used start files readReq := by
  intro s h
  rcases read_req_cases s with ⟨req, hreq⟩ | hreq
  · rw [wp_of_ret hreq]
    exact h
  · rw [wp_of_exit hreq]
    exact .inl rfl

theorem keeps_write_req (f : Bytes → Bytes) : KeepsServing nblocks used start files (writeReq f) := by
  intro s h
  rw [writeReq, wp_bind, wp_get]
  cases s.fsreq with
  | none => exact .inl rfl
  | some arg =>
      obtain ⟨page, perm⟩ := arg
      show wp (if _ then _ else _) _ _ _
      rw [wp_ite]
      refine ⟨fun _ => .inl rfl, fun _ => ?_⟩
      cases page with
      | own bytes => exact h.sent rfl fun _ => rfl
      | fd i => exact h.sent rfl fun _ => rfl

theorem keeps_lookup (fileid : Word) :
    KeepsServing nblocks used start files (openfileLookup fileid) := by
  intro s h
  by_cases haccept : Accepts s fileid
  · rw [wp_of_ret haccept]
    exact h
  · rw [wp_of_exit (lookup_refused haccept)]
    exact .inr h

theorem keeps_seq {α β : Type} {x : Prog Server Stop α} {g : α → Prog Server Stop β}
    (hx : KeepsServing nblocks used start files x)
    (hg : ∀ a, KeepsServing nblocks used start files (g a)) :
    KeepsServing nblocks used start files (x >>= g) := by
  intro s h
  rw [wp_bind]
  exact wp_mono_ret (hx s h) fun a t ht => hg a t ht

theorem keeps_ret {α : Type} (a : α) : KeepsServing nblocks used start files (pure a) :=
  fun _ h => h

theorem keeps_serve_read : KeepsServing nblocks used start files serveRead := by
  refine keeps_seq keeps_read_req fun req => keeps_seq (keeps_lookup _) fun i => ?_
  intro s h
  rw [wp_bind, wp_get]
  cases hf : (s.opentab i).oFile with
  | none => exact .inl rfl
  | some f =>
      cases hfd : s.oFd i with
      | none => exact .inl rfl
      | some fd =>
          dsimp only
          rw [wp_bind, onDisk, wp_zoom]
          refine wp_mono (h.disk.read_wp (h.file i f hf) _ _) (fun a m' hm' => ?_) fun e m' he => ?_
          · have hafter : Serving nblocks used start files { s with disk := m' } := ⟨hm', h.file⟩
            have hlast : KeepsServing nblocks used start files (do
                modify fun s => s.writeFd i fun fd => fd.store32 fdOffset (fd.load32 fdOffset + a.1)
                pure a.1 : Prog Server Stop Word) := by
              intro t ht
              exact ht.sent rfl fun _ => rfl
            rw [wp_ite]
            exact ⟨fun _ => keeps_seq (keeps_write_req _) (fun _ => hlast) _ hafter,
              fun _ => hlast _ hafter⟩
          · exact he.imp_right fun hm' => ⟨hm', h.file⟩

theorem keeps_serve_stat : KeepsServing nblocks used start files serveStat := by
  refine keeps_seq keeps_read_req fun req => keeps_seq (keeps_lookup _) fun i => ?_
  intro s h
  rw [wp_bind, wp_get]
  cases (s.opentab i).oFile with
  | none => exact .inl rfl
  | some f =>
      dsimp only
      rw [wp_bind, onDisk, wp_zoom]
      refine wp_mono (Fs.bc_pgfault_wp _) (fun _ m' hm' => ?_) fun e _ he => .inl he
      rw [hm']
      cases strlen s.disk f with
      | none => exact .inl rfl
      | some n =>
          exact keeps_seq (keeps_write_req _) (fun _ => keeps_seq (keeps_write_req _) fun _ =>
            keeps_seq (keeps_write_req _) fun _ => keeps_ret _) s h

/-- `serve_open` opens the root directory or one of the files. -/
theorem keeps_serve_open (mem : Bool) : KeepsServing nblocks used start files (serveOpen mem) := by
  refine keeps_seq keeps_read_req fun req s h => ?_
  rw [wp_bind]
  refine wp_mono (alloc_wp mem s) (fun a t ht => ?_) fun e t ht => ?_
  · obtain ⟨i, fileid⟩ := a
    have hfile : ∀ j, ((s.reopen i).opentab j).oFile = (s.opentab j).oFile := by
      intro j
      unfold Server.reopen
      by_cases hj : j = i
      · simp [hj]
      · simp [hj]
    obtain rfl : t = s.reopen i := ht
    have hafter : Serving nblocks used start files (s.reopen i) := h.sent rfl hfile
    dsimp only
    rw [wp_ite, wp_ite]
    refine ⟨fun _ => .inr hafter, fun _ => ⟨fun _ => .inr hafter, fun _ => ?_⟩⟩
    rw [wp_bind, onDisk, wp_zoom]
    refine wp_mono (hafter.disk.open_wp (zero_not_mem_path req)) (fun f m' hm' => ?_)
      fun e m' hm' => .inr ?_
    · obtain ⟨rfl, hf⟩ := hm'
      refine ⟨hafter.disk, fun j g hg => ?_⟩
      by_cases hj : j = i
      · subst hj
        have hsame : some f = some g := by simpa [Server.fillOut] using hg
        exact Option.some.inj hsame ▸ hf
      · refine hafter.file j g ?_
        simpa [Server.fillOut, hj] using hg
    · subst hm'
      exact hafter
  · obtain ⟨rfl, -⟩ := ht
    exact .inr h

theorem keeps_handle (req : Word) (mem : Bool) :
    KeepsServing nblocks used start files (handle req mem) := by
  unfold handle
  split
  · exact keeps_seq (keeps_serve_open mem) fun _ => keeps_ret _
  · split
    · exact keeps_seq keeps_serve_read fun _ => keeps_ret _
    · split
      · exact keeps_seq keeps_serve_stat fun _ => keeps_ret _
      · split
        · exact keeps_ret _
        · exact keeps_ret _

/-- A request that is served leaves the files as they are. -/
theorem keeps_serve (q : Request) (mem : Bool) (dstva : Option Nat) :
    KeepsServing nblocks used start files (serve q mem dstva) := by
  have hreply : ∀ (r : Int) (pg : Option Ix), KeepsServing nblocks used start files (do
      ipcSend q pg dstva
      modify fun s => { s with fsreq := none }
      pure r : Prog Server Stop Int) := by
    intro r pg t ht
    rw [wp_bind]
    refine wp_mono ipc_send_wp (fun _ t' hsent => ?_) fun e _ he => .inl he.1
    obtain ⟨-, hdisk, hopen, -⟩ := hsent
    exact ht.sent hdisk fun i => congrArg (fun tab => (tab i).oFile) hopen
  intro s h
  rw [serve, wp_bind, wp_rescue]
  refine wp_mono (keeps_handle q.req mem s h) (fun a t ht => hreply a.1 a.2 t ht) fun e t ht => ?_
  cases e with
  | panic => exact .inl rfl
  | error r => exact hreply r none t (ht.resolve_left (by simp))

/-- The files stay as they are in every step. -/
theorem Serving.step {w w' : World} {a : Act} (h : Serving nblocks used start files w.server)
    (hstep : Step w a w') : Serving nblocks used start files w'.server := by
  cases hstep with
  | recv hsend => exact h.sent rfl fun _ => rfl
  | @serve s s' q mem dstva r hserve =>
      have hwp := keeps_serve q mem dstva s h
      rw [wp_of_ret hserve] at hwp
      exact hwp
  | writeArg harg => exact h.sent rfl fun _ => rfl
  | writeFd hmap => exact h.sent rfl fun _ => rfl
  | share hmap => exact h.sent rfl fun _ => rfl
  | unmap => exact h.sent rfl fun _ => rfl
  | destroy => exact h.sent rfl fun _ => rfl

/-- What holds in every state of a run from an image. -/
theorem Runs.serving {C : World → Act → Prop} {img : Bytes} {o : Option World}
    (himg : Holding nblocks used start files img) (hrun : Runs C img o) :
    ∀ w, o = some w → Serving nblocks used start files w.server := by
  induction hrun with
  | init =>
      intro w hw
      obtain rfl := Option.some.inj hw
      exact ⟨himg, fun _ _ h => (by cases h)⟩
  | step hrun hcond hstep ih =>
      intro w hw
      obtain rfl := Option.some.inj hw
      exact (ih _ rfl).step hstep
  | panic hrun hcond hpanic ih =>
      intro w hw
      cases hw

/-! ## A single read -/

section Read

variable {req fd : Bytes} {f : Nat} {offset r : Word} {bytes : List Byte}

/-- The page of the request after a read. -/
def answerPage (s : Server) (i : Ix) (req : Bytes) (bytes : List Byte) (r : Word) : Bytes :=
  let page := req.store 0 bytes
  if s.isArg i then page.store32 fdOffset (page.load32 fdOffset + r) else page

/-- The end of `serve_read` when bytes have been read. -/
theorem answer_cases (hreq : readReq s = .ret req s) (hfd : s.oFd i = some fd) (bytes : List Byte)
    (r : Word) :
    ¬ s.Writable ∧ writeReq (fun page => page.store 0 bytes) s = .exit .panic s ∨
      s.Writable ∧ ∃ t, writeReq (fun page => page.store 0 bytes) s = .ret () t ∧
        readReq (t.writeFd i fun fd => fd.store32 fdOffset (fd.load32 fdOffset + r)) =
          .ret (answerPage s i req bytes r)
            (t.writeFd i fun fd => fd.store32 fdOffset (fd.load32 fdOffset + r)) := by
  have hget : (get : Prog Server Stop Server) s = .ret s s := rfl
  unfold readReq at hreq
  rw [bind_of_ret hget] at hreq
  cases harg : s.fsreq with
  | none =>
      rw [harg] at hreq
      cases hreq
  | some arg =>
      obtain ⟨page, perm⟩ := arg
      have hwritable : s.Writable ↔ perm &&& pteW ≠ 0 := by
        unfold Server.Writable
        rw [harg]
        simp
      rw [harg] at hreq
      rw [hwritable, writeReq, bind_of_ret hget, harg]
      by_cases hperm : perm &&& pteW = 0
      · exact .inl ⟨not_not.mpr hperm, congrFun (if_pos hperm) s⟩
      · refine .inr ⟨hperm, ?_⟩
        cases page with
        | own own =>
            cases hreq
            refine ⟨_, congrFun (if_neg hperm) s, ?_⟩
            have hother : s.isArg i = false := by
              unfold Server.isArg
              rw [harg]
            unfold answerPage
            rw [hother]
            rfl
        | fd j =>
            cases hpage : s.oFd j with
            | none =>
                dsimp only at hreq
                rw [hpage] at hreq
                cases hreq
            | some page =>
                dsimp only at hreq
                rw [hpage] at hreq
                cases hreq
                refine ⟨_, congrFun (if_neg hperm) s, ?_⟩
                have hisarg : s.isArg i = (j == i) := by
                  unfold Server.isArg
                  rw [harg]
                have hread : ∀ t : Server, t.fsreq = some ⟨.fd j, perm⟩ → ∀ b, t.oFd j = some b →
                    readReq t = .ret b t := by
                  intro t ht b hb
                  unfold readReq
                  rw [get_bind, ht]
                  dsimp only
                  rw [hb]
                  rfl
                refine hread ((s.writeFd j fun page => page.store 0 bytes).writeFd i _) harg _ ?_
                unfold answerPage
                rw [hisarg]
                by_cases hj : j = i
                · subst hj
                  simp [Server.writeFd, hpage]
                · simp [Server.writeFd, hpage, hj]

/-- The lowest byte of a word lies at its address. -/
theorem low_byte (m : Bytes) (a : Nat) : (m.load32 a).setWidth 8 = m a := by
  unfold Bytes.load32
  ext k hk
  rw [BitVec.getElem_setWidth, BitVec.getLsbD_append]
  simp [hk]

/-- The fifth byte of the answer is the first one of the offset. -/
theorem answer_page_iff (hbytes : bytes.length = r.toNat) (hr : r.toNat ≤ 4096) :
    (∀ j < r.toNat, answerPage s i req bytes r j = bytes.getD j 0) ↔
      (s.isArg i = true → r.toNat ≤ 4) := by
  have hstore : ∀ j < r.toNat, req.store 0 bytes j = bytes.getD j 0 := by
    intro j hj
    have hadd := Bytes.store_add (m := req) (a := 0) (show j < bytes.length by omega)
    rw [Nat.zero_add] at hadd
    exact hadd
  unfold answerPage
  cases s.isArg i with
  | false => exact ⟨fun _ h => (by cases h), fun _ => hstore⟩
  | true =>
      show (∀ j < r.toNat, (req.store 0 bytes).store32 fdOffset
        ((req.store 0 bytes).load32 fdOffset + r) j = bytes.getD j 0) ↔ _
      generalize req.store 0 bytes = page at hstore
      refine ⟨fun hall _ => ?_, fun hle j hj => ?_⟩
      · by_contra hlong
        have hsame : ∀ j < r.toNat,
            page.store32 fdOffset (page.load32 fdOffset + r) j = page j :=
          fun j hj => (hall j hj).trans (hstore j hj).symm
        have hword := Bytes.load32_store32 (m := page) (a := fdOffset) (page.load32 fdOffset + r)
        by_cases hwhole : 8 ≤ r.toNat
        · have hload : (page.store32 fdOffset (page.load32 fdOffset + r)).load32 fdOffset =
              page.load32 fdOffset :=
            Bytes.load32_congr fun k hk => hsame _ (by unfold fdOffset; omega)
          have hadd := congrArg BitVec.toNat (hword.symm.trans hload)
          rw [BitVec.toNat_add] at hadd
          have hlt := (page.load32 fdOffset).isLt
          omega
        · -- only the lowest byte of the sum needs to be looked at
          have hfirst : (page.load32 fdOffset + r).setWidth 8 =
              (page.load32 fdOffset).setWidth 8 := by
            rw [← hword, low_byte, low_byte]
            exact hsame 4 (by omega)
          have hadd := congrArg BitVec.toNat hfirst
          rw [BitVec.toNat_setWidth, BitVec.toNat_setWidth, BitVec.toNat_add] at hadd
          omega
      · have hle' := hle rfl
        rw [Bytes.store32_of_not _ (by unfold fdOffset; omega)]
        exact hstore j hj

/-- How `serve_read` goes on once the file has been found. -/
theorem wp_serve_read {Q : Word → Server → Prop} {E : Stop → Server → Prop}
    (hreq : readReq s = .ret req s) (haccept : Accepts s (reqFileid req))
    (hf : (s.opentab (slot (reqFileid req))).oFile = some f)
    (hfd : s.oFd (slot (reqFileid req)) = some fd) :
    wp serveRead Q E s ↔ wp (Fs.fileRead f (reqCount req) (fd.load32 fdOffset))
      (fun a m' => wp (do
          if a.2 ≠ [] then writeReq fun page => page.store 0 a.2
          modify fun s => s.writeFd (slot (reqFileid req)) fun fd =>
            fd.store32 fdOffset (fd.load32 fdOffset + a.1)
          pure a.1) Q E { s with disk := m' })
      (fun e m' => E e { s with disk := m' }) s.disk := by
  rw [serveRead, wp_bind, wp_of_ret hreq, wp_bind, wp_of_ret haccept, wp_bind, wp_get, hf, hfd]
  dsimp only
  rw [wp_bind, onDisk, wp_zoom]
  rfl

/-- The page of the request stays there when the page of an open file is written to. -/
theorem read_req_write_fd (hreq : readReq s = .ret req s) (g : Bytes → Bytes) :
    ∃ page, readReq (s.writeFd i g) = .ret page (s.writeFd i g) := by
  rcases read_req_cases (s.writeFd i g) with hret | hexit
  · exact hret
  · exfalso
    unfold readReq at hreq hexit
    rw [get_bind] at hreq
    rw [get_bind] at hexit
    have hsame : (s.writeFd i g).fsreq = s.fsreq := rfl
    rw [hsame] at hexit
    cases harg : s.fsreq with
    | none =>
        rw [harg] at hreq
        cases hreq
    | some arg =>
        obtain ⟨page, perm⟩ := arg
        rw [harg] at hreq hexit
        cases page with
        | own own => cases hexit
        | fd j =>
            cases hpage : s.oFd j with
            | none =>
                dsimp only at hreq
                rw [hpage] at hreq
                cases hreq
            | some page =>
                dsimp only at hexit
                by_cases hj : j = i
                · have hafter : (s.writeFd i g).oFd j = some (g page) := by
                    subst hj
                    simp [Server.writeFd, hpage]
                  rw [hafter] at hexit
                  cases hexit
                · have hafter : (s.writeFd i g).oFd j = some page := by
                    simp [Server.writeFd, hpage, hj]
                  rw [hafter] at hexit
                  cases hexit

/-- The page of the request does not lie on the disk. -/
theorem read_req_disk (hreq : readReq s = .ret req s) (m : Bytes) :
    readReq { s with disk := m } = .ret req { s with disk := m } := by
  unfold readReq at hreq ⊢
  rw [get_bind] at hreq ⊢
  dsimp only at hreq ⊢
  cases harg : s.fsreq with
  | none =>
      rw [harg] at hreq
      cases hreq
  | some arg =>
      obtain ⟨page, perm⟩ := arg
      rw [harg] at hreq
      cases page with
      | own own =>
          cases hreq
          rfl
      | fd j =>
          dsimp only at hreq ⊢
          cases hpage : s.oFd j with
          | none =>
              rw [hpage] at hreq
              cases hreq
          | some page =>
              rw [hpage] at hreq
              cases hreq
              rfl

/-- A signed number that is not negative is the same one without its sign. -/
theorem to_int_of_nonneg {x : Word} (hx : 0 ≤ x.toInt) : x.toInt = x.toNat := by
  rw [BitVec.toInt_eq_toNat_cond] at hx ⊢
  have hlt := x.isLt
  split
  · rfl
  · omega

/-- A read at an offset that is not negative puts the bytes of the file in the page. -/
theorem Serving.read_nonneg (h : Serving nblocks used start files s)
    (hreq : readReq s = .ret req s) (haccept : Accepts s (reqFileid req))
    (hf : (s.opentab (slot (reqFileid req))).oFile = some f)
    (hfd : s.oFd (slot (reqFileid req)) = some fd) (hoff : 0 ≤ (fd.load32 fdOffset).toInt) :
    ReadConfined s f (fd.load32 fdOffset) ↔ ReadFits s req f (fd.load32 fdOffset) := by
  obtain ⟨data, used', hused, hdisk, hlen, hstored⟩ := h.disk.stored (h.file _ f hf)
  have hread := Fs.returns_read h.disk.image.sized hused hdisk hstored hlen (reqCount req) _ hoff
  have hsize : (s.disk.load32 (Fs.fSize f)).toNat = data.length := by
    rw [hstored.size, BitVec.toNat_ofNat]
    omega
  have hsmall : (reqCount req).toNat ≤ 4096 := by
    rw [reqCount, Fs.min_u_to_nat]
    exact Nat.min_le_right _ _
  have hbyte : ∀ x < data.length, Fs.fileByte s.disk f x = data.getD x 0 := by
    intro x hx
    have hnb := nblocks.isLt
    exact hstored.file_byte (by omega) hx
  unfold ReadConfined ReadFits
  rw [wp_serve_read hreq haccept hf hfd, wp_of_ret hread, hsize]
  generalize fd.load32 fdOffset = offset at hoff
  generalize hcount : reqCount req = count at hsmall
  have hint : offset.toInt = offset.toNat := to_int_of_nonneg hoff
  generalize hbytes : (data.drop offset.toNat).take count.toNat = bytes
  have hlength : bytes.length = min count.toNat (data.length - offset.toNat) := by
    rw [← hbytes, List.length_take, List.length_drop]
  have hr : (BitVec.ofNat 32 (min count.toNat (data.length - offset.toNat))).toNat =
      bytes.length := by
    rw [BitVec.toNat_ofNat, hlength]
    omega
  generalize BitVec.ofNat 32 (min count.toNat (data.length - offset.toNat)) = r at hr
  dsimp only
  by_cases hnil : bytes = []
  · have hzero : r.toNat = 0 := by rw [hr, hnil, List.length_nil]
    rw [if_neg (not_not.mpr hnil)]
    refine ⟨fun _ => ?_, fun _ => ?_⟩
    · rw [hnil, List.length_nil] at hlength
      by_cases hc : count = 0
      · exact .inl hc
      · have hpos : 0 < count.toNat :=
          Nat.pos_of_ne_zero fun heq => hc (BitVec.eq_of_toNat_eq heq)
        exact .inr (.inr ⟨hoff, .inl (by omega)⟩)
    · obtain ⟨page, hpage⟩ := read_req_write_fd hreq (i := slot (reqFileid req)) fun fd =>
        fd.store32 fdOffset (fd.load32 fdOffset + r)
      exact ⟨page, hpage, fun j hj => absurd hj (by omega)⟩
  · have hpos : 0 < bytes.length := List.length_pos_iff.mpr hnil
    have hne : count ≠ 0 := by
      rintro rfl
      rw [show (0 : Word).toNat = 0 from rfl, Nat.zero_min] at hlength
      omega
    have hget : ∀ j < r.toNat, Fs.fileByte s.disk f (offset.toInt + j).toNat = bytes.getD j 0 := by
      intro j hj
      have hplace : (offset.toInt + j).toNat = offset.toNat + j := by omega
      rw [hplace, hbyte _ (by omega), ← hbytes, List.getD_eq_getElem?_getD,
        List.getD_eq_getElem?_getD, List.getElem?_take_of_lt (by omega), List.getElem?_drop]
    rw [if_pos hnil, wp_bind]
    rcases answer_cases hreq hfd bytes r with ⟨hro, hexit⟩ | ⟨hrw, t, hret, hpage⟩
    · rw [wp_of_exit hexit]
      refine ⟨fun ⟨_, he, _⟩ => (by cases he), ?_⟩
      rintro (hc | ⟨hneg, -⟩ | ⟨-, hle | ⟨hw, -⟩⟩)
      · exact absurd hc hne
      · omega
      · omega
      · exact absurd hw hro
    · rw [wp_of_ret hret]
      have hanswer : (∀ j < r.toNat, answerPage s (slot (reqFileid req)) req bytes r j =
          bytes.getD j 0) ↔ (s.isArg (slot (reqFileid req)) = true → r.toNat ≤ 4) :=
        answer_page_iff hr.symm (by omega)
      have hfits : ∀ u : Server,
          readReq u = .ret (answerPage s (slot (reqFileid req)) req bytes r) u →
          ((∃ page, readReq u = .ret page u ∧ ∀ j < r.toNat,
            0 ≤ offset.toInt + j ∧ offset.toInt + j < data.length ∧
              page j = Fs.fileByte s.disk f (offset.toInt + j).toNat) ↔
            (s.isArg (slot (reqFileid req)) = true → r.toNat ≤ 4)) := by
        intro u hu
        rw [← hanswer]
        constructor
        · rintro ⟨page, hpage', hall⟩ j hj
          rw [hu] at hpage'
          cases hpage'
          rw [(hall j hj).2.2, hget j hj]
        · intro hall
          refine ⟨_, hu, fun j hj => ⟨by omega, by omega, ?_⟩⟩
          rw [hall j hj, hget j hj]
      refine (hfits _ hpage).trans ⟨fun himp => .inr (.inr ⟨hoff, .inr ⟨hrw, ?_⟩⟩), ?_⟩
      · rw [← hlength, ← hr]
        exact himp
      · rintro (hc | ⟨hneg, -⟩ | ⟨-, hle | ⟨-, himp⟩⟩)
        · exact absurd hc hne
        · omega
        · omega
        · rw [hr, hlength]
          exact himp

/-- A read at a negative offset goes well if it is refused, or nothing is asked for. -/
theorem Serving.read_negative (h : Serving nblocks used start files s)
    (hreq : readReq s = .ret req s) (haccept : Accepts s (reqFileid req))
    (hf : (s.opentab (slot (reqFileid req))).oFile = some f)
    (hfd : s.oFd (slot (reqFileid req)) = some fd) (hneg : (fd.load32 fdOffset).toInt < 0) :
    ReadConfined s f (fd.load32 fdOffset) ↔ ReadFits s req f (fd.load32 fdOffset) := by
  have hread : wp (Fs.fileRead f (reqCount req) (fd.load32 fdOffset)) _ _ s.disk :=
    h.disk.read_negative (h.file _ f hf) hneg
  unfold ReadConfined
  rw [wp_serve_read hreq haccept hf hfd]
  constructor
  · intro hconfined
    by_contra hnot
    unfold ReadFits at hnot
    rw [not_or, not_or] at hnot
    obtain ⟨hcount, hrefused, -⟩ := hnot
    have hrefused' : ¬ Refused (reqCount req) (fd.load32 fdOffset) := fun hr => hrefused ⟨hneg, hr⟩
    have hfalse : wp (Fs.fileRead f (reqCount req) (fd.load32 fdOffset)) (fun _ _ => False)
        (fun _ _ => False) s.disk := by
      refine wp_mono (wp_and hconfined hread) (fun a m' hboth => ?_) fun e m' hboth => ?_
      · obtain ⟨hrest, -, hcase⟩ := hboth
        obtain ⟨-, hpos, -⟩ := hcase.resolve_left fun hc => hcount hc.1
        -- whatever is placed in the page, the first byte reported is none of the file
        have hlate : ∀ t : Server, ¬ ∃ page, readReq t = .ret page t ∧ ∀ j < a.1.toNat,
            0 ≤ (fd.load32 fdOffset).toInt + j ∧
              (fd.load32 fdOffset).toInt + j < (s.disk.load32 (Fs.fSize f)).toNat ∧
              page j = Fs.fileByte s.disk f ((fd.load32 fdOffset).toInt + j).toNat := by
          rintro t ⟨page, -, hall⟩
          have hfirst := (hall 0 hpos).1
          omega
        by_cases hnil : a.2 = []
        · rw [if_neg (not_not.mpr hnil)] at hrest
          exact hlate _ hrest
        · rw [if_pos hnil, wp_bind] at hrest
          rcases answer_cases (read_req_disk hreq m') hfd a.2 a.1 with
            ⟨-, hexit⟩ | ⟨-, t, hret, -⟩
          · rw [wp_of_exit hexit] at hrest
            obtain ⟨r, herror, -⟩ := hrest
            cases herror
          · rw [wp_of_ret hret] at hrest
            exact hlate _ hrest
      · obtain ⟨⟨r, herror, -⟩, -, hpanic | hexit⟩ := hboth
        · rw [hpanic.1] at herror
          cases herror
        · exact hrefused' hexit.2.2
    obtain ⟨_, _, -, h⟩ := exit_of_wp hfalse
    exact h
  · intro hfits
    refine wp_mono hread (fun a m' hret => ?_) fun e m' hexit => ?_
    · obtain ⟨-, ⟨hzero, rfl⟩ | ⟨hcount, -, hnot⟩⟩ := hret
      · obtain ⟨page, hpage⟩ := read_req_write_fd (read_req_disk hreq m')
          (i := slot (reqFileid req)) fun fd => fd.store32 fdOffset (fd.load32 fdOffset + 0)
        exact ⟨page, hpage, fun j hj => absurd hj (Nat.not_lt_zero j)⟩
      · exfalso
        rcases hfits with hc | ⟨-, hr⟩ | ⟨hoff, -⟩
        · exact hcount hc
        · exact hnot hr
        · omega
    · obtain ⟨hcount, hpanic | hexit⟩ := hexit
      · exfalso
        rcases hfits with hc | ⟨-, hr⟩ | ⟨hoff, -⟩
        · exact hcount hc
        · exact hpanic.2 hr
        · omega
      · exact ⟨_, hexit.1, by decide⟩

end Read

/-! ## The root directory is read -/

/-- The server after a client has opened the root directory. -/
def rootOpened (disk : Bytes) : Server :=
  { ((((World.init disk).server.reopen ix0).fillOut ix0 Fs.sRoot 0).mapFd (0, 0) ix0) with
    fsreq := none }

/-- The server when the client asks for three bytes at an offset that it has set. -/
def rootRead (disk : Bytes) (offset : Word) : Server :=
  { (rootOpened disk).writeFd ix0 (fun _ => Bytes.store32 (fun _ => 0) fdOffset offset) with
    fsreq := some (ownPage readThree) }

/-- A search that succeeds at once. -/
theorem find_first {n : Nat} {p : Fin (n + 1) → Bool} (h : p 0 = true) :
    (List.finRange (n + 1)).find? p = some 0 := by
  rw [List.finRange_succ, List.find?_cons_of_pos h]

theorem req_path_zero : reqPath (fun _ => 0) = [] := by
  unfold reqPath
  decide +kernel

/-- The first request opens the root directory. -/
theorem serve_root (disk : Bytes) :
    serve ⟨0, fsreqOpen, false⟩ true (some 0)
      { (World.init disk).server with fsreq := some (ownPage fun _ => 0) } =
      .ret 0 (rootOpened disk) := by
  generalize hs : { (World.init disk).server with fsreq := some (ownPage fun _ => 0) } = s
  have hreq : readReq s = .ret (fun _ => 0) s := by
    subst hs
    rfl
  have halloc : openfileAlloc true s = .ret (ix0, 1024) (s.reopen ix0) := by
    have hfind : (List.finRange maxopen).find? (fun i => s.pageref i ≤ 1) = some ix0 :=
      find_first (n := 1023) (by subst hs; rfl)
    subst hs
    unfold openfileAlloc
    rw [get_bind, hfind]
    rfl
  have hopen : onDisk (Fs.fileOpen (reqPath fun _ => 0)) (s.reopen ix0) =
      .ret Fs.sRoot (s.reopen ix0) := by
    rw [req_path_zero]
    rfl
  have hserve : serveOpen true s = .ret ix0 ((s.reopen ix0).fillOut ix0 Fs.sRoot 0) := by
    rw [serveOpen, bind_of_ret hreq, bind_of_ret halloc]
    dsimp only
    rw [if_neg (by decide), if_neg (by decide), bind_of_ret hopen]
    rfl
  have hhandle : handle fsreqOpen true s = .ret (0, some ix0) ((s.reopen ix0).fillOut ix0 Fs.sRoot 0) := by
    rw [handle_open rfl, bind_of_ret hserve]
    rfl
  have hrescue : rescue (handle fsreqOpen true) errorValue s =
      .ret (0, some ix0) ((s.reopen ix0).fillOut ix0 Fs.sRoot 0) := by
    unfold rescue
    rw [hhandle]
  rw [serve, bind_of_ret hrescue]
  subst hs
  rfl

/-- The client stores an offset in the page of the file, and asks for bytes of it. -/
theorem runs_root_read (disk : Bytes) (offset : Word) :
    Runs (fun _ _ => True) disk (some ⟨rootRead disk offset, some ⟨0, fsreqRead, false⟩⟩) := by
  have hown : ∀ (t : Server) (bytes : Bytes), ∀ a ∈ some (ownPage bytes), t.MaySend 0 a.page := by
    intro t bytes a ha
    obtain rfl := Option.some.inj ha
    trivial
  have hrecv : Step (World.init disk) (.recv 0 fsreqOpen (some (ownPage fun _ => 0))) _ :=
    .recv (hown _ _)
  have hopen : Runs (fun _ _ => True) disk _ := .step .init trivial hrecv
  have hserved : Runs (fun _ _ => True) disk (some ⟨rootOpened disk, none⟩) :=
    .step hopen trivial (.serve (serve_root disk))
  have hwrite : Step ⟨rootOpened disk, none⟩
      (.writeFd ix0 (Bytes.store32 (fun _ => 0) fdOffset offset)) _ :=
    .writeFd (List.mem_singleton.mpr rfl : ((0, 0), ix0) ∈ (rootOpened disk).maps)
  have hset : Runs (fun _ _ => True) disk _ := .step hserved trivial hwrite
  exact .step hset trivial (.recv (hown _ readThree))

/-- The file id of the request is that of the root directory. -/
theorem root_read_accepted (disk : Bytes) (offset : Word) :
    readReq (rootRead disk offset) = .ret readThree (rootRead disk offset) ∧
      Accepts (rootRead disk offset) (reqFileid readThree) ∧
      ((rootRead disk offset).opentab (slot (reqFileid readThree))).oFile = some Fs.sRoot ∧
      (rootRead disk offset).oFd (slot (reqFileid readThree)) =
        some (Bytes.store32 (fun _ => 0) fdOffset offset) := by
  have hid : reqFileid readThree = 1024 := by decide
  have hslot : slot 1024 = ix0 := by decide
  rw [accepts_iff, hid, hslot]
  have href : (rootRead disk offset).pageref ix0 = 2 := rfl
  have hissued : ((rootRead disk offset).opentab ix0).oFileid =
      BitVec.ofNat 32 0 + BitVec.ofNat 32 maxopen := rfl
  rw [href, hissued]
  exact ⟨rfl, ⟨by decide, by decide⟩, rfl, rfl⟩

/-- On an image of `fsformat`, in every state of every run of the server, a read of an open file
goes well exactly when it fits. -/
theorem serve_read_confined_iff {nblocks : Word} {files : List (List Byte × List Byte)}
    {junk img : Bytes} (hfmt : Fs.fsformat nblocks files junk = some img)
    (hnamed : ∀ file ∈ files, (0 : Byte) ∉ file.1) {w : World}
    (hrun : Runs (fun _ _ => True) img (some w)) {req fd : Bytes} {f : Nat}
    (hreq : readReq w.server = .ret req w.server)
    (haccept : Accepts w.server (reqFileid req))
    (hf : (w.server.opentab (slot (reqFileid req))).oFile = some f)
    (hfd : w.server.oFd (slot (reqFileid req)) = some fd) :
    ReadConfined w.server f (fd.load32 fdOffset) ↔
      ReadFits w.server req f (fd.load32 fdOffset) := by
  obtain ⟨used, start, himg⟩ := Fs.holding_of_fsformat hfmt hnamed
  have hserving := hrun.serving himg w rfl
  by_cases hneg : (fd.load32 fdOffset).toInt < 0
  · exact hserving.read_negative hreq haccept hf hfd hneg
  · exact hserving.read_nonneg hreq haccept hf hfd (Int.not_lt.mp hneg)

/-- A read of the root directory from its start. -/
theorem serve_read_confined_iff_root : ∃ img,
    Fs.fsformat 8 [([0x61], [1, 2, 3])] (fun _ => 0) = some img ∧
      (ReadConfined (rootRead img 0) Fs.sRoot 0 ↔ ReadFits (rootRead img 0) readThree Fs.sRoot 0) := by
  have hsome : (Fs.fsformat 8 [([0x61], [1, 2, 3])] fun _ => 0).isSome = true := by
    decide +kernel
  obtain ⟨img, himg⟩ := Option.isSome_iff_exists.mp hsome
  obtain ⟨hreq, haccept, hf, hfd⟩ := root_read_accepted img 0
  have hiff := serve_read_confined_iff himg (by decide) (runs_root_read img 0) hreq haccept hf hfd
  rw [Bytes.load32_store32] at hiff
  exact ⟨img, himg, hiff⟩

/-- A client that sets the offset to -1 is told that three bytes have been read. -/
theorem serve_read_reports_unfilled : ∃ img,
    Fs.fsformat 8 [([0x61], [1, 2, 3])] (fun _ => 0) = some img ∧
      Runs (fun _ _ => True) img (some ⟨rootRead img (-1), some ⟨0, fsreqRead, false⟩⟩) ∧
      Accepts (rootRead img (-1)) (reqFileid readThree) ∧
      ¬ ReadConfined (rootRead img (-1)) Fs.sRoot (-1) := by
  have hsome : (Fs.fsformat 8 [([0x61], [1, 2, 3])] fun _ => 0).isSome = true := by
    decide +kernel
  obtain ⟨img, himg⟩ := Option.isSome_iff_exists.mp hsome
  obtain ⟨hreq, haccept, hf, hfd⟩ := root_read_accepted img (-1)
  refine ⟨img, himg, runs_root_read img (-1), haccept, ?_⟩
  obtain ⟨used, start, hholding⟩ := Fs.holding_of_fsformat himg (by decide)
  have hserving := (runs_root_read img (-1)).serving hholding _ rfl
  have hiff := hserving.read_negative hreq haccept hf hfd
  rw [Bytes.load32_store32] at hiff
  have hcount : reqCount readThree = 3 := by decide
  unfold ReadFits at hiff
  rw [hcount] at hiff
  rw [hiff (by decide)]
  rintro (hzero | ⟨-, hrefused⟩ | ⟨hnonneg, -⟩)
  · exact absurd hzero (by decide)
  · exact absurd hrefused.2 (by decide)
  · exact absurd hnonneg (by decide)

end Labs.Jos.Serv
