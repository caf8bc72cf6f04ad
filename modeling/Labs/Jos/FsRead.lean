import Labs.Jos.FsImage
import Mathlib.Data.List.Nodup
import Mathlib.Data.List.TakeWhile

/-!
# Reading an image

The functions of `fs.c` on an image that `fsformat` made. They find each file under its name and
read the bytes it was made from, and they leave the disk as it is.
-/

namespace Labs.Jos.Fs

open Prog

/-- `x` returns `a` and leaves the disk as it is. -/
def Returns {α : Type} (x : Prog Bytes Stop α) (m : Bytes) (a : α) : Prop := x m = .ret a m

theorem returns_bind {α β : Type} {x : Prog Bytes Stop α} {f : α → Prog Bytes Stop β} {m : Bytes}
    {a : α} {b : β} (hx : Returns x m a) (hf : Returns (f a) m b) : Returns (x >>= f) m b := by
  unfold Returns at hx hf ⊢
  simp only [bind, hx]
  exact hf

theorem bind_of_returns {α β : Type} {x : Prog Bytes Stop α} {f : α → Prog Bytes Stop β} {m : Bytes}
    {a : α} (hx : Returns x m a) : (x >>= f) m = f a m := by
  unfold Returns at hx
  simp only [bind, hx]

theorem returns_get {α : Type} {f : Bytes → Prog Bytes Stop α} {m : Bytes} {a : α}
    (hf : Returns (f m) m a) : Returns (get >>= f) m a :=
  hf

/-- Numbers below `2 ^ 31` are divided as unsigned numbers. -/
theorem sdiv_block {n : Nat} (hn : n < 2 ^ 31) :
    (BitVec.ofNat 32 n).sdiv (BitVec.ofNat 32 blksize) = BitVec.ofNat 32 (n / 4096) := by
  have hmsb : (BitVec.ofNat 32 n).msb = false := by
    rw [BitVec.msb_eq_false_iff_two_mul_lt, BitVec.toNat_ofNat]
    omega
  have hmsb' : (BitVec.ofNat 32 blksize).msb = false := by decide
  rw [BitVec.sdiv_eq, hmsb, hmsb']
  apply BitVec.eq_of_toNat_eq
  unfold blksize
  simp only [BitVec.udiv_eq, BitVec.toNat_udiv, BitVec.toNat_ofNat, Nat.reducePow, Nat.reduceMod]
  omega

theorem srem_block {n : Nat} (hn : n < 2 ^ 31) :
    (BitVec.ofNat 32 n).srem (BitVec.ofNat 32 blksize) = BitVec.ofNat 32 (n % 4096) := by
  have hmsb : (BitVec.ofNat 32 n).msb = false := by
    rw [BitVec.msb_eq_false_iff_two_mul_lt, BitVec.toNat_ofNat]
    omega
  have hmsb' : (BitVec.ofNat 32 blksize).msb = false := by decide
  rw [BitVec.srem_eq, hmsb, hmsb']
  apply BitVec.eq_of_toNat_eq
  unfold blksize
  simp only [BitVec.toNat_umod, BitVec.toNat_ofNat, Nat.reducePow, Nat.reduceMod]
  omega

variable {m : Bytes} {nblocks : Word} {used f len b d : Nat} {content : Nat → Byte}

/-- The disk has `nblocks` blocks, and all of them can be mapped. -/
structure Sized (m : Bytes) (nblocks : Word) : Prop where
  number : m.load32 sNblocks = nblocks
  fits : nblocks.toNat * 4096 ≤ diskSize

/-- The file `f` lies on the disk. -/
def OnDisk (nblocks : Word) (f : Nat) : Prop := f + sizeofFile ≤ nblocks.toNat * 4096

/-- An address on the disk can be read. -/
theorem Sized.returns_pgfault (hsized : Sized m nblocks) {a : Nat} (ha : a < nblocks.toNat * 4096) :
    Returns (bcPgfault a) m () := by
  have hfits := hsized.fits
  have hok : ¬ (diskSize ≤ a ∨ (m.load32 sNblocks).toNat ≤ a / blksize) := by
    rw [hsized.number]
    unfold blksize
    omega
  refine returns_get ?_
  rw [if_neg hok]
  rfl

theorem returns_diskaddr (hsized : Sized m nblocks) (hpos : 0 < d)
    (hlt : d < nblocks.toNat) : Returns (diskaddr (BitVec.ofNat 32 d)) m (d * 4096) := by
  have hd : (BitVec.ofNat 32 d).toNat = d := by
    have hlt' := nblocks.isLt
    rw [BitVec.toNat_ofNat]
    omega
  have hok : ¬ (BitVec.ofNat 32 d = 0 ∨ m.load32 sNblocks ≤ BitVec.ofNat 32 d) := by
    rintro (hzero | hle)
    · rw [hzero] at hd
      have hzero' : (0 : Word).toNat = 0 := rfl
      omega
    · rw [hsized.number] at hle
      have hle' : nblocks.toNat ≤ (BitVec.ofNat 32 d).toNat := hle
      omega
  refine returns_get ?_
  rw [if_neg hok, hd]
  rfl

/-- The place of a block number. -/
theorem returns_block_walk (hsized : Sized m nblocks) (hused : used ≤ nblocks.toNat)
    (hf : OnDisk nblocks f) (hb : b < 1034) (hat : BlockAt m used f b d) : ∃ ptr,
      Returns (fileBlockWalk f (BitVec.ofNat 32 b) true) m ptr ∧
        m.load32 ptr = BitVec.ofNat 32 d ∧ ptr < nblocks.toNat * 4096 := by
  have hbn : (BitVec.ofNat 32 b).toNat = b := by
    rw [BitVec.toNat_ofNat]
    omega
  have hfull : ndirect + nindirect = 1034 := rfl
  have hten : ndirect = 10 := rfl
  have hf' : f + 256 ≤ nblocks.toNat * 4096 := hf
  unfold fileBlockWalk
  rw [hbn]
  unfold BlockAt at hat
  by_cases hdirect : b < ndirect
  · rw [if_pos hdirect] at hat ⊢
    exact ⟨fDirect f b, rfl, hat, by unfold fDirect; omega⟩
  · rw [if_neg hdirect] at hat ⊢
    rw [hfull, if_pos hb]
    obtain ⟨ind, hlo, hhi, hind, hword⟩ := hat
    have hne : ¬ m.load32 (fIndirect f) = 0 := by
      rw [hind]
      intro hzero
      have hnat := congrArg BitVec.toNat hzero
      rw [BitVec.toNat_ofNat] at hnat
      have hlt := nblocks.isLt
      have hz : (0 : Word).toNat = 0 := rfl
      omega
    have hplace : fIndirect f < nblocks.toNat * 4096 := by
      unfold fIndirect
      omega
    refine ⟨ind * 4096 + 4 * (b - ndirect),
      returns_bind (hsized.returns_pgfault hplace) (returns_get ?_), hword, by omega⟩
    rw [if_neg hne]
    refine returns_get (returns_bind (a := ind * 4096) ?_ rfl)
    rw [hind]
    exact returns_diskaddr hsized (by omega) (by omega)

theorem returns_get_block (hsized : Sized m nblocks) (hused : used ≤ nblocks.toNat)
    (hf : OnDisk nblocks f) (hb : b < 1034) (hat : BlockAt m used f b d) (hpos : 0 < d) (hlt : d < nblocks.toNat) :
    Returns (fileGetBlock f (BitVec.ofNat 32 b)) m (d * 4096) := by
  obtain ⟨ptr, hwalk, hptr, hplace⟩ := returns_block_walk hsized hused hf hb hat
  have hne : ¬ m.load32 ptr = 0 := by
    rw [hptr]
    intro hzero
    have hnat := congrArg BitVec.toNat hzero
    rw [BitVec.toNat_ofNat] at hnat
    have hlt' := nblocks.isLt
    have hz : (0 : Word).toNat = 0 := rfl
    omega
  unfold fileGetBlock
  refine returns_bind hwalk (returns_bind (hsized.returns_pgfault hplace) (returns_get ?_))
  rw [if_neg hne]
  refine returns_get ?_
  rw [hptr]
  exact returns_diskaddr hsized hpos hlt

theorem named_nil (hzero : m f = 0) : Named m f [] :=
  ⟨fun i hi => absurd hi (Nat.not_lt_zero i), hzero⟩

/-- Two strings without zero bytes compare as lists. -/
theorem strcmp_named {name path : List Byte} (hnamed : Named m f name) (hname : (0 : Byte) ∉ name)
    (hpath : (0 : Byte) ∉ path) : strcmp m f path = decide (name = path) := by
  induction path generalizing f name with
  | nil =>
      obtain ⟨hbytes, hend⟩ := hnamed
      cases name with
      | nil =>
          have hzero : m f = 0 := hend
          simp [strcmp, hzero]
      | cons c name =>
          have hc : m f = c := hbytes 0 (Nat.zero_lt_succ _)
          have hne : c ≠ 0 := by
            intro hz
            exact hname (hz ▸ List.mem_cons_self)
          rw [strcmp, hc, beq_eq_false_iff_ne.mpr hne]
          exact (decide_eq_false (List.cons_ne_nil c name)).symm
  | cons p path ih =>
      obtain ⟨hbytes, hend⟩ := hnamed
      cases name with
      | nil =>
          have hzero : m f = 0 := hend
          have hne : (0 : Byte) ≠ p := by
            intro hz
            exact hpath (hz ▸ List.mem_cons_self)
          rw [strcmp, hzero, beq_eq_false_iff_ne.mpr hne, Bool.false_and]
          exact (decide_eq_false (List.cons_ne_nil p path).symm).symm
      | cons c name =>
          have hc : m f = c := hbytes 0 (Nat.zero_lt_succ _)
          have hrest : Named m (f + 1) name := by
            refine ⟨fun i hi => ?_, ?_⟩
            · have hbyte := hbytes (i + 1) (Nat.succ_lt_succ hi)
              rw [Nat.add_assoc, Nat.add_comm 1 i]
              exact hbyte
            · have hlast : m (f + (name.length + 1)) = 0 := hend
              rw [Nat.add_assoc, Nat.add_comm 1 _]
              exact hlast
          have htail := ih hrest (fun h => hname (List.mem_cons_of_mem _ h))
            fun h => hpath (List.mem_cons_of_mem _ h)
          rw [strcmp, hc, htail, Bool.eq_iff_iff]
          simp

/-- The first entry with the name among the entries from `base` on. -/
def FirstAt (m : Bytes) (base : Nat) (name : List Byte) (q : Nat) : Prop :=
  strcmp m (base + sizeofFile * q) name = true ∧
    ∀ p, p < q → strcmp m (base + sizeofFile * p) name = false

theorem find_in_block_some {blk q : Nat} {name : List Byte} (hq : q < blkfiles)
    (hfirst : FirstAt m blk name q) : findInBlock m blk name = some (blk + sizeofFile * q) := by
  unfold findInBlock
  rw [List.find?_map]
  have hfind : (List.range blkfiles).find? ((fun f => strcmp m f name) ∘ fun j =>
      blk + sizeofFile * j) = some q := by
    rw [List.find?_range_eq_some]
    refine ⟨hfirst.1, List.mem_range.mpr hq, fun p hp => ?_⟩
    have hfalse := hfirst.2 p hp
    simp [hfalse]
  rw [hfind]
  rfl

theorem find_in_block_none {blk : Nat} {name : List Byte}
    (hnone : ∀ j, j < blkfiles → strcmp m (blk + sizeofFile * j) name = false) :
    findInBlock m blk name = none := by
  unfold findInBlock
  rw [List.find?_eq_none]
  intro f hf
  obtain ⟨j, hj, rfl⟩ := List.mem_map.mp hf
  rw [hnone j (List.mem_range.mp hj)]
  exact Bool.false_ne_true

variable {files : List (List Byte × List Byte)} {start : Nat}

theorem IsImage.sized (himage : IsImage m nblocks used start files) : Sized m nblocks where
  number := himage.number
  fits := by
    have hsmall := himage.small
    unfold diskSize
    omega

theorem IsImage.root_on_disk (himage : IsImage m nblocks used start files) :
    OnDisk nblocks sRoot := by
  have hlo := himage.lo
  have hlt := himage.lt
  unfold OnDisk sRoot sizeofFile
  omega

/-- The blocks of the directory. -/
theorem IsImage.returns_dir_block (himage : IsImage m nblocks used start files)
    (hb : b < dirBlocks files.length) :
    Returns (fileGetBlock sRoot (BitVec.ofNat 32 b)) m ((start + b) * 4096) := by
  have height := dir_blocks_le himage.count
  have hfit := himage.fit
  have habove := himage.above
  have hten : ndirect = 10 := rfl
  have hat : BlockAt m used sRoot b (start + b) := by
    unfold BlockAt
    rw [if_pos (by omega)]
    exact himage.direct b hb
  exact returns_get_block himage.sized (Nat.le_of_lt himage.lt) himage.root_on_disk (by omega) hat
    (by omega) (by omega)

/-- The loop of `dir_lookup` finds the first entry with the name. -/
theorem IsImage.returns_lookup_from (himage : IsImage m nblocks used start files)
    {name : List Byte} {q n i : Nat} (hn : i + n = dirBlocks files.length)
    (hlo : blkfiles * i ≤ q) (hq : q < blkfiles * dirBlocks files.length)
    (hfirst : FirstAt m (start * 4096) name q) :
    Returns (dirLookupFrom sRoot name n (BitVec.ofNat 32 i)) m (start * 4096 + sizeofFile * q) := by
  induction n generalizing i with
  | zero =>
      have hi : i = dirBlocks files.length := by omega
      rw [hi] at hlo
      omega
  | succ n ih =>
      have hbase : ∀ j, (start + i) * 4096 + sizeofFile * j =
          start * 4096 + sizeofFile * (blkfiles * i + j) := by
        intro j
        unfold sizeofFile blkfiles
        omega
      refine returns_bind (himage.returns_dir_block (by omega)) (returns_get ?_)
      by_cases hin : q < blkfiles * (i + 1)
      · have hsplit : blkfiles * (i + 1) = blkfiles * i + blkfiles := Nat.mul_succ ..
        have hhere : FirstAt m ((start + i) * 4096) name (q - blkfiles * i) := by
          refine ⟨?_, fun p hp => ?_⟩
          · have hq' : blkfiles * i + (q - blkfiles * i) = q := by omega
            rw [hbase, hq']
            exact hfirst.1
          · rw [hbase]
            exact hfirst.2 _ (by omega)
        rw [find_in_block_some (by omega) hhere, hbase]
        have hq' : blkfiles * i + (q - blkfiles * i) = q := by omega
        rw [hq']
        rfl
      · have hsplit : blkfiles * (i + 1) = blkfiles * i + blkfiles := Nat.mul_succ ..
        have hnone : findInBlock m ((start + i) * 4096) name = none := by
          refine find_in_block_none fun j hj => ?_
          rw [hbase]
          exact hfirst.2 _ (by omega)
        rw [hnone]
        have hnext : BitVec.ofNat 32 i + 1 = BitVec.ofNat 32 (i + 1) :=
          (BitVec.ofNat_add i 1).symm
        show Returns (dirLookupFrom sRoot name n (BitVec.ofNat 32 i + 1)) m _
        rw [hnext]
        exact ih (by omega) (Nat.le_of_not_lt hin)

/-- The loop of `dir_lookup` finds nothing when no entry has the name. -/
theorem IsImage.lookup_from_none (himage : IsImage m nblocks used start files)
    {name : List Byte} {n i : Nat} (hn : i + n = dirBlocks files.length)
    (hnone : ∀ q, q < blkfiles * dirBlocks files.length →
      strcmp m (start * 4096 + sizeofFile * q) name = false) :
    dirLookupFrom sRoot name n (BitVec.ofNat 32 i) m = .exit (.error (-eNotFound)) m := by
  induction n generalizing i with
  | zero => rfl
  | succ n ih =>
      have hbase : ∀ j, (start + i) * 4096 + sizeofFile * j =
          start * 4096 + sizeofFile * (blkfiles * i + j) := by
        intro j
        unfold sizeofFile blkfiles
        omega
      have hhere : findInBlock m ((start + i) * 4096) name = none := by
        refine find_in_block_none fun j hj => ?_
        rw [hbase]
        refine hnone _ ?_
        have hle : blkfiles * (i + 1) ≤ blkfiles * dirBlocks files.length :=
          Nat.mul_le_mul_left _ (by omega)
        have hsplit : blkfiles * (i + 1) = blkfiles * i + blkfiles := Nat.mul_succ ..
        omega
      rw [dirLookupFrom, bind_of_returns (himage.returns_dir_block (by omega))]
      rw [get_bind, hhere]
      have hnext : BitVec.ofNat 32 i + 1 = BitVec.ofNat 32 (i + 1) := (BitVec.ofNat_add i 1).symm
      show dirLookupFrom sRoot name n (BitVec.ofNat 32 i + 1) m = _
      rw [hnext]
      exact ih (by omega)

theorem IsImage.dir_lookup_eq (himage : IsImage m nblocks used start files) (name : List Byte) :
    dirLookup sRoot name m =
      dirLookupFrom sRoot name (dirBlocks files.length) (BitVec.ofNat 32 0) m := by
  have height := dir_blocks_le himage.count
  have hlt : 4096 * dirBlocks files.length < 2 ^ 31 := by omega
  have hrem : 4096 * dirBlocks files.length % 4096 = 0 := Nat.mul_mod_right ..
  have hdiv : 4096 * dirBlocks files.length / 4096 = dirBlocks files.length :=
    Nat.mul_div_cancel_left _ (by decide)
  have hcount : (BitVec.ofNat 32 (dirBlocks files.length)).toNat = dirBlocks files.length := by
    rw [BitVec.toNat_ofNat]
    omega
  have hplace : fSize sRoot < nblocks.toNat * 4096 := by
    have hroot := himage.root_on_disk
    unfold OnDisk sizeofFile at hroot
    unfold fSize
    omega
  unfold dirLookup
  rw [bind_of_returns (himage.sized.returns_pgfault hplace)]
  show (if _ then _ else _ : Prog Bytes Stop Nat) m = _
  rw [himage.size, srem_block hlt, sdiv_block hlt, hrem, hdiv, hcount]
  exact congrFun (if_neg fun hne => hne rfl) m

/-- The string at the entry `q` of the directory. -/
def entryName (files : List (List Byte × List Byte)) (q : Nat) : List Byte :=
  match files[q]? with
  | some file => basename file.1
  | none => []

/-- The files that an image is made of: the last parts of their names are shorter than 128 bytes,
not empty and pairwise different. Names are strings, without zero bytes. -/
structure GoodFiles (files : List (List Byte × List Byte)) : Prop where
  short : ∀ file ∈ files, (basename file.1).length < maxnamelen
  string : ∀ file ∈ files, (0 : Byte) ∉ basename file.1
  nonempty : ∀ file ∈ files, basename file.1 ≠ []
  distinct : (files.map fun file => basename file.1).Nodup

theorem IsImage.strcmp_entry (himage : IsImage m nblocks used start files)
    (hgood : GoodFiles files) {q : Nat} (hq : q < blkfiles * dirBlocks files.length)
    {path : List Byte} (hpath : (0 : Byte) ∉ path) :
    strcmp m (start * 4096 + sizeofFile * q) path = decide (entryName files q = path) := by
  unfold entryName
  cases hfile : files[q]? with
  | some file =>
      have hmem := List.mem_of_getElem? hfile
      have hat := (himage.file q file.1 file.2 hfile).2 (hgood.short file hmem)
      exact strcmp_named hat.named (hgood.string file hmem) hpath
  | none =>
      have hle : files.length ≤ q := List.getElem?_eq_none_iff.mp hfile
      exact strcmp_named (named_nil (himage.empty q hle hq)) List.not_mem_nil hpath

/-- The entries of the files lie in the blocks of the directory. -/
theorem index_lt {q : Nat} (hq : q < files.length) : q < blkfiles * dirBlocks files.length := by
  have hle := entries_le (n := files.length)
  unfold sizeofFile at hle
  unfold blkfiles
  omega

/-- `dir_lookup` finds a file under its name. -/
theorem IsImage.returns_lookup (himage : IsImage m nblocks used start files)
    (hgood : GoodFiles files) {q : Nat} {name data : List Byte} (hfile : files[q]? = some (name, data)) :
    Returns (dirLookup sRoot (basename name)) m (start * 4096 + sizeofFile * q) := by
  have hindex : q < files.length := (List.getElem?_eq_some_iff.mp hfile).1
  have hq := index_lt hindex
  have hzero := hgood.string (name, data) (List.mem_of_getElem? hfile)
  have hname : entryName files q = basename name := by
    unfold entryName
    rw [hfile]
  have hfirst : FirstAt m (start * 4096) (basename name) q := by
    refine ⟨?_, fun p hp => ?_⟩
    · rw [himage.strcmp_entry hgood hq hzero]
      exact decide_eq_true hname
    · rw [himage.strcmp_entry hgood (hp.trans hq) hzero]
      refine decide_eq_false fun heq => ?_
      have hp' : p < files.length := hp.trans hindex
      have hsome : files[p]? = some files[p] := List.getElem?_eq_getElem hp'
      have hsome' : files[q] = (name, data) := (List.getElem?_eq_some_iff.mp hfile).2
      have hpmap : p < (files.map fun file => basename file.1).length := by
        simpa using hp'
      have hqmap : q < (files.map fun file => basename file.1).length := by
        simpa using hindex
      have hleft : (files.map fun file => basename file.1)[p] = basename name := by
        rw [List.getElem_map]
        unfold entryName at heq
        rw [hsome] at heq
        exact heq
      have hright : (files.map fun file => basename file.1)[q] = basename name := by
        rw [List.getElem_map, hsome']
      have hsame := (List.Nodup.getElem_inj_iff hgood.distinct).mp (hleft.trans hright.symm)
      omega
  show dirLookup sRoot (basename name) m = _
  rw [himage.dir_lookup_eq]
  exact himage.returns_lookup_from (Nat.zero_add _) (Nat.zero_le _) hq hfirst

theorem IsImage.lookup_none (himage : IsImage m nblocks used start files)
    (hgood : GoodFiles files) {path : List Byte} (hne : path ≠ []) (hpath : (0 : Byte) ∉ path)
    (hother : path ∉ files.map fun file => basename file.1) :
    dirLookup sRoot path m = .exit (.error (-eNotFound)) m := by
  rw [himage.dir_lookup_eq]
  refine himage.lookup_from_none (Nat.zero_add _) fun q hq => ?_
  rw [himage.strcmp_entry hgood hq hpath]
  refine decide_eq_false fun heq => ?_
  unfold entryName at heq
  cases hfile : files[q]? with
  | some file =>
      rw [hfile] at heq
      exact hother (List.mem_map.mpr ⟨file, List.mem_of_getElem? hfile, heq⟩)
  | none =>
      rw [hfile] at heq
      exact hne heq.symm

/-- A path with a single element, without slashes. -/
theorem skip_slash_eq {path : List Byte} (hslash : slash ∉ path) : skipSlash path = path := by
  unfold skipSlash
  cases path with
  | nil => rfl
  | cons c path =>
      have hne : c ≠ slash := by
        intro heq
        exact hslash (heq ▸ List.mem_cons_self)
      rw [List.dropWhile_cons_of_neg]
      simpa using hne

/-- `walk_path` looks a single name up in the root directory. -/
theorem IsImage.walk_eq (himage : IsImage m nblocks used start files) {path : List Byte} {n : Nat}
    (hne : path ≠ []) (hslash : slash ∉ path) (hlen : path.length < maxnamelen)
    (hn : 0 < n) : walkFrom n sRoot path m = dirLookup sRoot path m := by
  obtain ⟨n, rfl⟩ : ∃ k, n = k + 1 := ⟨n - 1, by omega⟩
  have hall : ∀ c ∈ path, (c != slash) = true := by
    intro c hc
    have hneq : c ≠ slash := by
      intro heq
      exact hslash (heq ▸ hc)
    exact bne_iff_ne.mpr hneq
  have htake : path.takeWhile (· != slash) = path := List.takeWhile_eq_self_iff.mpr hall
  have hdrop : path.dropWhile (· != slash) = [] := List.dropWhile_eq_nil_iff.mpr hall
  cases path with
  | nil => exact absurd rfl hne
  | cons c path =>
      have hplace : fType sRoot < nblocks.toNat * 4096 := by
        have hroot := himage.root_on_disk
        unfold OnDisk sizeofFile at hroot
        unfold fType
        omega
      rw [walkFrom, htake, hdrop, if_neg (Nat.not_le.mpr hlen),
        bind_of_returns (himage.sized.returns_pgfault hplace)]
      have htype : ¬ m.load32 (fType sRoot) ≠ ftypeDir := fun h => h himage.root
      show (if _ then _ else _ : Prog Bytes Stop Nat) m = _
      rw [if_neg htype]
      simp only [bind]
      cases dirLookup sRoot (c :: path) m with
      | ret g m' => cases n <;> rfl
      | exit r m' => rfl

/-- `file_open` of a single name, with or without a slash before it. -/
theorem IsImage.open_eq (himage : IsImage m nblocks used start files) {path : List Byte}
    (hne : path ≠ []) (hslash : slash ∉ path) (hlen : path.length < maxnamelen) :
    fileOpen (slash :: path) m = dirLookup sRoot path m ∧
      fileOpen path m = dirLookup sRoot path m := by
  have hskip : skipSlash (slash :: path) = path := by
    have hdrop : skipSlash (slash :: path) = skipSlash path := by simp [skipSlash]
    rw [hdrop, skip_slash_eq hslash]
  have hpos : 0 < path.length := List.length_pos_of_ne_nil hne
  unfold fileOpen walkPath
  rw [hskip, skip_slash_eq hslash]
  exact ⟨himage.walk_eq hne hslash hlen (Nat.succ_pos _), himage.walk_eq hne hslash hlen hpos⟩

/-! ## Reading files -/

/-- The bytes of a block of the disk. -/
theorem in_block_lt {n x : Nat} (hd : d < n) (hx : x < 4096) : d * 4096 + x < n * 4096 := by
  omega

/-- What `file_read` takes from one block: some bytes, to the end of the block at most. -/
theorem read_len_spec {pos stop : Nat} (hpos : pos < stop) (hstop : stop < 2 ^ 31) :
    ∃ len, (readLen (BitVec.ofNat 32 pos) (BitVec.ofNat 32 stop)).toNat = len ∧ 0 < len ∧
      pos % 4096 + len ≤ 4096 ∧ pos + len ≤ stop := by
  have hpos31 : pos < 2 ^ 31 := Nat.lt_trans hpos hstop
  refine ⟨min (4096 - pos % 4096) (stop - pos), ?_, by omega, by omega, by omega⟩
  rw [readLen, min_u_to_nat, srem_block hpos31]
  unfold blksize
  rw [BitVec.toNat_sub, BitVec.toNat_sub]
  simp only [BitVec.toNat_ofNat, Nat.reducePow, Nat.reduceMod]
  have hblk : (4294967296 - pos % 4096 % 4294967296 + 4096) % 4294967296 = 4096 - pos % 4096 := by
    omega
  have hleft : (4294967296 - pos % 4294967296 + stop % 4294967296) % 4294967296 = stop - pos := by
    omega
  rw [hblk, hleft]

/-- The loop of `file_read` reads the bytes from `pos` up to `stop`. -/
theorem returns_read_from {data : List Byte} (hsized : Sized m nblocks)
    (hused : used ≤ nblocks.toNat) (hf : OnDisk nblocks f)
    (hstored : Stored m used f data.length fun i => data.getD i 0)
    (hlen : data.length ≤ 1034 * 4096) (stop : Nat) (hstop : stop ≤ data.length) (n pos : Nat)
    (hpos : pos ≤ stop) (hn : stop - pos ≤ n) :
    Returns (readFrom f (BitVec.ofNat 32 stop) n (BitVec.ofNat 32 pos)) m
      ((data.drop pos).take (stop - pos)) := by
  induction n generalizing pos with
  | zero =>
      have hzero : stop - pos = 0 := by omega
      rw [hzero, List.take_zero]
      rfl
  | succ n ih =>
      have hstop31 : stop < 2 ^ 31 := by omega
      have hpos31 : pos < 2 ^ 31 := by omega
      have hpos32 : (BitVec.ofNat 32 pos).toNat = pos := by
        rw [BitVec.toNat_ofNat, Nat.mod_eq_of_lt (by omega)]
      have hstop32 : (BitVec.ofNat 32 stop).toNat = stop := by
        rw [BitVec.toNat_ofNat, Nat.mod_eq_of_lt (by omega)]
      rw [readFrom]
      by_cases hlt : pos < stop
      · have hlt32 : BitVec.ofNat 32 pos < BitVec.ofNat 32 stop := by
          rw [BitVec.lt_def, hpos32, hstop32]
          exact hlt
        -- the part of the block from `pos` on, as far as it goes
        obtain ⟨len, hread, hmore, hend, hsome⟩ := read_len_spec hlt hstop31
        obtain ⟨d, hat, hlo, hhi, hbytes⟩ := hstored.block (pos / 4096) (by omega)
        have hblock := returns_get_block hsized hused hf (by omega) hat (by omega) (by omega)
        have hoff : ((BitVec.ofNat 32 (pos % 4096)).toInt) = (pos % 4096 : Nat) := by
          rw [BitVec.toInt_eq_toNat_of_lt, BitVec.toNat_ofNat]
          · omega
          · rw [BitVec.toNat_ofNat]
            omega
        have hsum : ((d * 4096 : Nat) + ((pos % 4096 : Nat) : Int)).toNat =
            d * 4096 + pos % 4096 := by omega
        have hnext : BitVec.ofNat 32 pos + readLen (BitVec.ofNat 32 pos) (BitVec.ofNat 32 stop) =
            BitVec.ofNat 32 (pos + len) := by
          apply BitVec.eq_of_toNat_eq
          rw [BitVec.toNat_add, hread, hpos32, BitVec.toNat_ofNat]
        have hload : m.load (d * 4096 + pos % 4096) len = (data.drop pos).take len := by
          refine Bytes.load_eq ?_ fun i hi => ?_
          · rw [List.length_take, List.length_drop, Nat.min_eq_left (by omega)]
          · have hbyte := hbytes (pos % 4096 + i) (by omega) (by omega)
            have hindex : pos / 4096 * 4096 + (pos % 4096 + i) = pos + i := by omega
            rw [hindex, ← Nat.add_assoc] at hbyte
            rw [hbyte, List.getD_eq_getElem?_getD, List.getD_eq_getElem?_getD,
              List.getElem?_take_of_lt hi, List.getElem?_drop]
        have hrest := ih (pos + len) hsome (by omega)
        have hplace := in_block_lt (Nat.lt_of_lt_of_le hhi hused) (Nat.mod_lt pos (by decide))
        rw [if_pos hlt32, sdiv_block hpos31]
        refine returns_bind hblock ?_
        rw [srem_block hpos31, hoff]
        dsimp only
        rw [hsum, hnext, hread]
        refine returns_bind (hsized.returns_pgfault hplace) (returns_get (returns_bind hrest ?_))
        have hcut : (data.drop pos).take (stop - pos) =
            (data.drop pos).take len ++ (data.drop (pos + len)).take (stop - (pos + len)) := by
          have hsplit : stop - pos = len + (stop - (pos + len)) := by omega
          conv_lhs => rw [hsplit]
          rw [List.take_add, List.drop_drop]
        rw [hcut, ← hload]
        rfl
      · have hzero : stop - pos = 0 := by omega
        have hnot : ¬ BitVec.ofNat 32 pos < BitVec.ofNat 32 stop := by
          rw [BitVec.lt_def, hpos32, hstop32]
          exact hlt
        rw [if_neg hnot, hzero, List.take_zero]
        rfl

/-- `file_read` at an offset that is not negative. -/
theorem returns_read {data : List Byte} (hsized : Sized m nblocks)
    (hused : used ≤ nblocks.toNat) (hf : OnDisk nblocks f)
    (hstored : Stored m used f data.length fun i => data.getD i 0)
    (hlen : data.length ≤ 1034 * 4096) (count offset : Word) (hoffset : 0 ≤ offset.toInt) :
    Returns (fileRead f count offset) m
      (BitVec.ofNat 32 (min count.toNat (data.length - offset.toNat)),
        (data.drop offset.toNat).take count.toNat) := by
  have hoff : offset.toInt = offset.toNat := by
    rw [BitVec.toInt_eq_toNat_cond] at hoffset ⊢
    split at hoffset
    · rw [if_pos ‹_›]
    · have hlt := offset.isLt
      omega
  have hsize : (BitVec.ofNat 32 data.length).toInt = data.length := by
    rw [BitVec.toInt_eq_toNat_of_lt, BitVec.toNat_ofNat]
    · omega
    · rw [BitVec.toNat_ofNat]
      omega
  have hplace : fSize f < nblocks.toNat * 4096 := by
    unfold OnDisk sizeofFile at hf
    unfold fSize
    omega
  unfold fileRead
  refine returns_bind (hsized.returns_pgfault hplace) (returns_get ?_)
  rw [hstored.size]
  by_cases hle : data.length ≤ offset.toNat
  · have hsle : (BitVec.ofNat 32 data.length).sle offset = true := by
      rw [BitVec.sle_iff_toInt_le, hsize, hoff]
      omega
    have hzero : min count.toNat (data.length - offset.toNat) = 0 := by omega
    rw [if_pos hsle, hzero, List.drop_eq_nil_of_le hle, List.take_nil]
    rfl
  · have hnot : ¬ (BitVec.ofNat 32 data.length).sle offset = true := by
      rw [BitVec.sle_iff_toInt_le, hsize, hoff]
      omega
    have hcount : (minU count (BitVec.ofNat 32 data.length - offset)).toNat =
        min count.toNat (data.length - offset.toNat) := by
      rw [min_u_to_nat, BitVec.toNat_sub, BitVec.toNat_ofNat]
      omega
    have hcount32 : minU count (BitVec.ofNat 32 data.length - offset) =
        BitVec.ofNat 32 (min count.toNat (data.length - offset.toNat)) := by
      apply BitVec.eq_of_toNat_eq
      rw [hcount, BitVec.toNat_ofNat]
      omega
    have hstop : offset + minU count (BitVec.ofNat 32 data.length - offset) =
        BitVec.ofNat 32 (offset.toNat + min count.toNat (data.length - offset.toNat)) := by
      apply BitVec.eq_of_toNat_eq
      rw [BitVec.toNat_add, hcount, BitVec.toNat_ofNat]
    have hstart : BitVec.ofNat 32 offset.toNat = offset := by
      apply BitVec.eq_of_toNat_eq
      rw [BitVec.toNat_ofNat]
      exact Nat.mod_eq_of_lt offset.isLt
    rw [if_neg hnot]
    have hread := returns_read_from hsized hused hf hstored hlen
      (offset.toNat + min count.toNat (data.length - offset.toNat)) (by omega)
      (min count.toNat (data.length - offset.toNat)) offset.toNat (by omega) (by omega)
    have hlength : offset.toNat + min count.toNat (data.length - offset.toNat) - offset.toNat =
        min count.toNat (data.length - offset.toNat) := Nat.add_sub_cancel_left ..
    have htake : (data.drop offset.toNat).take (min count.toNat (data.length - offset.toNat)) =
        (data.drop offset.toNat).take count.toNat := by
      rw [← List.length_drop, ← List.take_eq_take_min]
    rw [hstart, ← hstop, hlength, htake, ← hcount] at hread
    refine returns_bind hread ?_
    rw [hcount32]
    rfl

theorem entry_below {q n used k : Nat} (hq : q < n)
    (hbelow : start * 4096 + n * 256 ≤ used * 4096) (hlt : used < k) :
    start * 4096 + 256 * q + 256 ≤ k * 4096 := by
  have hentry : 256 * q + 256 ≤ n * 256 := by omega
  have hblocks : used * 4096 ≤ k * 4096 := Nat.mul_le_mul_right _ (Nat.le_of_lt hlt)
  rw [Nat.add_assoc]
  exact (Nat.add_le_add_left hentry _).trans (hbelow.trans hblocks)

/-- The entries of the directory lie on the disk. -/
theorem IsImage.entry_on_disk (himage : IsImage m nblocks used start files) {q : Nat}
    {file : List Byte × List Byte} (hq : files[q]? = some file) :
    OnDisk nblocks (start * 4096 + sizeofFile * q) := by
  have hindex : q < files.length := (List.getElem?_eq_some_iff.mp hq).1
  exact entry_below hindex himage.below himage.lt

theorem slash_not_mem_basename (name : List Byte) : slash ∉ basename name := by
  unfold basename
  intro hmem
  have htake := List.mem_takeWhile_imp (List.mem_reverse.mp hmem)
  simp at htake

/-- Reading an image gives back the files it was made from, and nothing else is found in it. -/
theorem image_round_trip {junk img : Bytes} (hfmt : fsformat nblocks files junk = some img)
    (hgood : GoodFiles files) :
    (∀ name data, (name, data) ∈ files → ∃ f,
      fileOpen (slash :: basename name) img = .ret f img ∧
        ∀ count offset : Word, 0 ≤ offset.toInt → fileRead f count offset img =
          .ret (BitVec.ofNat 32 (min count.toNat (data.length - offset.toNat)),
            (data.drop offset.toNat).take count.toNat) img) ∧
      ∀ path : List Byte, path ≠ [] → slash ∉ path → (0 : Byte) ∉ path →
        path.length < maxnamelen → (path ∉ files.map fun file => basename file.1) →
          fileOpen (slash :: path) img = .exit (.error (-eNotFound)) img ∧
            fileOpen path img = .exit (.error (-eNotFound)) img := by
  obtain ⟨used, start, himage, -⟩ := fsformat_image hfmt
  refine ⟨fun name data hmem => ?_, fun path hne hslash hzero hlen hother => ?_⟩
  · obtain ⟨q, hq⟩ := List.getElem?_of_mem hmem
    obtain ⟨hshort, hat⟩ := himage.file q name data hq
    have hname := hgood.short (name, data) hmem
    have hopen := himage.open_eq (hgood.nonempty (name, data) hmem)
      (slash_not_mem_basename name) hname
    have hfound : dirLookup sRoot (basename name) img = _ := himage.returns_lookup hgood hq
    exact ⟨_, hopen.1.trans hfound, fun count offset hoffset =>
      returns_read himage.sized (Nat.le_of_lt himage.lt) (himage.entry_on_disk hq)
        (hat hname).stored (Nat.le_of_lt hshort) count offset hoffset⟩
  · have hopen := himage.open_eq hne hslash hlen
    have hnone := himage.lookup_none hgood hne hzero hother
    exact ⟨hopen.1.trans hnone, hopen.2.trans hnone⟩

/-- An image of one file of three bytes. -/
theorem image_round_trip_one_file : ∃ img f,
    fsformat 8 [([0x61], [1, 2, 3])] (fun _ => 0) = some img ∧
      fileOpen [slash, 0x61] img = .ret f img ∧
        fileRead f 2 1 img = .ret (2, [2, 3]) img := by
  have hsome : (fsformat 8 [([0x61], [1, 2, 3])] fun _ => 0).isSome = true := by decide +kernel
  obtain ⟨img, himg⟩ := Option.isSome_iff_exists.mp hsome
  have hgood : GoodFiles [([0x61], [1, 2, 3])] := by
    refine ⟨?_, ?_, ?_, List.nodup_singleton _⟩
    · decide
    · decide
    · decide
  obtain ⟨f, hopen, hread⟩ := (image_round_trip himg hgood).1 [0x61] [1, 2, 3] List.mem_cons_self
  exact ⟨img, f, himg, hopen, hread 2 1 (by decide)⟩

end Labs.Jos.Fs
