import Labs.Base.Bytes
import Labs.Base.Prog
import Labs.Jos.Mmu

/-!
# The file system

The functions of `fs/fs.c` and `fs/bc.c`. The state is the disk as it is mapped from `DISKMAP` on:
an address is its distance from there, and a pointer to a `struct File` is such an address. Blocks
are read when they are first touched, so that the map starts as the image does; `bcPgfault` stands
before each access to an address that is not known to lie on the disk. An error code that a function
returns is returned by all its callers as it is, so that it leaves the program.
-/

namespace Labs.Jos.Fs

open Prog

/-- `BLKSIZE`. -/
def blksize : Nat := 4096

/-- `MAXNAMELEN`. -/
def maxnamelen : Nat := 128

/-- `NDIRECT`. -/
def ndirect : Nat := 10

/-- `NINDIRECT`. -/
def nindirect : Nat := 1024

/-- `BLKFILES`: the number of `struct File`s in a block. -/
def blkfiles : Nat := 16

/-- `FTYPE_DIR`. -/
def ftypeDir : Word := 1

/-- `'/'`. -/
def slash : Byte := 0x2F

def eNoDisk : Int := 9
def eMaxOpen : Int := 10
def eNotFound : Int := 11
def eBadPath : Int := 12
def eInvalid : Int := 3

/-- `sizeof(struct File)`. -/
def sizeofFile : Nat := 256

/-- `&f->f_size`. The name is at `f` itself. -/
def fSize (f : Nat) : Nat := f + 128

/-- `&f->f_type`. -/
def fType (f : Nat) : Nat := f + 132

/-- `&f->f_direct[i]`. -/
def fDirect (f i : Nat) : Nat := f + 136 + 4 * i

/-- `&f->f_indirect`. -/
def fIndirect (f : Nat) : Nat := f + 176

/-- `&super->s_magic`, in block 1. -/
def sMagic : Nat := 4096

/-- `&super->s_nblocks`. -/
def sNblocks : Nat := 4100

/-- `&super->s_root`. -/
def sRoot : Nat := 4104

/-- `bitmap`, in block 2. -/
def bitmap : Nat := 8192

/-- Why a function ends early: it panics, or it returns an error code. -/
inductive Stop where
  | panic
  | error (r : Int)

/-- The address of a disk block. -/
def diskaddr (blockno : Word) : Prog Bytes Stop Nat := do
  let m ← get
  if blockno = 0 ∨ m.load32 sNblocks ≤ blockno then exit .panic
  else pure (blockno.toNat * blksize)

/-- `DISKSIZE`. -/
def diskSize : Nat := 0xC0000000

/-- An access to the map at `a`: `bc_pgfault` reads the block, which has to be one of the disk. -/
def bcPgfault (a : Nat) : Prog Bytes Stop Unit := do
  let m ← get
  if diskSize ≤ a ∨ (m.load32 sNblocks).toNat ≤ a / blksize then exit .panic
  else pure ()

/-- The word of the bitmap for a block, and the bit in it. -/
def bitmapWord (blockno : Word) : Nat := bitmap + 4 * (blockno.toNat / 32)

def bitmapBit (blockno : Word) : Word := (1 : Word) <<< (blockno.toNat % 32)

def blockIsFree (blockno : Word) : Prog Bytes Stop Bool := do
  let m ← get
  if m.load32 sNblocks ≤ blockno then exit .panic
  else
    bcPgfault (bitmapWord blockno)
    pure (m.load32 (bitmapWord blockno) &&& bitmapBit blockno == 0)

/-- The loop of `alloc_block`, from `blockno` on. -/
def allocFrom : Nat → Word → Prog Bytes Stop Word
  | 0, _ => exit (.error (-eNoDisk))
  | n + 1, blockno => do
      if ← blockIsFree blockno then
        modify fun m => m.store32 (bitmapWord blockno)
          (m.load32 (bitmapWord blockno) ||| bitmapBit blockno)
        pure blockno
      else allocFrom n (blockno + 1)

def allocBlock : Prog Bytes Stop Word := do
  let m ← get
  allocFrom ((m.load32 sNblocks).toNat - 2) 2

/-- The place of the number of the block `filebno` of a file. -/
def fileBlockWalk (f : Nat) (filebno : Word) (alloc : Bool) : Prog Bytes Stop Nat := do
  if filebno.toNat < ndirect then pure (fDirect f filebno.toNat)
  else if filebno.toNat < ndirect + nindirect then
    bcPgfault (fIndirect f)
    let m ← get
    if m.load32 (fIndirect f) = 0 then
      if !alloc then exit (.error (-eNotFound))
      else
        let r ← allocBlock
        modify fun m => m.store32 (fIndirect f) r
        let blk ← diskaddr r
        modify fun m => m.fill blk blksize 0
    let m ← get
    let ind ← diskaddr (m.load32 (fIndirect f))
    pure (ind + 4 * (filebno.toNat - ndirect))
  else exit (.error (-eInvalid))

/-- The address of the block `filebno` of a file. -/
def fileGetBlock (f : Nat) (filebno : Word) : Prog Bytes Stop Nat := do
  let ptr ← fileBlockWalk f filebno true
  bcPgfault ptr
  let m ← get
  if m.load32 ptr = 0 then
    let r ← allocBlock
    modify fun m => m.store32 ptr r
    let blk ← diskaddr r
    modify fun m => m.fill blk blksize 0
  let m ← get
  diskaddr (m.load32 ptr)

/-- `strcmp` finds the string at `a` to be `name`. -/
def strcmp (m : Bytes) : Nat → List Byte → Bool
  | a, [] => m a == 0
  | a, c :: rest => m a == c && strcmp m (a + 1) rest

/-- The loop of `dir_lookup` over the files of a block, from file `j` on. -/
def findInBlock (m : Bytes) (blk : Nat) (name : List Byte) : Option Nat :=
  ((List.range blkfiles).map fun j => blk + sizeofFile * j).find? fun f => strcmp m f name

/-- The loop of `dir_lookup` over the blocks, with `n` of them left, from block `i` on. -/
def dirLookupFrom (dir : Nat) (name : List Byte) : Nat → Word → Prog Bytes Stop Nat
  | 0, _ => exit (.error (-eNotFound))
  | n + 1, i => do
      let blk ← fileGetBlock dir i
      let m ← get
      match findInBlock m blk name with
      | some f => pure f
      | none => dirLookupFrom dir name n (i + 1)

def dirLookup (dir : Nat) (name : List Byte) : Prog Bytes Stop Nat := do
  bcPgfault (fSize dir)
  let m ← get
  if (m.load32 (fSize dir)).srem (BitVec.ofNat 32 blksize) ≠ 0 then exit .panic
  else
    dirLookupFrom dir name ((m.load32 (fSize dir)).sdiv (BitVec.ofNat 32 blksize)).toNat 0

def skipSlash (path : List Byte) : List Byte := path.dropWhile (· == slash)

theorem skip_slash_length_le (path : List Byte) : (skipSlash path).length ≤ path.length :=
  (List.dropWhile_sublist _).length_le

/-- What is left of a path after its first element is shorter. -/
theorem rest_length_lt (c : Byte) (path : List Byte) :
    (skipSlash ((c :: path).dropWhile (· != slash))).length < (c :: path).length := by
  by_cases hc : c = slash
  · have hdrop : (c :: path).dropWhile (· != slash) = c :: path := by simp [hc]
    have hskip : skipSlash (c :: path) = skipSlash path := by simp [skipSlash, hc]
    have hle := skip_slash_length_le path
    rw [hdrop, hskip, List.length_cons]
    omega
  · have hdrop : (c :: path).dropWhile (· != slash) = path.dropWhile (· != slash) := by simp [hc]
    have hle := skip_slash_length_le (path.dropWhile (· != slash))
    have hle' := (List.dropWhile_sublist (· != slash) (l := path)).length_le
    rw [hdrop, List.length_cons]
    omega

/-- The loop of `walk_path` from the file `f` on. It runs once for each element of the path, and
so no more often than the path has characters. -/
def walkFrom : Nat → Nat → List Byte → Prog Bytes Stop Nat
  | _, f, [] => pure f
  | 0, _, _ :: _ => exit .panic
  | n + 1, f, c :: path => do
      let name := (c :: path).takeWhile (· != slash)
      if maxnamelen ≤ name.length then exit (.error (-eBadPath))
      else
        bcPgfault (fType f)
        let m ← get
        if m.load32 (fType f) ≠ ftypeDir then exit (.error (-eNotFound))
        else
          let g ← dirLookup f name
          walkFrom n g (skipSlash ((c :: path).dropWhile (· != slash)))

/-- The number of rounds is large enough: with more of them the loop does the same. -/
theorem walk_from_enough (n k f : Nat) (path : List Byte) (hn : path.length ≤ n) :
    walkFrom (n + k) f path = walkFrom n f path := by
  induction n generalizing f path with
  | zero =>
      cases path with
      | nil => cases k <;> rfl
      | cons c path => exact absurd hn (Nat.not_succ_le_zero _)
  | succ n ih =>
      cases path with
      | nil => rw [Nat.succ_add, walkFrom, walkFrom]
      | cons c path =>
          have hrest := rest_length_lt c path
          have hnext : ∀ g, walkFrom (n + k) g (skipSlash ((c :: path).dropWhile (· != slash))) =
              walkFrom n g (skipSlash ((c :: path).dropWhile (· != slash))) :=
            fun g => ih g _ (by omega)
          rw [Nat.succ_add, walkFrom, walkFrom]
          simp only [hnext]

def walkPath (path : List Byte) : Prog Bytes Stop Nat :=
  walkFrom path.length sRoot (skipSlash path)

def fileOpen (path : List Byte) : Prog Bytes Stop Nat := walkPath path

/-- `MIN` of two unsigned numbers. -/
def minU (a b : Word) : Word := if a ≤ b then a else b

theorem min_u_to_nat (a b : Word) : (minU a b).toNat = min a.toNat b.toNat := by
  unfold minU
  split
  · exact (Nat.min_eq_left ‹_›).symm
  · rename_i hle
    have hlt : b.toNat < a.toNat := Nat.not_le.mp hle
    exact (Nat.min_eq_right (Nat.le_of_lt hlt)).symm

/-- The number of bytes that the loop of `file_read` takes at `pos`, up to `stop`. -/
def readLen (pos stop : Word) : Word :=
  minU (BitVec.ofNat 32 blksize - pos.srem (BitVec.ofNat 32 blksize)) (stop - pos)

theorem read_len_pos {pos stop : Word} (hlt : pos < stop) : 0 < (readLen pos stop).toNat := by
  have hrem : (pos.srem (BitVec.ofNat 32 blksize)).toInt < 4096 := by
    rw [BitVec.toInt_srem]
    exact Int.tmod_lt_of_pos _ (by decide)
  have hne : (BitVec.ofNat 32 blksize - pos.srem (BitVec.ofNat 32 blksize)) ≠ 0 := by
    intro hzero
    have heq : BitVec.ofNat 32 blksize = pos.srem (BitVec.ofNat 32 blksize) := by
      have hadd := BitVec.sub_add_cancel (BitVec.ofNat 32 blksize)
        (pos.srem (BitVec.ofNat 32 blksize))
      rw [hzero] at hadd
      exact hadd.symm.trans (BitVec.zero_add _)
    rw [← heq] at hrem
    exact absurd hrem (by decide)
  have hpos : 0 < (BitVec.ofNat 32 blksize - pos.srem (BitVec.ofNat 32 blksize)).toNat :=
    Nat.pos_of_ne_zero fun hzero => hne (BitVec.eq_of_toNat_eq hzero)
  have hleft : 0 < (stop - pos).toNat := by
    rw [BitVec.toNat_sub_of_le (BitVec.le_of_lt hlt)]
    exact Nat.sub_pos_of_lt hlt
  rw [readLen, min_u_to_nat]
  exact Nat.lt_min.mpr ⟨hpos, hleft⟩

theorem read_len_le (pos stop : Word) : (readLen pos stop).toNat ≤ (stop - pos).toNat := by
  rw [readLen, min_u_to_nat]
  exact Nat.min_le_right ..

theorem read_left_lt {pos stop : Word} (hlt : pos < stop) :
    (stop - (pos + readLen pos stop)).toNat < (stop - pos).toNat := by
  have hpos := read_len_pos hlt
  have hle := read_len_le pos stop
  have hsub : stop - (pos + readLen pos stop) = stop - pos - readLen pos stop := by
    rw [BitVec.sub_eq_add_neg, BitVec.neg_add, BitVec.sub_eq_add_neg (stop - pos),
      BitVec.sub_eq_add_neg stop, BitVec.sub_eq_add_neg, BitVec.add_assoc]
  rw [hsub, BitVec.toNat_sub_of_le (BitVec.le_def.mpr hle)]
  exact Nat.sub_lt (Nat.lt_of_lt_of_le hpos hle) hpos

/-- The loop of `file_read`: the bytes from `pos` up to `stop`. A negative `pos` is compared as a
large number, and its remainder is not positive. Each round reads at least one byte. -/
def readFrom (f : Nat) (stop : Word) : Nat → Word → Prog Bytes Stop (List Byte)
  | 0, _ => pure []
  | n + 1, pos => do
      if pos < stop then
        let blk ← fileGetBlock f (pos.sdiv (BitVec.ofNat 32 blksize))
        let off := (pos.srem (BitVec.ofNat 32 blksize)).toInt
        bcPgfault (blk + off).toNat
        let m ← get
        let rest ← readFrom f stop n (pos + readLen pos stop)
        pure (m.load (blk + off).toNat (readLen pos stop).toNat ++ rest)
      else pure []

/-- The number of rounds is large enough: with more of them the loop does the same. -/
theorem read_from_enough (f : Nat) (stop : Word) (n k : Nat) (pos : Word)
    (hn : pos < stop → (stop - pos).toNat ≤ n) :
    readFrom f stop (n + k) pos = readFrom f stop n pos := by
  induction n generalizing pos with
  | zero =>
      cases k with
      | zero => rfl
      | succ k =>
          have hnot : ¬ pos < stop := by
            intro hlt
            have hpos := read_left_lt hlt
            have hzero := hn hlt
            omega
          rw [Nat.zero_add, readFrom, readFrom, if_neg hnot]
  | succ n ih =>
      rw [Nat.succ_add, readFrom, readFrom]
      split
      · rename_i hlt
        have hleft := read_left_lt hlt
        have hstop := hn hlt
        rw [ih _ fun _ => by omega]
      · rfl

/-- The number of bytes read, and the bytes. -/
def fileRead (f : Nat) (count offset : Word) : Prog Bytes Stop (Word × List Byte) := do
  bcPgfault (fSize f)
  let m ← get
  if (m.load32 (fSize f)).sle offset then pure (0, [])
  else
    let count := minU count (m.load32 (fSize f) - offset)
    let bytes ← readFrom f (offset + count) count.toNat offset
    pure (count, bytes)

end Labs.Jos.Fs
