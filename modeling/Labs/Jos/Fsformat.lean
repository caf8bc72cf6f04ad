import Labs.Jos.Fs

/-!
# Making a disk image

The functions of `fs/fsformat.c`. The memory holds the image from address 0 on, as `diskmap` does,
and the directory entries `d->ents` behind it. `ftruncate` leaves the image zero; what `malloc`
leaves in the entries is not known.
-/

namespace Labs.Jos.Fs

open Prog

/-- `FS_MAGIC`. -/
def fsMagic : Word := 0x4A0530AE

/-- `FTYPE_REG`. -/
def ftypeReg : Word := 0

/-- `MAX_DIR_ENTS`. -/
def maxDirEnts : Nat := 128

/-- `MAXFILESIZE`. -/
def maxfilesize : Nat := (ndirect + nindirect) * blksize

/-- The memory, `diskpos`, and the number of directory entries `d->n`. -/
structure Formatter where
  mem : Bytes
  diskpos : Nat
  n : Nat

/-- `ROUNDUP` of an unsigned number. -/
def roundupU (n v : Word) : Word := n - 1 + v - (n - 1) % v

/-- `ROUNDUP` of an `int`: that of 0 is `v`. -/
def roundupI (n v : Word) : Word := n - 1 + v - (n - 1).srem v

/-- The block of an address. -/
def blockof (pos : Nat) : Word := BitVec.ofNat 32 (pos / blksize)

/-- Write to the memory. -/
def write (f : Bytes → Bytes) : Prog Formatter Stop Unit :=
  modify fun s => { s with mem := f s.mem }

section

variable (nblocks : Word)

/-- `d->ents`. -/
def ents : Nat := nblocks.toNat * blksize

/-- Take the next blocks of the image. -/
def alloc (bytes : Word) : Prog Formatter Stop Nat := do
  let s ← get
  let diskpos := s.diskpos + (roundupU bytes (BitVec.ofNat 32 blksize)).toNat
  modify fun s => { s with diskpos := diskpos }
  if nblocks ≤ blockof diskpos then exit .panic
  else pure s.diskpos

/-- `opendisk`, once the image has its size. -/
def opendisk : Prog Formatter Stop Unit := do
  let _ ← alloc nblocks (BitVec.ofNat 32 blksize)
  let super ← alloc nblocks (BitVec.ofNat 32 blksize)
  write fun m => m.store32 super fsMagic
  write fun m => m.store32 (super + 4) nblocks
  write fun m => m.store32 (fType (super + 8)) ftypeDir
  write fun m => m.store (super + 8) [slash, 0]
  let nbitblocks := (nblocks + BitVec.ofNat 32 (8 * blksize) - 1) / BitVec.ofNat 32 (8 * blksize)
  let bitmap ← alloc nblocks (nbitblocks * BitVec.ofNat 32 blksize)
  write fun m => m.fill bitmap (nbitblocks * BitVec.ofNat 32 blksize).toNat 0xFF

/-- Set the size and the block numbers of a file. -/
def finishfile (f : Nat) (start len : Word) : Prog Formatter Stop Unit := do
  write fun m => m.store32 (fSize f) len
  let nblk := (roundupU len (BitVec.ofNat 32 blksize) / BitVec.ofNat 32 blksize).toNat
  forUpto (min nblk ndirect) fun i => write fun m =>
    m.store32 (fDirect f i) (start + BitVec.ofNat 32 i)
  if min nblk ndirect = ndirect then
    let ind ← alloc nblocks (BitVec.ofNat 32 blksize)
    write fun m => m.store32 (fIndirect f) (blockof ind)
    forUpto (nblk - ndirect) fun i => write fun m =>
      m.store32 (ind + 4 * i) (start + BitVec.ofNat 32 (ndirect + i))

/-- Add a directory entry. -/
def diradd (type : Word) (name : List Byte) : Prog Formatter Stop Nat := do
  let s ← get
  let out := ents nblocks + sizeofFile * s.n
  modify fun s => { s with n := s.n + 1 }
  if maxDirEnts < s.n + 1 then exit .panic
  else
    write fun m => m.store out (name ++ [0])
    write fun m => m.store32 (fType out) type
    pure out

/-- `finishdir` for the root directory. -/
def finishdir : Prog Formatter Stop Unit := do
  let s ← get
  let size := BitVec.ofNat 32 (s.n * sizeofFile)
  let start ← alloc nblocks size
  write fun m => m.move start (ents nblocks) size.toNat
  finishfile nblocks sRoot (blockof start) (roundupI size (BitVec.ofNat 32 blksize))

/-- The part of a file's name after the last slash. -/
def basename (name : List Byte) : List Byte := (name.reverse.takeWhile (· != slash)).reverse

/-- `writefile` of a regular file with the contents `data`. -/
def writefile (name data : List Byte) : Prog Formatter Stop Unit := do
  if maxfilesize ≤ data.length then exit .panic
  else
    let f ← diradd nblocks ftypeReg (basename name)
    let start ← alloc nblocks (BitVec.ofNat 32 data.length)
    write fun m => m.store start data
    finishfile nblocks f (blockof start) (BitVec.ofNat 32 data.length)

/-- Clear the bits of the blocks in use. -/
def finishdisk : Prog Formatter Stop Unit := do
  let s ← get
  forUpto (s.diskpos / blksize) fun i => write fun m =>
    m.store32 (bitmap + 4 * (i / 32))
      (m.load32 (bitmap + 4 * (i / 32)) &&& ~~~ ((1 : Word) <<< (i % 32)))

/-- `main`, from `opendisk` on. -/
def makeImage (files : List (List Byte × List Byte)) : Prog Formatter Stop Unit := do
  opendisk nblocks
  forEach files fun file => writefile nblocks file.1 file.2
  finishdir nblocks
  finishdisk

/-- The image that `fsformat` makes of the files, given by name and contents, if it does not
panic. -/
def fsformat (files : List (List Byte × List Byte)) (junk : Bytes) : Option Bytes :=
  if nblocks < 2 ∨ 1024 < nblocks then none
  else
    match makeImage nblocks files
        { mem := fun a => if a < ents nblocks then 0 else junk a, diskpos := 0, n := 0 } with
    | .ret _ s => some fun a => if a < ents nblocks then s.mem a else 0
    | .exit _ _ => none

end

/-- The image of eight blocks with one file: its name is "a", and it has three bytes. -/
def oneFile : Bytes := (fsformat 8 [([0x61], [1, 2, 3])] fun _ => 0).getD fun _ => 0

theorem fsformat_one_file : fsformat 8 [([0x61], [1, 2, 3])] (fun _ => 0) = some oneFile := by
  have hsome : (fsformat 8 [([0x61], [1, 2, 3])] fun _ => 0).isSome = true := by decide +kernel
  obtain ⟨img, himg⟩ := Option.isSome_iff_exists.mp hsome
  rw [oneFile, himg]
  rfl

end Labs.Jos.Fs
