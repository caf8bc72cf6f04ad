import Labs.Jos.Syscall

/-!
# The exec system call

`sys_exec` of `kern/syscall.c` with its helpers. It copies the ELF header, the program headers
and the arguments out of user memory, unmaps the rest of the address space, maps and fills the
segments and the new stack, and starts the program. The arguments pass through `argbuf[512]` on
the kernel stack; a store past its end is undefined.
-/

namespace Labs.Jos

open Prog

def elfMagic : Word := 0x464C457F
def elfProgLoad : Word := 1

/-- `struct Elf`: the fields `sys_exec` and `load_icode` use. -/
structure Elf where
  eMagic : Word
  eEntry : Word
  ePhoff : Word
  ePhnum : BitVec 16

/-- `struct Proghdr`: the fields `sys_exec` and `load_icode` use. -/
structure Proghdr where
  pType : Word
  pOffset : Word
  pVa : Word
  pFilesz : Word
  pMemsz : Word

/-- A `struct Elf` from its 52 bytes. -/
def decodeElf (bytes : List Byte) : Elf where
  eMagic := wordAt bytes 0
  eEntry := wordAt bytes 24
  ePhoff := wordAt bytes 28
  ePhnum := halfAt bytes 44

/-- The `struct Proghdr` at offset `off`. -/
def decodeProghdr (bytes : List Byte) (off : Nat) : Proghdr where
  pType := wordAt bytes off
  pOffset := wordAt bytes (off + 4)
  pVa := wordAt bytes (off + 8)
  pFilesz := wordAt bytes (off + 16)
  pMemsz := wordAt bytes (off + 20)

/-- The loadable segments, in the order of the program headers. -/
def loadSegments (phnum : Nat) (bytes : List Byte) : List Proghdr :=
  ((List.range phnum).map fun i => decodeProghdr bytes (32 * i)).filter (·.pType == elfProgLoad)

/-- The pages of the loop `for (start = ROUNDDOWN(va); start < end; start += PGSIZE)` with
`end = ROUNDUP(va + len)`: none if the end wraps around below the start. -/
def regionPages (va len : Word) : Nat :=
  ((roundup (va + len)).toNat - (rounddown va).toNat) / 4096

/-- The common body of `region_alloc` and `exec_region_alloc`; `who` begins the panic messages. -/
def allocRegion (who : String) (k : CpuId) (pgdir : Nat) (va len perm : Word) : Kern Unit :=
  forUpto (regionPages va len) fun i => do
    match ← pageAlloc true with
    | none => panic (who ++ ": page_alloc failed")
    | some pp =>
        let r ← pageInsert k pgdir pp (rounddown va + BitVec.ofNat 32 (i * pgsize)) perm
        if r < 0 then panic (who ++ ": page_insert failed: %e")

def execRegionAlloc (k : CpuId) (pgdir : Nat) (va len perm : Word) : Kern Unit :=
  allocRegion "exec_region_alloc" k pgdir va len perm

def execUnmapUser (k : CpuId) (pgdir : Nat) (keepLo keepHi : Word) : Kern Unit :=
  forUpto (pdx utop) fun pdeno => do
    let pde ← readWord pgdir pdeno
    if hasFlag pde pteP then
      let pt ← kaddr (pteAddr pde)
      forUpto nptentries fun pteno => do
        let w ← readWord pt pteno
        let va := pgaddr pdeno pteno
        if hasFlag w pteP && !(keepLo ≤ va && va < keepHi) && !hasFlag w pteShare then
          pageRemove k pgdir va

/-- The loop that measures the string at `str`: its length, or `none` when it exceeds
`limit`. -/
def execStrlen (k : CpuId) (c : EnvIx) (pgdir : Nat) (str limit : Word) :
    Nat → Word → Kern (Option Word)
  | 0, _ => Prog.exit .hang
  | fuel + 1, len => do
      userMemAssert k c (str + len) 1 pteU
      lcr3 k pgdir
      if (← loadByte k (str + len)) = 0 then pure (some len)
      else
        lcr3 k (← gets Kernel.kernPgdir)
        if limit ≤ len + 1 then pure none
        else execStrlen k c pgdir str limit fuel (len + 1)

/-- The bytes stored in `argbuf` for the arguments read so far. -/
def stringSize (args : List (List Byte)) : Nat := (args.map List.length).sum

/-- The argument loop: the arguments, each with its terminator, or the error. At most 33
iterations are made. -/
def execArgs (k : CpuId) (c : EnvIx) (pgdir : Nat) (argv : Word) :
    Nat → List (List Byte) → Kern (Except Int (List (List Byte)))
  | 0, _ => pure (.error (-eInval))
  | fuel + 1, args => do
      let slot := argv + BitVec.ofNat 32 (4 * args.length)
      userMemAssert k c slot 4 pteU
      lcr3 k pgdir
      let str := wordAt (← loadBytes k 4 slot) 0
      lcr3 k (← gets Kernel.kernPgdir)
      if str = 0 then pure (.ok args)
      else if 32 ≤ args.length then pure (.error (-eInval))
      else
        let size : Word := BitVec.ofNat 32 (stringSize args)
        match ← execStrlen k c pgdir str (512 - size - 1) (2 ^ 32) 0 with
        | none => pure (.error (-eNoMem))
        | some len =>
            let bytes ← loadBytes k (len.toNat + 1) str
            if 512 < stringSize args + bytes.length then Prog.exit .undefined
            else execArgs k c pgdir argv fuel (args ++ [bytes])

/-- Allocate the segments: `false` for a header with `p_memsz < p_filesz`. -/
def execAllocSegments (k : CpuId) (pgdir : Nat) : List Proghdr → Kern Bool
  | [] => pure true
  | ph :: rest => do
      if ph.pMemsz < ph.pFilesz then pure false
      else
        execRegionAlloc k pgdir ph.pVa ph.pMemsz (pteU ||| pteW ||| pteP)
        execAllocSegments k pgdir rest

theorem exec_alloc_segments_cons (k : CpuId) (pgdir : Nat) (ph : Proghdr) (rest : List Proghdr) :
    execAllocSegments k pgdir (ph :: rest) =
      (if ph.pMemsz < ph.pFilesz then pure false
      else do
        execRegionAlloc k pgdir ph.pVa ph.pMemsz (pteU ||| pteW ||| pteP)
        execAllocSegments k pgdir rest) := rfl

/-- `memmove` between user addresses: backwards if the ranges overlap that way. -/
def memmoveUser (k : CpuId) (dst src n : Word) : Kern Unit :=
  forUpto n.toNat fun j => do
    let i := if src < dst ∧ dst < src + n then n - 1 - BitVec.ofNat 32 j else BitVec.ofNat 32 j
    storeByte k (dst + i) (← loadByte k (src + i))

/-- Fill one segment from the staged image. -/
def execFillSegment (k : CpuId) (binary : Word) (ph : Proghdr) : Kern Unit := do
  memmoveUser k ph.pVa (binary + ph.pOffset) ph.pFilesz
  forUpto (ph.pMemsz - ph.pFilesz).toNat fun j =>
    storeByte k (ph.pVa + ph.pFilesz + BitVec.ofNat 32 j) 0

/-- Store the argument strings from `str` on and their addresses from `slot` on. -/
def execStoreArgs (k : CpuId) : List (List Byte) → Word → Word → Kern Unit
  | [], _, _ => pure ()
  | arg :: rest, slot, str => do
      storeBytes k (wordBytes str) slot
      storeBytes k arg str
      execStoreArgs k rest (slot + 4) (str + BitVec.ofNat 32 arg.length)

/-- The end of the staged image as `sys_exec` computes it from the loadable segments. -/
def stagingSize (segs : List Proghdr) : Word :=
  segs.foldl (fun sz ph => if sz < ph.pOffset + ph.pFilesz then ph.pOffset + ph.pFilesz else sz)
    pgsizeW

/-- `argv_store` for the given argument strings. -/
def argvStore (args : List (List Byte)) : Word :=
  let store := ustacktop - BitVec.ofNat 32 (stringSize args)
  store - store % 4 - BitVec.ofNat 32 (4 * (args.length + 1))

/-- Map the new stack and fill the segments and the stack, in the address space of the caller. -/
def execFill (k : CpuId) (pgdir : Nat) (binary : Word) (segs : List Proghdr)
    (args : List (List Byte)) : Kern Unit := do
  let argvp := argvStore args
  execRegionAlloc k pgdir (ustacktop - pgsizeW) pgsizeW (pteU ||| pteW ||| pteP)
  lcr3 k pgdir
  forEach segs (execFillSegment k binary)
  execStoreArgs k args argvp (ustacktop - BitVec.ofNat 32 (stringSize args))
  storeBytes k (wordBytes 0) (argvp + BitVec.ofNat 32 (4 * args.length))
  storeBytes k (wordBytes argvp) (argvp - 4)
  storeBytes k (wordBytes (BitVec.ofNat 32 args.length)) (argvp - 8)
  lcr3 k (← gets Kernel.kernPgdir)

/-- The part of `sys_exec` that replaces the address space, after all user arguments have been
read. -/
def execReplace (k : CpuId) (c : EnvIx) (pgdir : Nat) (binary : Word) (elf : Elf)
    (segs : List Proghdr) (args : List (List Byte)) : Kern Int := do
  let keepLo := rounddown binary
  execUnmapUser k pgdir keepLo (keepLo + roundup (stagingSize segs))
  if ← execAllocSegments k pgdir segs then
    if argvStore args - 8 < ustacktop - pgsizeW then pure (-eNoMem)
    else
      execFill k pgdir binary segs args
      modifyEnv c fun env => { env with envTf := { env.envTf with
        eip := elf.eEntry
        esp := argvStore args - 8
        eflags := env.envTf.eflags ||| flIf } }
      schedYield k
      pure 0
  else pure (-eInval)

def sysExec (k : CpuId) (c : EnvIx) (binary argv : Word) : Kern Int := do
  userMemAssert k c binary 52 pteU
  let pgdir ← deref (← gets fun s => (s.envs c).envPgdir)
  lcr3 k pgdir
  let elf := decodeElf (← loadBytes k 52 binary)
  let phnum := elf.ePhnum.toNat
  if 32 < phnum then panic "sys_exec: too many phdrs"
  else
    let segs := loadSegments phnum (← loadBytes k (32 * phnum) (binary + elf.ePhoff))
    match ← execArgs k c pgdir argv 33 [] with
    | .error r => pure r
    | .ok args =>
        if elf.eMagic ≠ elfMagic then pure (-eNotExec)
        else execReplace k c pgdir binary elf segs args

end Labs.Jos
