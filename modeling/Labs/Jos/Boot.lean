import Labs.Jos.System

/-!
# Booting

`mem_init`, `env_init`, `env_create` and the order in which `i386_init` calls them. The self-checks
of `mem_init` are left out except for what they leave behind: the order of the free list, which
is any permutation of what `page_init` builds, and the three reserved MMIO pages. The kernel
image, the page tables of the boot loader and the firmware's tables appear only as the page
numbers they occupy.
-/

namespace Labs.Jos

open Prog

/-- `sizeof(struct PageInfo)` and `sizeof(struct Env)`. -/
def sizeofPageInfo : Nat := 8
def sizeofEnv : Nat := 124

/-- The pages of a boot-time allocation of `n` bytes. -/
def bootPages (n : Nat) : Nat := (n + 4095) / 4096

/-- The page after the kernel image and the three boot-time allocations. -/
def bootNextfree (npages kernEnd : Nat) : Nat :=
  kernEnd + bootPages pgsize + bootPages (npages * sizeofPageInfo) + bootPages (nenv * sizeofEnv)

/-- An ELF image linked into the kernel. -/
structure Image where
  bytes : List Byte

/-- The header of an image. -/
def Image.elf (img : Image) : Elf := decodeElf img.bytes

/-- The loadable segments of an image. -/
def Image.segs (img : Image) : List Proghdr :=
  ((List.range img.elf.ePhnum.toNat).map fun i =>
    decodeProghdr img.bytes (img.elf.ePhoff.toNat + 32 * i)).filter (·.pType == elfProgLoad)

/-- What the kernel finds at power-on and what it is linked with. The firmware reports at most
65535 KB of extended memory, the kernel image begins at 1 MB, and the user programs linked into
it lie below `UTOP`. -/
structure Boot where
  npages : Nat
  npagesBasemem : Nat
  kernEnd : Nat
  ram : Nat → Nat → Word
  bootstack : Nat
  percpuKstacks : CpuId → Nat
  mmio : List (Word × Word)
  images : List (Image × EnvType)
  freeOrder : List Nat
  npages_le : npages ≤ 16639
  kern_end_gt : 256 < kernEnd
  free_order_perm : freeOrder.Perm ((List.range npages).filter fun i =>
    !reservedPage npages npagesBasemem (bootNextfree npages kernEnd) i)
  images_low : ∀ img ∈ images, ∀ ph ∈ img.1.segs, ph.pVa.toNat + ph.pMemsz.toNat ≤ utop.toNat

/-- The machine before `mem_init`. -/
def Boot.power (b : Boot) : Kernel where
  npages := b.npages
  npagesBasemem := b.npagesBasemem
  nextfree := b.kernEnd
  pages := fun _ => {}
  pageFreeList := none
  mem := b.ram
  kernPgdir := 0
  mmioBase := mmiobase
  envs := fun _ => {}
  envFreeList := none
  cpus := fun _ => { cr3 := 0, cpuStatus := .started }
  kernelLock := none
  panicstr := none
  ticks := 0
  userMemCheckAddr := 0
  e1000 := {}
  consIn := []
  consOut := []
  accesses := []
  frees := []
  pageFrees := []

/-! ## Memory -/

/-- `boot_alloc(n)` for `n > 0`: the first page of the allocation. -/
def bootAlloc (n : Nat) : Kern Nat := do
  let s ← get
  if s.npages < s.nextfree + bootPages n then panic "boot_alloc: out of memory"
  else
    modify fun s => { s with nextfree := s.nextfree + bootPages n }
    pure s.nextfree

def pageInit : Kern Unit := do
  modify fun s => { s with pageFreeList := none }
  forUpto (← gets Kernel.npages) fun i => do
    let s ← get
    if !s.reserved i then
      modifyPage i fun _ => { ppRef := 0, ppLink := s.pageFreeList }
      modify fun s => { s with pageFreeList := some i }

/-- The self-checks leave the free list with the same pages in another order. -/
def relinkFreeList (order : List Nat) : Kern Unit := do
  modify fun s => { s with pageFreeList := none }
  forEach order.reverse fun i => do
    let head ← gets Kernel.pageFreeList
    modifyPage i fun info => { info with ppLink := head }
    modify fun s => { s with pageFreeList := some i }

/-- Clear the mapping of `va` in the kernel's page tables, as `check_page` does. -/
def clearKernPte (va : Word) : Kern Unit := do
  match ← pgdirWalk (← gets Kernel.kernPgdir) va false with
  | none => pure ()
  | some pte => writeWord pte.table pte.index 0

/-- The MMIO test of `check_page`. -/
def checkPageMmio : Kern Unit := do
  let mm1 ← mmioMapRegion 0 4097
  let mm2 ← mmioMapRegion 0 4096
  clearKernPte mm1
  clearKernPte (mm1 + pgsizeW)
  clearKernPte mm2

/-- `NCPU`. -/
def ncpuMax : Nat := 8

def memInitMp (b : Boot) (kernPgdir : Nat) : Kern Unit :=
  forUpto ncpuMax fun i => do
    let kstacktopI : Word := kstacktop - BitVec.ofNat 32 i * (kstksize + kstkgap)
    bootMapRegion kernPgdir (kstacktopI - kstksize) kstksize (page2pa (b.percpuKstacks i)) pteW

def memInit (b : Boot) : Kern Unit := do
  let kernPgdir ← bootAlloc pgsize
  modify fun s => { s.setPageWords kernPgdir (fun _ => 0) with kernPgdir := kernPgdir }
  writeWord kernPgdir (pdx uvpt) (page2pa kernPgdir ||| pteU ||| pteP)
  let pages ← bootAlloc (b.npages * sizeofPageInfo)
  let envs ← bootAlloc (nenv * sizeofEnv)
  pageInit
  relinkFreeList b.freeOrder
  checkPageMmio
  bootMapRegion kernPgdir upages (roundup (BitVec.ofNat 32 (b.npages * sizeofPageInfo)))
    (page2pa pages) (pteU ||| pteP)
  bootMapRegion kernPgdir uenvs (roundup (BitVec.ofNat 32 (nenv * sizeofEnv))) (page2pa envs)
    (pteU ||| pteP)
  bootMapRegion kernPgdir (kstacktop - kstksize) kstksize (page2pa b.bootstack) pteW
  bootMapRegion kernPgdir kernbase (0xFFFFFFFF - kernbase) 0 pteW
  memInitMp b kernPgdir
  -- every CPU loads `kern_pgdir`: the boot CPU here, the others at the start of `mp_main`
  modify fun s => { s with cpus := fun k =>
    { s.cpus k with cr3 := kernPgdir, tlb := fun _ _ => False } }

/-! ## Environments -/

def envInit : Kern Unit :=
  forUpto nenv fun j => do
    let i : EnvIx := ⟨(1023 - j) % 1024, Nat.mod_lt _ (by decide)⟩
    let head ← gets Kernel.envFreeList
    modifyEnv i fun env => { env with envId := 0, envStatus := .free, envLink := head }
    modify fun s => { s with envFreeList := some i }

def regionAlloc (k : CpuId) (pgdir : Nat) (va len : Word) : Kern Unit :=
  allocRegion "region_alloc" k pgdir va len (pteU ||| pteW)

/-- Load one segment of an image. -/
def loadSegment (k : CpuId) (pgdir : Nat) (img : Image) (ph : Proghdr) : Kern Unit := do
  if ph.pMemsz < ph.pFilesz then panic "load_icode: p_memsz < p_filesz"
  else if ph.pVa + ph.pMemsz < ph.pVa then panic "load_icode: address space overflow"
  else
    regionAlloc k pgdir ph.pVa ph.pMemsz
    storeBytes k (List.replicate ph.pMemsz.toNat 0) ph.pVa
    storeBytes k ((List.range ph.pFilesz.toNat).map fun i =>
      img.bytes.getD (ph.pOffset.toNat + i) 0) ph.pVa

def loadIcode (k : CpuId) (e : EnvIx) (img : Image) : Kern Unit := do
  if img.elf.eMagic ≠ elfMagic then panic "load_icode: not an ELF executable"
  else
    let pgdir ← deref (← gets fun s => (s.envs e).envPgdir)
    lcr3 k pgdir
    forEach img.segs (loadSegment k pgdir img)
    modifyEnv e fun env => { env with envTf := { env.envTf with eip := img.elf.eEntry } }
    regionAlloc k pgdir (ustacktop - pgsizeW) pgsizeW

def envCreate (k : CpuId) (img : Image) (type : EnvType) : Kern Unit := do
  match ← envAlloc 0 with
  | .error _ => panic "env_create: env_alloc failed"
  | .ok e =>
      loadIcode k e img
      modifyEnv e fun env => { env with envType := type }
      if type = .fs then
        modifyEnv e fun env => { env with envTf := { env.envTf with
          eflags := env.envTf.eflags ||| flIopl3 } }

/-- `i386_init` up to its call of `sched_yield`, on the boot CPU 0. -/
def i386Init (b : Boot) : Kern Unit := do
  memInit b
  envInit
  forEach b.mmio fun r => do
    let _ ← mmioMapRegion r.1 r.2
  lockKernel 0
  forEach b.images fun img => envCreate 0 img.1 img.2

/-- The boot of `b` succeeds and leaves the state `s`. -/
def Boot.leaves (b : Boot) (s : Kernel) : Prop := i386Init b b.power = .ret () s

end Labs.Jos
