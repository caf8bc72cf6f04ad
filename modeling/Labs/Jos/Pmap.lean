import Labs.Jos.State

/-!
# Physical pages and page tables

The functions of `kern/pmap.c` that hand out physical pages, count references to them and edit
two-level page tables. A pointer to a page table entry is the page that holds the entry and the
entry's index; a kernel virtual address of a page is the page's number.
-/

namespace Labs.Jos

open Prog

def eBadEnv : Int := 2
def eInval : Int := 3
def eNoMem : Int := 4
def eNoFreeEnv : Int := 5
def eFault : Int := 6
def eIpcNotRecv : Int := 7
def eNotExec : Int := 14
def eTxFull : Int := 16
def ePktTooLarge : Int := 17
def eRxEmpty : Int := 18

/-- `page_init` leaves page `i` off the free list. -/
def reservedPage (npages npagesBasemem nextfree i : Nat) : Bool :=
  npages ≤ i || i == 0 || (npagesBasemem ≤ i && i < iophysmem / pgsize) ||
    (iophysmem / pgsize ≤ i && i < extphysmem / pgsize) || i == mpentryPaddr / pgsize ||
    (extphysmem / pgsize ≤ i && i < nextfree)

/-- The pages that `page_init` reserves. -/
def Kernel.reserved (s : Kernel) (i : Nat) : Bool :=
  reservedPage s.npages s.npagesBasemem s.nextfree i

/-- A `pte_t *`: the page table and the index of the entry. -/
structure PteRef where
  table : Nat
  index : Nat
  deriving DecidableEq

/-- `KADDR`, as a page number. -/
def kaddr (pa : Word) : Kern Nat := do
  if (← gets Kernel.npages) ≤ pgnum pa then panic "KADDR called with invalid pa %08lx"
  else pure (pgnum pa)

def pa2page (pa : Word) : Kern Nat := do
  if (← gets Kernel.npages) ≤ pgnum pa then panic "pa2page called with invalid pa"
  else pure (pgnum pa)

/-- `memset(page2kva(pp), 0, PGSIZE)`. -/
def zeroPage (pp : Nat) : Kern Unit := do
  let kva ← kaddr (page2pa pp)
  modify fun s => s.setPageWords kva fun _ => 0

/-- `page_alloc`, with `ALLOC_ZERO` given as `zero`. -/
def pageAlloc (zero : Bool) : Kern (Option Nat) := do
  match ← gets Kernel.pageFreeList with
  | none => pure none
  | some pp =>
      modify fun s => { s with pageFreeList := (s.pages pp).ppLink }
      modifyPage pp fun _ => { ppLink := none, ppRef := 0 }
      if zero then zeroPage pp
      pure (some pp)

def pageFree (pp : Nat) : Kern Unit := do
  if (← gets fun s => (s.pages pp).ppRef) ≠ 0 then panic "page_free: pp->pp_ref is nonzero"
  else
    let head ← gets Kernel.pageFreeList
    modifyPage pp fun info => { info with ppLink := head }
    modify fun s => { s with pageFreeList := some pp, pageFrees := pp :: s.pageFrees }

def pageDecref (pp : Nat) : Kern Unit := do
  modifyPage pp fun info => { info with ppRef := info.ppRef - 1 }
  if (← gets fun s => (s.pages pp).ppRef) = 0 then pageFree pp

/-- Allocate the page table that the directory entry for `va` lacks. -/
def newPageTable (pgdir : Nat) (va : Word) : Kern Bool := do
  match ← pageAlloc true with
  | none => pure false
  | some pp =>
      modifyPage pp fun info => { info with ppRef := info.ppRef + 1 }
      writeWord pgdir (pdx va) (mkPde pp)
      pure true

/-- The first half of `pgdir_walk`: is there a page table for `va`, after creating one if asked
to? -/
def haveTable (pgdir : Nat) (va : Word) (create : Bool) : Kern Bool := do
  if hasFlag (← readWord pgdir (pdx va)) pteP then pure true
  else if create then newPageTable pgdir va
  else pure false

def pgdirWalk (pgdir : Nat) (va : Word) (create : Bool) : Kern (Option PteRef) := do
  if ← haveTable pgdir va create then
    let pt ← kaddr (pteAddr (← readWord pgdir (pdx va)))
    pure (some ⟨pt, ptx va⟩)
  else pure none

/-- `tlb_invalidate`: flush the entry only if we are modifying the current address space. -/
def tlbInvalidate (k : CpuId) (pgdir : Nat) (va : Word) : Kern Unit := do
  let s ← get
  match (s.cpus k).cpuEnv with
  | none => invlpg k va
  | some c => if (s.envs c).envPgdir = some pgdir then invlpg k va

def pageLookup (pgdir : Nat) (va : Word) : Kern (Option (Nat × PteRef)) := do
  match ← pgdirWalk pgdir va false with
  | none => pure none
  | some pte =>
      let w ← readWord pte.table pte.index
      if hasFlag w pteP then
        let pp ← pa2page (pteAddr w)
        pure (some (pp, pte))
      else pure none

def pageRemove (k : CpuId) (pgdir : Nat) (va : Word) : Kern Unit := do
  match ← pageLookup pgdir va with
  | none => pure ()
  | some (pp, pte) =>
      writeWord pte.table pte.index 0
      tlbInvalidate k pgdir va
      pageDecref pp

/-- The part of `page_insert` after an earlier page at `va` has been removed. -/
def pageInsertNew (k : CpuId) (pgdir pp : Nat) (va perm : Word) (pte : PteRef) : Kern Int := do
  modifyPage pp fun info => { info with ppRef := info.ppRef + 1 }
  writeWord pte.table pte.index (mkPte pp perm)
  tlbInvalidate k pgdir va
  pure 0

def pageInsert (k : CpuId) (pgdir pp : Nat) (va perm : Word) : Kern Int := do
  match ← pgdirWalk pgdir va true with
  | none => pure (-eNoMem)
  | some pte =>
      let w ← readWord pte.table pte.index
      if hasFlag w pteP then
        if pteAddr w = page2pa pp then
          writeWord pte.table pte.index (mkPte pp perm)
          tlbInvalidate k pgdir va
          pure 0
        else
          pageRemove k pgdir va
          pageInsertNew k pgdir pp va perm pte
      else pageInsertNew k pgdir pp va perm pte

/-- The number of iterations of `for (i = 0; i < size; i += PGSIZE)`. -/
def pageCount (size : Word) : Nat := (size.toNat + 4095) / 4096

/-- `boot_map_region`: in iteration `j` the loop variable `i` is `j * PGSIZE`. For a size above
the last page boundary `i` wraps around and the loop does not end. -/
def bootMapRegion (pgdir : Nat) (va size pa perm : Word) : Kern Unit := do
  forUpto (pageCount size) fun j => do
    let i : Word := BitVec.ofNat 32 (j * pgsize)
    match ← pgdirWalk pgdir (va + i) true with
    | none => panic "boot_map_region: pgdir_walk failed"
    | some pte => writeWord pte.table pte.index ((pa + i) ||| perm ||| pteP)
  if (0xFFFFF000 : Word) < size then Prog.exit .hang

/-- `mmio_map_region`, with its static `base` as a field of the state. -/
def mmioMapRegion (pa size : Word) : Kern Word := do
  let s ← get
  if mmiolim ≤ s.mmioBase + roundup size ∨ s.mmioBase + roundup size < s.mmioBase then
    panic "mmio_map_region: out of MMIO space"
  else
    bootMapRegion s.kernPgdir s.mmioBase (roundup size) pa (pteW ||| ptePcd ||| ptePwt)
    modify fun t => { t with mmioBase := s.mmioBase + roundup size }
    pure s.mmioBase

end Labs.Jos
