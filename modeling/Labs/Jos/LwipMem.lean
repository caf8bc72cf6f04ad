import Labs.Base.Bytes
import Labs.Base.Prog
import Labs.Base.Tiling
import Labs.Jos.Mmu

/-!
# The heap of lwIP

`net/lwip/core/mem.c` as `lwipopts.h` configures it. The heap is cut into cells that begin with a
`struct mem`; the headers are linked by offsets from `ram`, and `lfree` points to the lowest free
cell. The functions of this file are those of the source, over the bytes of memory.
-/

namespace Labs.Jos.LwipMem

open Prog

/-! ## The functions -/

/-- `MEM_SIZE_ALIGNED`. The size of the heap is a multiple of the alignment. -/
def memSizeAligned : Word := 2228224

/-- `SIZEOF_STRUCT_MEM`. -/
def sizeofStructMem : Word := 12

/-- `MIN_SIZE_ALIGNED`. -/
def minSizeAligned : Word := 12

/-- The size of the array `ram_heap`, with room for alignment and the last `struct mem`. -/
def ramHeapSize : Nat := 2228224 + 2 * 12 + 4

/-- `LWIP_MEM_ALIGN_SIZE` and `LWIP_MEM_ALIGN`. -/
def memAlign (w : Word) : Word := (w + 4 - 1) &&& ~~~(4 - 1)

/-- A `struct mem`. -/
structure Header where
  next : Word
  prev : Word
  used : Byte

/-- The memory of the server, and the variables of the allocator. -/
structure Heap where
  bytes : Bytes
  ram : Word
  ramEnd : Word
  lfree : Word
  memSem : Nat

/-- How a call can fail: an assertion, a semaphore that nobody signals, or a loop that is not over
after as many iterations as the heap has bytes. -/
inductive Halt where
  | assertion (message : String)
  | blocked
  | hang

abbrev Mem (α : Type) : Type := Prog Heap Halt α

namespace Heap

/-- The `struct mem` at the address `a`. -/
def header (h : Heap) (a : Nat) : Header :=
  ⟨h.bytes.load32 a, h.bytes.load32 (a + 4), h.bytes (a + 8)⟩

def next (h : Heap) (mem : Word) : Word := (h.header mem.toNat).next
def prev (h : Heap) (mem : Word) : Word := (h.header mem.toNat).prev
def used (h : Heap) (mem : Word) : Byte := (h.header mem.toNat).used

def setNext (h : Heap) (mem v : Word) : Heap :=
  { h with bytes := h.bytes.store32 mem.toNat v }

def setPrev (h : Heap) (mem v : Word) : Heap :=
  { h with bytes := h.bytes.store32 (mem.toNat + 4) v }

def setUsed (h : Heap) (mem : Word) (v : Byte) : Heap :=
  { h with bytes := Function.update h.bytes (mem.toNat + 8) v }

/-- `mem_init`, when the array has been aligned. -/
def init (h : Heap) (ram : Word) : Heap :=
  let h := { h with ram := ram }
  let h := h.setNext ram memSizeAligned
  let h := h.setPrev ram 0
  let h := h.setUsed ram 0
  let ramEnd := ram + memSizeAligned
  let h := { h with ramEnd := ramEnd }
  let h := h.setUsed ramEnd 1
  let h := h.setNext ramEnd memSizeAligned
  let h := h.setPrev ramEnd memSizeAligned
  { h with memSem := 1, lfree := ram }

/-- The first half of `plug_holes`: join with the next cell. -/
def plugForward (h : Heap) (mem : Word) : Heap :=
  let nmem := h.ram + h.next mem
  if mem ≠ nmem ∧ h.used nmem = 0 ∧ nmem ≠ h.ramEnd then
    let h := if h.lfree = nmem then { h with lfree := mem } else h
    let h := h.setNext mem (h.next nmem)
    h.setPrev (h.ram + h.next nmem) (mem - h.ram)
  else h

/-- The second half of `plug_holes`: join with the previous cell. -/
def plugBackward (h : Heap) (mem : Word) : Heap :=
  let pmem := h.ram + h.prev mem
  if pmem ≠ mem ∧ h.used pmem = 0 then
    let h := if h.lfree = mem then { h with lfree := pmem } else h
    let h := h.setNext pmem (h.next mem)
    h.setPrev (h.ram + h.next mem) (pmem - h.ram)
  else h

/-- A new cell at `ptr2` between the cell at `ptr` and the next one. -/
def insert (h : Heap) (ptr ptr2 : Word) : Heap :=
  let mem := h.ram + ptr
  let mem2 := h.ram + ptr2
  let h := h.setUsed mem2 0
  let h := h.setNext mem2 (h.next mem)
  let h := h.setPrev mem2 ptr
  h.setNext mem ptr2

/-- Link the cell behind the one at `ptr2` back to it, unless that is the last one. -/
def relink (h : Heap) (ptr2 : Word) : Heap :=
  let mem2 := h.ram + ptr2
  if h.next mem2 ≠ memSizeAligned then h.setPrev (h.ram + h.next mem2) ptr2 else h

/-- The free cell behind the one at `ptr` moves to `ptr2`. -/
def moveNext (h : Heap) (ptr ptr2 : Word) : Heap :=
  let mem := h.ram + ptr
  let mem2 := h.ram + h.next mem
  let next := h.next mem2
  let h := if h.lfree = mem2 then { h with lfree := h.ram + ptr2 } else h
  let mem2 := h.ram + ptr2
  let h := h.setUsed mem2 0
  let h := h.setNext mem2 next
  let h := h.setPrev mem2 ptr
  let h := h.setNext mem ptr2
  h.relink ptr2

/-- The block of the cell at `ptr` is made smaller: the free cell behind it grows, or a new one is
made if there is enough room. -/
def shrink (h : Heap) (ptr size newsize : Word) : Heap :=
  let ptr2 := ptr + sizeofStructMem + newsize
  if h.used (h.ram + h.next (h.ram + ptr)) = 0 then h.moveNext ptr ptr2
  else if newsize + sizeofStructMem + minSizeAligned ≤ size then
    let mem2 := h.ram + ptr2
    let h := if mem2 < h.lfree then { h with lfree := mem2 } else h
    let h := h.insert ptr ptr2
    h.relink ptr2
  else h

/-- The cell at `ptr` has room: it is used, and cut in two if it is large. -/
def mark (h : Heap) (size ptr : Word) : Heap :=
  let mem := h.ram + ptr
  if size + sizeofStructMem + minSizeAligned ≤ h.next mem - (ptr + sizeofStructMem) then
    let ptr2 := ptr + sizeofStructMem + size
    let h := h.insert ptr ptr2
    let h := h.setUsed mem 1
    h.relink ptr2
  else h.setUsed mem 1

end Heap

/-- `LWIP_ASSERT`. -/
def lwipAssert (message : String) (p : Prop) [Decidable p] : Mem Unit :=
  if p then pure () else Prog.exit (.assertion message)

/-- `sys_arch_sem_wait(mem_sem, 0)`. -/
def semWait : Mem Unit := do
  if (← gets Heap.memSem) = 0 then Prog.exit .blocked
  else modify fun h => { h with memSem := h.memSem - 1 }

/-- `sys_sem_signal(mem_sem)`. -/
def semSignal : Mem Unit := modify fun h => { h with memSem := h.memSem + 1 }

/-- `mem_init`, with the array `ram_heap` at the given address. -/
def memInit (ramHeap : Word) : Mem Unit := do
  lwipAssert "Sanity check alignment" (sizeofStructMem &&& (4 - 1) = 0)
  modify fun h => h.init (memAlign ramHeap)

def plugHoles (mem : Word) : Mem Unit := do
  let h ← get
  lwipAssert "plug_holes: mem >= ram" (h.ram ≤ mem)
  lwipAssert "plug_holes: mem < ram_end" (mem < h.ramEnd)
  lwipAssert "plug_holes: mem->used == 0" (h.used mem = 0)
  lwipAssert "plug_holes: mem->next <= MEM_SIZE_ALIGNED" (h.next mem ≤ memSizeAligned)
  modify fun h => h.plugForward mem
  modify fun h => h.plugBackward mem

def memFree (rmem : Word) : Mem Unit := do
  if rmem = 0 then pure ()
  else
    let h ← get
    lwipAssert "mem_free: sanity check alignment" (rmem &&& (4 - 1) = 0)
    lwipAssert "mem_free: legal memory" (h.ram ≤ rmem ∧ rmem < h.ramEnd)
    if rmem < h.ram ∨ h.ramEnd ≤ rmem then pure ()
    else
      semWait
      let mem := rmem - sizeofStructMem
      lwipAssert "mem_free: mem->used" (h.used mem ≠ 0)
      modify fun h => h.setUsed mem 0
      modify fun h => if mem < h.lfree then { h with lfree := mem } else h
      plugHoles mem
      semSignal

/-- `newsize` and `size` as `mem_realloc` and `mem_malloc` round them up. -/
def blockSize (size : Word) : Word :=
  if memAlign size < minSizeAligned then minSizeAligned else memAlign size

def memRealloc (rmem newsize : Word) : Mem Word := do
  let newsize := blockSize newsize
  if memSizeAligned < newsize then pure 0
  else
    let h ← get
    lwipAssert "mem_realloc: legal memory" (h.ram ≤ rmem ∧ rmem < h.ramEnd)
    if rmem < h.ram ∨ h.ramEnd ≤ rmem then pure rmem
    else
      let mem := rmem - sizeofStructMem
      let ptr := mem - h.ram
      let size := h.next mem - ptr - sizeofStructMem
      lwipAssert "mem_realloc can only shrink memory" (newsize ≤ size)
      if size < newsize then pure 0
      else if newsize = size then pure rmem
      else
        semWait
        modify fun h => h.shrink ptr size newsize
        semSignal
        pure rmem

/-- More iterations than there are cells. Irreducible, so that no proof unrolls a loop. -/
@[irreducible] def maxCells : Nat := 2228224

/-- The loop that moves `lfree` to the next free cell. -/
def lfreeLoop : Nat → Mem Unit
  | 0 => Prog.exit .hang
  | fuel + 1 => do
      let h ← get
      if h.used h.lfree ≠ 0 ∧ h.lfree ≠ h.ramEnd then
        modify fun h => { h with lfree := h.ram + h.next h.lfree }
        lfreeLoop fuel
      else pure ()

/-- When the lowest free cell has been taken, the next one is looked for. -/
def updateLfree (mem : Word) : Mem Unit := do
  if mem = (← gets Heap.lfree) then
    lfreeLoop maxCells
    let h ← get
    lwipAssert "mem_malloc: !lfree->used" (h.lfree = h.ramEnd ∨ h.used h.lfree = 0)

/-- The search of `mem_malloc` ends at the cell at `ptr`. -/
def takeCell (size ptr : Word) : Mem Word := do
  let h ← get
  let mem := h.ram + ptr
  modify fun h => h.mark size ptr
  updateLfree mem
  semSignal
  lwipAssert "mem_malloc: allocated memory not above ram_end."
    (mem + sizeofStructMem + size ≤ h.ramEnd)
  lwipAssert "mem_malloc: allocated memory properly aligned." ((mem + sizeofStructMem) % 4 = 0)
  lwipAssert "mem_malloc: sanity check alignment" (mem &&& (4 - 1) = 0)
  pure (mem + sizeofStructMem)

/-- The search of `mem_malloc` from `ptr` on. -/
def searchLoop (size : Word) : Nat → Word → Mem Word
  | 0, _ => Prog.exit .hang
  | fuel + 1, ptr => do
      let h ← get
      if ptr < memSizeAligned - size then
        let mem := h.ram + ptr
        if h.used mem = 0 ∧ size ≤ h.next mem - (ptr + sizeofStructMem) then takeCell size ptr
        else searchLoop size fuel (h.next mem)
      else
        semSignal
        pure 0

def memMalloc (size : Word) : Mem Word := do
  if size = 0 then pure 0
  else
    let size := blockSize size
    if memSizeAligned < size then pure 0
    else
      semWait
      let h ← get
      searchLoop size maxCells (h.lfree - h.ram)

def memCalloc (count size : Word) : Mem Word := do
  let p ← memMalloc (count * size)
  if p ≠ 0 then modify fun h => { h with bytes := h.bytes.fill p.toNat (count * size).toNat 0 }
  pure p

end Labs.Jos.LwipMem
