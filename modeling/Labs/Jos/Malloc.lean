import Labs.Base.Bump
import Labs.Base.Prog
import Labs.Jos.Syscall

/-!
# `malloc` and `free`

The user-level allocator of `lib/malloc.c`. It asks for pages with `sys_page_alloc` at addresses
between `mbegin` and `mend`, cuts blocks off at `mptr`, and counts the users of the last page of
each run in the last word of the page. The pages of a run before the last have `PTE_CONTINUED`
set in their page table entries.
-/

namespace Labs.Jos.Malloc

open Prog

def maxmalloc : Word := 0x100000
def pteContinued : Word := 0x400
def mbegin : Word := 0x08000000
def mend : Word := 0x10000000

/-- `ROUNDUP(n, 4)`. -/
def roundup4 (n : Word) : Word := (n + 4 - 1) - (n + 4 - 1) % 4

/-- The address space of the program that allocates, and `mptr`. `table` says which page tables
are there, and `pte` gives the flags of the entries of `uvpt`. `mem` gives the words of memory by
address over four. -/
structure Heap where
  mptr : Word
  table : Nat → Bool
  pte : Nat → Word
  mem : Nat → Word

/-- How the program can fail: an access to an address that is not mapped, an assertion, or a loop
that is not over after more iterations than the address space has pages. -/
inductive Crash where
  | fault (va : Word)
  | assertion
  | hang
  deriving DecidableEq

/-- The page at `va` is mapped, as `uvpd` and `uvpt` tell. -/
def Heap.mapped (h : Heap) (va : Word) : Bool :=
  h.table (pdx va) && hasFlag (h.pte (pgnum va)) pteP

/-- Map a new page of zeros at `va`. A page table that was not there is empty. -/
def Heap.map (h : Heap) (va perm : Word) : Heap :=
  { h with
    table := Function.update h.table (pdx va) true
    pte := fun p =>
      if p = pgnum va then perm ||| pteP
      else if p / 1024 = pdx va ∧ h.table (pdx va) = false then 0
      else h.pte p
    mem := fun a => if a / 1024 = pgnum va then 0 else h.mem a }

/-- Unmap the page at `va`. -/
def Heap.unmap (h : Heap) (va : Word) : Heap :=
  if h.mapped va then { h with pte := Function.update h.pte (pgnum va) 0 } else h

/-- A program that uses the heap. -/
abbrev Alloc (α : Type) : Type := Prog Heap Crash α

/-- `sys_page_alloc(0, va, perm)`. `avail` says whether the kernel has the memory. -/
def sysPageAlloc (avail : Bool) (va perm : Word) : Alloc Bool := do
  if utop ≤ va ∨ va % pgsizeW ≠ 0 ∨ badPerm perm ∨ !avail then pure false
  else
    modify fun h => h.map va perm
    pure true

/-- `sys_page_unmap(0, va)`. -/
def sysPageUnmap (va : Word) : Alloc Unit :=
  if utop ≤ va ∨ va % pgsizeW ≠ 0 then pure () else modify fun h => h.unmap va

/-- `uvpt[PGNUM(va)]`. -/
def uvptEntry (va : Word) : Alloc Word := do
  if (← gets fun h => h.table (pdx va)) then gets fun h => h.pte (pgnum va)
  else Prog.exit (.fault va)

/-- Load the word at the aligned address `va`. -/
def loadWord (va : Word) : Alloc Word := do
  let h ← get
  if h.mapped va && hasFlag (h.pte (pgnum va)) pteU then pure (h.mem (va.toNat / 4))
  else Prog.exit (.fault va)

/-- Store a word at the aligned address `va`. -/
def storeWord (va w : Word) : Alloc Unit := do
  let h ← get
  if h.mapped va && hasFlag (h.pte (pgnum va)) pteU && hasFlag (h.pte (pgnum va)) pteW then
    modify fun h => { h with mem := Function.update h.mem (va.toNat / 4) w }
  else Prog.exit (.fault va)

/-- The loop of `isfree` from `va` on. It ends at `mend` at the latest. -/
def isfreeLoop (stop : Word) : Nat → Word → Alloc Bool
  | 0, _ => Prog.exit .hang
  | fuel + 1, va => do
      if va < stop then
        if mend ≤ va ∨ (← get).mapped va then pure false
        else isfreeLoop stop fuel (va + pgsizeW)
      else pure true

def isfree (v n : Word) : Alloc Bool := isfreeLoop (v + n) 65537 v

/-- The loop of `free` from page `c` on. It ends at `mend` at the latest. -/
def freeLoop : Nat → Word → Alloc Word
  | 0, _ => Prog.exit .hang
  | fuel + 1, c => do
      if hasFlag (← uvptEntry c) pteContinued then
        sysPageUnmap c
        let c := c + pgsizeW
        if mbegin ≤ c ∧ c < mend then freeLoop fuel c else Prog.exit .assertion
      else pure c

def free (v : Word) : Alloc Unit := do
  if v = 0 then pure ()
  else if ¬ (mbegin ≤ v ∧ v < mend) then Prog.exit .assertion
  else
    let c ← freeLoop 32769 (rounddown v)
    let ref := c + pgsizeW - 4
    storeWord ref ((← loadWord ref) - 1)
    if (← loadWord ref) = 0 then sysPageUnmap c

/-- The search of `malloc` for `n` bytes and a count, after `nwrap` laps. From any page it comes
to `mend` twice within `2 ^ 21` pages. -/
def searchLoop (n : Word) : Nat → Nat → Alloc Bool
  | 0, _ => Prog.exit .hang
  | fuel + 1, nwrap => do
      if ← isfree (← gets Heap.mptr) (n + 4) then pure true
      else
        modify fun h => { h with mptr := h.mptr + pgsizeW }
        if (← gets Heap.mptr) = mend then
          modify fun h => { h with mptr := mbegin }
          if nwrap + 1 = 2 then pure false else searchLoop n fuel (nwrap + 1)
        else searchLoop n fuel nwrap

theorem search_loop_succ (n : Word) (fuel nwrap : Nat) :
    searchLoop n (fuel + 1) nwrap = (do
      if ← isfree (← gets Heap.mptr) (n + 4) then pure true
      else
        modify fun h => { h with mptr := h.mptr + pgsizeW }
        if (← gets Heap.mptr) = mend then
          modify fun h => { h with mptr := mbegin }
          if nwrap + 1 = 2 then pure false else searchLoop n fuel (nwrap + 1)
        else searchLoop n fuel nwrap) := rfl

/-- The offset of page `j` of a run. -/
def runOffset (j : Nat) : Word := BitVec.ofNat 32 (j * 4096)

/-- Unmap page `j` of the run at `p` and those before it. -/
def unmapLoop (p : Word) : Nat → Alloc Unit
  | 0 => sysPageUnmap p
  | j + 1 => do
      sysPageUnmap (p + runOffset (j + 1))
      unmapLoop p j

theorem unmap_loop_succ (p : Word) (j : Nat) :
    unmapLoop p (j + 1) = (do
      sysPageUnmap (p + runOffset (j + 1))
      unmapLoop p j) := rfl

/-- The loop of `malloc` that maps the pages for `n` bytes and a count, from page `j` on. It returns
the length of the run, or gives up. `avail j` says whether the kernel has the memory for page `j`. -/
def allocLoop (avail : Nat → Bool) (n : Word) : Nat → Nat → Alloc (Option Word)
  | 0, _ => Prog.exit .hang
  | fuel + 1, j => do
      let i := runOffset j
      if i < n + 4 then
        let cont := if i + pgsizeW < n + 4 then pteContinued else 0
        let p ← gets Heap.mptr
        if ← sysPageAlloc (avail j) (p + i) (pteP ||| pteU ||| pteW ||| cont) then
          allocLoop avail n fuel (j + 1)
        else
          unmapLoop p j
          pure none
      else pure (some i)

theorem alloc_loop_succ (avail : Nat → Bool) (n : Word) (fuel j : Nat) :
    allocLoop avail n (fuel + 1) j = (do
      let i := runOffset j
      if i < n + 4 then
        let cont := if i + pgsizeW < n + 4 then pteContinued else 0
        let p ← gets Heap.mptr
        if ← sysPageAlloc (avail j) (p + i) (pteP ||| pteU ||| pteW ||| cont) then
          allocLoop avail n fuel (j + 1)
        else
          unmapLoop p j
          pure none
      else pure (some i)) := rfl

/-- The part of `malloc` that opens a run of pages, for `n` bytes after rounding. -/
def mallocRun (avail : Nat → Bool) (n : Word) : Alloc Word := do
  if ← searchLoop n 2097152 0 then
    match ← allocLoop avail n 257 0 with
    | none => pure 0
    | some i =>
        let p ← gets Heap.mptr
        storeWord (p + i - 4) 2
        modify fun h => { h with mptr := p + n }
        pure p
  else pure 0

/-- `malloc` for `n` bytes after rounding, once `mptr` is set. -/
def mallocRounded (avail : Nat → Bool) (n : Word) : Alloc Word := do
  if maxmalloc ≤ n then pure 0
  else
    let p ← gets Heap.mptr
    if p % pgsizeW ≠ 0 then
      let ref := roundup p - 4
      if p / pgsizeW = (p + n - 1 + 4) / pgsizeW then
        storeWord ref ((← loadWord ref) + 1)
        modify fun h => { h with mptr := p + n }
        pure p
      else
        free p
        modify fun h => { h with mptr := rounddown (p + pgsizeW) }
        mallocRun avail n
    else mallocRun avail n

def malloc (avail : Nat → Bool) (n : Word) : Alloc Word := do
  if (← gets Heap.mptr) = 0 then modify fun h => { h with mptr := mbegin }
  mallocRounded avail (roundup4 n)

end Labs.Jos.Malloc
