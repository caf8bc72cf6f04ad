import Labs.Jos.Env

/-!
# Kernel access to user memory

`user_mem_check` and `user_mem_assert`, and the loads and stores the kernel makes through user
virtual addresses. Such an access goes through the page tables in the CPU's directory register;
with `CR0_WP` set, a store also needs the writable bit at both levels. An access the tables
refuse is a page fault in kernel mode: `trap` runs again on the same CPU, with the lock held,
and `page_fault_handler` destroys the current environment.
-/

namespace Labs.Jos

open Prog

/-- The loop of `user_mem_check` from `addr` on. After `2 ^ 20` pages it is back where it
started. -/
def userMemCheckLoop (pgdir : Nat) (stop perm : Word) : Nat → Word → Kern Bool
  | 0, _ => Prog.exit .hang
  | fuel + 1, addr => do
      if addr < stop then
        match ← pgdirWalk pgdir addr false with
        | none => pure false
        | some pte =>
            let w ← readWord pte.table pte.index
            if hasFlag w pteP && w &&& perm == perm then
              userMemCheckLoop pgdir stop perm fuel (addr + pgsizeW)
            else pure false
      else pure true

def userMemCheck (env : EnvIx) (va len perm : Word) : Kern Int := do
  let stop := va + len
  if ulim ≤ va ∨ stop ≤ va then
    modify fun s => { s with userMemCheckAddr := va }
    pure (-eFault)
  else
    let pgdir ← deref (← gets fun s => (s.envs env).envPgdir)
    if ← userMemCheckLoop pgdir stop perm 1048577 (rounddown va) then pure 0
    else
      modify fun s => { s with userMemCheckAddr := va }
      pure (-eFault)

def userMemAssert (k : CpuId) (env : EnvIx) (va len perm : Word) : Kern Unit := do
  if (← userMemCheck env va len (perm ||| pteU)) < 0 then envDestroy k env

/-- The end of `trap`: return to the current environment if doing so makes sense. -/
def trapReturn (k : CpuId) : Kern Unit := do
  let s ← get
  match (s.cpus k).cpuEnv with
  | some c => if (s.envs c).envStatus = .running then envRun k c else schedYield k
  | none => schedYield k

/-- A page fault in kernel mode: the branch of `page_fault_handler` for `(tf_cs & 3) == 0`. -/
def kernelPageFault {α : Type} (k : CpuId) (va : Word) : Kern α := do
  if ulim ≤ va then panic "page fault in kernel at %08x\n"
  else
    envDestroy k (← deref (← curenv k))
    trapReturn k
    Prog.exit .undefined

/-! ## Bytes of words -/

/-- Byte `i` of a little-endian word. -/
def byteOf (w : Word) (i : Nat) : Byte := (w >>> (8 * i)).setWidth 8

/-- Replace byte `i` of a little-endian word. -/
def setByteOf (w : Word) (i : Nat) (b : Byte) : Word :=
  (w &&& ~~~((0xFF#32) <<< (8 * i))) ||| (b.setWidth 32 <<< (8 * i))

/-- The four bytes of a word. -/
def wordBytes (w : Word) : List Byte := [byteOf w 0, byteOf w 1, byteOf w 2, byteOf w 3]

/-- The little-endian word at offset `off` of a byte string. -/
def wordAt (bytes : List Byte) (off : Nat) : Word :=
  let b := fun i => (bytes.getD (off + i) 0).setWidth 32
  b 0 ||| b 1 <<< 8 ||| b 2 <<< 16 ||| b 3 <<< 24

/-- The little-endian 16-bit value at offset `off` of a byte string. -/
def halfAt (bytes : List Byte) (off : Nat) : BitVec 16 :=
  (bytes.getD off 0).setWidth 16 ||| (bytes.getD (off + 1) 0).setWidth 16 <<< 8

/-! ## Loads and stores -/

/-- The byte of physical memory at offset `off` of page `p`. -/
def Kernel.physByte (s : Kernel) (p off : Nat) : Byte := byteOf (s.mem p (off / 4)) (off % 4)

/-- Store a byte at offset `off` of physical page `p`. -/
def Kernel.setPhysByte (s : Kernel) (p off : Nat) (b : Byte) : Kernel :=
  s.setWord p (off / 4) (setByteOf (s.mem p (off / 4)) (off % 4) b)

/-- Record an access the kernel made through a user-supplied address. -/
def logAccess (store : Bool) (va : Word) : Kern Unit :=
  modify fun s => { s with accesses := ⟨store, va⟩ :: s.accesses }

def loadByte (k : CpuId) (va : Word) : Kern Byte := do
  let s ← get
  match walk s.mem (s.cpus k).cr3 (pgnum va) with
  | none => kernelPageFault k va
  | some x =>
      logAccess false va
      pure (s.physByte x.page (pgoff va))

def storeByte (k : CpuId) (va : Word) (b : Byte) : Kern Unit := do
  let s ← get
  match walk s.mem (s.cpus k).cr3 (pgnum va) with
  | none => kernelPageFault k va
  | some x =>
      if x.writable then
        logAccess true va
        modify fun s => s.setPhysByte x.page (pgoff va) b
      else kernelPageFault k va

/-- Load `n` bytes from `va` on. -/
def loadBytes (k : CpuId) : Nat → Word → Kern (List Byte)
  | 0, _ => pure []
  | n + 1, va => do
      let b ← loadByte k va
      let rest ← loadBytes k n (va + 1)
      pure (b :: rest)

/-- Store a byte string from `va` on. -/
def storeBytes (k : CpuId) : List Byte → Word → Kern Unit
  | [], _ => pure ()
  | b :: rest, va => do
      storeByte k va b
      storeBytes k rest (va + 1)

/-- The byte at `va` in the address space loaded on CPU `k`. -/
def Kernel.userByte (s : Kernel) (k : CpuId) (va : Word) : Option Byte :=
  (walk s.mem (s.cpus k).cr3 (pgnum va)).map fun x => s.physByte x.page (pgoff va)

/-- The `n` bytes from `va` on in the address space loaded on CPU `k`, if all are mapped. -/
def Kernel.userBytes (s : Kernel) (k : CpuId) : Nat → Word → Option (List Byte)
  | 0, _ => some []
  | n + 1, va => do
      let b ← s.userByte k va
      let rest ← s.userBytes k n (va + 1)
      some (b :: rest)

/-- A `struct Trapframe` from its 68 bytes. -/
def decodeTrapframe (bytes : List Byte) : Trapframe where
  regs :=
    { edi := wordAt bytes 0, esi := wordAt bytes 4, ebp := wordAt bytes 8,
      oesp := wordAt bytes 12, ebx := wordAt bytes 16, edx := wordAt bytes 20,
      ecx := wordAt bytes 24, eax := wordAt bytes 28 }
  es := halfAt bytes 32
  ds := halfAt bytes 36
  trapno := wordAt bytes 40
  err := wordAt bytes 44
  eip := wordAt bytes 48
  cs := halfAt bytes 52
  eflags := wordAt bytes 56
  esp := wordAt bytes 60
  ss := halfAt bytes 64

/-- The 52 bytes of the `struct UTrapframe` for a fault at `faultVa`. -/
def encodeUTrapframe (faultVa : Word) (tf : Trapframe) : List Byte :=
  [faultVa, tf.err, tf.regs.edi, tf.regs.esi, tf.regs.ebp, tf.regs.oesp, tf.regs.ebx,
    tf.regs.edx, tf.regs.ecx, tf.regs.eax, tf.eip, tf.eflags, tf.esp].flatMap wordBytes

end Labs.Jos
