import Labs.Base.Prog
import Labs.Jos.Mmu

/-!
# The state of the machine and of the kernel

The kernel's data structures (`struct PageInfo`, `struct Env`, `struct CpuInfo`, the big kernel
lock) and the hardware they rely on: physical memory as pages of words, the page walk, a
translation cache and a page-directory register for each CPU, the network card's rings and the
console. Page directories and page tables are ordinary pages of physical memory.

Four fields are history only, and no function of the kernel reads them: `accesses` logs the
bytes the kernel moved through user virtual addresses, `frees` the calls of `env_free` with the
current environments of all CPUs at the call, `pageFrees` the pages given to `page_free`, and
`tlb` over-approximates each translation cache by everything it may hold.
-/

namespace Labs.Jos

/-- `NENV`. -/
def nenv : Nat := 1024

/-- A slot of `envs`. -/
abbrev EnvIx := Fin 1024

/-- There are slots, so that `0` is one. -/
instance neZeroNenv : NeZero (1024 : Nat) := ⟨by decide⟩

/-- The number of a CPU: an index into `cpus`. -/
abbrev CpuId := Nat

/-- `struct PushRegs`. -/
structure PushRegs where
  edi : Word := 0
  esi : Word := 0
  ebp : Word := 0
  oesp : Word := 0
  ebx : Word := 0
  edx : Word := 0
  ecx : Word := 0
  eax : Word := 0
  deriving DecidableEq

/-- `struct Trapframe`, without its padding. -/
structure Trapframe where
  regs : PushRegs := {}
  es : BitVec 16 := 0
  ds : BitVec 16 := 0
  trapno : Word := 0
  err : Word := 0
  eip : Word := 0
  cs : BitVec 16 := 0
  eflags : Word := 0
  esp : Word := 0
  ss : BitVec 16 := 0
  deriving DecidableEq

/-- Values of `env_status` in `struct Env`. -/
inductive EnvStatus where
  | free
  | dying
  | runnable
  | running
  | notRunnable
  deriving DecidableEq

/-- Special environment types. -/
inductive EnvType where
  | user
  | fs
  | ns
  deriving DecidableEq

/-- `struct Env`. -/
structure Env where
  envTf : Trapframe := {}
  envLink : Option EnvIx := none
  envId : Word := 0
  envParentId : Word := 0
  envType : EnvType := .user
  envStatus : EnvStatus := .free
  envRuns : Word := 0
  envCpunum : Nat := 0
  envPgdir : Option Nat := none
  envPgfaultUpcall : Word := 0
  envIpcRecving : Bool := false
  envIpcDstva : Word := 0
  envIpcValue : Word := 0
  envIpcFrom : Word := 0
  envIpcPerm : Word := 0

/-- `struct PageInfo`. -/
structure PageInfo where
  ppLink : Option Nat := none
  ppRef : BitVec 16 := 0

/-- A translation: the physical page, and whether both levels of the table grant writing and
user access. -/
structure Xlat where
  page : Nat
  writable : Bool
  user : Bool
  deriving DecidableEq

/-- Values of `cpu_status` in `struct CpuInfo`. -/
inductive CpuStatus where
  | unused
  | started
  | halted
  deriving DecidableEq

/-- What a CPU does between two kernel entries. `boot` is a CPU in `i386_init` or `mp_main` that
has not reached its first `sched_yield`, `user tf` one that `env_pop_tf` resumed with the frame
`tf`, `halted` one in the `hlt` of `sched_halt`, and `dead` one that never leaves the kernel
again (a panic, or the kernel monitor). -/
inductive CpuMode where
  | boot
  | user (tf : Trapframe)
  | halted
  | dead
  deriving DecidableEq

/-- `struct CpuInfo`, with the CPU's page directory register and translation cache. -/
structure CpuInfo where
  cpuStatus : CpuStatus := .unused
  cpuEnv : Option EnvIx := none
  cr3 : Nat
  tlb : Nat → Xlat → Prop := fun _ _ => False
  mode : CpuMode := .boot

/-- `struct e1000_tx_desc`: the fields the driver uses. -/
structure TxDesc where
  length : BitVec 16 := 0
  cmd : Byte := 0
  status : Byte := 0

/-- `struct e1000_rx_desc`: the fields the driver uses. -/
structure RxDesc where
  length : BitVec 16 := 0
  status : Byte := 0

/-- The network card's rings and buffers, and its two tail registers. -/
structure E1000 where
  txQueue : Nat → TxDesc := fun _ => {}
  txBuf : Nat → Nat → Byte := fun _ _ => 0
  rxQueue : Nat → RxDesc := fun _ => {}
  rxBuf : Nat → Nat → Byte := fun _ _ => 0
  tdt : Word := 0
  rdt : Word := 127

/-- A byte the kernel moved through a user-supplied virtual address. -/
structure Access where
  store : Bool
  va : Word
  deriving DecidableEq

/-- A call of `env_free`: the CPU, the environment, and every CPU's `curenv` at the call. -/
structure FreeEvent where
  cpu : CpuId
  env : EnvIx
  curenvs : CpuId → Option EnvIx

/-- The machine and the kernel's variables. `nextfree` is the page of `boot_alloc(0)`, the first
page after the kernel image and the boot-time allocations. -/
structure Kernel where
  npages : Nat
  npagesBasemem : Nat
  nextfree : Nat
  pages : Nat → PageInfo
  pageFreeList : Option Nat
  mem : Nat → Nat → Word
  kernPgdir : Nat
  mmioBase : Word
  envs : EnvIx → Env
  envFreeList : Option EnvIx
  cpus : CpuId → CpuInfo
  kernelLock : Option CpuId
  panicstr : Option String
  ticks : Word
  userMemCheckAddr : Word
  e1000 : E1000
  consIn : List Byte
  consOut : List Byte
  accesses : List Access
  frees : List FreeEvent
  pageFrees : List Nat

/-- Why the kernel stops executing on a CPU without returning to its caller. -/
inductive Exit where
  /-- `env_pop_tf` resumed an environment. -/
  | resume
  /-- `sched_halt` halted the CPU. -/
  | halt
  /-- `panic`. -/
  | panic (msg : String)
  /-- The kernel monitor, which no command leaves. -/
  | monitor
  /-- A loop that does not end. -/
  | hang
  /-- The big kernel lock is held by another CPU. -/
  | blocked
  /-- A null pointer is followed. -/
  | undefined
  deriving DecidableEq

/-- Kernel code. -/
abbrev Kern (α : Type) := Prog Kernel Exit α

/-! ## The memory management unit -/

/-- The page walk from the directory in page `dir` for the virtual page number `n`. -/
def walk (mem : Nat → Nat → Word) (dir n : Nat) : Option Xlat :=
  let pde := mem dir (n / 1024)
  let pte := mem (pgnum pde) (n % 1024)
  if hasFlag pde pteP && hasFlag pte pteP then
    some ⟨pgnum pte, hasFlag pde pteW && hasFlag pte pteW, hasFlag pde pteU && hasFlag pte pteU⟩
  else none

namespace Kernel

/-- What CPU `k` may hold for page number `n`: a cached translation or the walk of its tables. -/
def mayHold (s : Kernel) (k : CpuId) (n : Nat) (x : Xlat) : Prop :=
  (s.cpus k).tlb n x ∨ walk s.mem (s.cpus k).cr3 n = some x

/-- Every CPU may have cached every translation its tables give now. -/
def fill (s : Kernel) : Kernel :=
  { s with cpus := fun k => { s.cpus k with tlb := s.mayHold k } }

/-- Store the word `w` at index `i` of physical page `p`. -/
def setWord (s : Kernel) (p i : Nat) (w : Word) : Kernel :=
  { s.fill with mem := Function.update s.mem p (Function.update (s.mem p) i w) }

/-- Overwrite physical page `p`. -/
def setPageWords (s : Kernel) (p : Nat) (words : Nat → Word) : Kernel :=
  { s.fill with mem := Function.update s.mem p words }

/-- Update the `struct PageInfo` of page `p`. -/
def setPage (s : Kernel) (p : Nat) (f : PageInfo → PageInfo) : Kernel :=
  { s with pages := Function.update s.pages p (f (s.pages p)) }

/-- Update the `struct Env` in slot `i`. -/
def setEnv (s : Kernel) (i : EnvIx) (f : Env → Env) : Kernel :=
  { s with envs := Function.update s.envs i (f (s.envs i)) }

/-- Update the `struct CpuInfo` of CPU `k`. -/
def setCpu (s : Kernel) (k : CpuId) (f : CpuInfo → CpuInfo) : Kernel :=
  { s with cpus := Function.update s.cpus k (f (s.cpus k)) }

/-- The environment slot is in use. -/
def live (s : Kernel) (i : EnvIx) : Prop := (s.envs i).envStatus ≠ .free

instance (s : Kernel) (i : EnvIx) : Decidable (s.live i) :=
  inferInstanceAs (Decidable (_ ≠ _))

end Kernel

/-! ## Elementary kernel operations -/

open Prog

def readWord (p i : Nat) : Kern Word := gets fun s => s.mem p i

def writeWord (p i : Nat) (w : Word) : Kern Unit := modify fun s => s.setWord p i w

def modifyPage (p : Nat) (f : PageInfo → PageInfo) : Kern Unit := modify fun s => s.setPage p f

def modifyEnv (i : EnvIx) (f : Env → Env) : Kern Unit := modify fun s => s.setEnv i f

def modifyCpu (k : CpuId) (f : CpuInfo → CpuInfo) : Kern Unit := modify fun s => s.setCpu k f

/-- `curenv` on CPU `k`. -/
def curenv (k : CpuId) : Kern (Option EnvIx) := gets fun s => (s.cpus k).cpuEnv

/-- `_panic`: only the first message is kept. -/
def panic {α : Type} (msg : String) : Kern α := do
  modify fun s => { s with panicstr := s.panicstr.or (some msg) }
  Prog.exit (.panic msg)

/-- Follow a pointer that may be null. -/
def deref {α : Type} : Option α → Kern α
  | some a => pure a
  | none => Prog.exit .undefined

@[simp] theorem wp_deref_some {α : Type} {a : α} {Q : α → Kernel → Prop}
    {E : Exit → Kernel → Prop} {s : Kernel} : wp (deref (some a)) Q E s ↔ Q a s :=
  Iff.rfl

@[simp] theorem wp_deref_none {α : Type} {Q : α → Kernel → Prop} {E : Exit → Kernel → Prop}
    {s : Kernel} : wp (deref none) Q E s ↔ E .undefined s :=
  Iff.rfl

/-- `lcr3`: load the page directory register and drop all cached translations. -/
def lcr3 (k : CpuId) (dir : Nat) : Kern Unit :=
  modifyCpu k fun c => { c with cr3 := dir, tlb := fun _ _ => False }

/-- `invlpg`: drop the cached translations of one page. -/
def invlpg (k : CpuId) (va : Word) : Kern Unit :=
  modifyCpu k fun c => { c with tlb := fun n x => n ≠ pgnum va ∧ c.tlb n x }

/-! ## The big kernel lock -/

/-- `lock_kernel`, with the check of `DEBUG_SPINLOCK`. -/
def lockKernel (k : CpuId) : Kern Unit := do
  match ← gets Kernel.kernelLock with
  | none => modify fun s => { s with kernelLock := some k }
  | some holder =>
      if holder = k then panic "CPU %d cannot acquire %s: already holding"
      else Prog.exit .blocked

/-- `unlock_kernel`, with the check of `DEBUG_SPINLOCK`. -/
def unlockKernel (k : CpuId) : Kern Unit := do
  if (← gets Kernel.kernelLock) = some k then modify fun s => { s with kernelLock := none }
  else panic "spin_unlock"

end Labs.Jos
