import Labs.Jos.Pmap

/-!
# Environments and the scheduler

`kern/env.c` and `kern/sched.c`: looking up, allocating, running and freeing environments, and
the round-robin choice of the next one. `env_run` and `sched_halt` do not return; they end the
kernel entry with an `Exit`.
-/

namespace Labs.Jos

open Prog

/-- `ENVX`. -/
def envx (envid : Word) : EnvIx := ⟨envid.toNat % 1024, Nat.mod_lt _ (by decide)⟩

/-- `envid2env` on CPU `k`: the slot on success, `none` for `-E_BAD_ENV`. -/
def envid2env (s : Kernel) (k : CpuId) (envid : Word) (checkperm : Bool) : Option EnvIx :=
  match (s.cpus k).cpuEnv with
  | none => none
  | some c =>
      if envid = 0 then some c
      else
        let e := envx envid
        if (s.envs e).envStatus = .free ∨ (s.envs e).envId ≠ envid then none
        else if checkperm ∧ e ≠ c ∧ (s.envs e).envParentId ≠ (s.envs c).envId then none
        else some e

/-! ## Creating environments -/

/-- `env_setup_vm`: `false` when there is no page for the directory. -/
def envSetupVm (e : EnvIx) : Kern Bool := do
  match ← pageAlloc true with
  | none => pure false
  | some p =>
      modifyEnv e fun env => { env with envPgdir := some p }
      modifyPage p fun info => { info with ppRef := info.ppRef + 1 }
      modify fun s => s.setPageWords p fun i => s.mem s.kernPgdir i
      writeWord p (pdx uvpt) (page2pa p ||| pteP ||| pteU)
      pure true

/-- The `env_id` that follows `old` in slot `e`. -/
def nextEnvId (old : Word) (e : EnvIx) : Word :=
  let generation := (old + 4096#32) &&& ~~~1023#32
  let generation := if generation.toInt ≤ 0 then 4096#32 else generation
  generation ||| BitVec.ofNat 32 e

/-- The register state of a new environment. -/
def initialTf : Trapframe :=
  { ds := gdUd ||| 3, es := gdUd ||| 3, ss := gdUd ||| 3, esp := ustacktop, cs := gdUt ||| 3,
    eflags := flIf }

def envAlloc (parentId : Word) : Kern (Except Int EnvIx) := do
  match ← gets Kernel.envFreeList with
  | none => pure (.error (-eNoFreeEnv))
  | some e =>
      if ← envSetupVm e then
        modifyEnv e fun env => { env with
          envId := nextEnvId env.envId e
          envParentId := parentId
          envType := .user
          envStatus := .runnable
          envRuns := 0
          envTf := initialTf
          envPgfaultUpcall := 0
          envIpcRecving := false }
        modify fun s => { s with envFreeList := (s.envs e).envLink }
        pure (.ok e)
      else pure (.error (-eNoMem))

/-! ## Running environments -/

/-- A selector that `popl %ds` and `popl %es` accept in the kernel: null, or a code or data
segment of the descriptor table with a sufficient privilege level. -/
def dataSegment (sel : BitVec 16) : Bool :=
  sel.toNat < 4 || sel == 0x08 || sel == 0x10 || (0x18 ≤ sel.toNat && sel.toNat < 0x1c) ||
    (0x20 ≤ sel.toNat && sel.toNat < 0x24)

/-- The frame makes `env_pop_tf` end in user mode: a virtual-8086 frame, or one whose code and
stack segments are the user's. Otherwise `iret`, or a segment load before it, faults. -/
def resumable (tf : Trapframe) : Bool :=
  dataSegment tf.es && dataSegment tf.ds &&
    (hasFlag tf.eflags flVm || (tf.cs == gdUt ||| 3 && tf.ss == gdUd ||| 3))

/-- `env_pop_tf`. A fault on a bad frame is taken in kernel mode, where `trap_dispatch` does not
expect it. -/
def envPopTf (k : CpuId) (e : EnvIx) : Kern Unit := do
  modifyEnv e fun env => { env with envCpunum := k }
  let tf ← gets fun s => (s.envs e).envTf
  if resumable tf then
    modifyCpu k fun c => { c with mode := .user tf }
    Prog.exit .resume
  else panic "unhandled trap in kernel"

/-- Set `curenv` back to runnable if it is running. -/
def descheduleCurenv (k : CpuId) : Kern Unit := do
  match ← curenv k with
  | none => pure ()
  | some c =>
      modifyEnv c fun env =>
        if env.envStatus = .running then { env with envStatus := .runnable } else env

def envRun (k : CpuId) (e : EnvIx) : Kern Unit := do
  descheduleCurenv k
  modifyCpu k fun c => { c with cpuEnv := some e }
  modifyEnv e fun env => { env with envStatus := .running, envRuns := env.envRuns + 1 }
  let pgdir ← deref (← gets fun s => (s.envs e).envPgdir)
  lcr3 k pgdir
  unlockKernel k
  envPopTf k e

/-- Some environment is runnable, running or dying: `sched_halt` may wait for an interrupt. -/
@[irreducible] def someActive (s : Kernel) : Bool :=
  (List.finRange 1024).any fun i =>
    (s.envs i).envStatus = .runnable || (s.envs i).envStatus = .running ||
      (s.envs i).envStatus = .dying

def schedHalt (k : CpuId) : Kern Unit := do
  if someActive (← get) then
    modifyCpu k fun c => { c with cpuEnv := none }
    lcr3 k (← gets Kernel.kernPgdir)
    modifyCpu k fun c => { c with cpuStatus := .halted }
    unlockKernel k
    modifyCpu k fun c => { c with mode := .halted }
    Prog.exit .halt
  else Prog.exit .monitor

/-- The slot that `sched_yield` examines in iteration `i`, starting after `curenv`. -/
def schedSlot (cur : Option EnvIx) (i : Nat) : EnvIx :=
  let start := match cur with
    | none => 0
    | some c => c.val + 1
  ⟨(start + i) % 1024, Nat.mod_lt _ (by decide)⟩

/-- The first runnable slot in the order of `sched_yield`. -/
@[irreducible] def nextRunnable (s : Kernel) (cur : Option EnvIx) : Option EnvIx :=
  ((List.range 1024).map (schedSlot cur)).find? fun e => (s.envs e).envStatus = .runnable

def schedYield (k : CpuId) : Kern Unit := do
  descheduleCurenv k
  let s ← get
  match nextRunnable s (s.cpus k).cpuEnv with
  | some e => envRun k e
  | none =>
      match (s.cpus k).cpuEnv with
      | some c => if (s.envs c).envStatus = .running then envRun k c else schedHalt k
      | none => schedHalt k

/-! ## Destroying environments -/

/-- Unmap and free the page table at directory index `pdeno` of `e`. -/
def envFreeTable (k : CpuId) (pgdir pdeno : Nat) : Kern Unit := do
  let pde ← readWord pgdir pdeno
  if hasFlag pde pteP then
    let pt ← kaddr (pteAddr pde)
    forUpto nptentries fun pteno => do
      if hasFlag (← readWord pt pteno) pteP then pageRemove k pgdir (pgaddr pdeno pteno)
    writeWord pgdir pdeno 0
    pageDecref (← pa2page (pteAddr pde))

/-- The first half of `env_free`: flush the user part of the address space of `e`, after leaving
it if it is current. The result is the page directory. -/
def envFlush (k : CpuId) (e : EnvIx) : Kern Nat := do
  if (← curenv k) = some e then lcr3 k (← gets Kernel.kernPgdir)
  let pgdir ← deref (← gets fun s => (s.envs e).envPgdir)
  forUpto (pdx utop) fun pdeno => envFreeTable k pgdir pdeno
  pure pgdir

def envFree (k : CpuId) (e : EnvIx) : Kern Unit := do
  modify fun s => { s with frees := ⟨k, e, fun j => (s.cpus j).cpuEnv⟩ :: s.frees }
  let pgdir ← envFlush k e
  modifyEnv e fun env => { env with envPgdir := none }
  pageDecref (← pa2page (page2pa pgdir))
  let head ← gets Kernel.envFreeList
  modifyEnv e fun env => { env with envStatus := .free, envLink := head }
  modify fun s => { s with envFreeList := some e }

def envDestroy (k : CpuId) (e : EnvIx) : Kern Unit := do
  let s ← get
  if (s.envs e).envStatus = .running ∧ (s.cpus k).cpuEnv ≠ some e then
    modifyEnv e fun env => { env with envStatus := .dying }
  else
    envFree k e
    if (← curenv k) = some e then
      modifyCpu k fun c => { c with cpuEnv := none }
      schedYield k

end Labs.Jos
