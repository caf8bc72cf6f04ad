import Labs.Jos.Exec

/-!
# Traps

`syscall` of `kern/syscall.c` and `kern/trap.c`: the way into the kernel. `trap` takes the big
kernel lock, saves the frame of the current environment and dispatches; it always ends by
resuming an environment, halting, or stopping for good.
-/

namespace Labs.Jos

open Prog

/-- The system calls with their arguments, as `syscall` reads them from the registers. -/
inductive Call where
  | cputs (str len : Word)
  | cgetc
  | getenvid
  | envDestroy (envid : Word)
  | pageAlloc (envid va perm : Word)
  | pageMap (srcenvid srcva dstenvid dstva perm : Word)
  | pageUnmap (envid va : Word)
  | exofork
  | envSetStatus (envid status : Word)
  | envSetTrapframe (envid tf : Word)
  | envSetPgfaultUpcall (envid func : Word)
  | yield
  | ipcTrySend (envid value srcva perm : Word)
  | ipcRecv (dstva : Word)
  | timeMsec
  | netSend (buf size : Word)
  | netRecv (buf size : Word)
  | exec (binary argv : Word)
  | invalid
  deriving DecidableEq

/-- The call number is in `%eax`, the arguments in `%edx`, `%ecx`, `%ebx`, `%edi` and `%esi`. -/
def decodeCall (r : PushRegs) : Call :=
  match r.eax.toNat with
  | 0 => .cputs r.edx r.ecx
  | 1 => .cgetc
  | 2 => .getenvid
  | 3 => .envDestroy r.edx
  | 4 => .pageAlloc r.edx r.ecx r.ebx
  | 5 => .pageMap r.edx r.ecx r.ebx r.edi r.esi
  | 6 => .pageUnmap r.edx r.ecx
  | 7 => .exofork
  | 8 => .envSetStatus r.edx r.ecx
  | 9 => .envSetTrapframe r.edx r.ecx
  | 10 => .envSetPgfaultUpcall r.edx r.ecx
  | 11 => .yield
  | 12 => .ipcTrySend r.edx r.ecx r.ebx r.edi
  | 13 => .ipcRecv r.edx
  | 14 => .timeMsec
  | 15 => .netSend r.edx r.ecx
  | 16 => .netRecv r.edx r.ecx
  | 17 => .exec r.edx r.ecx
  | _ => .invalid

/-- `syscall` on CPU `k` for its current environment `c`. -/
def syscall (k : CpuId) (c : EnvIx) : Call → Kern Int
  | .cputs str len => do
      sysCputs k c str len
      pure 0
  | .cgetc => sysCgetc
  | .getenvid => sysGetenvid c
  | .envDestroy envid => sysEnvDestroy k envid
  | .pageAlloc envid va perm => sysPageAlloc k envid va perm
  | .pageMap srcenvid srcva dstenvid dstva perm => sysPageMap k srcenvid srcva dstenvid dstva perm
  | .pageUnmap envid va => sysPageUnmap k envid va
  | .exofork => sysExofork c
  | .envSetStatus envid status => sysEnvSetStatus k envid status
  | .envSetTrapframe envid tf => sysEnvSetTrapframe k c envid tf
  | .envSetPgfaultUpcall envid func => sysEnvSetPgfaultUpcall k envid func
  | .yield => do
      schedYield k
      pure 0
  | .ipcTrySend envid value srcva perm => sysIpcTrySend k c envid value srcva perm
  | .ipcRecv dstva => sysIpcRecv k c dstva
  | .timeMsec => sysTimeMsec
  | .netSend buf size => sysNetSend k c buf size
  | .netRecv buf size => sysNetRecv k c buf size
  | .exec binary argv => sysExec k c binary argv
  | .invalid => pure (-eInval)

def tBrkpt : Word := 3
def tPgflt : Word := 14
def irqTimer : Word := 32
def irqKbd : Word := 33
def irqSerial : Word := 36
def irqSpurious : Word := 39
def tSyscall : Word := 48

/-- The address at which `page_fault_handler` puts the fault record: below the trap-time stack
pointer and a scratch word if that is on the exception stack, else at its top. -/
def faultStack (esp : Word) : Word :=
  if uxstacktop - pgsizeW ≤ esp ∧ esp < uxstacktop then esp - 4 - 52 else uxstacktop - 52

def pageFaultHandler (k : CpuId) (tf : Trapframe) (faultVa : Word) : Kern Unit := do
  if tf.cs &&& 3 = 0 then kernelPageFault k faultVa
  else
    let c ← deref (← curenv k)
    let upcall ← gets fun s => (s.envs c).envPgfaultUpcall
    if upcall = 0 then envDestroy k c
    else
      userMemAssert k c (uxstacktop - pgsizeW) pgsizeW pteW
      let stack := faultStack tf.esp
      userMemAssert k c stack 52 pteW
      storeBytes k (encodeUTrapframe faultVa tf) stack
      modifyEnv c fun env => { env with envTf := { env.envTf with esp := stack, eip := upcall } }

def timeTick : Kern Unit := do
  modify fun s => { s with ticks := s.ticks + 1 }
  let ticks ← gets Kernel.ticks
  if ticks * 10 < ticks then panic "time_tick: time overflowed"

/-- `trap_dispatch`. `saved` is the environment whose `env_tf` the frame is, if the trap came from
user mode. -/
def trapDispatch (k : CpuId) (saved : Option EnvIx) (tf : Trapframe) (cr2 : Word) : Kern Unit := do
  if tf.trapno = tPgflt then pageFaultHandler k tf cr2
  else if tf.trapno = tBrkpt then Prog.exit .monitor
  else if tf.trapno = tSyscall then
    let r ← syscall k (← deref (← curenv k)) (decodeCall tf.regs)
    match saved with
    | none => pure ()
    | some c =>
        modifyEnv c fun env => { env with envTf := { env.envTf with
          regs := { env.envTf.regs with eax := BitVec.ofInt 32 r } } }
  else if tf.trapno = irqSpurious then pure ()
  else if tf.trapno = irqTimer then
    if k = 0 then timeTick
    schedYield k
  else if tf.trapno = irqKbd ∨ tf.trapno = irqSerial then pure ()
  else if tf.cs = gdKt then panic "unhandled trap in kernel"
  else envDestroy k (← deref (← curenv k))

/-- The rest of `trap` for a trap from user mode, once the lock is held. -/
def userTrap (k : CpuId) (tf : Trapframe) (cr2 : Word) : Kern Unit := do
  match ← curenv k with
  | none => panic "assertion failed: curenv"
  | some c =>
      if (← gets fun s => (s.envs c).envStatus) = .dying then
        envFree k c
        modifyCpu k fun cpu => { cpu with cpuEnv := none }
        schedYield k
      else
        modifyEnv c fun env => { env with envTf := tf }
        trapDispatch k (some c) tf cr2
        trapReturn k

/-- `trap` after it has taken the lock on behalf of a halted CPU. -/
def trapBody (k : CpuId) (tf : Trapframe) (cr2 : Word) : Kern Unit := do
  if tf.cs &&& 3 = 3 then
    lockKernel k
    userTrap k tf cr2
  else
    trapDispatch k none tf cr2
    trapReturn k

def trap (k : CpuId) (tf : Trapframe) (cr2 : Word) : Kern Unit := do
  if (← gets Kernel.panicstr).isSome then Prog.exit .hang
  else
    let status ← gets fun s => (s.cpus k).cpuStatus
    modifyCpu k fun c => { c with cpuStatus := .started }
    if status = .halted then
      lockKernel k
      trapBody k tf cr2
    else trapBody k tf cr2

end Labs.Jos
