import Labs.Jos.System

/-!
# The control state and its actions

`Ctl` is the part of the kernel state that decides which environment runs where: the environment
table, its free list, and each CPU's current environment. `Act` lists everything a kernel entry
may do to it. The code is proved to refine this abstract machine: whatever a kernel entry does to
physical memory, its effect on the control state is a sequence of actions, and the edits of
environments among them are those its system call asks for.
-/

namespace Labs.Jos

open Prog Relation

/-- The control state. -/
structure Ctl where
  envs : EnvIx → Env
  envFreeList : Option EnvIx
  cpuEnv : CpuId → Option EnvIx
  cpuStatus : CpuId → CpuStatus
  mode : CpuId → CpuMode
  frees : List FreeEvent

/-- The control state of the kernel. -/
def Kernel.ctl (s : Kernel) : Ctl where
  envs := s.envs
  envFreeList := s.envFreeList
  cpuEnv := fun k => (s.cpus k).cpuEnv
  cpuStatus := fun k => (s.cpus k).cpuStatus
  mode := fun k => (s.cpus k).mode
  frees := s.frees

namespace Ctl

/-- The status of an environment. -/
def status (t : Ctl) (e : EnvIx) : EnvStatus := (t.envs e).envStatus

def setEnv (t : Ctl) (e : EnvIx) (f : Env → Env) : Ctl :=
  { t with envs := Function.update t.envs e (f (t.envs e)) }

def setCpuEnv (t : Ctl) (k : CpuId) (cur : Option EnvIx) : Ctl :=
  { t with cpuEnv := Function.update t.cpuEnv k cur }

def setCpuStatus (t : Ctl) (k : CpuId) (st : CpuStatus) : Ctl :=
  { t with cpuStatus := Function.update t.cpuStatus k st }

def setMode (t : Ctl) (k : CpuId) (m : CpuMode) : Ctl :=
  { t with mode := Function.update t.mode k m }

/-- The current environment of CPU `k`, if running, becomes runnable. -/
def deschedule (t : Ctl) (k : CpuId) : Ctl :=
  match t.cpuEnv k with
  | none => t
  | some c => t.setEnv c fun env =>
      if env.envStatus = .running then { env with envStatus := .runnable } else env

/-- `e` becomes the running environment of CPU `k`. -/
def dispatch (t : Ctl) (k : CpuId) (e : EnvIx) : Ctl :=
  ((t.deschedule k).setCpuEnv k (some e)).setEnv e fun env =>
    { env with envStatus := .running, envRuns := env.envRuns + 1 }

/-- The first free slot `e` becomes an environment with the page directory `p`. -/
def alloc (t : Ctl) (e : EnvIx) (parentId : Word) (p : Nat) : Ctl :=
  { t.setEnv e fun env => { env with
      envPgdir := some p
      envId := nextEnvId env.envId e
      envParentId := parentId
      envType := .user
      envStatus := .runnable
      envRuns := 0
      envTf := initialTf
      envPgfaultUpcall := 0
      envIpcRecving := false } with
    envFreeList := (t.envs e).envLink }

/-- The first free slot `e` becomes a child of `c` with a copy of the registers in `tf`. -/
def fork (t : Ctl) (c e : EnvIx) (p : Nat) (tf : Trapframe) : Ctl :=
  (t.alloc e (t.envs c).envId p).setEnv e fun env => { env with
    envStatus := .notRunnable
    envTf := { tf with regs := { tf.regs with eax := 0 } } }

/-- Environment `e` is returned to the free list. -/
def freed (t : Ctl) (e : EnvIx) : Ctl :=
  { t.setEnv e fun env => { env with envStatus := .free, envLink := t.envFreeList } with
    envFreeList := some e }

end Ctl

/-- What a kernel entry may do to environments: the edits it may make, the running environments
it may mark as dying, the others it may free, and the children it may create, with their slots. -/
structure Grant where
  edit : EnvIx → (Env → Env) → Prop
  mark : EnvIx → Prop
  reap : EnvIx → Prop
  fork : EnvIx → EnvIx → Trapframe → Prop

/-- The grant of a kernel entry that is not a system call. -/
def Grant.none : Grant :=
  ⟨fun _ _ => False, fun _ => False, fun _ => False, fun _ _ _ => False⟩

/-- The edits that the system call `call`, made in state `s` on CPU `k` by its environment `c`,
makes to the environment table. -/
inductive Edit (s : Kernel) (k : CpuId) (c : EnvIx) : Call → EnvIx → (Env → Env) → Prop where
  | status {envid status : Word} {st : EnvStatus} {e : EnvIx}
      (hst : settableStatus status = some st) (he : envid2env s k envid true = some e) :
      Edit s k c (.envSetStatus envid status) e fun env => { env with envStatus := st }
  | trapframe {envid va : Word} {e : EnvIx} {bytes : List Byte}
      (he : envid2env s k envid true = some e) (hbytes : s.userBytes k 68 va = some bytes) :
      Edit s k c (.envSetTrapframe envid va) e fun env =>
        { env with envTf := sanitizeTf (decodeTrapframe bytes) }
  | upcall {envid func : Word} {e : EnvIx} (he : envid2env s k envid true = some e) :
      Edit s k c (.envSetPgfaultUpcall envid func) e fun env =>
        { env with envPgfaultUpcall := func }
  | send {envid value srcva perm : Word} {e : EnvIx} (he : envid2env s k envid false = some e)
      (hrecv : (s.envs e).envIpcRecving = true) :
      Edit s k c (.ipcTrySend envid value srcva perm) e fun env => { env with
        envIpcFrom := (s.envs c).envId
        envIpcValue := value
        envIpcRecving := false
        envStatus := .runnable }
  | sendPerm {envid value srcva perm : Word} {e : EnvIx} (sent : Word)
      (he : envid2env s k envid false = some e) (hrecv : (s.envs e).envIpcRecving = true) :
      Edit s k c (.ipcTrySend envid value srcva perm) e fun env => { env with envIpcPerm := sent }
  | recv {dstva : Word} :
      Edit s k c (.ipcRecv dstva) c fun env => { env with
        envIpcRecving := true
        envIpcDstva := dstva
        envStatus := .notRunnable }
  | exec {binary argv : Word} (eip esp : Word) :
      Edit s k c (.exec binary argv) c fun env => { env with envTf := { env.envTf with
        eip := eip
        esp := esp
        eflags := env.envTf.eflags ||| flIf } }

/-- The edits of a trap of CPU `k` in state `s` with the frame `tf` while `c` is current. -/
inductive TrapEdit (s : Kernel) (k : CpuId) (c : EnvIx) (tf : Trapframe) :
    EnvIx → (Env → Env) → Prop where
  | save : TrapEdit s k c tf c fun env => { env with envTf := tf }
  | result (r : Word) : TrapEdit s k c tf c fun env =>
      { env with envTf := { env.envTf with regs := { env.envTf.regs with eax := r } } }
  | fault (esp eip : Word) : TrapEdit s k c tf c fun env =>
      { env with envTf := { env.envTf with esp := esp, eip := eip } }
  | call {e : EnvIx} {f : Env → Env} (htrap : tf.trapno = tSyscall)
      (hedit : Edit s k c (decodeCall tf.regs) e f) : TrapEdit s k c tf e f

/-- CPU `k` may free `e`: its own environment, or one it may free. -/
def Ctl.mayFree (t : Ctl) (k : CpuId) (g : Grant) (e : EnvIx) : Prop :=
  t.cpuEnv k = some e ∨ g.reap e

/-- An edit keeps the status, or makes a live environment runnable or not runnable. -/
def Ctl.mayEdit (t : Ctl) (e : EnvIx) (f : Env → Env) : Prop :=
  (∀ env, (f env).envStatus = env.envStatus) ∨
    t.status e ≠ .free ∧
      ∀ env, (f env).envStatus = .runnable ∨ (f env).envStatus = .notRunnable

/-- One action of CPU `k` on the control state. -/
inductive Act (k : CpuId) (g : Grant) : Ctl → Ctl → Prop where
  | started {t : Ctl} : Act k g t (t.setCpuStatus k .started)
  | edit {t : Ctl} {e : EnvIx} {f : Env → Env} (hgrant : g.edit e f) (hedit : t.mayEdit e f) :
      Act k g t (t.setEnv e f)
  | fork {t : Ctl} {c e : EnvIx} {p : Nat} {tf : Trapframe} (hgrant : g.fork c e tf)
      (hcur : t.cpuEnv k = some c) (hhead : t.envFreeList = some e) :
      Act k g t (t.fork c e p tf)
  | dying {t : Ctl} {e : EnvIx} (hmark : g.mark e) (hrun : t.status e = .running)
      (hcur : t.cpuEnv k ≠ some e) :
      Act k g t (t.setEnv e fun env => { env with envStatus := .dying })
  | freeing {t : Ctl} {e : EnvIx} (hfree : t.mayFree k g e) :
      Act k g t { t with frees := ⟨k, e, t.cpuEnv⟩ :: t.frees }
  | dropVm {t : Ctl} {e : EnvIx} (hfree : t.mayFree k g e) :
      Act k g t (t.setEnv e fun env => { env with envPgdir := none })
  | freedOther {t : Ctl} {e : EnvIx} (hreap : g.reap e) (hcur : t.cpuEnv k ≠ some e)
      (hlive : t.status e ≠ .free) : Act k g t (t.freed e)
  | freedOwn {t : Ctl} {e : EnvIx} (hcur : t.cpuEnv k = some e) :
      Act k g t ((t.freed e).setCpuEnv k none)
  | deschedule {t : Ctl} : Act k g t (t.deschedule k)
  | dispatch {t : Ctl} {e : EnvIx}
      (hrun : t.status e = .runnable ∨ t.cpuEnv k = some e ∧ t.status e = .running) :
      Act k g t (t.dispatch k e)
  | cpunum {t : Ctl} {e : EnvIx} :
      Act k g t (t.setEnv e fun env => { env with envCpunum := k })
  | resume {t : Ctl} {e : EnvIx} (hcur : t.cpuEnv k = some e) (hrun : t.status e = .running) :
      Act k g t (t.setMode k (.user (t.envs e).envTf))
  | idle {t : Ctl} : Act k g t (t.setCpuEnv k none)
  | halted {t : Ctl} : Act k g t (t.setCpuStatus k .halted)
  | sleep {t : Ctl} : Act k g t (t.setMode k .halted)
  | die {t : Ctl} : Act k g t (t.setMode k .dead)

/-- A sequence of actions of CPU `k`. -/
def Acts (k : CpuId) (g : Grant) (t u : Ctl) : Prop := ReflTransGen (Act k g) t u

/-- An action is a sequence of actions. -/
theorem Act.acts {k : CpuId} {g : Grant} {t u : Ctl} (h : Act k g t u) : Acts k g t u :=
  ReflTransGen.single h

end Labs.Jos
