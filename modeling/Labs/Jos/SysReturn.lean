import Labs.Jos.Lifecycle

/-!
# The results of system calls

`trap_dispatch` stores the result of a system call in the saved `%eax` of the caller when the
handler returns. `sys_yield` and a waiting `sys_ipc_recv` never return: they leave the kernel
through the scheduler, and the caller is resumed with the call number that it put in `%eax`.
-/

namespace Labs.Jos

open Prog Relation

variable {k : CpuId} {g : Grant} {c : EnvIx} {t u : Ctl}

/-! ## The saved frame -/

/-- The grant does nothing to the saved frame of `c`. -/
structure SparesFrame (c : EnvIx) (g : Grant) : Prop where
  edit : ∀ f, g.edit c f → ∀ env, (f env).envTf = env.envTf
  fork : ∀ parent tf, ¬ g.fork parent c tf

theorem spares_frame_none (c : EnvIx) : SparesFrame c .none :=
  ⟨fun _ h => h.elim, fun _ _ h => h⟩

/-- A change of the table that keeps the frame of `c`. -/
theorem env_tf_set_env {i : EnvIx} {f : Env → Env}
    (hsame : i = c → (f (t.envs c)).envTf = (t.envs c).envTf) :
    ((t.setEnv i f).envs c).envTf = (t.envs c).envTf := by
  by_cases hic : c = i
  · subst hic
    show (Function.update t.envs c (f (t.envs c)) c).envTf = _
    rw [Function.update_self]
    exact hsame rfl
  · show (Function.update t.envs i (f (t.envs i)) c).envTf = _
    rw [Function.update_of_ne hic]

theorem env_tf_deschedule (t : Ctl) (k : CpuId) (c : EnvIx) :
    ((t.deschedule k).envs c).envTf = (t.envs c).envTf := by
  unfold Ctl.deschedule
  cases t.cpuEnv k with
  | none => rfl
  | some i =>
      refine env_tf_set_env fun _ => ?_
      split <;> rfl

/-- One action with a grant that spares the frame of `c` keeps it. -/
theorem env_tf_act (hspares : SparesFrame c g) (ha : Act k g t u) :
    (u.envs c).envTf = (t.envs c).envTf := by
  cases ha with
  | edit hgrant _ =>
      refine env_tf_set_env fun hic => ?_
      subst hic
      exact hspares.edit _ hgrant _
  | @fork parent e p tf hgrant _ _ =>
      have hne : c ≠ e := by
        rintro rfl
        exact hspares.fork _ _ hgrant
      simp [Ctl.fork, Ctl.alloc, Ctl.setEnv, hne]
  | dying _ _ _ => exact env_tf_set_env fun _ => rfl
  | dropVm _ => exact env_tf_set_env fun _ => rfl
  | freedOther _ _ _ =>
      exact env_tf_set_env (f := fun env => { env with
        envStatus := .free, envLink := t.envFreeList }) fun _ => rfl
  | freedOwn _ =>
      exact env_tf_set_env (f := fun env => { env with
        envStatus := .free, envLink := t.envFreeList }) fun _ => rfl
  | deschedule => exact env_tf_deschedule t k c
  | dispatch _ =>
      rw [Ctl.dispatch, env_tf_set_env fun _ => rfl]
      exact env_tf_deschedule t k c
  | cpunum => exact env_tf_set_env fun _ => rfl
  | started => rfl
  | freeing _ => rfl
  | resume _ _ => rfl
  | idle => rfl
  | halted => rfl
  | sleep => rfl
  | die => rfl

theorem env_tf_acts (hspares : SparesFrame c g) (ha : Acts k g t u) :
    (u.envs c).envTf = (t.envs c).envTf := by
  induction ha with
  | refl => rfl
  | tail _ hact ih => exact (env_tf_act hspares hact).trans ih

/-! ## The call -/

/-- CPU `k` counts as started and has the lock. -/
def locked (s : Kernel) (k : CpuId) : Kernel :=
  { s.setCpu k fun cpu => { cpu with cpuStatus := .started } with kernelLock := some k }

/-- The state in which the handler of a system call of `c` on CPU `k` starts: the lock is taken
and the trap frame is saved. -/
def entered (s : Kernel) (k : CpuId) (c : EnvIx) (tf : Trapframe) : Kernel :=
  (locked s k).setEnv c fun env => { env with envTf := tf }

/-- The calls whose handlers leave through the scheduler: `sys_yield`, and `sys_ipc_recv` with an
address that it accepts. -/
def Sleeps : Call → Prop
  | .yield => True
  | .ipcRecv dstva => ¬ (dstva < utop ∧ dstva % pgsizeW ≠ 0)
  | _ => False

instance : DecidablePred Sleeps := fun call =>
  match call with
  | .yield => isTrue trivial
  | .ipcRecv _ => inferInstanceAs (Decidable (¬ _))
  | .cputs _ _ | .cgetc | .getenvid | .envDestroy _ | .pageAlloc _ _ _ | .pageMap _ _ _ _ _
  | .pageUnmap _ _ | .exofork | .envSetStatus _ _ | .envSetTrapframe _ _
  | .envSetPgfaultUpcall _ _ | .ipcTrySend _ _ _ _ | .timeMsec | .netSend _ _ | .netRecv _ _
  | .exec _ _ | .invalid => isFalse not_false

/-- The handler of a call that sleeps never returns, and keeps the frame of the caller. -/
theorem sleeping_call {call : Call} (h : Sleeps call) (s : Kernel) :
    wp (syscall k c call) (fun _ _ => False)
      (fun _ s' => (s'.envs c).envTf = (s.envs c).envTf) s := by
  have hyield : ∀ t : Kernel, wp (schedYield k) (fun _ _ => False)
      (fun _ s' => (s'.envs c).envTf = (t.envs c).envTf) t := fun t =>
    wp_mono (leaves_sched_yield (g := .none) t) (fun _ _ => False.elim)
      fun _ _ hleave => env_tf_acts (spares_frame_none c) hleave.1
  cases call with
  | yield =>
      rw [syscall, wp_bind]
      exact wp_mono_ret (hyield s) fun _ _ => False.elim
  | ipcRecv dstva =>
      rw [syscall, sysIpcRecv, wp_ite]
      refine ⟨fun hbad => absurd hbad h, fun _ => ?_⟩
      rw [wp_bind, modifyEnv, wp_modify, wp_bind]
      refine wp_mono (hyield _) (fun _ _ => False.elim) fun _ s' hkeep => ?_
      rw [hkeep]
      simp [Kernel.setEnv]
  | _ => exact h.elim

/-! ## Answers -/

/-- When CPU `k` leaves the kernel, the saved `%eax` of `c` is `w`, or the CPU has stopped for good
with `c` still current there. -/
def Answered (k : CpuId) (c : EnvIx) (w : Word) (ex : Exit) (s : Kernel) : Prop :=
  (s.envs c).envTf.regs.eax = w ∨ ex ≠ .resume ∧ ex ≠ .halt ∧ s.ctl.cpuEnv k = some c

/-- The system call of `c` on CPU `k` is answered with `w`: its handler returns `w`, or it never
returns and `w` is the number of the call. -/
inductive Answer (s : Kernel) (k : CpuId) (c : EnvIx) (tf : Trapframe) : Word → Prop where
  | handler {r : Int} {s' : Kernel}
      (hret : syscall k c (decodeCall tf.regs) (entered s k c tf) = .ret r s') :
      Answer s k c tf (BitVec.ofInt 32 r)
  | sleeps (hsleep : Sleeps (decodeCall tf.regs)) : Answer s k c tf tf.regs.eax

theorem cpu_env_locked (s : Kernel) (k : CpuId) : (locked s k).ctl.cpuEnv = s.ctl.cpuEnv :=
  (same_call_started s k (some k)).cpuEnv

/-- After the lock is taken, a trap for a system call ends with the call answered. -/
theorem user_trap_answers {s : Kernel} {tf : Trapframe} {w : Word}
    (hcur : s.ctl.cpuEnv k = some c) (hlive : s.ctl.status c ≠ .dying)
    (hsys : tf.trapno = tSyscall) (hanswer : Answer s k c tf w) (cr2 : Word) :
    wp (userTrap k tf cr2) (fun _ _ => False) (Answered k c w) (locked s k) := by
  have hcur₁ : ((locked s k).cpus k).cpuEnv = some c := by
    rw [← hcur, ← cpu_env_locked s k]
    rfl
  simp only [userTrap, curenv, wp_bind, wp_gets, hcur₁, wp_ite]
  refine ⟨fun hdying => absurd hdying hlive, fun _ => ?_⟩
  rw [modifyEnv, wp_modify]
  show wp (trapDispatch k (some c) tf cr2) _ _ (entered s k c tf)
  have hcur₂ : ((entered s k c tf).cpus k).cpuEnv = some c := hcur₁
  have hnum : tSyscall ≠ tPgflt ∧ tSyscall ≠ tBrkpt := by decide
  simp only [trapDispatch, hsys, hnum, wp_bind, curenv, wp_gets, if_false, if_true, hcur₂,
    wp_deref_some]
  cases hanswer with
  | @handler r s' hret =>
      rw [wp_of_ret hret, modifyEnv, wp_modify]
      refine wp_mono (leaves_trap_return (g := .none) _) (fun _ _ => False.elim)
        fun ex s₂ hleave => .inl ?_
      have hkeep := env_tf_acts (spares_frame_none c) hleave.1
      show (s₂.ctl.envs c).envTf.regs.eax = _
      rw [hkeep]
      simp [Kernel.ctl, Kernel.setEnv]
  | sleeps hsleep =>
      refine wp_mono (sleeping_call hsleep _) (fun _ _ => False.elim) fun ex s₂ hkeep => .inl ?_
      rw [hkeep]
      simp [entered, Kernel.setEnv]

/-- A CPU that stops before it has the lock leaves its environment current. -/
theorem answered_stop {w : Word} {s : Kernel} {ex : Exit} (hresume : ex ≠ .resume)
    (hhalt : ex ≠ .halt) (hcur : s.ctl.cpuEnv k = some c) : Answered k c w ex s :=
  .inr ⟨hresume, hhalt, hcur⟩

/-- Taking the lock goes on with it, or the CPU stops or waits. -/
theorem lock_answers {s : Kernel} {w : Word} {f : Unit → Kern Unit}
    (hcur : s.ctl.cpuEnv k = some c)
    (hf : wp (f ()) (fun _ _ => False) (Answered k c w) { s with kernelLock := some k }) :
    wp (lockKernel k >>= f) (fun _ _ => False) (Answered k c w) s := by
  simp only [lockKernel, wp_bind, wp_gets]
  cases s.kernelLock with
  | none => exact hf
  | some holder =>
      dsimp only
      rw [wp_ite]
      exact ⟨fun _ => answered_stop (by simp) (by simp) hcur,
        fun _ => answered_stop (by simp) (by simp) hcur⟩

/-- A trap for a system call ends with the call answered. -/
theorem trap_answers {s : Kernel} {tf : Trapframe} {w : Word} (hcs : tf.cs &&& 3 = 3)
    (hcur : s.ctl.cpuEnv k = some c) (hlive : s.ctl.status c ≠ .dying)
    (hsys : tf.trapno = tSyscall) (hanswer : Answer s k c tf w) (cr2 : Word) :
    wp (trap k tf cr2) (fun _ _ => False) (Answered k c w) s := by
  have hbody : trapBody k tf cr2 = do { lockKernel k; userTrap k tf cr2 } := by
    rw [trapBody, if_pos hcs]
  have hcur₁ : (s.setCpu k fun cpu => { cpu with cpuStatus := .started }).ctl.cpuEnv k = some c := by
    rw [ctl_set_cpu_status]
    exact hcur
  rw [trap, wp_bind, wp_gets, wp_ite]
  refine ⟨fun _ => answered_stop (by simp) (by simp) hcur, fun _ => ?_⟩
  rw [wp_bind, wp_gets, wp_bind, modifyCpu, wp_modify, wp_ite, hbody]
  refine ⟨fun _ => ?_, fun _ => ?_⟩
  · -- the CPU would take the lock twice
    refine lock_answers hcur₁ ?_
    simp only [lockKernel, wp_bind, wp_gets, wp_ite]
    exact ⟨fun _ => answered_stop (by simp) (by simp) hcur₁, fun h => absurd trivial h⟩
  · exact lock_answers hcur₁ (user_trap_answers hcur hlive hsys hanswer cr2)

/-! ## Kernel entries -/

section Entry

variable {s s₁ : Kernel} {ex : Exit}

/-- An entry of CPU `k` leaves the other CPUs as they were. -/
theorem entry_others (h : Sole s) (hmode : (s.cpus k).mode ≠ .dead)
    (hlocal : Placed (fun _ => True) s.ctl → Local (fun _ => True) k s.ctl g)
    (hgo : ex ≠ .blocked) (hentry : Entry k g s ex s₁) {j : CpuId} (hj : j ≠ k) :
    (leave k (.exit ex s₁)).ctl.cpuEnv j = s.ctl.cpuEnv j ∧
      (leave k (.exit ex s₁)).ctl.mode j = s.ctl.mode j := by
  have hsame : s₁.ctl.cpuEnv j = s.ctl.cpuEnv j ∧ s₁.ctl.mode j = s.ctl.mode j := by
    rcases h.entry_cases hmode hgo hentry with ⟨⟨hctl, -⟩, -⟩ | ⟨hplaced, hacts, -⟩
    · rw [hctl]
      exact ⟨rfl, rfl⟩
    · have hholds := (hplaced.holds (k := k) trivial).acts (hlocal hplaced) hacts
      exact ⟨hholds.cpuEnv j hj, hholds.mode j hj⟩
  rcases leave_exit k ex s₁ hgo with ⟨-, heq⟩ | ⟨-, -, heq⟩
  · rw [heq]
    exact hsame
  · rw [heq, ctl_set_mode]
    simpa [Ctl.setMode, hj] using hsame

/-- A CPU that executes user code after its entry has loaded the saved frame of its current
environment. -/
theorem entry_resumes (h : Sole s) (hmode : (s.cpus k).mode ≠ .dead) (hgo : ex ≠ .blocked)
    (hentry : Entry k g s ex s₁) {loaded : Trapframe}
    (hcur : (leave k (.exit ex s₁)).ctl.cpuEnv k = some c)
    (huser : (leave k (.exit ex s₁)).ctl.mode k = .user loaded) :
    ex = .resume ∧ loaded = (s₁.envs c).envTf := by
  rcases leave_exit k ex s₁ hgo with ⟨hex, heq⟩ | ⟨-, -, heq⟩
  · rw [heq] at hcur huser
    rcases h.entry_cases hmode hgo hentry with ⟨-, hstop⟩ | ⟨-, -, ⟨-, hstop⟩ | ⟨-, hend⟩⟩
    · exact absurd hex (by simp [hstop])
    · exact absurd hex (by simp [hstop])
    · rcases hend with ⟨e, hcur', -, hhalt, huser'⟩ | ⟨hnone, -⟩
      · have hresume : ex = .resume := hex.resolve_right hhalt
        have hec : e = c := Option.some.inj (hcur'.symm.trans hcur)
        have hloaded := (huser' hresume).symm.trans huser
        refine ⟨hresume, ?_⟩
        rw [← hec]
        exact (CpuMode.user.inj hloaded).symm
      · exact absurd (hnone.symm.trans hcur) (by simp)
  · rw [heq, ctl_set_mode] at huser
    simp [Ctl.setMode] at huser

/-- The environments after an entry are those its exit leaves. -/
theorem envs_leave (k : CpuId) (ex : Exit) (s : Kernel) : (leave k (.exit ex s)).envs = s.envs := by
  cases ex <;> rfl

end Entry

/-- The environment `c` is to be resumed with `w` in `%eax`: its saved frame has it, and so has the
frame of a CPU that executes it. Or it is current on a CPU that has stopped for good. -/
structure Owed (c : EnvIx) (w : Word) (s : Kernel) : Prop where
  sole : Sole s
  held : (∃ k, s.ctl.cpuEnv k = some c ∧ s.ctl.mode k = .dead) ∨
    (s.envs c).envTf.regs.eax = w ∧
      ∀ j loaded, s.ctl.cpuEnv j = some c → s.ctl.mode j = .user loaded → loaded.regs.eax = w

/-- A CPU that executes `c` has loaded what is owed to it. -/
theorem Owed.resumed {s : Kernel} {w : Word} (h : Owed c w s) {j : CpuId} {loaded : Trapframe}
    (hcur : s.ctl.cpuEnv j = some c) (huser : s.ctl.mode j = .user loaded) :
    loaded.regs.eax = w := by
  rcases h.held with ⟨k, hcur', hdead⟩ | ⟨-, hloaded⟩
  · have hjk : j = k := h.sole.excl j k c hcur hcur'
    rw [hjk, hdead] at huser
    cases huser
  · exact hloaded j loaded hcur huser

/-- An entry that ends with `c` answered leaves `c` with what is owed to it. -/
theorem owed_entry {s s₁ : Kernel} {ex : Exit} {w : Word} (h : Sole s)
    (hmode : (s.cpus k).mode ≠ .dead)
    (hlocal : Placed (fun _ => True) s.ctl → Local (fun _ => True) k s.ctl g)
    (hgo : ex ≠ .blocked) (hentry : Entry k g s ex s₁)
    (hothers : ∀ j, j ≠ k → ¬ Executes s j c) (hanswer : Answered k c w ex s₁) :
    Owed c w (leave k (.exit ex s₁)) := by
  refine ⟨h.entry hmode hlocal hgo hentry, ?_⟩
  rcases hanswer with heax | ⟨hresume, hhalt, hcur⟩
  · right
    refine ⟨by rw [envs_leave]; exact heax, fun j loaded hcur huser => ?_⟩
    by_cases hjk : j = k
    · subst hjk
      rw [(entry_resumes h hmode hgo hentry hcur huser).2]
      exact heax
    · have hsame := entry_others h hmode hlocal hgo hentry hjk
      exact absurd (executes_other hsame.1 hsame.2 ⟨hcur, loaded, huser⟩) (hothers j hjk)
  · left
    refine ⟨k, ?_⟩
    rcases leave_exit k ex s₁ hgo with ⟨hex, -⟩ | ⟨-, -, heq⟩
    · exact absurd hex (by simp [hresume, hhalt])
    · rw [heq, ctl_set_mode]
      exact ⟨hcur, by simp [Ctl.setMode]⟩

/-! ## Runs -/

/-- The trap of CPU `k` with the frame `tf` makes a system call that sets the frame of `c`. -/
def SetsFrame (s : Kernel) (k : CpuId) (tf : Trapframe) (c : EnvIx) : Prop :=
  ∃ envid va bytes, Asks s k tf (.envSetTrapframe envid va) ∧
    envid2env s k envid true = some c ∧ s.userBytes k 68 va = some bytes

/-- The environment `c` is still there and waits to be resumed, and the next event does not set
its frame. -/
structure Undisturbed (c : EnvIx) (s : Kernel) (ev : Event) : Prop where
  safe : LocalStatus s ev
  live : (s.envs c).envStatus ≠ .free
  waits : ∀ j, ¬ Executes s j c
  frame : ∀ k tf cr2, ev = .trap k tf cr2 → ¬ SetsFrame s k tf c

/-- A CPU traps from user mode. -/
theorem mode_of_trap {s s' : Kernel} {tf : Trapframe} {cr2 : Word}
    (h : Step s (.trap k tf cr2) s') : ∃ loaded, (s.cpus k).mode = .user loaded := by
  cases h with
  | trap huser _ _ => exact ⟨_, huser⟩

/-- The grant of an entry of another environment spares the frame of `c`. -/
theorem spares_frame_entry {s : Kernel} {tf : Trapframe} {cr2 : Word}
    (h : Undisturbed c s (.trap k tf cr2)) (hslots : s.ctl.FreeList)
    (hother : s.ctl.cpuEnv k ≠ some c) : SparesFrame c (entryGrant s k tf) := by
  refine ⟨?_, ?_⟩
  · rintro f ⟨caller, hcur, hdying, hedit⟩ env
    cases hedit with
    | save => exact absurd hcur hother
    | result r => exact absurd hcur hother
    | fault esp eip => exact absurd hcur hother
    | call htrap hcall =>
        generalize hdec : decodeCall tf.regs = call at hcall
        cases hcall with
        | @trapframe envid va _ bytes he hbytes =>
            exact absurd ⟨envid, va, bytes, ⟨caller, hcur, hdying, htrap, hdec⟩, he, hbytes⟩
              (h.frame k tf cr2 rfl)
        | recv => exact absurd hcur hother
        | exec eip esp => exact absurd hcur hother
        | status hst he => rfl
        | upcall he => rfl
        | send he hrecv => rfl
        | sendPerm sent he hrecv => rfl
  · rintro parent tf' ⟨-, hhead, -, -⟩
    exact h.live (hslots.head hhead)

/-- A step that leaves the control state alone leaves what is owed. -/
theorem Owed.congr {s s' : Kernel} {w : Word} (h : Owed c w s) (hctl : s'.ctl = s.ctl)
    (hlock : s'.kernelLock = s.kernelLock) : Owed c w s' := by
  refine ⟨h.sole.congr hctl hlock, ?_⟩
  have henvs : s'.envs = s.envs := congrArg Ctl.envs hctl
  rw [hctl, henvs]
  exact h.held

/-- One undisturbed step leaves what is owed to `c`. -/
theorem Owed.step {s s' : Kernel} {ev : Event} {w : Word} (h : Owed c w s)
    (hok : Undisturbed c s ev) (hstep : Step s ev s') : Owed c w s' := by
  rcases h.sole.cases hok.safe.1 hstep with
    ⟨hctl, hlock, -⟩ | ⟨k, g, ex, s₁, rfl, hgo, hentry, hmode, -, hg⟩
  · exact h.congr hctl hlock
  · have hlocal := local_grant hok.safe.2 hg
    rcases h.held with ⟨k', hcur, hdead⟩ | ⟨heax, -⟩
    · have hk : k' ≠ k := by
        rintro rfl
        exact hmode hdead
      have hsame := entry_others h.sole hmode hlocal hgo hentry hk
      exact ⟨h.sole.entry hmode hlocal hgo hentry,
        .inl ⟨k', hsame.1.trans hcur, hsame.2.trans hdead⟩⟩
    · refine owed_entry h.sole hmode hlocal hgo hentry (fun j _ => hok.waits j) (.inl ?_)
      rcases h.sole.entry_cases hmode hgo hentry with ⟨⟨hctl, -⟩, -⟩ | ⟨hplaced, hacts, -⟩
      · rw [show s₁.envs = s.envs from congrArg Ctl.envs hctl]
        exact heax
      · have hspares : SparesFrame c g := by
          rcases hg with rfl | ⟨tf, cr2, rfl, rfl⟩
          · exact spares_frame_none c
          · refine spares_frame_entry hok hplaced.slots fun hcur => ?_
            exact hok.waits k ⟨hcur, mode_of_trap hstep⟩
        rw [show (s₁.envs c).envTf = (s.envs c).envTf from env_tf_acts hspares hacts]
        exact heax

theorem Owed.run {s s' : Kernel} {evs : List Event} {w : Word} (h : Owed c w s)
    (hrun : RunIf (Undisturbed c) s evs s') : Owed c w s' := by
  induction hrun with
  | nil => exact h
  | snoc _ hok hstep ih => exact ih.step hok hstep

/-- In the state `s`, the trap of CPU `k` with the frame `tf` sends to `c`, and the call returns 0. -/
def Sends (s : Kernel) (k : CpuId) (tf : Trapframe) (c : EnvIx) : Prop :=
  ∃ sender envid value srcva perm s', Asks s k tf (.ipcTrySend envid value srcva perm) ∧
    (s.cpus k).cpuEnv = some sender ∧ envid2env s k envid false = some c ∧
    syscall k sender (.ipcTrySend envid value srcva perm) (entered s k sender tf) = .ret 0 s'

/-- Between `s` and `s'`, some environment sends to `c` with success. -/
def RecvCompleted (c : EnvIx) (s : Kernel) (evs : List Event) (s' : Kernel) : Prop :=
  ∃ before k tf cr2 after u v, evs = before ++ .trap k tf cr2 :: after ∧
    RunIf (Undisturbed c) s before u ∧ Sends u k tf c ∧ Step u (.trap k tf cr2) v ∧
    RunIf (Undisturbed c) v after s'

/-- The documented return value of the system call that `c` makes in state `s` with the frame
`tf`, when it is resumed after the events `evs` that lead from `s₁` to `s'`. -/
inductive Documented (s : Kernel) (k : CpuId) (c : EnvIx) (tf : Trapframe) (s₁ : Kernel)
    (evs : List Event) (s' : Kernel) : Word → Prop where
  | handler {r : Int} {t : Kernel}
      (hret : syscall k c (decodeCall tf.regs) (entered s k c tf) = .ret r t) :
      Documented s k c tf s₁ evs s' (BitVec.ofInt 32 r)
  | yield (hcall : decodeCall tf.regs = .yield) : Documented s k c tf s₁ evs s' 0
  | recv {dstva : Word} (hcall : decodeCall tf.regs = .ipcRecv dstva)
      (hwaits : Sleeps (.ipcRecv dstva)) (hsent : RecvCompleted c s₁ evs s') :
      Documented s k c tf s₁ evs s' 0

/-- The number of a call that sleeps is not 0. -/
theorem sleeps_number {r : PushRegs} (h : Sleeps (decodeCall r)) : r.eax ≠ 0 := by
  intro hzero
  rw [decodeCall, hzero] at h
  exact h

/-- A call of an environment that executes on CPU `k` leaves it with its answer. -/
theorem owed_call {s s₁ : Kernel} {tf : Trapframe} {cr2 w : Word} (h : Sole s)
    (hsafe : LocalStatus s (.trap k tf cr2)) (hcur : (s.cpus k).cpuEnv = some c)
    (hlive : (s.envs c).envStatus ≠ .dying) (hsys : tf.trapno = tSyscall)
    (hanswer : Answer s k c tf w) (hstep : Step s (.trap k tf cr2) s₁) : Owed c w s₁ := by
  have hothers : ∀ j, j ≠ k → ¬ Executes s j c := fun j hj hexec => hj (h.excl j k c hexec.1 hcur)
  cases hstep with
  | trap huser hframe hgo =>
      have hdead : (s.cpus k).mode ≠ .dead := by simp [huser]
      have hanswers := trap_answers hsafe.1 hcur hlive hsys hanswer cr2
      obtain ⟨ex, s₂, hx, hanswered⟩ := exit_of_wp hanswers
      have hblocked : ex ≠ .blocked := by
        rintro rfl
        rw [hx] at hgo
        exact hgo
      rw [hx]
      rcases h.placed with ⟨holder, hheld, -⟩ | hplaced
      · have hspec : wp (Jos.trap k tf cr2) (fun _ _ => False) (Entry k .none s) s :=
          trap_held_spec hsafe.1 (by simp [hheld]) cr2
        rw [wp_of_exit hx] at hspec
        exact owed_entry h hdead (fun _ => local_none) hblocked hspec hothers hanswered
      · have hspec := trap_spec (k := k) hsafe.1 (hplaced.holds trivial).own cr2
        rw [wp_of_exit hx] at hspec
        exact owed_entry h hdead (local_grant hsafe.2 (.inr ⟨tf, cr2, rfl, rfl⟩)) hblocked hspec
          hothers hanswered

/-- In the reachable state `s` the environment `c` makes on CPU `k` the system call in `tf`, which
leads to `s₁`. It waits undisturbed over the events `evs`, and a CPU executes it in `s'` with the
frame `loaded`. -/
structure CallRun (s : Kernel) (k : CpuId) (c : EnvIx) (tf : Trapframe) (s₁ : Kernel)
    (evs : List Event) (s' : Kernel) (loaded : Trapframe) : Prop where
  reached : ∃ s₀ : Kernel, BootCtl s₀.ctl ∧ ReachIf LocalStatus s₀ s
  caller : (s.cpus k).cpuEnv = some c
  alive : (s.envs c).envStatus ≠ .dying
  number : tf.trapno = tSyscall
  call : ∃ cr2, LocalStatus s (.trap k tf cr2) ∧ Step s (.trap k tf cr2) s₁
  run : RunIf (Undisturbed c) s₁ evs s'
  resumed : ∃ j, (s'.cpus j).cpuEnv = some c ∧ (s'.cpus j).mode = .user loaded

/-- The `%eax` with which an environment is resumed after its system call is the documented return
value exactly if the call is not one that sleeps. -/
theorem syscall_resumes_iff (s s₁ s' : Kernel) (k : CpuId) (c : EnvIx) (tf loaded : Trapframe)
    (v : Word) (evs : List Event) (hrun : CallRun s k c tf s₁ evs s' loaded)
    (hdoc : Documented s k c tf s₁ evs s' v) :
    loaded.regs.eax = v ↔ ¬ Sleeps (decodeCall tf.regs) := by
  have hresumed : ∀ w, Answer s k c tf w → loaded.regs.eax = w := by
    intro w hanswer
    obtain ⟨s₀, hboot, hreach⟩ := hrun.reached
    obtain ⟨cr2, hsafe, hstep⟩ := hrun.call
    obtain ⟨j, hcur, huser⟩ := hrun.resumed
    have howed : Owed c w s₁ := owed_call ((sole_of_boot_ctl hboot).run hreach) hsafe hrun.caller
      hrun.alive hrun.number hanswer hstep
    exact (howed.run hrun.run).resumed hcur huser
  by_cases hsleep : Sleeps (decodeCall tf.regs)
  · have hzero : v = 0 := by
      cases hdoc with
      | handler hret =>
          have hnever := sleeping_call (k := k) (c := c) hsleep (entered s k c tf)
          rw [wp_of_ret hret] at hnever
          exact hnever.elim
      | yield hcall => rfl
      | recv hcall hwaits hsent => rfl
    rw [hresumed _ (.sleeps hsleep), hzero]
    exact iff_of_false (sleeps_number hsleep) (not_not_intro hsleep)
  · refine iff_of_true ?_ hsleep
    cases hdoc with
    | handler hret => exact hresumed _ (.handler hret)
    | yield hcall => exact absurd (hcall ▸ trivial) hsleep
    | recv hcall hwaits hsent => exact absurd (hcall ▸ hwaits) hsleep

/-! ## A run -/

/-- A frame with which an environment makes a system call. -/
def callFrame (regs : PushRegs) : Trapframe :=
  { initialTf with eip := 0x800020, trapno := tSyscall, regs := regs }

/-- CPU 0 makes a system call with the registers `regs`. -/
def calls (regs : PushRegs) : Event := .trap 0 (callFrame regs) 0

theorem local_calls {s : Kernel} {regs : PushRegs} {call : Call} (hcall : decodeCall regs = call)
    (hsets : ∀ e, SetsStatus s 0 call e → ∀ j, (s.cpus j).cpuEnv ≠ some e) :
    LocalStatus s (calls regs) := by
  refine ⟨show initialTf.cs &&& 3 = 3 by decide, fun _ e h j _ => hsets e ?_ j⟩
  rw [← hcall]
  exact h

/-- The state after a kernel entry that can happen. -/
def after (s : Kernel) (ev : Event) : Kernel := (enter s ev).getD s

theorem step_after {s : Kernel} {ev : Event} (h : (enter s ev).isSome = true) :
    Step s ev (after s ev) := by
  refine step_of_enter ?_
  obtain ⟨s', hs'⟩ := Option.isSome_iff_exists.1 h
  rw [after, hs']
  rfl

/-- CPU 0 runs the first environment. -/
def running : Kernel := after demo (.start 0)

/-- The first environment creates a child. -/
def forked : Kernel := after running (calls { eax := 7 })

/-- The child is runnable. -/
def ready : Kernel := after forked (calls { eax := 8, edx := 0x1001, ecx := 2 })

/-- The first environment waits for a message, and the child runs. -/
def waiting : Kernel := after ready (calls { eax := 13, edx := utop })

/-- The child has sent a message to the first environment. -/
def sent : Kernel := after waiting (calls { eax := 12, edx := 0x1000, ebx := utop })

/-- The child has given up the CPU. -/
def woken : Kernel := after sent (calls { eax := 11 })

/-- Each entry of the run can happen. -/
theorem run_enters :
    (enter demo (.start 0)).isSome = true ∧
      (enter running (calls { eax := 7 })).isSome = true ∧
      (enter forked (calls { eax := 8, edx := 0x1001, ecx := 2 })).isSome = true ∧
      (enter ready (calls { eax := 13, edx := utop })).isSome = true ∧
      (enter waiting (calls { eax := 12, edx := 0x1000, ebx := utop })).isSome = true ∧
      (enter sent (calls { eax := 11 })).isSome = true := by
  decide +kernel

/-- In each state of the run, what the next entry reads of it. -/
theorem run_states :
    ((running.cpus 0).cpuEnv = some 0 ∧ (running.envs 0).envStatus ≠ .dying) ∧
      (envid2env forked 0 0x1001 true = some 1 ∧ forked.kernelLock = none ∧
        (forked.envs 1).envStatus ≠ .running ∧ (forked.envs 1).envStatus ≠ .dying) ∧
      ((ready.cpus 0).cpuEnv = some 0 ∧ (ready.envs 0).envStatus ≠ .dying) ∧
      ((waiting.kernelLock = none ∧ (waiting.envs 0).envStatus ≠ .running ∧
        (waiting.envs 0).envStatus ≠ .dying) ∧ (waiting.envs 0).envStatus ≠ .free ∧
        envid2env waiting 0 0x1000 false = some 0 ∧ (waiting.cpus 0).cpuEnv = some 1 ∧
        (waiting.envs 1).envStatus ≠ .dying) ∧
      ((sent.kernelLock = none ∧ (sent.envs 0).envStatus ≠ .running ∧
        (sent.envs 0).envStatus ≠ .dying) ∧ (sent.envs 0).envStatus ≠ .free) ∧
      (woken.cpus 0).cpuEnv = some 0 ∧
        (woken.cpus 0).mode = .user (woken.envs 0).envTf ∧
        (woken.envs 0).envTf.regs.eax = 13 := by
  decide +kernel

theorem reach_running : ReachIf LocalStatus demo running :=
  ReflTransGen.single ⟨.start 0, ⟨trivial, trivial⟩, step_after run_enters.1⟩

/-- When the lock is free, an environment that neither runs nor is dying is current nowhere. -/
theorem Sole.not_current {s : Kernel} (h : Sole s) (hlock : s.kernelLock = none)
    (hst : (s.envs c).envStatus ≠ .running ∧ (s.envs c).envStatus ≠ .dying) (j : CpuId) :
    (s.cpus j).cpuEnv ≠ some c := by
  intro hcur
  rcases h.placed with ⟨holder, hheld, -⟩ | hplaced
  · rw [hlock] at hheld
    cases hheld
  · rcases hplaced.busy j c trivial hcur with hbusy | hbusy
    · exact hst.1 hbusy
    · exact hst.2 hbusy

theorem reach_forked : ReachIf LocalStatus demo forked :=
  reach_running.tail ⟨calls { eax := 7 },
    local_calls (rfl : decodeCall { eax := 7 } = .exofork) fun _ h => h.elim,
    step_after run_enters.2.1⟩

theorem reach_ready : ReachIf LocalStatus demo ready := by
  obtain ⟨hchild, hlock, hidle⟩ := run_states.2.1
  have hsole : Sole forked := (sole_of_boot_ctl demo_boot_ctl).run reach_forked
  refine reach_forked.tail ⟨calls { eax := 8, edx := 0x1001, ecx := 2 }, local_calls
    (rfl : decodeCall { eax := 8, edx := 0x1001, ecx := 2 } = .envSetStatus 0x1001 2) ?_,
    step_after run_enters.2.2.1⟩
  rintro e ⟨-, he⟩
  have h1e : (1 : EnvIx) = e := Option.some.inj (hchild.symm.trans he)
  rw [← h1e]
  exact hsole.not_current hlock hidle

/-- The first environment has made itself runnable, and the child runs. -/
def parked : Kernel := after ready (calls { eax := 8, edx := 0, ecx := 2 })

/-- The child has given up the CPU. -/
def back : Kernel := after parked (calls { eax := 11 })

/-- Both entries can happen, and the call of `sys_env_set_status` returns 0. -/
theorem parked_enters :
    (enter ready (calls { eax := 8, edx := 0, ecx := 2 })).isSome = true ∧
      (enter parked (calls { eax := 11 })).isSome = true ∧
      (syscall 0 0 (.envSetStatus 0 2)
        (entered ready 0 0 (callFrame { eax := 8, edx := 0, ecx := 2 }))).returned = some 0 := by
  decide +kernel

/-- In each of the states, what the next entry reads of it. -/
theorem parked_states :
    envid2env ready 0 0 true = some 0 ∧
      ((parked.kernelLock = none ∧ (parked.envs 0).envStatus ≠ .running ∧
        (parked.envs 0).envStatus ≠ .dying) ∧ (parked.envs 0).envStatus ≠ .free ∧
        (parked.cpus 0).cpuEnv = some 1) ∧
      (back.cpus 0).cpuEnv = some 0 ∧ (back.cpus 0).mode = .user (back.envs 0).envTf := by
  decide +kernel

theorem local_park : LocalStatus ready (calls { eax := 8, edx := 0, ecx := 2 }) := by
  have hsole : Sole ready := (sole_of_boot_ctl demo_boot_ctl).run reach_ready
  refine ⟨show initialTf.cs &&& 3 = 3 by decide, ?_⟩
  rintro - e ⟨-, he⟩ j hj hcur
  have h0e : (0 : EnvIx) = e := Option.some.inj (parked_states.1.symm.trans he)
  rw [← h0e] at hcur
  exact hj (hsole.excl j 0 0 hcur run_states.2.2.1.1)

/-- A yield of the child does not disturb the first environment. -/
theorem undisturbed_yield {s : Kernel} (hsole : Sole s) (hlock : s.kernelLock = none)
    (hrest : (s.envs 0).envStatus ≠ .running ∧ (s.envs 0).envStatus ≠ .dying)
    (hlive : (s.envs 0).envStatus ≠ .free) : Undisturbed 0 s (calls { eax := 11 }) := by
  refine ⟨local_calls (rfl : decodeCall { eax := 11 } = .yield) fun _ h => h.elim, hlive,
    fun j hj => hsole.not_current hlock hrest j hj.1, ?_⟩
  rintro k tf cr2 hev ⟨envid, va, bytes, ⟨_, _, _, _, hcall⟩, -⟩
  cases hev
  cases hcall

/-- An environment that makes itself runnable gives up the CPU. It is resumed with the 0 that the
handler returned, after the child has run. -/
theorem syscall_resumes_iff_runnable :
    (back.envs 0).envTf.regs.eax = BitVec.ofInt 32 0 ↔ ¬ Sleeps (.envSetStatus 0 2) := by
  obtain ⟨hpark, hyield, hret⟩ := parked_enters
  obtain ⟨hcaller, halive⟩ := run_states.2.2.1
  obtain ⟨⟨⟨hlock, hrest⟩, hlive, -⟩, hcur, huser⟩ := parked_states.2
  have hsole : Sole parked := (sole_of_boot_ctl demo_boot_ctl).run
    (reach_ready.tail ⟨_, local_park, step_after hpark⟩)
  have hrun : RunIf (Undisturbed 0) parked [calls { eax := 11 }] back :=
    RunIf.snoc .nil (undisturbed_yield hsole hlock hrest hlive) (step_after hyield)
  have hset := Prog.ret_of_returned (x := syscall 0 0 (.envSetStatus 0 2))
    (s := entered ready 0 0 (callFrame { eax := 8, edx := 0, ecx := 2 })) hret
  exact syscall_resumes_iff ready parked back 0 0 (callFrame { eax := 8, edx := 0, ecx := 2 })
    _ _ _ ⟨⟨demo, demo_boot_ctl, reach_ready⟩, hcaller, halive, rfl,
      ⟨0, local_park, step_after hpark⟩, hrun, 0, hcur, huser⟩ (.handler hset)

theorem local_recv : LocalStatus ready (calls { eax := 13, edx := utop }) :=
  local_calls (rfl : decodeCall { eax := 13, edx := utop } = .ipcRecv utop) fun _ h => h.elim

theorem step_recv : Step ready (calls { eax := 13, edx := utop }) waiting :=
  step_after run_enters.2.2.2.1

theorem reach_waiting : ReachIf LocalStatus demo waiting :=
  reach_ready.tail ⟨_, local_recv, step_recv⟩

theorem step_send : Step waiting (calls { eax := 12, edx := 0x1000, ebx := utop }) sent :=
  step_after run_enters.2.2.2.2.1

theorem step_yield : Step sent (calls { eax := 11 }) woken :=
  step_after run_enters.2.2.2.2.2

/-- The send of the child does not disturb the first environment. -/
theorem undisturbed_send :
    Undisturbed 0 waiting (calls { eax := 12, edx := 0x1000, ebx := utop }) := by
  obtain ⟨⟨hlock, hrest⟩, hlive, hfirst, -⟩ := run_states.2.2.2.1
  have hsole : Sole waiting := (sole_of_boot_ctl demo_boot_ctl).run reach_waiting
  have hidle : ∀ j, (waiting.cpus j).cpuEnv ≠ some 0 := hsole.not_current hlock hrest
  refine ⟨local_calls (rfl : decodeCall { eax := 12, edx := 0x1000, ebx := utop } =
    .ipcTrySend 0x1000 0 utop 0) ?_, hlive, fun j hj => hidle j hj.1, ?_⟩
  · rintro e ⟨he, -⟩
    have h0e : (0 : EnvIx) = e := Option.some.inj (hfirst.symm.trans he)
    rw [← h0e]
    exact hidle
  · rintro k tf cr2 hev ⟨envid, va, bytes, ⟨_, _, _, _, hcall⟩, -⟩
    cases hev
    cases hcall

theorem reach_sent : ReachIf LocalStatus demo sent :=
  reach_waiting.tail ⟨_, undisturbed_send.safe, step_send⟩

/-- The send of the child succeeds. -/
theorem sends_waiting : Sends waiting 0 (callFrame { eax := 12, edx := 0x1000, ebx := utop }) 0 := by
  obtain ⟨-, -, hfirst, hcur, halive⟩ := run_states.2.2.2.1
  have hret : (syscall 0 1 (.ipcTrySend 0x1000 0 utop 0) (entered waiting 0 1
      (callFrame { eax := 12, edx := 0x1000, ebx := utop }))).returned = some 0 := by decide +kernel
  have hsend := Prog.ret_of_returned (x := syscall 0 1 (.ipcTrySend 0x1000 0 utop 0)) hret
  exact ⟨1, 0x1000, 0, utop, 0, _, ⟨1, hcur, halive, rfl, rfl⟩, hcur, hfirst, hsend⟩

/-- A successful send completes the `sys_ipc_recv` of the first environment, which is resumed with
13, the number of the call, where the documented return value is 0. -/
theorem recv_resumes_with_its_number :
    ∃ s s₁ s' k c tf evs loaded, CallRun s k c tf s₁ evs s' loaded ∧
      decodeCall tf.regs = .ipcRecv utop ∧ Documented s k c tf s₁ evs s' 0 ∧
      loaded.regs.eax = 13 := by
  obtain ⟨hcaller, halive⟩ := run_states.2.2.1
  obtain ⟨hcur, huser, heax⟩ := run_states.2.2.2.2.2
  obtain ⟨⟨hlock, hrest⟩, hlive⟩ := run_states.2.2.2.2.1
  have hquiet : Undisturbed 0 sent (calls { eax := 11 }) :=
    undisturbed_yield ((sole_of_boot_ctl demo_boot_ctl).run reach_sent) hlock hrest hlive
  have hback : RunIf (Undisturbed 0) sent [calls { eax := 11 }] woken :=
    RunIf.snoc .nil hquiet step_yield
  have hrun : RunIf (Undisturbed 0) waiting
      [calls { eax := 12, edx := 0x1000, ebx := utop }, calls { eax := 11 }] woken :=
    RunIf.snoc (RunIf.snoc .nil undisturbed_send step_send) hquiet step_yield
  refine ⟨ready, waiting, woken, 0, 0, callFrame { eax := 13, edx := utop }, _,
    (woken.envs 0).envTf, ⟨⟨demo, demo_boot_ctl, reach_ready⟩, hcaller, halive, rfl,
      ⟨0, local_recv, step_recv⟩, hrun, 0, hcur, huser⟩, rfl, ?_, heax⟩
  exact .recv rfl (show Sleeps (.ipcRecv utop) from fun h => absurd h.1 (BitVec.lt_irrefl utop))
    ⟨[], 0, _, 0, _, waiting, sent, rfl, .nil, sends_waiting, step_send, hback⟩

end Labs.Jos
