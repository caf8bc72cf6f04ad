import Labs.Jos.Control

/-!
# Kernel entries refine the control machine

Every function of the kernel is shown to change the control state by a sequence of actions.
The functions of `kern/pmap.c` do not change it at all. Each lemma follows the code of its
function, so a change to one function concerns one lemma.
-/

namespace Labs.Jos

open Prog Relation

/-! ## Functions that leave the control state alone -/

/-- The control state and the lock are the same. -/
def Quiet (s s' : Kernel) : Prop := s'.ctl = s.ctl ∧ s'.kernelLock = s.kernelLock

/-- The control state and the lock are the same, and the CPU stops for good. -/
def QuietExit (s : Kernel) (ex : Exit) (s' : Kernel) : Prop :=
  Quiet s s' ∧ ex ≠ .resume ∧ ex ≠ .halt

instance : Composes Quiet QuietExit where
  refl _ := ⟨rfl, rfl⟩
  trans h h' := ⟨h'.1.trans h.1, h'.2.trans h.2⟩
  absorb h h' := ⟨⟨h'.1.1.trans h.1, h'.1.2.trans h.2⟩, h'.2⟩

/-- A kernel function that leaves the control state alone. -/
def IsQuiet {α : Type} (x : Kern α) : Prop := Keeps Quiet QuietExit x

theorem quiet_panic {α : Type} (msg : String) : IsQuiet (panic msg : Kern α) := by
  intro s
  refine ⟨⟨rfl, rfl⟩, ?_, ?_⟩ <;> simp

theorem quiet_deref {α : Type} (p : Option α) : IsQuiet (deref p) := by
  cases p with
  | none => exact keeps_exit fun s => ⟨⟨rfl, rfl⟩, by simp, by simp⟩
  | some a => exact keeps_pure a

theorem quiet_read_word (p i : Nat) : IsQuiet (readWord p i) := keeps_gets _

theorem quiet_write_word (p i : Nat) (w : Word) : IsQuiet (writeWord p i w) :=
  keeps_modify fun _ => ⟨rfl, rfl⟩

theorem quiet_modify_page (p : Nat) (f : PageInfo → PageInfo) : IsQuiet (modifyPage p f) :=
  keeps_modify fun _ => ⟨rfl, rfl⟩

/-- A change of a CPU's translation state leaves the control state alone. -/
theorem ctl_set_cpu (s : Kernel) (k : CpuId) (f : CpuInfo → CpuInfo)
    (henv : (f (s.cpus k)).cpuEnv = (s.cpus k).cpuEnv)
    (hstatus : (f (s.cpus k)).cpuStatus = (s.cpus k).cpuStatus)
    (hmode : (f (s.cpus k)).mode = (s.cpus k).mode) : (s.setCpu k f).ctl = s.ctl := by
  simp only [Kernel.ctl, Kernel.setCpu, Ctl.mk.injEq, true_and, and_true]
  refine ⟨?_, ?_, ?_⟩ <;> funext j <;> by_cases hj : j = k
  · subst hj; simpa using henv
  · simp [hj]
  · subst hj; simpa using hstatus
  · simp [hj]
  · subst hj; simpa using hmode
  · simp [hj]

theorem quiet_lcr3 (k : CpuId) (dir : Nat) : IsQuiet (lcr3 k dir) :=
  keeps_modify fun s => ⟨ctl_set_cpu s k _ rfl rfl rfl, rfl⟩

theorem quiet_invlpg (k : CpuId) (va : Word) : IsQuiet (invlpg k va) :=
  keeps_modify fun s => ⟨ctl_set_cpu s k _ rfl rfl rfl, rfl⟩

theorem quiet_kaddr (pa : Word) : IsQuiet (kaddr pa) :=
  keeps_bind (keeps_gets _) fun _ => keeps_ite (quiet_panic _) (keeps_pure _)

theorem quiet_pa2page (pa : Word) : IsQuiet (pa2page pa) :=
  keeps_bind (keeps_gets _) fun _ => keeps_ite (quiet_panic _) (keeps_pure _)

theorem quiet_zero_page (pp : Nat) : IsQuiet (zeroPage pp) :=
  keeps_bind (quiet_kaddr _) fun _ => keeps_modify fun _ => ⟨rfl, rfl⟩

theorem quiet_page_alloc (zero : Bool) : IsQuiet (pageAlloc zero) := by
  refine keeps_bind (keeps_gets _) fun head => ?_
  cases head with
  | none => exact keeps_pure _
  | some pp =>
      refine keeps_bind (keeps_modify fun _ => ⟨rfl, rfl⟩) fun _ => ?_
      refine keeps_bind (quiet_modify_page _ _) fun _ => ?_
      exact keeps_ite (keeps_bind (quiet_zero_page pp) fun _ => keeps_pure _) (keeps_pure _)

theorem quiet_page_free (pp : Nat) : IsQuiet (pageFree pp) := by
  refine keeps_bind (keeps_gets _) fun _ => keeps_ite (quiet_panic _) ?_
  refine keeps_bind (keeps_gets _) fun _ => keeps_bind (quiet_modify_page _ _) fun _ => ?_
  exact keeps_modify fun _ => ⟨rfl, rfl⟩

theorem quiet_page_decref (pp : Nat) : IsQuiet (pageDecref pp) := by
  refine keeps_bind (quiet_modify_page _ _) fun _ => keeps_bind (keeps_gets _) fun _ => ?_
  exact keeps_ite (quiet_page_free pp) (keeps_pure _)

theorem quiet_new_page_table (pgdir : Nat) (va : Word) : IsQuiet (newPageTable pgdir va) := by
  refine keeps_bind (quiet_page_alloc true) fun page => ?_
  cases page with
  | none => exact keeps_pure _
  | some pp =>
      refine keeps_bind (quiet_modify_page _ _) fun _ => ?_
      exact keeps_bind (quiet_write_word _ _ _) fun _ => keeps_pure _

theorem quiet_have_table (pgdir : Nat) (va : Word) (create : Bool) :
    IsQuiet (haveTable pgdir va create) := by
  refine keeps_bind (quiet_read_word _ _) fun _ => keeps_ite (keeps_pure _) ?_
  exact keeps_ite (quiet_new_page_table pgdir va) (keeps_pure _)

theorem quiet_pgdir_walk (pgdir : Nat) (va : Word) (create : Bool) :
    IsQuiet (pgdirWalk pgdir va create) := by
  refine keeps_bind (quiet_have_table _ _ _) fun there => keeps_ite ?_ (keeps_pure _)
  refine keeps_bind (quiet_read_word _ _) fun _ => ?_
  exact keeps_bind (quiet_kaddr _) fun _ => keeps_pure _

theorem quiet_tlb_invalidate (k : CpuId) (pgdir : Nat) (va : Word) :
    IsQuiet (tlbInvalidate k pgdir va) := by
  refine keeps_bind keeps_get fun s => ?_
  cases (s.cpus k).cpuEnv with
  | none => exact quiet_invlpg k va
  | some c => exact keeps_ite (quiet_invlpg k va) (keeps_pure _)

theorem quiet_page_lookup (pgdir : Nat) (va : Word) : IsQuiet (pageLookup pgdir va) := by
  refine keeps_bind (quiet_pgdir_walk _ _ _) fun pte => ?_
  cases pte with
  | none => exact keeps_pure _
  | some pte =>
      refine keeps_bind (quiet_read_word _ _) fun _ => keeps_ite ?_ (keeps_pure _)
      exact keeps_bind (quiet_pa2page _) fun _ => keeps_pure _

theorem quiet_page_remove (k : CpuId) (pgdir : Nat) (va : Word) :
    IsQuiet (pageRemove k pgdir va) := by
  refine keeps_bind (quiet_page_lookup _ _) fun found => ?_
  cases found with
  | none => exact keeps_pure _
  | some found =>
      refine keeps_bind (quiet_write_word _ _ _) fun _ => ?_
      exact keeps_bind (quiet_tlb_invalidate _ _ _) fun _ => quiet_page_decref _

theorem quiet_page_insert_new (k : CpuId) (pgdir pp : Nat) (va perm : Word) (pte : PteRef) :
    IsQuiet (pageInsertNew k pgdir pp va perm pte) := by
  refine keeps_bind (quiet_modify_page _ _) fun _ => ?_
  refine keeps_bind (quiet_write_word _ _ _) fun _ => ?_
  exact keeps_bind (quiet_tlb_invalidate _ _ _) fun _ => keeps_pure _

theorem quiet_page_insert (k : CpuId) (pgdir pp : Nat) (va perm : Word) :
    IsQuiet (pageInsert k pgdir pp va perm) := by
  refine keeps_bind (quiet_pgdir_walk _ _ _) fun pte => ?_
  cases pte with
  | none => exact keeps_pure _
  | some pte =>
      refine keeps_bind (quiet_read_word _ _) fun _ => ?_
      refine keeps_ite (keeps_ite ?_ ?_) (quiet_page_insert_new _ _ _ _ _ _)
      · refine keeps_bind (quiet_write_word _ _ _) fun _ => ?_
        exact keeps_bind (quiet_tlb_invalidate _ _ _) fun _ => keeps_pure _
      · exact keeps_bind (quiet_page_remove _ _ _) fun _ => quiet_page_insert_new _ _ _ _ _ _

theorem quiet_env_free_table (k : CpuId) (pgdir pdeno : Nat) :
    IsQuiet (envFreeTable k pgdir pdeno) := by
  refine keeps_bind (quiet_read_word _ _) fun pde => keeps_ite ?_ (keeps_pure _)
  refine keeps_bind (quiet_kaddr _) fun pt => ?_
  refine keeps_bind ?_ fun _ => ?_
  · apply keeps_for_upto
    intro pteno
    refine keeps_bind (quiet_read_word _ _) fun _ => ?_
    exact keeps_ite (quiet_page_remove _ _ _) (keeps_pure _)
  · refine keeps_bind (quiet_write_word _ _ _) fun _ => ?_
    exact keeps_bind (quiet_pa2page _) fun _ => quiet_page_decref _

theorem quiet_alloc_region (who : String) (k : CpuId) (pgdir : Nat) (va len perm : Word) :
    IsQuiet (allocRegion who k pgdir va len perm) := by
  refine keeps_for_upto (fun i => keeps_bind (quiet_page_alloc true) fun page => ?_) _
  cases page with
  | none => exact quiet_panic _
  | some pp =>
      refine keeps_bind (quiet_page_insert _ _ _ _ _) fun _ => ?_
      exact keeps_ite (quiet_panic _) (keeps_pure _)

theorem quiet_time_tick : IsQuiet timeTick := by
  refine keeps_bind (keeps_modify fun _ => ⟨rfl, rfl⟩) fun _ => keeps_bind (keeps_gets _) ?_
  exact fun _ => keeps_ite (quiet_panic _) (keeps_pure _)

/-! ## Functions that only read -/

/-- Only the log of accesses and the address of the last failed check have changed. -/
def Looked (s s' : Kernel) : Prop :=
  ∃ log addr, s' = { s with accesses := log, userMemCheckAddr := addr }

theorem Looked.quiet {s s' : Kernel} (h : Looked s s') : Quiet s s' := by
  obtain ⟨log, addr, rfl⟩ := h
  exact ⟨rfl, rfl⟩

theorem Looked.refl (s : Kernel) : Looked s s := ⟨s.accesses, s.userMemCheckAddr, rfl⟩

theorem Looked.trans {s t u : Kernel} (h : Looked s t) (h' : Looked t u) : Looked s u := by
  obtain ⟨log, addr, rfl⟩ := h
  obtain ⟨log', addr', rfl⟩ := h'
  exact ⟨log', addr', rfl⟩

instance : Composes Looked QuietExit where
  refl := Looked.refl
  trans := Looked.trans
  absorb h h' := Composes.absorb (R := Quiet) h.quiet h'

/-- Quiet exits follow from quietness alone. -/
theorem Looked.of_same {α : Type} {x : Kern α} (hx : IsQuiet x)
    (hsame : ∀ s, wp x (fun _ s' => Looked s s') (fun _ _ => True) s) :
    Keeps Looked QuietExit x :=
  fun s => wp_mono (wp_and (hsame s) (hx s)) (fun _ _ h => h.1) fun _ _ h => h.2

theorem looked_kaddr (pa : Word) : Keeps Looked QuietExit (kaddr pa) :=
  keeps_bind (keeps_gets _) fun _ =>
    keeps_ite (Looked.of_same (quiet_panic _) fun _ => trivial) (keeps_pure _)

/-- A walk that creates nothing leaves the state alone. -/
theorem looked_pgdir_walk (pgdir : Nat) (va : Word) :
    Keeps Looked QuietExit (pgdirWalk pgdir va false) := by
  refine keeps_bind ?_ fun there => keeps_ite ?_ (keeps_pure _)
  · refine keeps_bind (keeps_gets _) fun _ => keeps_ite (keeps_pure _) ?_
    exact keeps_pure _
  · refine keeps_bind (keeps_gets _) fun _ => ?_
    exact keeps_bind (looked_kaddr _) fun _ => keeps_pure _

theorem looked_user_mem_check_loop (pgdir : Nat) (stop perm : Word) (fuel : Nat) (addr : Word) :
    Keeps Looked QuietExit (userMemCheckLoop pgdir stop perm fuel addr) := by
  induction fuel generalizing addr with
  | zero => exact keeps_exit fun s => ⟨⟨rfl, rfl⟩, by simp, by simp⟩
  | succ fuel ih =>
      rw [userMemCheckLoop]
      refine keeps_ite (keeps_bind (looked_pgdir_walk _ _) fun pte => ?_) (keeps_pure _)
      cases pte with
      | none => exact keeps_pure _
      | some pte =>
          refine keeps_bind (keeps_gets _) fun _ => ?_
          exact keeps_ite (ih _) (keeps_pure _)

theorem looked_deref {α : Type} (p : Option α) : Keeps Looked QuietExit (deref p) := by
  cases p with
  | none => exact keeps_exit fun s => ⟨⟨rfl, rfl⟩, by simp, by simp⟩
  | some a => exact keeps_pure a

theorem looked_user_mem_check (env : EnvIx) (va len perm : Word) :
    Keeps Looked QuietExit (userMemCheck env va len perm) := by
  have hfail : Keeps Looked QuietExit (do
      modify fun s => { s with userMemCheckAddr := va }
      pure (-eFault) : Kern Int) :=
    keeps_bind (keeps_modify fun s => ⟨s.accesses, va, rfl⟩) fun _ => keeps_pure _
  refine keeps_ite hfail (keeps_bind (keeps_gets _) fun _ => ?_)
  refine keeps_bind (looked_deref _) fun _ => ?_
  refine keeps_bind (looked_user_mem_check_loop _ _ _ _ _) fun _ => ?_
  exact keeps_ite (keeps_pure _) hfail

/-! ## Running and halting -/

/-- CPU `k` has left the scheduler: it runs its current environment, or it is halted. -/
def Settled (k : CpuId) (ex : Exit) (t : Ctl) : Prop :=
  (∃ e, t.cpuEnv k = some e ∧ t.status e = .running ∧ ex ≠ .halt ∧
      (ex = .resume → t.mode k = .user (t.envs e).envTf)) ∨
    (t.cpuEnv k = none ∧ t.mode k = .halted ∧ t.cpuStatus k = .halted ∧ ex = .halt)

/-- Actions of CPU `k` led from `s` to `s'`, with the lock as before. -/
def Does (k : CpuId) (g : Grant) (s s' : Kernel) : Prop :=
  Acts k g s.ctl s'.ctl ∧ s'.kernelLock = s.kernelLock

/-- Actions of CPU `k` led from `s` to `s'`, where it left the kernel. Either it stopped for good
with the lock as before, or it released the lock and settled. -/
def Leaves (k : CpuId) (g : Grant) (s : Kernel) (ex : Exit) (s' : Kernel) : Prop :=
  Acts k g s.ctl s'.ctl ∧
    (s'.kernelLock = s.kernelLock ∧ ex ≠ .resume ∧ ex ≠ .halt ∨
      s.kernelLock = some k ∧ s'.kernelLock = none ∧ Settled k ex s'.ctl)

variable {k : CpuId} {g : Grant}

theorem Leaves.of_acts {s t u : Kernel} {ex : Exit} (h : Does k g s t) (h' : Leaves k g t ex u) :
    Leaves k g s ex u := by
  refine ⟨h.1.trans h'.1, ?_⟩
  rw [← h.2]
  exact h'.2

theorem Quiet.does {s s' : Kernel} (h : Quiet s s') : Does k g s s' := by
  refine ⟨?_, h.2⟩
  rw [h.1]
  exact ReflTransGen.refl

theorem QuietExit.leaves {s s' : Kernel} {ex : Exit} (h : QuietExit s ex s') :
    Leaves k g s ex s' := by
  refine ⟨?_, .inl ⟨h.1.2, h.2⟩⟩
  rw [h.1.1]
  exact ReflTransGen.refl

instance : Composes (Does k g) (Leaves k g) where
  refl _ := ⟨ReflTransGen.refl, rfl⟩
  trans h h' := ⟨h.1.trans h'.1, h'.2.trans h.2⟩
  absorb := Leaves.of_acts

instance : Composes Quiet (Leaves k g) where
  refl _ := ⟨rfl, rfl⟩
  trans := Composes.trans (E := QuietExit)
  absorb h := Leaves.of_acts h.does

instance : Composes Looked (Leaves k g) where
  refl := Looked.refl
  trans := Looked.trans
  absorb h := Leaves.of_acts h.quiet.does

theorem IsQuiet.leaves {α : Type} {x : Kern α} (h : IsQuiet x) : Keeps Quiet (Leaves k g) x :=
  h.imp (fun _ _ h => h) fun _ _ _ h => h.leaves

theorem ctl_set_env (s : Kernel) (e : EnvIx) (f : Env → Env) :
    (s.setEnv e f).ctl = s.ctl.setEnv e f :=
  rfl

theorem ctl_set_cpu_env (s : Kernel) (k : CpuId) (cur : Option EnvIx) :
    (s.setCpu k fun c => { c with cpuEnv := cur }).ctl = s.ctl.setCpuEnv k cur := by
  simp only [Kernel.ctl, Kernel.setCpu, Ctl.setCpuEnv, Ctl.mk.injEq, true_and, and_true]
  refine ⟨?_, ?_, ?_⟩ <;> funext j <;> by_cases hj : j = k <;> simp [hj]

theorem ctl_set_cpu_status (s : Kernel) (k : CpuId) (st : CpuStatus) :
    (s.setCpu k fun c => { c with cpuStatus := st }).ctl = s.ctl.setCpuStatus k st := by
  simp only [Kernel.ctl, Kernel.setCpu, Ctl.setCpuStatus, Ctl.mk.injEq, true_and, and_true]
  refine ⟨?_, ?_, ?_⟩ <;> funext j <;> by_cases hj : j = k <;> simp [hj]

theorem ctl_set_mode (s : Kernel) (k : CpuId) (m : CpuMode) :
    (s.setCpu k fun c => { c with mode := m }).ctl = s.ctl.setMode k m := by
  simp only [Kernel.ctl, Kernel.setCpu, Ctl.setMode, Ctl.mk.injEq, true_and, and_true]
  refine ⟨?_, ?_, ?_⟩ <;> funext j <;> by_cases hj : j = k <;> simp [hj]

/-- The state after `descheduleCurenv`. -/
def Kernel.descheduled (s : Kernel) (k : CpuId) : Kernel :=
  match (s.cpus k).cpuEnv with
  | none => s
  | some c => s.setEnv c fun env =>
      if env.envStatus = .running then { env with envStatus := .runnable } else env

theorem deschedule_curenv_eq (k : CpuId) (s : Kernel) :
    descheduleCurenv k s = .ret () (s.descheduled k) := by
  simp only [descheduleCurenv, curenv, Kernel.descheduled, bind, gets]
  cases (s.cpus k).cpuEnv <;> rfl

theorem ctl_descheduled (s : Kernel) (k : CpuId) :
    (s.descheduled k).ctl = s.ctl.deschedule k := by
  simp only [Kernel.descheduled, Ctl.deschedule]
  show _ = match (s.cpus k).cpuEnv with
    | none => s.ctl
    | some c => _
  cases (s.cpus k).cpuEnv <;> rfl

@[simp] theorem descheduled_lock (s : Kernel) (k : CpuId) :
    (s.descheduled k).kernelLock = s.kernelLock := by
  simp only [Kernel.descheduled]
  cases (s.cpus k).cpuEnv <;> rfl

/-- The state in which `env_run` has made `e` the running environment of CPU `k`. -/
def Kernel.dispatched (s : Kernel) (k : CpuId) (e : EnvIx) : Kernel :=
  ((s.descheduled k).setCpu k fun c => { c with cpuEnv := some e }).setEnv e fun env =>
    { env with envStatus := .running, envRuns := env.envRuns + 1 }

theorem ctl_dispatched (s : Kernel) (k : CpuId) (e : EnvIx) :
    (s.dispatched k e).ctl = s.ctl.dispatch k e := by
  rw [Ctl.dispatch, ← ctl_descheduled, ← ctl_set_cpu_env]
  rfl

@[simp] theorem dispatched_lock (s : Kernel) (k : CpuId) (e : EnvIx) :
    (s.dispatched k e).kernelLock = s.kernelLock :=
  descheduled_lock s k

/-- `env_run` after it has chosen what to run. -/
theorem env_run_eq (k : CpuId) (e : EnvIx) (s : Kernel) :
    envRun k e s = (do
      let pgdir ← deref (← gets fun s => (s.envs e).envPgdir)
      lcr3 k pgdir
      unlockKernel k
      envPopTf k e : Kern Unit) (s.dispatched k e) := by
  simp only [envRun, bind, deschedule_curenv_eq, modifyCpu, modifyEnv, Prog.modify]
  rfl

theorem status_dispatch (t : Ctl) (k : CpuId) (e : EnvIx) :
    (t.dispatch k e).status e = .running := by
  simp [Ctl.dispatch, Ctl.status, Ctl.setEnv]

theorem cpu_env_dispatch (t : Ctl) (k : CpuId) (e : EnvIx) :
    (t.dispatch k e).cpuEnv k = some e := by
  simp [Ctl.dispatch, Ctl.setEnv, Ctl.setCpuEnv]

/-- Once the lock is released, `env_pop_tf` resumes the dispatched environment or faults. -/
theorem leaves_env_pop_tf {s s₀ : Kernel} {e : EnvIx} (hacts : Acts k g s₀.ctl s.ctl)
    (hlock : s₀.kernelLock = some k) (hfree : s.kernelLock = none)
    (hcur : s.ctl.cpuEnv k = some e) (hrun : s.ctl.status e = .running) :
    wp (envPopTf k e) (fun _ _ => False) (Leaves k g s₀) s := by
  have hacts' := hacts.tail (Act.cpunum (k := k) (g := g) (e := e))
  have hrun' : (s.ctl.setEnv e fun env => { env with envCpunum := k }).status e = .running := by
    simpa [Ctl.status, Ctl.setEnv] using hrun
  simp only [envPopTf, modifyEnv, modifyCpu, wp_bind, wp_modify, wp_gets, wp_ite, wp_exit]
  refine ⟨fun _ => ⟨?_, .inr ⟨hlock, hfree, .inl ⟨e, ?_, ?_, by simp, fun _ => ?_⟩⟩⟩, fun _ =>
    ⟨hacts', .inr ⟨hlock, hfree, .inl ⟨e, hcur, hrun', by simp, by simp⟩⟩⟩⟩
  · rw [ctl_set_mode]
    exact hacts'.tail (Act.resume hcur hrun')
  · rw [ctl_set_mode]
    exact hcur
  · rw [ctl_set_mode]
    exact hrun'
  · rw [ctl_set_mode]
    simp only [Ctl.setMode, Function.update_self]
    rfl

/-- `env_run` never returns: it dispatches a runnable environment, or the current one. -/
theorem leaves_env_run {s : Kernel} {e : EnvIx}
    (hrun : s.ctl.status e = .runnable ∨
      s.ctl.cpuEnv k = some e ∧ s.ctl.status e = .running) :
    wp (envRun k e) (fun _ _ => False) (Leaves k g s) s := by
  rw [wp, env_run_eq, ← wp]
  have hacts : Acts k g s.ctl (s.dispatched k e).ctl := by
    rw [ctl_dispatched]
    exact (Act.dispatch hrun).acts
  simp only [wp_bind, wp_gets]
  cases hdir : ((s.dispatched k e).envs e).envPgdir with
  | none => exact ⟨hacts, .inl ⟨dispatched_lock s k e, by simp, by simp⟩⟩
  | some p =>
      have hctl : ((s.dispatched k e).setCpu k fun c =>
          { c with cr3 := p, tlb := fun _ _ => False }).ctl = (s.dispatched k e).ctl :=
        ctl_set_cpu _ _ _ rfl rfl rfl
      simp only [deref, wp_pure, lcr3, modifyCpu, wp_modify, unlockKernel, wp_bind, wp_gets, wp_ite]
      have hlock : ((s.dispatched k e).setCpu k fun c =>
          { c with cr3 := p, tlb := fun _ _ => False }).kernelLock = s.kernelLock :=
        dispatched_lock s k e
      constructor
      · intro hheld
        refine leaves_env_pop_tf ?_ (hlock.symm.trans hheld) rfl ?_ ?_
        · exact hctl ▸ hacts
        · exact hctl ▸ ctl_dispatched s k e ▸ cpu_env_dispatch _ _ _
        · exact hctl ▸ ctl_dispatched s k e ▸ status_dispatch _ _ _
      · intro _
        exact ⟨hctl ▸ hacts, .inl ⟨hlock, by simp, by simp⟩⟩

/-- Actions before a program that does not return. -/
theorem leaves_after {α : Type} {x : Kern α} {s t : Kernel} (h : Does k g s t)
    (hx : wp x (fun _ _ => False) (Leaves k g t) t) :
    wp x (fun _ _ => False) (Leaves k g s) t :=
  wp_mono hx (fun _ _ h => h) fun _ _ h' => h'.of_acts h

/-- `sched_halt` never returns: it halts the CPU, or enters the monitor if nothing can run. -/
theorem leaves_sched_halt (s : Kernel) :
    wp (schedHalt k) (fun _ _ => False) (Leaves k g s) s := by
  simp only [schedHalt, wp_bind, wp_get, wp_ite, wp_exit, modifyCpu, wp_modify, wp_gets, lcr3,
    unlockKernel]
  refine ⟨fun _ => ?_, fun _ => ⟨ReflTransGen.refl, .inl ⟨rfl, by simp, by simp⟩⟩⟩
  have hidle : Acts k g s.ctl (s.setCpu k fun c => { c with cpuEnv := none }).ctl := by
    rw [ctl_set_cpu_env]
    exact Act.idle.acts
  have hload : ((s.setCpu k fun c => { c with cpuEnv := none }).setCpu k fun c =>
      { c with cr3 := s.kernPgdir, tlb := fun _ _ => False }).ctl =
      (s.setCpu k fun c => { c with cpuEnv := none }).ctl :=
    ctl_set_cpu _ _ _ rfl rfl rfl
  constructor
  · intro hheld
    have hacts := (hload ▸ hidle).tail (Act.halted (k := k) (g := g))
    rw [← ctl_set_cpu_status] at hacts
    have hacts' := hacts.tail (Act.sleep (k := k) (g := g))
    refine ⟨?_, .inr ⟨hheld, rfl, .inr ⟨?_, ?_, ?_, rfl⟩⟩⟩
    · rw [ctl_set_mode]
      exact hacts'
    · simp [Kernel.ctl, Kernel.setCpu]
    · simp [Kernel.ctl, Kernel.setCpu]
    · simp [Kernel.ctl, Kernel.setCpu]
  · intro _
    refine ⟨?_, .inl ⟨rfl, by simp, by simp⟩⟩
    have hacts := (hload ▸ hidle).tail (Act.halted (k := k) (g := g))
    rw [← ctl_set_cpu_status] at hacts
    exact hacts

/-- The environment that `sched_yield` finds is runnable. -/
theorem next_runnable_status {s : Kernel} {cur : Option EnvIx} {e : EnvIx}
    (h : nextRunnable s cur = some e) : (s.envs e).envStatus = .runnable := by
  unfold nextRunnable at h
  generalize (List.range 1024).map (schedSlot cur) = slots at h
  simpa using List.find?_some h

/-- `sched_yield` never returns. -/
theorem leaves_sched_yield (s : Kernel) :
    wp (schedYield k) (fun _ _ => False) (Leaves k g s) s := by
  have hdesched : Does k g s (s.descheduled k) := by
    refine ⟨?_, descheduled_lock s k⟩
    rw [ctl_descheduled]
    exact Act.deschedule.acts
  rw [schedYield, wp_bind, wp_of_ret (deschedule_curenv_eq k s), wp_bind, wp_get]
  cases hnext : nextRunnable (s.descheduled k) ((s.descheduled k).cpus k).cpuEnv with
  | some e => exact leaves_after hdesched (leaves_env_run (.inl (next_runnable_status hnext)))
  | none =>
      cases hcur : ((s.descheduled k).cpus k).cpuEnv with
      | none => exact leaves_after hdesched (leaves_sched_halt _)
      | some c =>
          simp only [wp_ite]
          exact ⟨fun hrun => leaves_after hdesched (leaves_env_run (.inr ⟨hcur, hrun⟩)),
            fun _ => leaves_after hdesched (leaves_sched_halt _)⟩

/-- The end of `trap` never returns. -/
theorem leaves_trap_return (s : Kernel) :
    wp (trapReturn k) (fun _ _ => False) (Leaves k g s) s := by
  rw [trapReturn, wp_bind, wp_get]
  cases hcur : (s.cpus k).cpuEnv with
  | none => exact leaves_sched_yield s
  | some c =>
      simp only [wp_ite]
      exact ⟨fun hrun => leaves_env_run (.inr ⟨hcur, hrun⟩), fun _ => leaves_sched_yield s⟩

/-! ## Destroying environments -/

theorem quiet_env_flush (k : CpuId) (e : EnvIx) : IsQuiet (envFlush k e) := by
  have hrest : IsQuiet (do
      let pgdir ← deref (← gets fun s => (s.envs e).envPgdir)
      forUpto (pdx utop) fun pdeno => envFreeTable k pgdir pdeno
      pure pgdir : Kern Nat) := by
    refine keeps_bind (keeps_gets _) fun _ => keeps_bind (quiet_deref _) fun pgdir => ?_
    refine keeps_bind (keeps_for_upto (fun _ => quiet_env_free_table _ _ _) _) fun _ => ?_
    exact keeps_pure _
  refine keeps_bind (keeps_gets _) fun _ => keeps_ite ?_ hrest
  exact keeps_bind (keeps_gets _) fun _ => keeps_bind (quiet_lcr3 _ _) fun _ => hrest

/-- `env_free` on an environment that this CPU may free returns it to the free list. -/
theorem acts_env_free {s : Kernel} {e : EnvIx} (hfree : s.ctl.mayFree k g e) :
    wp (envFree k e)
      (fun _ s' => ∃ u, Acts k g s.ctl u ∧ u.status e = s.ctl.status e ∧
        u.cpuEnv = s.ctl.cpuEnv ∧ s'.ctl = u.freed e ∧ s'.kernelLock = s.kernelLock)
      (Leaves k g s) s := by
  have hlog : Does k g s { s with frees := ⟨k, e, fun j => (s.cpus j).cpuEnv⟩ :: s.frees } :=
    ⟨(Act.freeing hfree).acts, rfl⟩
  rw [envFree, wp_bind, wp_modify]
  generalize hs₁ : ({ s with frees := ⟨k, e, fun j => (s.cpus j).cpuEnv⟩ :: s.frees } : Kernel)
    = s₁ at hlog
  have hfree₁ : s₁.ctl.mayFree k g e := by rw [← hs₁]; exact hfree
  have hcur₁ : s₁.ctl.cpuEnv = s.ctl.cpuEnv := by rw [← hs₁]; rfl
  have hstatus₁ : s₁.ctl.status e = s.ctl.status e := by rw [← hs₁]; rfl
  rw [wp_bind]
  refine wp_mono (quiet_env_flush k e s₁) (fun pgdir s₂ hq => ?_)
    fun _ _ h => h.leaves.of_acts hlog
  rw [wp_bind, modifyEnv, wp_modify, wp_bind]
  generalize hs₃ : (s₂.setEnv e fun env => { env with envPgdir := none }) = s₃
  have hdrop : Does k g s s₃ := by
    have hfree₂ : s₂.ctl.mayFree k g e := by
      rw [hq.1]
      exact hfree₁
    rw [← hs₃]
    exact ⟨(hlog.1.trans (hq.does (k := k)).1).tail (Act.dropVm hfree₂), hq.2.trans hlog.2⟩
  have hcur₃ : s₃.ctl.cpuEnv = s.ctl.cpuEnv := by
    rw [← hcur₁, ← hq.1, ← hs₃]
    rfl
  have hstatus₃ : s₃.ctl.status e = s.ctl.status e := by
    rw [← hstatus₁, ← hq.1, ← hs₃]
    simp [Kernel.ctl, Ctl.status, Kernel.setEnv]
  refine wp_mono (quiet_pa2page _ s₃) (fun pp s₄ hq₄ => ?_)
    fun _ _ h => h.leaves.of_acts hdrop
  rw [wp_bind]
  refine wp_mono (quiet_page_decref pp s₄) (fun _ s₅ hq₅ => ?_)
    fun _ _ h => h.leaves.of_acts (Composes.trans (E := Leaves k g) hdrop hq₄.does)
  simp only [wp_bind, wp_gets, wp_modify, modifyEnv]
  have hctl : s₅.ctl = s₃.ctl := hq₅.1.trans hq₄.1
  refine ⟨s₅.ctl, ?_, ?_, ?_, rfl, (hq₅.2.trans hq₄.2).trans hdrop.2⟩
  · rw [hctl]
    exact hdrop.1
  · rw [hctl]
    exact hstatus₃
  · rw [hctl]
    exact hcur₃

/-- This entry may destroy `e`: it is the current environment, or the grant allows what
`env_destroy` does to it. -/
def MayDestroy (k : CpuId) (g : Grant) (s : Kernel) (e : EnvIx) : Prop :=
  s.ctl.cpuEnv k = some e ∨
    s.ctl.status e ≠ .free ∧
      (s.ctl.status e = .running → g.mark e) ∧ (s.ctl.status e ≠ .running → g.reap e)

/-- `env_destroy` of an environment that this CPU may destroy. It returns unless the environment
is the current one. -/
theorem acts_env_destroy {s : Kernel} {e : EnvIx} (hkill : MayDestroy k g s e) :
    wp (envDestroy k e)
      (fun _ s' => s.ctl.cpuEnv k ≠ some e ∧ Does k g s s' ∧ s'.ctl.cpuEnv = s.ctl.cpuEnv)
      (Leaves k g s) s := by
  rw [envDestroy, wp_bind, wp_get, wp_ite]
  constructor
  · rintro ⟨hrun, hcur⟩
    have hmark : g.mark e := (hkill.resolve_left hcur).2.1 hrun
    exact ⟨hcur, ⟨(Act.dying (t := s.ctl) hmark hrun hcur).acts, rfl⟩, rfl⟩
  · intro hnot
    have hother : s.ctl.cpuEnv k ≠ some e → s.ctl.status e ≠ .free ∧ g.reap e := by
      intro hcur
      have hkill' := hkill.resolve_left hcur
      exact ⟨hkill'.1, hkill'.2.2 fun hrun => hnot ⟨hrun, hcur⟩⟩
    have hfree : s.ctl.mayFree k g e := by
      by_cases hcur : s.ctl.cpuEnv k = some e
      · exact .inl hcur
      · exact .inr (hother hcur).2
    rw [wp_bind]
    refine wp_mono_ret (acts_env_free hfree) ?_
    rintro _ s₁ ⟨u, hacts, hstatus₁, hcur₁, hctl, hlock⟩
    have hcpu : (s₁.cpus k).cpuEnv = s.ctl.cpuEnv k := by
      rw [← hcur₁]
      exact congrFun (congrArg Ctl.cpuEnv hctl) k
    simp only [curenv, wp_bind, wp_gets, wp_ite, modifyCpu, wp_modify, wp_pure]
    rw [hcpu]
    constructor
    · intro hcur
      refine wp_mono (leaves_after (g := g) ?_ (leaves_sched_yield _)) (fun _ _ => False.elim)
        fun _ _ h => h
      refine ⟨?_, hlock⟩
      rw [ctl_set_cpu_env, hctl]
      exact hacts.tail (Act.freedOwn (hcur₁ ▸ hcur))
    · intro hcur
      refine ⟨hcur, ⟨?_, hlock⟩, ?_⟩
      · rw [hctl]
        refine hacts.tail (Act.freedOther (hother hcur).2 (hcur₁ ▸ hcur) ?_)
        rw [hstatus₁]
        exact (hother hcur).1
      · rw [hctl]
        exact hcur₁

end Labs.Jos
