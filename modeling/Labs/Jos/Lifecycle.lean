import Labs.Jos.BootControl

/-!
# The end of an environment

An environment that is destroyed while it runs on another CPU is marked as dying. In runs whose
system calls name neither another CPU's environment nor a dying one, it stays marked until the CPU
it runs on traps, and is freed there.
-/

namespace Labs.Jos

open Prog Relation

variable {k : CpuId} {g : Grant} {t₀ t u : Ctl} {e : EnvIx}

/-- The fate of `e`, dying in `t₀`, while CPU `k` is in the kernel: it is still marked, or CPU `k`
was the one that ran it and has freed it. -/
def Doomed (k : CpuId) (e : EnvIx) (t₀ t : Ctl) : Prop :=
  t.status e = .dying ∧ (t.cpuEnv k = some e → t₀.cpuEnv k = some e) ∨
    t.status e = .free ∧ t₀.cpuEnv k = some e ∧ t.cpuEnv k ≠ some e

/-- The grant does nothing to the status of the dying environment `e`. -/
structure Spares (k : CpuId) (e : EnvIx) (t₀ : Ctl) (g : Grant) : Prop where
  edit : ∀ f, g.edit e f → ∀ env, (f env).envStatus = env.envStatus
  reap : ¬ g.reap e
  fork : ∀ c i tf, g.fork c i tf → t₀.cpuEnv k ≠ some e

/-- A change of the table that keeps the status of `e`. -/
theorem Doomed.set_env (h : Doomed k e t₀ t) {i : EnvIx} {f : Env → Env}
    (hsame : i = e → (f (t.envs e)).envStatus = t.status e) : Doomed k e t₀ (t.setEnv i f) := by
  have hstatus : (t.setEnv i f).status e = t.status e := by
    rw [Ctl.status_set_env]
    split
    · rename_i hei
      subst hei
      exact hsame rfl
    · rfl
  unfold Doomed
  rw [hstatus]
  exact h

/-- A dying or free environment is neither runnable nor running. -/
theorem Doomed.idle (h : Doomed k e t₀ t) : t.status e ≠ .runnable ∧ t.status e ≠ .running := by
  rcases h with ⟨hst, -⟩ | ⟨hst, -⟩ <;> rw [hst] <;> decide

/-- CPU `k` turns to another environment, or to none. -/
theorem Doomed.set_cpu_env (h : Doomed k e t₀ t) {cur : Option EnvIx} (hcur : cur ≠ some e) :
    Doomed k e t₀ (t.setCpuEnv k cur) := by
  have hnew : (t.setCpuEnv k cur).cpuEnv k ≠ some e := by
    simpa [Ctl.setCpuEnv] using hcur
  rcases h with ⟨hst, -⟩ | ⟨hst, hown, -⟩
  · exact .inl ⟨hst, fun h => absurd h hnew⟩
  · exact .inr ⟨hst, hown, hnew⟩

theorem Doomed.deschedule (h : Doomed k e t₀ t) : Doomed k e t₀ (t.deschedule k) := by
  have hstatus : (t.deschedule k).status e = t.status e := by
    rcases t.status_deschedule k e with hsame | ⟨-, hrun, -⟩
    · exact hsame
    · exact absurd hrun h.idle.2
  unfold Doomed
  rw [hstatus, Ctl.cpu_env_deschedule]
  exact h

/-- Every action of an entry that spares `e` leaves it marked, or frees it at its own trap. -/
theorem Doomed.act (h : Doomed k e t₀ t) (hslots : t.FreeList) (hspares : Spares k e t₀ g)
    (ha : Act k g t u) : Doomed k e t₀ u := by
  cases ha with
  | edit hgrant _ =>
      refine h.set_env fun hie => ?_
      subst hie
      exact hspares.edit _ hgrant _
  | @fork c i p tf hgrant _ hhead =>
      have hst : t.status e = .dying := by
        rcases h with ⟨hst, -⟩ | ⟨-, hown, -⟩
        · exact hst
        · exact absurd hown (hspares.fork c i tf hgrant)
      have hne : e ≠ i := by
        rintro rfl
        rw [hslots.head hhead] at hst
        cases hst
      have hstatus : (t.fork c i p tf).status e = t.status e := by
        simp [Ctl.fork, Ctl.alloc, Ctl.setEnv, Ctl.status, hne]
      unfold Doomed
      rw [hstatus]
      exact h
  | dying _ hrun _ =>
      refine h.set_env fun hie => ?_
      subst hie
      exact absurd hrun h.idle.2
  | freedOther hreap _ _ =>
      refine Doomed.set_env (f := fun env => { env with envStatus := .free, envLink := t.envFreeList })
        h fun hie => ?_
      subst hie
      exact absurd hreap hspares.reap
  | @freedOwn i hcur =>
      by_cases hie : i = e
      · subst hie
        right
        refine ⟨?_, ?_, ?_⟩
        · simp [Ctl.freed, Ctl.setEnv, Ctl.setCpuEnv, Ctl.status]
        · rcases h with ⟨-, hown⟩ | ⟨-, -, hnot⟩
          · exact hown hcur
          · exact absurd hcur hnot
        · simp [Ctl.setCpuEnv]
      · have hfreed : Doomed k e t₀ (t.freed i) := by
          refine Doomed.set_env
            (f := fun env => { env with envStatus := .free, envLink := t.envFreeList }) h ?_
          exact fun h => absurd h hie
        exact hfreed.set_cpu_env (by simp)
  | dropVm _ => exact h.set_env fun hie => by subst hie; rfl
  | deschedule => exact h.deschedule
  | @dispatch i hrun =>
      have hne : i ≠ e := by
        rintro rfl
        rcases hrun with hrun | ⟨-, hrun⟩
        · exact h.idle.1 hrun
        · exact h.idle.2 hrun
      have hturn : Doomed k e t₀ ((t.deschedule k).setCpuEnv k (some i)) :=
        h.deschedule.set_cpu_env fun hi => hne (Option.some.inj hi)
      exact hturn.set_env fun hie => absurd hie hne
  | cpunum => exact h.set_env fun hie => by subst hie; rfl
  | idle => exact h.set_cpu_env (by simp)
  | started => exact h
  | freeing _ => exact h
  | resume _ _ => exact h
  | halted => exact h
  | sleep => exact h
  | die => exact h

theorem Doomed.acts (h : Doomed k e t₀ t) (hholds : Holds (fun _ => True) k t₀ t)
    (hlocal : Local (fun _ => True) k t₀ g) (hspares : Spares k e t₀ g) (ha : Acts k g t u) :
    Doomed k e t₀ u := by
  induction ha with
  | refl => exact h
  | tail hacts hact ih => exact ih.act (hholds.acts hlocal hacts).slots hspares hact

/-! ## Runs -/

/-- No system call changes the status of a dying environment. -/
def SparesDying (s : Kernel) : Event → Prop
  | .trap k tf _ => tf.trapno = tSyscall →
      ∀ e, SetsStatus s k (decodeCall tf.regs) e → (s.envs e).envStatus ≠ .dying
  | _ => True

/-- Kernel entries run under the lock, and change neither the status of an environment that is
current on another CPU nor that of a dying one. -/
def SafeStatus (s : Kernel) (ev : Event) : Prop := LocalStatus s ev ∧ SparesDying s ev

/-- The grant of an entry that spares dying environments. -/
theorem spares_entry_grant {s : Kernel} {tf : Trapframe} {cr2 : Word}
    (h : SparesDying s (.trap k tf cr2)) (hdying : s.ctl.status e = .dying) :
    Spares k e s.ctl (entryGrant s k tf) := by
  refine ⟨?_, ?_, ?_⟩
  · rintro f ⟨c, hcur, hlive, hedit⟩ env
    cases hedit with
    | save => rfl
    | result r => rfl
    | fault esp eip => rfl
    | call htrap hcall =>
        have hsets := h htrap e
        generalize decodeCall tf.regs = call at hcall hsets
        cases hcall with
        | status hst he => exact absurd hdying (hsets ⟨by simp [hst], he⟩)
        | trapframe he hbytes => rfl
        | upcall he => rfl
        | send he hrecv => exact absurd hdying (hsets ⟨he, hrecv⟩)
        | sendPerm sent he hrecv => rfl
        | recv => exact absurd hdying hlive
        | exec eip esp => rfl
  · rintro ⟨envid, ⟨c, -, -, htrap, hcall⟩, he, hrun⟩
    refine h htrap e ?_ hdying
    rw [hcall]
    exact ⟨he, hrun⟩
  · rintro c i tf' ⟨-, -, ⟨c', hcur, hlive, -⟩, -⟩ hown
    rw [hcur] at hown
    cases hown
    exact hlive hdying

/-- CPU `k` executes user code of `e`. -/
def Executes (s : Kernel) (k : CpuId) (e : EnvIx) : Prop :=
  (s.cpus k).cpuEnv = some e ∧ ∃ tf, (s.cpus k).mode = .user tf

/-- A dying environment stays marked, and executes only where it did and has not trapped; or it
is freed, and then it is current nowhere. -/
def DyingStep (e : EnvIx) (s : Kernel) (ev : Event) (s' : Kernel) : Prop :=
  s'.ctl.status e = .dying ∧
      (∀ j, Executes s' j e → Executes s j e ∧ ev.entrant ≠ some j) ∨
    s'.ctl.status e = .free ∧ ∀ j, s'.ctl.cpuEnv j ≠ some e

/-- A CPU that stops for good executes nothing. -/
theorem not_executes_dead (s : Kernel) (k : CpuId) (e : EnvIx) :
    ¬ Executes (s.setCpu k fun c => { c with mode := .dead }) k e := by
  rintro ⟨-, tf, hmode⟩
  simp [Kernel.setCpu] at hmode

/-- CPUs that do not enter the kernel go on as before. -/
theorem executes_other {s s' : Kernel} {j : CpuId} (hcpu : s'.ctl.cpuEnv j = s.ctl.cpuEnv j)
    (hmode : s'.ctl.mode j = s.ctl.mode j) (h : Executes s' j e) : Executes s j e := by
  obtain ⟨hcur, tf, htf⟩ := h
  exact ⟨hcpu.symm.trans hcur, tf, hmode.symm.trans htf⟩

/-- What one kernel entry does to a dying environment. -/
theorem dying_entry {s s₁ : Kernel} {ev : Event} {ex : Exit} (h : Sole s)
    (hlocal : Placed (fun _ => True) s.ctl → Local (fun _ => True) k s.ctl g)
    (hspares : Spares k e s.ctl g) (hdying : s.ctl.status e = .dying) (hgo : ex ≠ .blocked)
    (hentry : Entry k g s ex s₁) (hmode : (s.cpus k).mode ≠ .dead) (hev : ev.entrant = some k) :
    DyingStep e s ev (leave k (.exit ex s₁)) := by
  have hleave := leave_exit k ex s₁ hgo
  have hdead : ∀ t : Kernel, t.ctl.status e = .dying → (∀ j, j ≠ k →
      t.ctl.cpuEnv j = s.ctl.cpuEnv j ∧ t.ctl.mode j = s.ctl.mode j) →
      DyingStep e s ev (t.setCpu k fun c => { c with mode := .dead }) := by
    intro t hst hothers
    refine .inl ⟨hst, fun j hj => ?_⟩
    have hjk : j ≠ k := by
      rintro rfl
      exact not_executes_dead t j e hj
    refine ⟨executes_other ?_ ?_ hj, by rw [hev]; exact fun h => hjk (Option.some.inj h).symm⟩
    · rw [ctl_set_mode]
      exact (hothers j hjk).1
    · rw [ctl_set_mode]
      simpa [Ctl.setMode, hjk] using (hothers j hjk).2
  rcases h.entry_cases hmode hgo hentry with ⟨⟨hctl, -⟩, hstop⟩ | ⟨hplaced, hacts, hend⟩
  · rcases hleave with ⟨hex, -⟩ | ⟨-, -, heq⟩
    · exact absurd hex (by simp [hstop])
    · rw [heq]
      exact hdead s₁ (by rw [hctl]; exact hdying) fun j _ => by rw [hctl]; exact ⟨rfl, rfl⟩
  · have hholds := hplaced.holds (k := k) trivial
    have hlocal := hlocal hplaced
    have hdoomed : Doomed k e s.ctl s₁.ctl :=
      Doomed.acts (.inl ⟨hdying, fun h => h⟩) hholds hlocal hspares hacts
    have hholds₁ := hholds.acts hlocal hacts
    have hothers : ∀ j, j ≠ k →
        s₁.ctl.cpuEnv j = s.ctl.cpuEnv j ∧ s₁.ctl.mode j = s.ctl.mode j :=
      fun j hj => ⟨hholds₁.cpuEnv j hj, hholds₁.mode j hj⟩
    rcases hdoomed with ⟨hst, -⟩ | ⟨hst, hown, hgone⟩
    · rcases hleave with ⟨hex, heq⟩ | ⟨-, -, heq⟩
      · -- the CPU runs something else now
        rw [heq]
        refine .inl ⟨hst, fun j hj => ?_⟩
        have hjk : j ≠ k := by
          rintro rfl
          rcases hend with ⟨-, hresume, hhalt⟩ | ⟨-, ⟨i, hcur, hrun, -⟩ | ⟨hcur, -⟩⟩
          · exact absurd hex (by simp [hresume, hhalt])
          · have hie : i = e := Option.some.inj (hcur.symm.trans hj.1)
            rw [← hie, hrun] at hst
            cases hst
          · exact absurd (hcur.symm.trans hj.1) (by simp)
        refine ⟨executes_other (hothers j hjk).1 (hothers j hjk).2 hj, ?_⟩
        rw [hev]
        exact fun h => hjk (Option.some.inj h).symm
      · rw [heq]
        exact hdead s₁ hst hothers
    · right
      have hnone : ∀ j, s₁.ctl.cpuEnv j ≠ some e := by
        intro j hj
        by_cases hjk : j = k
        · subst hjk
          exact hgone hj
        · rw [(hothers j hjk).1] at hj
          exact hjk (hplaced.excl j k e trivial trivial hj hown)
      rcases hleave with ⟨-, heq⟩ | ⟨-, -, heq⟩
      · rw [heq]
        exact ⟨hst, hnone⟩
      · rw [heq, ctl_set_mode]
        exact ⟨hst, hnone⟩

/-- One step of a safe run. -/
theorem dying_step {s s' : Kernel} {ev : Event} (h : Sole s) (hok : SafeStatus s ev)
    (hdying : s.ctl.status e = .dying) (hstep : Step s ev s') : DyingStep e s ev s' := by
  rcases h.cases hok.1.1 hstep with ⟨hctl, -, hev⟩ | ⟨k, g, ex, s₁, rfl, hgo, hentry, hmode, hev, hg⟩
  · left
    rw [hctl]
    refine ⟨hdying, fun j hj => ⟨executes_other ?_ ?_ hj, by simp [hev]⟩⟩
    · rw [hctl]
    · rw [hctl]
  · refine dying_entry h (local_grant hok.1.2 hg) ?_ hdying hgo hentry hmode hev
    rcases hg with rfl | ⟨tf, cr2, rfl, rfl⟩
    · exact ⟨fun _ h => h.elim, fun h => h, fun _ _ _ h => h.elim⟩
    · exact spares_entry_grant hok.2 hdying

theorem Sole.run_safe {s s' : Kernel} (h : Sole s) (hrun : ReachIf SafeStatus s s') : Sole s' :=
  h.run (hrun.mono fun _ _ hok => hok.1)

/-- Once an environment is dying, its status changes only to free, by the trap of the CPU that
runs it. Until then it executes only where it did before and has not trapped since. -/
theorem dying_only_freed (b : Boot) (s₀ s s' : Kernel) (e : EnvIx) (evs : List Event)
    (hboot : b.leaves s₀) (hreach : ReachIf SafeStatus s₀ s)
    (hdying : (s.envs e).envStatus = .dying) (hrun : RunIf SafeStatus s evs s') :
    ((s'.envs e).envStatus = .dying ∧
        ∀ j, Executes s' j e → Executes s j e ∧ ∀ ev ∈ evs, ev.entrant ≠ some j) ∨
      ∃ evs₁ ev evs₂ u v, evs = evs₁ ++ ev :: evs₂ ∧ RunIf SafeStatus s evs₁ u ∧
        (u.envs e).envStatus = .dying ∧ Step u ev v ∧ (v.envs e).envStatus = .free ∧
        (∀ j, (v.cpus j).cpuEnv ≠ some e) ∧ RunIf SafeStatus v evs₂ s' := by
  induction hrun with
  | nil => exact .inl ⟨hdying, fun j hj => ⟨hj, by simp⟩⟩
  | @snoc t u evs ev hrun hok hstep ih =>
      rcases ih with ⟨hst, hexec⟩ |
        ⟨evs₁, ev', evs₂, v, w, rfl, hrun₁, hv, hw, hfree, hnone, hrun₂⟩
      · have hsole : Sole t := ((sole_boot hboot).run_safe hreach).run_safe hrun.reach
        rcases dying_step hsole hok hst hstep with ⟨hst', hexec'⟩ | ⟨hfree, hnone⟩
        · refine .inl ⟨hst', fun j hj => ?_⟩
          obtain ⟨hj', hev⟩ := hexec' j hj
          obtain ⟨hj'', hevs⟩ := hexec j hj'
          refine ⟨hj'', fun ev' hev' => ?_⟩
          rcases List.mem_append.1 hev' with hmem | hmem
          · exact hevs ev' hmem
          · rw [List.mem_singleton.1 hmem]
            exact hev
        · exact .inr ⟨evs, ev, [], t, u, rfl, hrun, hst, hstep, hfree, hnone, .nil⟩
      · refine .inr ⟨evs₁, ev', evs₂ ++ [ev], v, w, by simp, hrun₁, hv, hw, hfree, hnone, ?_⟩
        exact hrun₂.snoc hok hstep

end Labs.Jos
