import Labs.Jos.BootControl

/-!
# Saved trap frames

Every environment but the file server is to be resumed in user mode, with interrupts enabled and
without I/O privilege. `env_alloc` sets the frame up that way and the hardware preserves it across
traps, but `sys_env_set_trapframe` stores most of a frame from user memory unchecked and
`sys_exofork` copies the caller's flags. The invariant holds in runs where those two are given
harmless frames.
-/

namespace Labs.Jos

open Prog Relation

/-! ## Flags -/

theorem iopl_or_if (tf : Trapframe) :
    (tf.eflags ||| flIf) &&& flIoplMask = iopl tf := by
  have hdist : (tf.eflags ||| flIf) &&& flIoplMask =
      (tf.eflags &&& flIoplMask) ||| (flIf &&& flIoplMask) := by
    ext i
    simp [Bool.and_or_distrib_right]
  have hzero : flIf &&& flIoplMask = 0#32 := by decide
  rw [hdist, hzero, iopl]
  simp

theorem has_flag_or_if (w : Word) : hasFlag (w ||| flIf) flIf = true := by
  rw [has_flag_or]
  have hif : hasFlag flIf flIf = true := by decide
  simp [hif]

theorem has_flag_vm_or_if (w : Word) : hasFlag (w ||| flIf) flVm = hasFlag w flVm := by
  rw [has_flag_or]
  have hvm : hasFlag flIf flVm = false := by decide
  simp [hvm]

/-- The frame of an environment is fit to be resumed. -/
def Env.Framed (env : Env) : Prop :=
  UserFrame env.envTf ∧ (env.envType ≠ .fs → Unprivileged env.envTf)

/-- Frames with the same code segment and flags are equally fit. -/
theorem Env.Framed.congr {env env' : Env} (h : env.Framed) (htype : env'.envType = env.envType)
    (hcs : env'.envTf.cs = env.envTf.cs) (hflags : env'.envTf.eflags = env.envTf.eflags) :
    env'.Framed := by
  refine ⟨⟨hcs.trans h.1.1, ?_⟩, fun hne => ?_⟩
  · rw [hflags]
    exact h.1.2
  · have hun := h.2 (htype ▸ hne)
    refine ⟨?_, ?_⟩
    · rw [hflags]
      exact hun.1
    · rw [iopl, hflags]
      exact hun.2

/-- Enabling interrupts keeps a frame fit. -/
theorem Env.Framed.or_if {env env' : Env} (h : env.Framed) (htype : env'.envType = env.envType)
    (hcs : env'.envTf.cs = env.envTf.cs)
    (hflags : env'.envTf.eflags = env.envTf.eflags ||| flIf) : env'.Framed := by
  refine ⟨⟨hcs.trans h.1.1, ?_⟩, fun hne => ⟨?_, ?_⟩⟩
  · rw [hflags, has_flag_vm_or_if]
    exact h.1.2
  · rw [hflags]
    exact has_flag_or_if _
  · rw [iopl, hflags, iopl_or_if]
    exact (h.2 (htype ▸ hne)).2

/-! ## The control machine -/

variable {k : CpuId} {g : Grant} {t₀ t u : Ctl}

/-- The types of the running environments are fixed while CPU `k` is in the kernel, and all saved
frames are fit. -/
structure FramesKept (k : CpuId) (t₀ t : Ctl) : Prop where
  saved : ∀ e, t.status e ≠ .free → (t.envs e).Framed
  types : ∀ j e, t₀.cpuEnv j = some e → (t.envs e).envType = (t₀.envs e).envType

/-- The edits of the grant keep frames fit, and it creates children with fit frames only. -/
structure FitGrant (k : CpuId) (t₀ : Ctl) (g : Grant) : Prop where
  type : ∀ e f, g.edit e f → ∀ env, (f env).envType = env.envType
  edit : ∀ e f, g.edit e f → ∀ env,
    (t₀.cpuEnv k = some e → env.envType = (t₀.envs e).envType) → env.Framed → (f env).Framed
  fork : ∀ c e tf, g.fork c e tf → t₀.cpuEnv k = some c ∧ UserFrame tf ∧ Unprivileged tf

/-- A change of the table that keeps types and frames. -/
theorem FramesKept.set_env (h : FramesKept k t₀ t) {e : EnvIx} {f : Env → Env}
    (htype : (f (t.envs e)).envType = (t.envs e).envType)
    (hframe : (f (t.envs e)).envStatus ≠ .free → (f (t.envs e)).Framed) :
    FramesKept k t₀ (t.setEnv e f) := by
  refine ⟨fun i hi => ?_, fun j i hi => ?_⟩
  · by_cases hie : i = e
    · subst hie
      rw [Ctl.status_set_env, if_pos rfl] at hi
      simpa [Ctl.setEnv] using hframe hi
    · rw [Ctl.status_set_env, if_neg hie] at hi
      simpa [Ctl.setEnv, hie] using h.saved i hi
  · by_cases hie : i = e
    · subst hie
      rw [← h.types j i hi]
      simpa [Ctl.setEnv] using htype
    · simpa [Ctl.setEnv, hie] using h.types j i hi

/-- A change of the table that keeps types and frames, and frees nothing. -/
theorem FramesKept.set_env_same (h : FramesKept k t₀ t) {e : EnvIx} {f : Env → Env}
    (htype : (f (t.envs e)).envType = (t.envs e).envType)
    (htf : (f (t.envs e)).envTf = (t.envs e).envTf)
    (hlive : (f (t.envs e)).envStatus ≠ .free → t.status e ≠ .free) :
    FramesKept k t₀ (t.setEnv e f) := by
  refine h.set_env htype fun hne => ?_
  refine (h.saved e (hlive hne)).congr htype ?_ ?_ <;> rw [htf]

theorem FramesKept.deschedule (h : FramesKept k t₀ t) : FramesKept k t₀ (t.deschedule k) := by
  unfold Ctl.deschedule
  cases t.cpuEnv k with
  | none => exact h
  | some c =>
      refine h.set_env_same ?_ ?_ fun hne => ?_
      · split <;> rfl
      · split <;> rfl
      · split at hne
        · rename_i hrun
          rw [Ctl.status, hrun]
          decide
        · exact hne

/-- A new child has a fit frame, and its slot was not in use. -/
theorem FramesKept.fork (h : FramesKept k t₀ t) (hholds : Holds (fun _ => True) k t₀ t)
    {c e : EnvIx} {p : Nat} {tf : Trapframe} (hcaller : t₀.cpuEnv k = some c)
    (huser : UserFrame tf) (hunpriv : Unprivileged tf) (hcur : t.cpuEnv k = some c)
    (hhead : t.envFreeList = some e) : FramesKept k t₀ (t.fork c e p tf) := by
  have hfree := hholds.slots.head hhead
  have hother : ∀ i, i ≠ e → (t.fork c e p tf).envs i = t.envs i := by
    intro i hi
    simp [Ctl.fork, Ctl.alloc, Ctl.setEnv, hi]
  refine ⟨fun i hi => ?_, fun j i hi => ?_⟩
  · by_cases hie : i = e
    · subst hie
      have htf : ((t.fork c i p tf).envs i).envTf =
          { tf with regs := { tf.regs with eax := 0 } } := by
        simp [Ctl.fork, Ctl.setEnv]
      refine ⟨?_, fun _ => ?_⟩
      · rw [htf]
        exact huser
      · rw [htf]
        exact hunpriv
    · rw [Ctl.status, hother i hie] at hi
      rw [hother i hie]
      exact h.saved i hi
  · have hie : i ≠ e := by
      rintro rfl
      by_cases hjk : j = k
      · -- the slot cannot be the caller's, which is current and so in use
        subst hjk
        rw [hcaller] at hi
        cases hi
        exact hholds.own _ hcur hfree
      · have hbusy := (hholds.busy i ⟨j, hjk, trivial, hi⟩).1
        rw [hfree] at hbusy
        simp at hbusy
    rw [hother i hie]
    exact h.types j i hi

theorem FramesKept.freed (h : FramesKept k t₀ t) (e : EnvIx) : FramesKept k t₀ (t.freed e) := by
  have hset : FramesKept k t₀
      (t.setEnv e fun env => { env with envStatus := .free, envLink := t.envFreeList }) :=
    h.set_env_same rfl rfl fun hne => absurd rfl hne
  exact ⟨hset.saved, hset.types⟩

/-- Every action with a fit grant keeps the frames. -/
theorem FramesKept.act (h : FramesKept k t₀ t) (hholds : Holds (fun _ => True) k t₀ t)
    (hfit : FitGrant k t₀ g) (ha : Act k g t u) : FramesKept k t₀ u := by
  cases ha with
  | @edit e f hgrant hedit =>
      refine h.set_env (hfit.type e f hgrant _) fun hne => ?_
      refine hfit.edit e f hgrant _ (fun hcur => h.types k e hcur) (h.saved e ?_)
      rcases hedit with hsame | ⟨hlive, -⟩
      · rw [hsame] at hne
        exact hne
      · exact hlive
  | fork hgrant hcur hhead =>
      obtain ⟨hcaller, huser, hunpriv⟩ := hfit.fork _ _ _ hgrant
      exact h.fork hholds hcaller huser hunpriv hcur hhead
  | dying _ hrun _ =>
      refine h.set_env_same rfl rfl fun _ => ?_
      rw [hrun]
      decide
  | dropVm _ => exact h.set_env_same rfl rfl fun hne => hne
  | freedOther _ _ _ => exact h.freed _
  | @freedOwn e _ =>
      have hfreed := h.freed e
      exact ⟨hfreed.saved, hfreed.types⟩
  | deschedule => exact h.deschedule
  | @dispatch e hrun =>
      have hturn : FramesKept k t₀ ((t.deschedule k).setCpuEnv k (some e)) :=
        ⟨h.deschedule.saved, h.deschedule.types⟩
      exact hturn.set_env_same rfl rfl fun _ => Ctl.live_deschedule hrun
  | cpunum => exact h.set_env_same rfl rfl fun hne => hne
  | started => exact ⟨h.saved, h.types⟩
  | freeing _ => exact ⟨h.saved, h.types⟩
  | resume _ _ => exact ⟨h.saved, h.types⟩
  | idle => exact ⟨h.saved, h.types⟩
  | halted => exact ⟨h.saved, h.types⟩
  | sleep => exact ⟨h.saved, h.types⟩
  | die => exact ⟨h.saved, h.types⟩

theorem FramesKept.acts (h : FramesKept k t₀ t) (hholds : Holds (fun _ => True) k t₀ t)
    (hlocal : Local (fun _ => True) k t₀ g) (hfit : FitGrant k t₀ g) (ha : Acts k g t u) :
    FramesKept k t₀ u := by
  induction ha with
  | refl => exact h
  | tail hacts hact ih => exact ih.act (hholds.acts hlocal hacts) hfit hact

/-! ## Runs -/

/-- The frames that a system call stores are fit: the one `sys_env_set_trapframe` reads resumes
user code without I/O privilege once its privilege level and interrupt flag are forced, and the
one `sys_exofork` copies is unprivileged. -/
def SafeFrames (s : Kernel) : Event → Prop
  | .trap k tf _ => tf.trapno = tSyscall →
      match decodeCall tf.regs with
      | .envSetTrapframe _ va => ∀ bytes, s.userBytes k 68 va = some bytes →
          UserFrame (sanitizeTf (decodeTrapframe bytes)) ∧ iopl (decodeTrapframe bytes) = 0
      | .exofork => Unprivileged tf
      | _ => True
  | _ => True

/-- System calls store fit frames only, and do not change the status of an environment that is
current on another CPU. -/
def FrameSafe (s : Kernel) (ev : Event) : Prop := LocalTargets s ev ∧ SafeFrames s ev

/-- The frame with which a CPU executes user code is fit for its environment. -/
def LoadedFit (t : Ctl) : Prop :=
  ∀ k tf, t.mode k = .user tf → UserFrame tf ∧
    ∀ e, t.cpuEnv k = some e → (t.envs e).envType ≠ .fs → Unprivileged tf

/-- All frames, saved or loaded, are fit. -/
structure FramesFit (s : Kernel) : Prop where
  sole : Sole s
  saved : ∀ e, s.ctl.status e ≠ .free → (s.ctl.envs e).Framed
  loaded : LoadedFit s.ctl

/-- User code that was resumed with a fit frame traps with one. -/
theorem UserTrap.user_frame {loaded tf : Trapframe} (h : UserTrap loaded tf)
    (hfit : UserFrame loaded) : UserFrame tf :=
  ⟨(h.cs hfit.2).trans hfit.1, h.vm.trans hfit.2⟩

theorem UserTrap.unprivileged {loaded tf : Trapframe} (h : UserTrap loaded tf)
    (hfit : Unprivileged loaded) : Unprivileged tf := by
  refine ⟨?_, h.level.trans hfit.2⟩
  rw [h.intr ?_]
  · exact hfit.1
  · rw [hfit.2]
    decide

/-- A trap with a user frame is taken under the lock. -/
theorem UserFrame.entry {tf : Trapframe} (h : UserFrame tf) (k : CpuId) (cr2 : Word) :
    UserEntry (.trap k tf cr2) := by
  show tf.cs &&& 3 = 3
  rw [h.1]
  decide

theorem sanitize_framed {env : Env} {tf : Trapframe} (huser : UserFrame (sanitizeTf tf))
    (hiopl : iopl tf = 0) : { env with envTf := sanitizeTf tf : Env }.Framed := by
  refine ⟨huser, fun _ => ⟨has_flag_or_if _, ?_⟩⟩
  show (tf.eflags ||| flIf) &&& flIoplMask = 0
  rw [iopl_or_if]
  exact hiopl

/-- The grant of an entry with a fit frame and a safe system call is fit. -/
theorem fit_entry_grant {s : Kernel} {tf : Trapframe} {cr2 : Word} (huser : UserFrame tf)
    (hunpriv : ∀ e, s.ctl.cpuEnv k = some e → (s.ctl.envs e).envType ≠ .fs → Unprivileged tf)
    (hsafe : SafeFrames s (.trap k tf cr2)) : FitGrant k s.ctl (entryGrant s k tf) := by
  refine ⟨?_, ?_, ?_⟩
  · rintro e f ⟨c, -, -, hedit⟩ env
    cases hedit with
    | save => rfl
    | result r => rfl
    | fault esp eip => rfl
    | call _ hcall =>
        generalize decodeCall tf.regs = call at hcall
        cases hcall <;> rfl
  · rintro e f ⟨c, hcur, -, hedit⟩ env htype hframed
    cases hedit with
    | save =>
        refine ⟨huser, fun hne => hunpriv e hcur ?_⟩
        rw [← htype hcur]
        exact hne
    | result r => exact hframed.congr rfl rfl rfl
    | fault esp eip => exact hframed.congr rfl rfl rfl
    | call htrap hcall =>
        have hsafe' := hsafe htrap
        generalize decodeCall tf.regs = call at hcall hsafe'
        cases hcall with
        | trapframe he hbytes =>
            obtain ⟨hcs, hiopl⟩ := hsafe' _ hbytes
            exact sanitize_framed hcs hiopl
        | exec eip esp => exact hframed.or_if rfl rfl rfl
        | status hst he => exact hframed.congr rfl rfl rfl
        | upcall he => exact hframed.congr rfl rfl rfl
        | send he hrecv => exact hframed.congr rfl rfl rfl
        | sendPerm sent he hrecv => exact hframed.congr rfl rfl rfl
        | recv => exact hframed.congr rfl rfl rfl
  · rintro c e tf' ⟨hcur, -, ⟨_, _, _, htrap, hcall⟩, htf'⟩
    have hsafe' := hsafe htrap
    rw [hcall] at hsafe'
    rcases htf' with rfl | rfl
    · exact ⟨hcur, huser, hsafe'⟩
    · exact ⟨hcur, by decide, by decide⟩

/-- A kernel entry with a fit grant keeps all frames fit. -/
theorem FramesFit.entry {s s₁ : Kernel} {ex : Exit} (h : FramesFit s)
    (hmode : (s.cpus k).mode ≠ .dead)
    (hlocal : Placed (fun _ => True) s.ctl → Local (fun _ => True) k s.ctl g)
    (hfit : FitGrant k s.ctl g) (hgo : ex ≠ .blocked) (hentry : Entry k g s ex s₁) :
    FramesFit (leave k (.exit ex s₁)) := by
  have hsole := h.sole.entry hmode hlocal hgo hentry
  have hleave := leave_exit k ex s₁ hgo
  -- a stopped CPU has no loaded frame
  have hdead : (∀ e, s₁.ctl.status e ≠ .free → (s₁.ctl.envs e).Framed) →
      (∀ j, j ≠ k → ∀ tf, s₁.ctl.mode j = .user tf → UserFrame tf ∧
        ∀ e, s₁.ctl.cpuEnv j = some e → (s₁.ctl.envs e).envType ≠ .fs → Unprivileged tf) →
      leave k (.exit ex s₁) = (s₁.setCpu k fun c => { c with mode := .dead }) →
      FramesFit (leave k (.exit ex s₁)) := by
    intro hsaved hloaded heq
    refine ⟨hsole, ?_, fun j tf hj => ?_⟩
    · rw [heq, ctl_set_mode]
      exact hsaved
    · rw [heq, ctl_set_mode] at hj ⊢
      by_cases hjk : j = k
      · subst hjk
        simp [Ctl.setMode] at hj
      · simp only [Ctl.setMode, Function.update_of_ne hjk] at hj
        exact hloaded j hjk tf hj
  rcases h.sole.entry_cases hmode hgo hentry with ⟨⟨hctl, -⟩, hstop⟩ | ⟨hplaced, hacts, hend⟩
  · rcases hleave with ⟨hex, -⟩ | ⟨-, -, heq⟩
    · exact absurd hex (by simp [hstop])
    · refine hdead ?_ (fun j _ => ?_) heq
      · rw [hctl]
        exact h.saved
      · rw [hctl]
        exact h.loaded j
  · have hlocal := hlocal hplaced
    have hholds := hplaced.holds (k := k) trivial
    have hkept : FramesKept k s.ctl s₁.ctl :=
      FramesKept.acts ⟨h.saved, fun _ _ _ => rfl⟩ hholds hlocal hfit hacts
    have hholds₁ := hholds.acts hlocal hacts
    have hothers : ∀ j, j ≠ k → ∀ tf, s₁.ctl.mode j = .user tf → UserFrame tf ∧
        ∀ e, s₁.ctl.cpuEnv j = some e → (s₁.ctl.envs e).envType ≠ .fs → Unprivileged tf := by
      intro j hj tf hm
      rw [hholds₁.mode j hj] at hm
      refine ⟨(h.loaded j tf hm).1, fun e he hne => ?_⟩
      rw [hholds₁.cpuEnv j hj] at he
      rw [hkept.types j e he] at hne
      exact (h.loaded j tf hm).2 e he hne
    rcases hleave with ⟨hex, heq⟩ | ⟨-, -, heq⟩
    · refine ⟨hsole, ?_, fun j tf hj => ?_⟩
      · rw [heq]
        exact hkept.saved
      · rw [heq] at hj ⊢
        by_cases hjk : j = k
        · subst hjk
          rcases hend with ⟨-, hresume, hhalt⟩ | ⟨-, ⟨e, hcur, hrun, hnothalt, hmode'⟩ | ⟨-, hm, -⟩⟩
          · exact absurd hex (by simp [hresume, hhalt])
          · have htf := hmode' (hex.resolve_right hnothalt)
            rw [hj] at htf
            cases htf
            have hframed := hkept.saved e (by rw [hrun]; decide)
            refine ⟨hframed.1, fun i hi hne => hframed.2 ?_⟩
            rw [hcur] at hi
            cases hi
            exact hne
          · rw [hm] at hj
            cases hj
        · exact hothers j hjk tf hj
    · exact hdead hkept.saved hothers heq

/-- One safe step keeps all frames fit. -/
theorem FramesFit.step {s s' : Kernel} {ev : Event} (h : FramesFit s) (hok : FrameSafe s ev)
    (hstep : Step s ev s') : FramesFit s' := by
  have huser : UserEntry ev := by
    cases hstep with
    | trap hmode hframe _ => exact (hframe.user_frame (h.loaded _ _ hmode).1).entry _ _
    | _ => trivial
  rcases h.sole.cases huser hstep with ⟨hctl, hlock, -⟩ |
    ⟨k, g, ex, s₁, rfl, hgo, hentry, hmode, -, hg⟩
  · exact ⟨h.sole.congr hctl hlock, hctl ▸ h.saved, hctl ▸ h.loaded⟩
  · refine h.entry hmode (local_grant hok.1 hg) ?_ hgo hentry
    rcases hg with rfl | ⟨tf, cr2, rfl, rfl⟩
    · exact ⟨fun _ _ h => h.elim, fun _ _ h => h.elim, fun _ _ _ h => h.elim⟩
    · obtain ⟨loaded, hloaded, hframe⟩ : ∃ loaded, (s.cpus k).mode = .user loaded ∧
          UserTrap loaded tf := by
        generalize leave k (.exit ex s₁) = s' at hstep
        cases hstep with
        | trap hmode hframe _ => exact ⟨_, hmode, hframe⟩
      obtain ⟨hfit, hunpriv⟩ := h.loaded k loaded hloaded
      refine fit_entry_grant (hframe.user_frame hfit) (fun e he hne => ?_) hok.2
      exact hframe.unprivileged (hunpriv e he hne)

/-- The boot leaves fit frames, and no CPU executes user code yet. -/
theorem frames_fit_boot {b : Boot} {s : Kernel} (h : b.leaves s) : FramesFit s := by
  have hboot := boot_ctl h
  refine ⟨sole_boot h, hboot.frames, fun k tf hk => ?_⟩
  rw [hboot.mode k] at hk
  cases hk

theorem FramesFit.run {s s' : Kernel} (h : FramesFit s) (hrun : ReachIf FrameSafe s s') :
    FramesFit s' := by
  induction hrun with
  | refl => exact h
  | tail _ hstep ih =>
      obtain ⟨ev, hok, hstep⟩ := hstep
      exact ih.step hok hstep

/-- In every run whose system calls store fit frames only, the frame saved for an environment
other than the file server has the user code segment, interrupts enabled and no I/O privilege,
and so has the frame with which such an environment executes. -/
theorem saved_frames_unprivileged (b : Boot) (s₀ s : Kernel) (e : EnvIx) (hboot : b.leaves s₀)
    (hrun : ReachIf FrameSafe s₀ s) (hlive : (s.envs e).envStatus ≠ .free)
    (htype : (s.envs e).envType ≠ .fs) :
    ((s.envs e).envTf.cs = gdUt ||| 3 ∧ hasFlag (s.envs e).envTf.eflags flIf = true ∧
        iopl (s.envs e).envTf = 0) ∧
      ∀ k tf, (s.cpus k).cpuEnv = some e → (s.cpus k).mode = .user tf →
        UserFrame tf ∧ Unprivileged tf := by
  have hfit := (frames_fit_boot hboot).run hrun
  have hsaved := hfit.saved e hlive
  refine ⟨⟨hsaved.1.1, hsaved.2 htype⟩, fun k tf hcur hmode => ?_⟩
  obtain ⟨huser, hunpriv⟩ := hfit.loaded k tf hmode
  exact ⟨huser, hunpriv e hcur htype⟩

end Labs.Jos
