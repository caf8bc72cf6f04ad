import Labs.Jos.Boot
import Labs.Jos.Exclusive

/-!
# The control state after boot

When `i386_init` reaches its call of `sched_yield`, no CPU has a current environment, the free
list links the free slots, and the environments it created have the frames of `env_alloc`, with
I/O privilege for the file server only.
-/

namespace Labs.Jos

open Prog Relation

/-- The control state that the boot leaves. -/
structure BootCtl (t : Ctl) : Prop where
  idle : ∀ k, t.cpuEnv k = none
  mode : ∀ k, t.mode k = .boot
  frees : t.frees = []
  slots : t.FreeList
  frames : ∀ e, t.status e ≠ .free → UserFrame (t.envs e).envTf ∧
    ((t.envs e).envType ≠ .fs → Unprivileged (t.envs e).envTf)

/-- Nothing is said about a boot that stops. -/
def AnyExit (_ : Kernel) (_ : Exit) (_ : Kernel) : Prop := True

instance : Composes Quiet AnyExit where
  refl _ := ⟨rfl, rfl⟩
  trans := Composes.trans (E := QuietExit)
  absorb _ _ := trivial

/-- A part of the boot that leaves the control state alone if it returns. -/
def Calm {α : Type} (x : Kern α) : Prop := Keeps Quiet AnyExit x

theorem IsQuiet.calm {α : Type} {x : Kern α} (h : IsQuiet x) : Calm x :=
  h.imp (fun _ _ h => h) fun _ _ _ _ => trivial

/-! ## Memory -/

theorem calm_boot_map_region (pgdir : Nat) (va size pa perm : Word) :
    Calm (bootMapRegion pgdir va size pa perm) := by
  refine keeps_bind ?_ fun _ => ?_
  rotate_left
  · exact keeps_ite (keeps_exit fun _ => trivial) (keeps_pure _)
  refine keeps_for_upto (fun j => keeps_bind (quiet_pgdir_walk _ _ _).calm fun pte => ?_) _
  cases pte with
  | none => exact (quiet_panic _).calm
  | some pte => exact (quiet_write_word _ _ _).calm

theorem calm_mmio_map_region (pa size : Word) : Calm (mmioMapRegion pa size) := by
  refine keeps_bind keeps_get fun s => keeps_ite (quiet_panic _).calm ?_
  refine keeps_bind (calm_boot_map_region _ _ _ _ _) fun _ => ?_
  exact keeps_bind (keeps_modify fun _ => ⟨rfl, rfl⟩) fun _ => keeps_pure _

theorem calm_clear_kern_pte (va : Word) : Calm (clearKernPte va) := by
  refine keeps_bind (keeps_gets _) fun _ => ?_
  refine keeps_bind (quiet_pgdir_walk _ _ _).calm fun pte => ?_
  cases pte with
  | none => exact keeps_pure _
  | some pte => exact (quiet_write_word _ _ _).calm

theorem calm_check_page_mmio : Calm checkPageMmio := by
  unfold checkPageMmio
  refine keeps_bind (calm_mmio_map_region _ _) fun _ => ?_
  refine keeps_bind (calm_mmio_map_region _ _) fun _ => ?_
  refine keeps_bind (calm_clear_kern_pte _) fun _ => ?_
  exact keeps_bind (calm_clear_kern_pte _) fun _ => calm_clear_kern_pte _

theorem calm_boot_alloc (n : Nat) : Calm (bootAlloc n) := by
  refine keeps_bind keeps_get fun s => keeps_ite (quiet_panic _).calm ?_
  exact keeps_bind (keeps_modify fun _ => ⟨rfl, rfl⟩) fun _ => keeps_pure _

theorem calm_page_init : Calm pageInit := by
  refine keeps_bind (keeps_modify fun _ => ⟨rfl, rfl⟩) fun _ => ?_
  refine keeps_bind (keeps_gets _) fun _ => keeps_for_upto (fun i => ?_) _
  refine keeps_bind keeps_get fun s => keeps_ite ?_ (keeps_pure _)
  exact keeps_bind (quiet_modify_page _ _).calm fun _ => keeps_modify fun _ => ⟨rfl, rfl⟩

theorem calm_relink_free_list (order : List Nat) : Calm (relinkFreeList order) := by
  refine keeps_bind (keeps_modify fun _ => ⟨rfl, rfl⟩) fun _ => keeps_for_each (fun i => ?_) _
  refine keeps_bind (keeps_gets _) fun _ => ?_
  exact keeps_bind (quiet_modify_page _ _).calm fun _ => keeps_modify fun _ => ⟨rfl, rfl⟩

theorem calm_mem_init (b : Boot) : Calm (memInit b) := by
  refine keeps_bind (calm_boot_alloc _) fun kernPgdir => ?_
  refine keeps_bind (keeps_modify fun _ => ⟨rfl, rfl⟩) fun _ => ?_
  refine keeps_bind (quiet_write_word _ _ _).calm fun _ => ?_
  refine keeps_bind (calm_boot_alloc _) fun _ => keeps_bind (calm_boot_alloc _) fun _ => ?_
  refine keeps_bind calm_page_init fun _ => keeps_bind (calm_relink_free_list _) fun _ => ?_
  refine keeps_bind calm_check_page_mmio fun _ => ?_
  refine keeps_bind (calm_boot_map_region _ _ _ _ _) fun _ => ?_
  refine keeps_bind (calm_boot_map_region _ _ _ _ _) fun _ => ?_
  refine keeps_bind (calm_boot_map_region _ _ _ _ _) fun _ => ?_
  refine keeps_bind (calm_boot_map_region _ _ _ _ _) fun _ => ?_
  refine keeps_bind (keeps_for_upto (fun i => calm_boot_map_region _ _ _ _ _) _) fun _ => ?_
  exact keeps_modify fun _ => ⟨rfl, rfl⟩

/-! ## Environments -/

/-- After `j` iterations the list links the last `j` slots. -/
theorem boot_ctl_env_init {s : Kernel} (hidle : ∀ k, s.ctl.cpuEnv k = none)
    (hmode : ∀ k, s.ctl.mode k = .boot) (hfrees : s.ctl.frees = [])
    (hhead : s.ctl.envFreeList = none) (hfree : ∀ e, s.ctl.status e = .free) :
    wp envInit (fun _ s' => BootCtl s'.ctl) (fun _ _ => True) s := by
  let I : Nat → Kernel → Prop := fun j s => (∀ k, s.ctl.cpuEnv k = none) ∧
    (∀ k, s.ctl.mode k = .boot) ∧ s.ctl.frees = [] ∧ (∀ e, s.ctl.status e = .free) ∧
    ∃ l, Chain (fun e => (s.ctl.envs e).envLink) s.ctl.envFreeList l ∧
      ∀ e, e ∈ l ↔ 1024 ≤ e.val + j
  have hloop : wp envInit (fun _ s' => I 1024 s') (fun _ _ => True) s := by
    refine wp_for_upto ⟨hidle, hmode, hfrees, hfree, [], hhead, fun e => ?_⟩ ?_
    · have := e.isLt
      simp only [List.not_mem_nil, false_iff]
      omega
    · rintro j hj t ⟨hidle, hmode, hfrees, hfree, l, hchain, hmem⟩
      simp only [wp_bind, wp_gets, modifyEnv, wp_modify]
      generalize hslot : (⟨(1023 - j) % 1024, _⟩ : EnvIx) = i
      have hi : i.val = 1023 - j := by
        rw [← hslot]
        exact Nat.mod_eq_of_lt (by omega)
      have hnot : i ∉ l := fun h => by
        have := (hmem i).1 h
        unfold nenv at hj
        omega
      refine ⟨hidle, hmode, hfrees, fun e => ?_, i :: l, ?_, fun e => ?_⟩
      · by_cases he : e = i
        · simp [Kernel.ctl, Ctl.status, Kernel.setEnv, he]
        · have := hfree e
          simpa [Kernel.ctl, Ctl.status, Kernel.setEnv, he] using this
      · refine (hchain.push hnot).congr fun e _ => ?_
        by_cases he : e = i <;> simp [Kernel.ctl, Kernel.setEnv, he]
      · have hval : e = i ↔ e.val = i.val := Fin.ext_iff
        rw [List.mem_cons, hmem, hval, hi]
        have := e.isLt
        unfold nenv at hj
        omega
  refine wp_mono_ret hloop ?_
  rintro _ s' ⟨hidle, hmode, hfrees, hfree, l, hchain, hmem⟩
  refine ⟨hidle, hmode, hfrees, ⟨l, hchain, fun e => ?_⟩, fun e he => absurd (hfree e) he⟩
  simp [hmem, hfree]

/-- The loads and stores of the boot leave the control state alone. -/
theorem calm_of_leaves {α : Type} {x : Kern α} (h : Keeps Quiet (Leaves 0 .none) x) : Calm x :=
  h.imp (fun _ _ h => h) fun _ _ _ _ => trivial

theorem calm_load_segment (pgdir : Nat) (img : Image) (ph : Proghdr) :
    Calm (loadSegment 0 pgdir img ph) := by
  refine keeps_ite (quiet_panic _).calm (keeps_ite (quiet_panic _).calm ?_)
  refine keeps_bind (quiet_alloc_region _ _ _ _ _ _).calm fun _ => ?_
  refine keeps_bind (calm_of_leaves (quiet_store_bytes _ _)) fun _ => ?_
  exact calm_of_leaves (quiet_store_bytes _ _)

/-- An edit of an environment that keeps its frame a user frame keeps the boot state. -/
theorem BootCtl.set_env {t : Ctl} (h : BootCtl t) {e : EnvIx} {f : Env → Env}
    (hlink : (f (t.envs e)).envLink = (t.envs e).envLink)
    (hstatus : (f (t.envs e)).envStatus = (t.envs e).envStatus)
    (hframe : t.status e ≠ .free → UserFrame (f (t.envs e)).envTf ∧
      ((f (t.envs e)).envType ≠ .fs → Unprivileged (f (t.envs e)).envTf)) :
    BootCtl (t.setEnv e f) := by
  refine ⟨h.idle, h.mode, h.frees, h.slots.set_env hlink (by rw [hstatus]; rfl), fun i hi => ?_⟩
  by_cases hie : i = e
  · subst hie
    rw [Ctl.status_set_env, if_pos rfl, hstatus] at hi
    simpa [Ctl.setEnv] using hframe hi
  · rw [Ctl.status_set_env, if_neg hie] at hi
    simpa [Ctl.setEnv, hie] using h.frames i hi

theorem initial_tf_frame : UserFrame initialTf ∧ Unprivileged initialTf := by decide

theorem BootCtl.alloc {t : Ctl} (h : BootCtl t) {e : EnvIx} {parentId : Word} {p : Nat}
    (hhead : t.envFreeList = some e) : BootCtl (t.alloc e parentId p) := by
  refine ⟨h.idle, h.mode, h.frees, h.slots.alloc hhead, fun i hi => ?_⟩
  by_cases hie : i = e
  · subst hie
    have htf : ((t.alloc i parentId p).envs i).envTf = initialTf := by
      simp [Ctl.alloc, Ctl.setEnv]
    rw [htf]
    exact ⟨initial_tf_frame.1, fun _ => initial_tf_frame.2⟩
  · have henv : (t.alloc e parentId p).envs i = t.envs i := by simp [Ctl.alloc, Ctl.setEnv, hie]
    rw [Ctl.status, henv] at hi
    rw [henv]
    exact h.frames i hi

/-- Run a part of the boot that leaves the control state alone, then the rest. -/
theorem calm_bind {α β : Type} {x : Kern α} {f : α → Kern β} {s : Kernel} {P P' : Ctl → Prop}
    (hx : Calm x) (h : P s.ctl)
    (hf : ∀ a t, P t.ctl → wp (f a) (fun _ s' => P' s'.ctl) (fun _ _ => True) t) :
    wp (x >>= f) (fun _ s' => P' s'.ctl) (fun _ _ => True) s := by
  rw [wp_bind]
  refine wp_mono (hx s) (fun a t hq => hf a t ?_) fun _ _ _ => trivial
  rw [hq.1]
  exact h

/-- The boot state in which `e` is an ordinary environment. -/
def BootCtl.WithUser (e : EnvIx) (t : Ctl) : Prop := BootCtl t ∧ (t.envs e).envType = .user

theorem boot_ctl_load_icode {s : Kernel} {e : EnvIx} (h : BootCtl.WithUser e s.ctl) (img : Image) :
    wp (loadIcode 0 e img) (fun _ s' => BootCtl.WithUser e s'.ctl) (fun _ _ => True) s := by
  rw [loadIcode, wp_ite]
  refine ⟨fun _ => trivial, fun _ => ?_⟩
  refine calm_bind (keeps_gets _) h fun _ s₁ h₁ => ?_
  refine calm_bind (quiet_deref _).calm h₁ fun pgdir s₂ h₂ => ?_
  refine calm_bind (quiet_lcr3 _ _).calm h₂ fun _ s₃ h₃ => ?_
  refine calm_bind (keeps_for_each (fun _ => calm_load_segment _ _ _) _) h₃ fun _ s₄ h₄ => ?_
  rw [wp_bind, modifyEnv, wp_modify]
  have h₅ : BootCtl.WithUser e (s₄.setEnv e fun env =>
      { env with envTf := { env.envTf with eip := img.elf.eEntry } }).ctl := by
    rw [ctl_set_env]
    refine ⟨h₄.1.set_env rfl rfl (h₄.1.frames e), ?_⟩
    simpa [Ctl.setEnv] using h₄.2
  refine wp_mono (quiet_alloc_region _ _ _ _ _ _ _) (fun _ s₆ hq => ?_) fun _ _ _ => trivial
  rw [hq.1]
  exact h₅

/-- Setting the type of a new environment, and the I/O privilege of a file server. -/
theorem BootCtl.set_type {t : Ctl} {e : EnvIx} (h : BootCtl.WithUser e t) (type : EnvType) :
    BootCtl (t.setEnv e fun env => { env with envType := type }) := by
  refine h.1.set_env rfl rfl fun hlive => ⟨(h.1.frames e hlive).1, fun _ => ?_⟩
  refine (h.1.frames e hlive).2 ?_
  rw [h.2]
  decide

theorem BootCtl.set_iopl {t : Ctl} {e : EnvIx} (h : BootCtl t) (hfs : (t.envs e).envType = .fs) :
    BootCtl (t.setEnv e fun env => { env with envTf := { env.envTf with
      eflags := env.envTf.eflags ||| flIopl3 } }) := by
  refine h.set_env rfl rfl fun hlive => ⟨?_, fun hne => absurd hfs hne⟩
  have huser := (h.frames e hlive).1
  refine ⟨huser.1, ?_⟩
  rw [has_flag_or, huser.2]
  decide

theorem boot_ctl_env_create {s : Kernel} (h : BootCtl s.ctl) (img : Image) (type : EnvType) :
    wp (envCreate 0 img type) (fun _ s' => BootCtl s'.ctl) (fun _ _ => True) s := by
  rw [envCreate, wp_bind]
  refine wp_mono (env_alloc_spec 0 s) (fun r s₁ ⟨_, hr⟩ => ?_) fun _ _ _ => trivial
  cases r with
  | error r => trivial
  | ok e =>
      obtain ⟨p, hhead, hctl⟩ := hr
      have h₁ : BootCtl.WithUser e s₁.ctl := by
        rw [hctl]
        exact ⟨h.alloc hhead, by simp [Ctl.alloc, Ctl.setEnv]⟩
      rw [wp_bind]
      refine wp_mono_ret (boot_ctl_load_icode h₁ img) fun _ s₂ h₂ => ?_
      rw [wp_bind, modifyEnv, wp_modify, wp_ite]
      have h₃ := BootCtl.set_type h₂ type
      refine ⟨fun hfs => ?_, fun _ => h₃⟩
      refine h₃.set_iopl ?_
      simp [Ctl.setEnv, hfs]

/-- The boot leaves the control state of `BootCtl`. -/
theorem boot_ctl {b : Boot} {s : Kernel} (h : b.leaves s) : BootCtl s.ctl := by
  have hwp : wp (i386Init b) (fun _ s' => BootCtl s'.ctl) (fun _ _ => True) b.power := by
    rw [i386Init, wp_bind]
    refine wp_mono (calm_mem_init b _) (fun _ s₁ hq => ?_) fun _ _ _ => trivial
    rw [wp_bind]
    refine wp_mono_ret (boot_ctl_env_init ?_ ?_ ?_ ?_ ?_) fun _ s₂ h₂ => ?_
    · rw [hq.1]
      exact fun _ => rfl
    · rw [hq.1]
      exact fun _ => rfl
    · rw [hq.1]
      rfl
    · rw [hq.1]
      rfl
    · rw [hq.1]
      exact fun _ => rfl
    · refine calm_bind (P := BootCtl) ?_ h₂ fun _ s₃ h₃ => ?_
      · exact keeps_for_each (fun r => keeps_bind (calm_mmio_map_region _ _) fun _ => keeps_pure _) _
      rw [wp_bind, lockKernel, wp_bind, wp_gets]
      cases s₃.kernelLock with
      | some holder =>
          dsimp only
          rw [wp_ite]
          exact ⟨fun _ => trivial, fun _ => trivial⟩
      | none =>
          refine wp_for_each (I := fun (s : Kernel) => BootCtl s.ctl) ?_ fun img _ t ht => ?_
          · exact h₃
          · exact boot_ctl_env_create ht img.1 img.2
  rwa [wp_of_ret h] at hwp

/-- When no environment is current anywhere, each is on at most one CPU. -/
theorem sole_of_boot_ctl {s : Kernel} (hboot : BootCtl s.ctl) : Sole s := by
  have hidle : ∀ j e, s.ctl.cpuEnv j ≠ some e := by
    intro j e
    rw [hboot.idle j]
    exact fun h => (by cases h)
  refine ⟨fun j _ e hj => absurd hj (hidle j e), ?_, fun j hj => ?_, .inr ⟨?_, ?_, hboot.slots⟩⟩
  · intro ev hev
    rw [hboot.frees] at hev
    cases hev
  · rw [hboot.mode j] at hj
    cases hj
  · exact fun j _ e _ _ hj => absurd hj (hidle j e)
  · exact fun j e _ hj => absurd hj (hidle j e)

/-- Before the first `sched_yield` no environment is current anywhere. -/
theorem sole_boot {b : Boot} {s : Kernel} (h : b.leaves s) : Sole s :=
  sole_of_boot_ctl (boot_ctl h)

/-- In every run whose system calls leave the status of other CPUs' environments alone, each
environment is current on at most one CPU, and `env_free` is never applied to an environment that
is current on another CPU. -/
theorem curenv_exclusive (b : Boot) (s₀ s : Kernel) (hboot : b.leaves s₀)
    (hrun : ReachIf LocalStatus s₀ s) :
    (∀ j j' e, (s.cpus j).cpuEnv = some e → (s.cpus j').cpuEnv = some e → j = j') ∧
      ∀ ev ∈ s.frees, ∀ j, j ≠ ev.cpu → ev.curenvs j ≠ some ev.env := by
  have hsole := (sole_boot hboot).run hrun
  exact ⟨hsole.excl, hsole.frees⟩

/-! ## A machine -/

/-- The links of a free list that runs through the slots in order to the last one. -/
theorem chain_slots (link : EnvIx → Option EnvIx)
    (hlink : ∀ e : EnvIx, link e = if h : e.val + 1 < 1024 then some ⟨e.val + 1, h⟩ else none)
    (n : Nat) : ∀ e : EnvIx, e.val + n = 1023 →
      ∃ l, Chain link (some e) l ∧ ∀ i, i ∈ l ↔ e.val ≤ i.val := by
  induction n with
  | zero =>
      intro e he
      refine ⟨[e], ⟨rfl, ?_⟩, fun i => ?_⟩
      · rw [hlink, dif_neg (by omega)]
        rfl
      · rw [List.mem_singleton, Fin.ext_iff]
        have := i.isLt
        omega
  | succ n ih =>
      intro e he
      have hlt : e.val + 1 < 1024 := by omega
      obtain ⟨l, hchain, hmem⟩ := ih ⟨e.val + 1, hlt⟩ (by show e.val + 1 + n = 1023; omega)
      refine ⟨e :: l, ⟨rfl, ?_⟩, fun i => ?_⟩
      · rw [hlink, dif_pos hlt]
        exact hchain
      · rw [List.mem_cons, hmem, Fin.ext_iff]
        show i.val = e.val ∨ e.val + 1 ≤ i.val ↔ _
        omega

/-- A machine with two megabytes of memory and one environment, as the boot leaves it. -/
def demo : Kernel where
  npages := 512
  npagesBasemem := 160
  nextfree := 320
  pages := fun p => { ppLink := if 400 ≤ p ∧ p < 411 then some (p + 1) else none, ppRef := 0 }
  pageFreeList := some 400
  mem := fun _ _ => 0
  kernPgdir := 300
  mmioBase := mmiobase
  envs := fun e =>
    if e = 0 then
      { envTf := { initialTf with eip := 0x800020 }, envId := 0x1000, envStatus := .runnable,
        envPgdir := some 390 }
    else
      { envLink := if h : e.val + 1 < 1024 then some ⟨e.val + 1, h⟩ else none }
  envFreeList := some 1
  cpus := fun _ => { cr3 := 300, cpuStatus := .started }
  kernelLock := some 0
  panicstr := none
  ticks := 0
  userMemCheckAddr := 0
  e1000 := {}
  consIn := []
  consOut := []
  accesses := []
  frees := []
  pageFrees := []

theorem demo_boot_ctl : BootCtl demo.ctl := by
  refine ⟨fun _ => rfl, fun _ => rfl, rfl, ?_, fun e hlive => ?_⟩
  · obtain ⟨l, hchain, hmem⟩ := chain_slots
      (fun e => if h : e.val + 1 < 1024 then some ⟨e.val + 1, h⟩ else none) (fun _ => rfl) 1022 1 rfl
    refine ⟨l, hchain.congr fun e he => ?_, fun e => ?_⟩
    · have hne : e ≠ 0 := by
        rintro rfl
        have : (1 : EnvIx).val ≤ (0 : EnvIx).val := (hmem 0).1 he
        exact absurd this (by decide)
      show (if e = 0 then _ else _ : Env).envLink = _
      rw [if_neg hne]
    · rw [hmem]
      by_cases he : e = 0
      · subst he
        decide
      · have : e.val ≠ 0 := fun h => he (Fin.ext h)
        have hone : (1 : EnvIx).val = 1 := rfl
        have hst : demo.ctl.status e = .free := by
          show (if e = 0 then _ else _ : Env).envStatus = _
          rw [if_neg he]
        rw [hst, hone]
        simp only [iff_true]
        omega
  · have he : e = 0 := by
      by_contra hne
      refine hlive ?_
      show (if e = 0 then _ else _ : Env).envStatus = _
      rw [if_neg hne]
    subst he
    decide

end Labs.Jos
