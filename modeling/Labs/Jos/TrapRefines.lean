import Labs.Jos.Refines

/-!
# System calls and traps refine the control machine

The loads and stores of the kernel through user addresses leave the control state alone, or end
in a page fault that destroys the current environment. Each system call makes only the edits
that `Edit` lists for it, and `trap` only those of `TrapEdit`.
-/

namespace Labs.Jos

open Prog Relation

variable {k : CpuId} {g : Grant} {c : EnvIx}

/-! ## Access to user memory -/

/-- The CPU stops for good. -/
theorem leaves_stop {ex : Exit} (hresume : ex ≠ .resume) (hhalt : ex ≠ .halt) (s : Kernel) :
    Leaves k g s ex s :=
  ⟨ReflTransGen.refl, .inl ⟨rfl, hresume, hhalt⟩⟩

theorem leaves_panic {α : Type} {Q : α → Kernel → Prop} (msg : String) (s : Kernel) :
    wp (panic msg : Kern α) Q (Leaves k g s) s :=
  ⟨ReflTransGen.refl, .inl ⟨rfl, by simp, by simp⟩⟩

/-- A page fault in kernel mode never returns. -/
theorem leaves_kernel_page_fault {α : Type} (va : Word) (s : Kernel) :
    wp (kernelPageFault k va : Kern α) (fun _ _ => False) (Leaves k g s) s := by
  rw [kernelPageFault, wp_ite]
  refine ⟨fun _ => leaves_panic _ s, fun _ => ?_⟩
  simp only [curenv, wp_bind, wp_gets]
  cases hcur : (s.cpus k).cpuEnv with
  | none =>
      rw [wp_deref_none]
      exact leaves_stop (by simp) (by simp) s
  | some c =>
      rw [wp_deref_some]
      refine wp_mono_ret (acts_env_destroy (.inl hcur)) fun _ s' h => ?_
      exact absurd hcur h.1

/-- Reading user memory does not depend on the logs. -/
theorem Looked.user_bytes {s s' : Kernel} (h : Looked s s') (n : Nat) (va : Word) :
    s'.userBytes k n va = s.userBytes k n va := by
  obtain ⟨log, addr, rfl⟩ := h
  induction n generalizing va with
  | zero => rfl
  | succ n ih =>
      simp only [Kernel.userBytes, ih]
      rfl

/-- A load that does not fault returns the byte in user memory. -/
theorem load_byte_spec (va : Word) (s : Kernel) :
    wp (loadByte k va) (fun b s' => Looked s s' ∧ s.userByte k va = some b) (Leaves k g s) s := by
  rw [loadByte, wp_bind, wp_get]
  cases hwalk : walk s.mem (s.cpus k).cr3 (pgnum va) with
  | none => exact wp_mono_ret (leaves_kernel_page_fault va s) fun _ _ => False.elim
  | some x =>
      refine ⟨⟨_, s.userMemCheckAddr, rfl⟩, ?_⟩
      simp [Kernel.userByte, hwalk]

/-- Loads that do not fault return the bytes in user memory. -/
theorem load_bytes_spec (n : Nat) (va : Word) (s : Kernel) :
    wp (loadBytes k n va) (fun bytes s' => Looked s s' ∧ s.userBytes k n va = some bytes)
      (Leaves k g s) s := by
  induction n generalizing va s with
  | zero => exact ⟨Looked.refl s, rfl⟩
  | succ n ih =>
      rw [loadBytes, wp_bind]
      refine wp_mono_ret (load_byte_spec va s) fun b s₁ ⟨hlook, hb⟩ => ?_
      rw [wp_bind]
      refine wp_mono (ih (va + 1) s₁) (fun rest s₂ ⟨hlook', hrest⟩ => ?_)
        fun _ _ h => h.of_acts hlook.quiet.does
      rw [wp_pure]
      refine ⟨hlook.trans hlook', ?_⟩
      rw [hlook.user_bytes] at hrest
      simp only [Kernel.userBytes, hb, hrest]
      rfl

theorem looked_load_byte (va : Word) : Keeps Looked (Leaves k g) (loadByte k va) :=
  fun s => wp_mono_ret (load_byte_spec va s) fun _ _ h => h.1

theorem looked_load_bytes (n : Nat) (va : Word) : Keeps Looked (Leaves k g) (loadBytes k n va) :=
  fun s => wp_mono_ret (load_bytes_spec n va s) fun _ _ h => h.1

theorem quiet_of_looked {α : Type} {x : Kern α} (h : Keeps Looked (Leaves k g) x) :
    Keeps Quiet (Leaves k g) x :=
  h.imp (fun _ _ h => h.quiet) fun _ _ _ h => h

theorem quiet_store_byte (va : Word) (b : Byte) :
    Keeps Quiet (Leaves k g) (storeByte k va b) := by
  intro s
  rw [storeByte, wp_bind, wp_get]
  cases walk s.mem (s.cpus k).cr3 (pgnum va) with
  | none => exact wp_mono_ret (leaves_kernel_page_fault va s) fun _ _ => False.elim
  | some x =>
      simp only [wp_ite]
      refine ⟨fun _ => ⟨rfl, rfl⟩, fun _ => ?_⟩
      exact wp_mono_ret (leaves_kernel_page_fault va s) fun _ _ => False.elim

theorem quiet_store_bytes (bytes : List Byte) (va : Word) :
    Keeps Quiet (Leaves k g) (storeBytes k bytes va) := by
  induction bytes generalizing va with
  | nil => exact keeps_pure _
  | cons b rest ih => exact keeps_bind (quiet_store_byte va b) fun _ => ih (va + 1)

/-! ## Parts of system calls

A system call runs with the calling environment as the current one. -/

/-- Nothing changes in the control state as long as `c` is current. -/
def OwnQuiet (k : CpuId) (c : EnvIx) (s s' : Kernel) : Prop :=
  s.ctl.cpuEnv k = some c → Quiet s s'

/-- `Leaves`, as long as `c` is current. -/
def OwnLeaves (k : CpuId) (g : Grant) (c : EnvIx) (s : Kernel) (ex : Exit) (s' : Kernel) : Prop :=
  s.ctl.cpuEnv k = some c → Leaves k g s ex s'

instance : Composes (OwnQuiet k c) (OwnLeaves k g c) where
  refl _ _ := ⟨rfl, rfl⟩
  trans h h' hcur := by
    have hq := h hcur
    exact Composes.trans (E := QuietExit) hq (h' (hq.1 ▸ hcur))
  absorb h h' hcur := by
    have hq := h hcur
    exact (h' (hq.1 ▸ hcur)).of_acts hq.does

/-- A part of a system call of `c` that leaves the control state alone unless it ends the call. -/
def IsOwnQuiet {α : Type} (k : CpuId) (g : Grant) (c : EnvIx) (x : Kern α) : Prop :=
  Keeps (OwnQuiet k c) (OwnLeaves k g c) x

theorem own_of_quiet {α : Type} {x : Kern α} (h : Keeps Quiet (Leaves k g) x) :
    IsOwnQuiet k g c x :=
  h.imp (fun _ _ h _ => h) fun _ _ _ h _ => h

theorem IsQuiet.own {α : Type} {x : Kern α} (h : IsQuiet x) : IsOwnQuiet k g c x :=
  own_of_quiet h.leaves

/-- `user_mem_assert` for the current environment returns only if the check succeeds. -/
theorem user_mem_assert_spec {s : Kernel} (hcur : s.ctl.cpuEnv k = some c) (va len perm : Word) :
    wp (userMemAssert k c va len perm) (fun _ s' => Looked s s') (Leaves k g s) s := by
  rw [userMemAssert, wp_bind]
  refine wp_mono (looked_user_mem_check c va len (perm ||| pteU) s) (fun r s₁ hlook => ?_)
    fun _ _ h => h.leaves
  rw [wp_ite]
  refine ⟨fun _ => ?_, fun _ => hlook⟩
  have hcur₁ : s₁.ctl.cpuEnv k = some c := by rw [hlook.quiet.1]; exact hcur
  refine wp_mono (acts_env_destroy (g := g) (.inl hcur₁)) (fun _ s' h => absurd hcur₁ h.1) ?_
  exact fun _ _ h => h.of_acts hlook.quiet.does

theorem own_user_mem_assert (va len perm : Word) :
    IsOwnQuiet k g c (userMemAssert k c va len perm) := by
  intro s
  by_cases hcur : s.ctl.cpuEnv k = some c
  · exact wp_mono (user_mem_assert_spec hcur va len perm) (fun _ _ h _ => h.quiet)
      fun _ _ h _ => h
  · simp only [OwnQuiet, OwnLeaves, hcur, false_implies]
    unfold wp
    split <;> trivial

theorem own_load_byte (va : Word) : IsOwnQuiet k g c (loadByte k va) :=
  own_of_quiet (quiet_of_looked (looked_load_byte va))

theorem own_load_bytes (n : Nat) (va : Word) : IsOwnQuiet k g c (loadBytes k n va) :=
  own_of_quiet (quiet_of_looked (looked_load_bytes n va))

theorem own_store_bytes (bytes : List Byte) (va : Word) :
    IsOwnQuiet k g c (storeBytes k bytes va) :=
  own_of_quiet (quiet_store_bytes bytes va)

/-- What holds after a part of a system call that leaves the control state alone. -/
theorem IsOwnQuiet.run {α : Type} {x : Kern α} (h : IsOwnQuiet k g c x) {s : Kernel}
    (hcur : s.ctl.cpuEnv k = some c) :
    wp x (fun _ s' => Does k g s s' ∧ s'.ctl.cpuEnv k = some c) (Leaves k g s) s := by
  refine wp_mono (h s) (fun _ s' hq => ⟨(hq hcur).does, ?_⟩) fun _ _ hl => hl hcur
  rw [(hq hcur).1]
  exact hcur

/-! ## The exec system call -/

theorem quiet_exec_unmap_user (k : CpuId) (pgdir : Nat) (keepLo keepHi : Word) :
    IsQuiet (execUnmapUser k pgdir keepLo keepHi) := by
  refine keeps_for_upto (fun pdeno => ?_) _
  refine keeps_bind (quiet_read_word _ _) fun _ => keeps_ite ?_ (keeps_pure _)
  refine keeps_bind (quiet_kaddr _) fun pt => keeps_for_upto (fun pteno => ?_) _
  refine keeps_bind (quiet_read_word _ _) fun _ => ?_
  exact keeps_ite (quiet_page_remove _ _ _) (keeps_pure _)

theorem own_exec_strlen (pgdir : Nat) (str limit : Word) (fuel : Nat) (len : Word) :
    IsOwnQuiet k g c (execStrlen k c pgdir str limit fuel len) := by
  induction fuel generalizing len with
  | zero => exact keeps_exit fun s _ => leaves_stop (by simp) (by simp) s
  | succ fuel ih =>
      rw [execStrlen]
      refine keeps_bind (own_user_mem_assert _ _ _) fun _ => ?_
      refine keeps_bind (quiet_lcr3 _ _).own fun _ => keeps_bind (own_load_byte _) fun _ => ?_
      refine keeps_ite (keeps_pure _) (keeps_bind (keeps_gets _) fun _ => ?_)
      refine keeps_bind (quiet_lcr3 _ _).own fun _ => keeps_ite (keeps_pure _) (ih _)

theorem own_exec_args (pgdir : Nat) (argv : Word) (fuel : Nat) (args : List (List Byte)) :
    IsOwnQuiet k g c (execArgs k c pgdir argv fuel args) := by
  induction fuel generalizing args with
  | zero => exact keeps_pure _
  | succ fuel ih =>
      rw [execArgs]
      refine keeps_bind (own_user_mem_assert _ _ _) fun _ => ?_
      refine keeps_bind (quiet_lcr3 _ _).own fun _ => keeps_bind (own_load_bytes _ _) fun _ => ?_
      refine keeps_bind (keeps_gets _) fun _ => keeps_bind (quiet_lcr3 _ _).own fun _ => ?_
      refine keeps_ite (keeps_pure _) (keeps_ite (keeps_pure _) ?_)
      refine keeps_bind (own_exec_strlen _ _ _ _ _) fun len => ?_
      cases len with
      | none => exact keeps_pure _
      | some len =>
          refine keeps_bind (own_load_bytes _ _) fun _ => keeps_ite ?_ (ih _)
          exact keeps_exit fun s _ => leaves_stop (by simp) (by simp) s

theorem quiet_exec_alloc_segments (k : CpuId) (pgdir : Nat) (segs : List Proghdr) :
    IsQuiet (execAllocSegments k pgdir segs) := by
  induction segs with
  | nil => exact keeps_pure _
  | cons ph rest ih =>
      exact keeps_ite (keeps_pure _) (keeps_bind (quiet_alloc_region _ _ _ _ _ _) fun _ => ih)

theorem own_memmove_user (dst src n : Word) : IsOwnQuiet k g c (memmoveUser k dst src n) :=
  keeps_for_upto (fun _ => keeps_bind (own_load_byte _) fun _ =>
    own_of_quiet (quiet_store_byte _ _)) _

theorem own_exec_fill_segment (binary : Word) (ph : Proghdr) :
    IsOwnQuiet k g c (execFillSegment k binary ph) :=
  keeps_bind (own_memmove_user _ _ _) fun _ =>
    keeps_for_upto (fun _ => own_of_quiet (quiet_store_byte _ _)) _

theorem own_exec_store_args (args : List (List Byte)) (slot str : Word) :
    IsOwnQuiet k g c (execStoreArgs k args slot str) := by
  induction args generalizing slot str with
  | nil => exact keeps_pure _
  | cons arg rest ih =>
      refine keeps_bind (own_store_bytes _ _) fun _ => ?_
      exact keeps_bind (own_store_bytes _ _) fun _ => ih _ _

theorem own_exec_fill (pgdir : Nat) (binary : Word) (segs : List Proghdr)
    (args : List (List Byte)) : IsOwnQuiet k g c (execFill k pgdir binary segs args) := by
  refine keeps_bind (quiet_alloc_region _ _ _ _ _ _).own fun _ => ?_
  refine keeps_bind (quiet_lcr3 _ _).own fun _ => ?_
  refine keeps_bind (keeps_for_each (fun _ => own_exec_fill_segment _ _) _) fun _ => ?_
  refine keeps_bind (own_exec_store_args _ _ _) fun _ => ?_
  refine keeps_bind (own_store_bytes _ _) fun _ => keeps_bind (own_store_bytes _ _) fun _ => ?_
  refine keeps_bind (own_store_bytes _ _) fun _ => keeps_bind (keeps_gets _) fun _ => ?_
  exact (quiet_lcr3 _ _).own

/-- An edit that the grant allows and that keeps the status. -/
theorem does_edit {s : Kernel} {e : EnvIx} {f : Env → Env} (hgrant : g.edit e f)
    (hedit : s.ctl.mayEdit e f) : Does k g s (s.setEnv e f) :=
  ⟨(Act.edit hgrant hedit).acts, rfl⟩

/-- The result of a system call that returns to its caller. -/
def Returned (k : CpuId) (g : Grant) (c : EnvIx) (s s' : Kernel) : Prop :=
  Does k g s s' ∧ s'.ctl.cpuEnv k = some c

/-- A call that leaves the control state alone up to the state `t`. -/
theorem returned_after {α : Type} {x : Kern α} {s t : Kernel} (hst : Returned k g c s t)
    (hx : wp x (fun _ s' => Returned k g c t s') (Leaves k g t) t) :
    wp x (fun _ s' => Returned k g c s s') (Leaves k g s) t :=
  wp_mono hx (fun _ _ h => ⟨Composes.trans (E := Leaves k g) hst.1 h.1, h.2⟩)
    fun _ _ h => h.of_acts hst.1

theorem Returned.refl {s : Kernel} (hcur : s.ctl.cpuEnv k = some c) : Returned k g c s s :=
  ⟨⟨ReflTransGen.refl, rfl⟩, hcur⟩

theorem Returned.of_own {s s' : Kernel} (hcur : s.ctl.cpuEnv k = some c)
    (h : OwnQuiet k c s s') : Returned k g c s s' := by
  refine ⟨(h hcur).does, ?_⟩
  rw [(h hcur).1]
  exact hcur

/-- Run a part that leaves the control state alone, then the rest of the call. -/
theorem returned_bind {α β : Type} {x : Kern α} {f : α → Kern β} {s : Kernel}
    (hx : IsOwnQuiet k g c x) (hcur : s.ctl.cpuEnv k = some c)
    (hf : ∀ a t, Quiet s t → t.ctl.cpuEnv k = some c →
      wp (f a) (fun _ s' => Returned k g c t s') (Leaves k g t) t) :
    wp (x >>= f) (fun _ s' => Returned k g c s s') (Leaves k g s) s := by
  rw [wp_bind]
  refine wp_mono (hx s) (fun a t hq => ?_) fun _ _ hl => hl hcur
  have hret : Returned k g c s t := .of_own hcur hq
  exact returned_after hret (hf a t (hq hcur) hret.2)

theorem returned_own {α : Type} {x : Kern α} {s : Kernel} (hx : IsOwnQuiet k g c x)
    (hcur : s.ctl.cpuEnv k = some c) :
    wp x (fun _ s' => Returned k g c s s') (Leaves k g s) s :=
  wp_mono (hx s) (fun _ _ h => .of_own hcur h) fun _ _ h => h hcur

theorem acts_exec_replace {s : Kernel} (hcur : s.ctl.cpuEnv k = some c)
    (hgrant : ∀ eip esp, g.edit c fun env => { env with envTf := { env.envTf with
      eip := eip, esp := esp, eflags := env.envTf.eflags ||| flIf } })
    (pgdir : Nat) (binary : Word) (elf : Elf) (segs : List Proghdr) (args : List (List Byte)) :
    wp (execReplace k c pgdir binary elf segs args) (fun _ s' => Returned k g c s s')
      (Leaves k g s) s := by
  refine returned_bind (quiet_exec_unmap_user _ _ _ _).own hcur fun _ s₁ _ hcur₁ => ?_
  refine returned_bind (quiet_exec_alloc_segments _ _ _).own hcur₁ fun ok s₂ _ hcur₂ => ?_
  simp only [wp_ite, wp_pure]
  refine ⟨fun _ => ⟨fun _ => .refl hcur₂, fun _ => ?_⟩, fun _ => .refl hcur₂⟩
  refine returned_bind (own_exec_fill _ _ _ _) hcur₂ fun _ s₃ _ _ => ?_
  have hedit : Does k g s₃ (s₃.setEnv c fun env => { env with envTf := { env.envTf with
      eip := elf.eEntry, esp := argvStore args - 8, eflags := env.envTf.eflags ||| flIf } }) :=
    does_edit (hgrant _ _) (.inl fun _ => rfl)
  rw [wp_bind, modifyEnv, wp_modify, wp_bind]
  exact wp_mono (leaves_after hedit (leaves_sched_yield _)) (fun _ _ => False.elim) fun _ _ h => h

theorem acts_sys_exec {s : Kernel} (hcur : s.ctl.cpuEnv k = some c)
    (hgrant : ∀ eip esp, g.edit c fun env => { env with envTf := { env.envTf with
      eip := eip, esp := esp, eflags := env.envTf.eflags ||| flIf } })
    (binary argv : Word) :
    wp (sysExec k c binary argv) (fun _ s' => Returned k g c s s') (Leaves k g s) s := by
  refine returned_bind (own_user_mem_assert _ _ _) hcur fun _ s₁ _ hcur₁ => ?_
  refine returned_bind (keeps_gets _) hcur₁ fun _ s₂ _ hcur₂ => ?_
  refine returned_bind (quiet_deref _).own hcur₂ fun pgdir s₃ _ hcur₃ => ?_
  refine returned_bind (quiet_lcr3 _ _).own hcur₃ fun _ s₄ _ hcur₄ => ?_
  refine returned_bind (own_load_bytes _ _) hcur₄ fun bytes s₅ _ hcur₅ => ?_
  simp only [wp_ite]
  refine ⟨fun _ => leaves_panic _ _, fun _ => ?_⟩
  refine returned_bind (own_load_bytes _ _) hcur₅ fun bytes s₆ _ hcur₆ => ?_
  refine returned_bind (own_exec_args _ _ _ _) hcur₆ fun res s₇ _ hcur₇ => ?_
  cases res with
  | error r => exact .refl hcur₇
  | ok args =>
      simp only [wp_ite]
      refine ⟨fun _ => .refl hcur₇, fun _ => ?_⟩
      exact acts_exec_replace hcur₇ hgrant _ _ _ _ _

/-! ## Creating environments -/

/-- `env_setup_vm` gives `e` a page directory and changes nothing else in the control state. -/
theorem env_setup_vm_spec (e : EnvIx) (s : Kernel) :
    wp (envSetupVm e)
      (fun ok s' => s'.kernelLock = s.kernelLock ∧
        (ok = false → s'.ctl = s.ctl) ∧
        (ok = true → ∃ p, s'.ctl = s.ctl.setEnv e fun env => { env with envPgdir := some p }))
      (QuietExit s) s := by
  rw [envSetupVm, wp_bind]
  refine wp_mono_ret (quiet_page_alloc true s) fun page s₁ hq => ?_
  cases page with
  | none => exact ⟨hq.2, fun _ => hq.1, by simp⟩
  | some p =>
      simp only [modifyEnv, modifyPage, writeWord, wp_bind, wp_modify, wp_pure]
      refine ⟨hq.2, by simp, fun _ => ⟨p, ?_⟩⟩
      rw [← hq.1]
      rfl

/-- `env_alloc` takes the first free slot. -/
theorem env_alloc_spec (parentId : Word) (s : Kernel) :
    wp (envAlloc parentId)
      (fun r s' => s'.kernelLock = s.kernelLock ∧
        match r with
        | .error _ => s'.ctl = s.ctl
        | .ok e => ∃ p, s.ctl.envFreeList = some e ∧ s'.ctl = s.ctl.alloc e parentId p)
      (QuietExit s) s := by
  rw [envAlloc, wp_bind, wp_gets]
  cases hhead : s.envFreeList with
  | none => exact ⟨rfl, rfl⟩
  | some e =>
      rw [wp_bind]
      refine wp_mono_ret (env_setup_vm_spec e s) fun ok s₁ ⟨hlock, hfail, hdone⟩ => ?_
      simp only [wp_ite, wp_bind, modifyEnv, wp_modify, wp_pure]
      refine ⟨fun hok => ?_, fun hok => ⟨hlock, hfail (by simpa using hok)⟩⟩
      obtain ⟨p, hctl⟩ := hdone hok
      refine ⟨hlock, p, hhead, ?_⟩
      -- the new record, over the state in which only the directory is set
      show ({ s₁.ctl.setEnv e fun env => { env with
          envId := nextEnvId env.envId e
          envParentId := parentId
          envType := .user
          envStatus := .runnable
          envRuns := 0
          envTf := initialTf
          envPgfaultUpcall := 0
          envIpcRecving := false } with
        envFreeList := _ } : Ctl) = _
      simp [hctl, Ctl.setEnv, Ctl.alloc, Kernel.setEnv, show s₁.envs = s₁.ctl.envs from rfl]

/-- The new child gets the caller's frame. (Or the initial one, should the caller's slot be the
first free one; that never happens, but the free list says so, not this function.) -/
theorem acts_sys_exofork {s : Kernel} (hcur : s.ctl.cpuEnv k = some c)
    (hgrant : ∀ e tf, s.envFreeList = some e → tf = (s.envs c).envTf ∨ tf = initialTf →
      g.fork c e tf) :
    wp (sysExofork c) (fun _ s' => Returned k g c s s') (Leaves k g s) s := by
  rw [sysExofork, wp_bind, wp_gets, wp_bind]
  refine wp_mono (env_alloc_spec _ s) (fun r s₁ ⟨hlock, hr⟩ => ?_) fun _ _ h => h.leaves
  cases r with
  | error r =>
      refine ⟨Quiet.does ⟨hr, hlock⟩, ?_⟩
      rw [hr]
      exact hcur
  | ok e =>
      obtain ⟨p, hhead, hctl⟩ := hr
      simp only [wp_bind, wp_modify, wp_gets]
      have hfork : (s₁.setEnv e fun env => { env with
          envStatus := .notRunnable
          envTf := { (s₁.envs c).envTf with regs := { (s₁.envs c).envTf.regs with eax := 0 } } }).ctl
          = s.ctl.fork c e p (s₁.envs c).envTf := by
        rw [ctl_set_env, hctl]
        rfl
      have htf : (s₁.envs c).envTf = (s.envs c).envTf ∨ (s₁.envs c).envTf = initialTf := by
        have henv : s₁.envs c = (s.ctl.alloc e (s.envs c).envId p).envs c :=
          congrFun (congrArg Ctl.envs hctl) c
        rw [henv]
        by_cases hce : c = e
        · right
          simp [Ctl.alloc, Ctl.setEnv, hce]
        · left
          simp [Ctl.alloc, Ctl.setEnv, hce, Kernel.ctl]
      refine ⟨⟨?_, hlock⟩, ?_⟩
      · rw [hfork]
        exact (Act.fork (hgrant _ _ hhead htf) hcur hhead).acts
      · rw [hfork]
        exact hcur

/-! ## The other system calls -/

/-- An environment found by its id is the caller or in use. -/
theorem envid2env_live {s : Kernel} {envid : Word} {checkperm : Bool} {e : EnvIx}
    (hcur : s.ctl.cpuEnv k = some c) (hlive : s.ctl.status c ≠ .free)
    (he : envid2env s k envid checkperm = some e) : s.ctl.status e ≠ .free := by
  have hcur' : (s.cpus k).cpuEnv = some c := hcur
  simp only [envid2env, hcur'] at he
  split at he
  · cases he
    exact hlive
  · split at he
    · cases he
    · rename_i hok
      split at he
      · cases he
      · cases he
        exact fun hfree => hok (.inl hfree)

theorem settable_status {w : Word} {st : EnvStatus} (h : settableStatus w = some st) :
    st = .runnable ∨ st = .notRunnable := by
  unfold settableStatus at h
  split at h
  · exact .inl (Option.some.inj h).symm
  · split at h
    · exact .inr (Option.some.inj h).symm
    · cases h

theorem acts_sys_env_set_status {s : Kernel} {envid status : Word}
    (hcur : s.ctl.cpuEnv k = some c) (hlive : s.ctl.status c ≠ .free)
    (hgrant : ∀ e f, Edit s k c (.envSetStatus envid status) e f → g.edit e f) :
    wp (sysEnvSetStatus k envid status) (fun _ s' => Returned k g c s s') (Leaves k g s) s := by
  rw [sysEnvSetStatus]
  cases hst : settableStatus status with
  | none => exact .refl hcur
  | some st =>
      rw [wp_bind, wp_get]
      cases he : envid2env s k envid true with
      | none => exact .refl hcur
      | some e =>
          refine ⟨does_edit (hgrant e _ (.status hst he)) (.inr ⟨?_, fun _ => ?_⟩), hcur⟩
          · exact envid2env_live hcur hlive he
          · exact settable_status hst

theorem acts_sys_env_set_trapframe {s : Kernel} {envid va : Word}
    (hcur : s.ctl.cpuEnv k = some c)
    (hgrant : ∀ e f, Edit s k c (.envSetTrapframe envid va) e f → g.edit e f) :
    wp (sysEnvSetTrapframe k c envid va) (fun _ s' => Returned k g c s s') (Leaves k g s) s := by
  rw [sysEnvSetTrapframe, wp_bind, wp_get]
  cases he : envid2env s k envid true with
  | none => exact .refl hcur
  | some e =>
      rw [wp_bind]
      refine wp_mono_ret (user_mem_assert_spec hcur va 68 pteU) fun _ s₁ h₁ => ?_
      rw [wp_bind]
      refine wp_mono (load_bytes_spec 68 va s₁) (fun bytes s₂ ⟨h₂, hbytes⟩ => ?_)
        fun _ _ h => h.of_acts h₁.quiet.does
      rw [h₁.user_bytes] at hbytes
      have hlook := h₁.trans h₂
      rw [wp_bind, modifyEnv, wp_modify, wp_pure]
      have hedit : Does k g s₂ (s₂.setEnv e fun env =>
          { env with envTf := sanitizeTf (decodeTrapframe bytes) }) :=
        does_edit (hgrant e _ (.trapframe he hbytes)) (.inl fun _ => rfl)
      refine ⟨Composes.trans (E := Leaves k g) hlook.quiet.does hedit, ?_⟩
      show s₂.ctl.cpuEnv k = some c
      rw [hlook.quiet.1]
      exact hcur

theorem acts_sys_env_set_pgfault_upcall {s : Kernel} {envid func : Word}
    (hcur : s.ctl.cpuEnv k = some c)
    (hgrant : ∀ e f, Edit s k c (.envSetPgfaultUpcall envid func) e f → g.edit e f) :
    wp (sysEnvSetPgfaultUpcall k envid func) (fun _ s' => Returned k g c s s')
      (Leaves k g s) s := by
  rw [sysEnvSetPgfaultUpcall, wp_bind, wp_get]
  cases he : envid2env s k envid true with
  | none => exact .refl hcur
  | some e => exact ⟨does_edit (hgrant e _ (.upcall he)) (.inl fun _ => rfl), hcur⟩

theorem acts_sys_env_destroy {s : Kernel} {envid : Word} (hcur : s.ctl.cpuEnv k = some c)
    (hkill : ∀ e, envid2env s k envid true = some e → MayDestroy k g s e) :
    wp (sysEnvDestroy k envid) (fun _ s' => Returned k g c s s') (Leaves k g s) s := by
  rw [sysEnvDestroy, wp_bind, wp_get]
  cases he : envid2env s k envid true with
  | none => exact .refl hcur
  | some e =>
      rw [wp_bind]
      refine wp_mono_ret (acts_env_destroy (hkill e he)) fun _ s' ⟨_, hdoes, hcpu⟩ => ?_
      refine ⟨hdoes, ?_⟩
      rw [hcpu]
      exact hcur

theorem quiet_sys_page_alloc (k : CpuId) (envid va perm : Word) :
    IsQuiet (sysPageAlloc k envid va perm) := by
  refine keeps_ite (keeps_pure _) (keeps_ite (keeps_pure _) ?_)
  refine keeps_bind keeps_get fun s => ?_
  cases envid2env s k envid true with
  | none => exact keeps_pure _
  | some e =>
      refine keeps_bind (quiet_page_alloc true) fun page => ?_
      cases page with
      | none => exact keeps_pure _
      | some pp =>
          refine keeps_bind (keeps_gets _) fun _ => keeps_bind (quiet_deref _) fun _ => ?_
          refine keeps_bind (quiet_page_insert _ _ _ _ _) fun _ => ?_
          exact keeps_ite (keeps_bind (quiet_page_free _) fun _ => keeps_pure _) (keeps_pure _)

theorem quiet_sys_page_map (k : CpuId) (srcenvid srcva dstenvid dstva perm : Word) :
    IsQuiet (sysPageMap k srcenvid srcva dstenvid dstva perm) := by
  refine keeps_ite (keeps_pure _) (keeps_ite (keeps_pure _) (keeps_ite (keeps_pure _) ?_))
  refine keeps_bind keeps_get fun s => ?_
  cases envid2env s k srcenvid true with
  | none => exact keeps_pure _
  | some srcenv =>
      refine keeps_bind keeps_get fun s' => ?_
      cases envid2env s' k dstenvid true with
      | none => exact keeps_pure _
      | some dstenv =>
          refine keeps_bind (keeps_gets _) fun _ => keeps_bind (quiet_deref _) fun _ => ?_
          refine keeps_bind (quiet_pgdir_walk _ _ _) fun pte => ?_
          cases pte with
          | none => exact keeps_pure _
          | some pte =>
              refine keeps_bind (quiet_read_word _ _) fun _ => keeps_ite ?_ (keeps_pure _)
              refine keeps_bind (quiet_pa2page _) fun _ => keeps_bind (keeps_gets _) fun _ => ?_
              exact keeps_bind (quiet_deref _) fun _ => quiet_page_insert _ _ _ _ _

theorem quiet_sys_page_unmap (k : CpuId) (envid va : Word) :
    IsQuiet (sysPageUnmap k envid va) := by
  refine keeps_ite (keeps_pure _) (keeps_bind keeps_get fun s => ?_)
  cases envid2env s k envid true with
  | none => exact keeps_pure _
  | some e =>
      refine keeps_bind (keeps_gets _) fun _ => keeps_bind (quiet_deref _) fun _ => ?_
      exact keeps_bind (quiet_page_remove _ _ _) fun _ => keeps_pure _

theorem looked_ipc_source (c : EnvIx) (srcva perm : Word) :
    Keeps Looked QuietExit (ipcSource c srcva perm) := by
  refine keeps_ite (keeps_pure _) (keeps_ite (keeps_pure _) (keeps_ite (keeps_pure _) ?_))
  refine keeps_bind (keeps_gets _) fun _ => keeps_bind (looked_deref _) fun _ => ?_
  refine keeps_bind (looked_pgdir_walk _ _) fun pte => ?_
  cases pte with
  | none => exact keeps_pure _
  | some pte => exact keeps_bind (keeps_gets _) fun _ => keeps_ite (keeps_pure _) (keeps_pure _)

theorem acts_ipc_deliver {s : Kernel} {e : EnvIx} (hcur : s.ctl.cpuEnv k = some c)
    (hgrant : ∀ sent, g.edit e fun env => { env with envIpcPerm := sent })
    (source : Option PteRef) (perm : Word) :
    wp (ipcDeliver k e source perm) (fun _ s' => Returned k g c s s') (Leaves k g s) s := by
  have hedit : ∀ (t : Kernel) (sent : Word), t.ctl.cpuEnv k = some c →
      Returned k g c t (t.setEnv e fun env => { env with envIpcPerm := sent }) :=
    fun t sent hcur' => ⟨does_edit (hgrant sent) (.inl fun _ => rfl), hcur'⟩
  rw [ipcDeliver, wp_bind, wp_gets]
  cases source with
  | none => exact hedit s 0 hcur
  | some pte =>
      dsimp only
      rw [wp_ite]
      refine ⟨fun _ => ?_, fun _ => hedit s 0 hcur⟩
      refine returned_bind (quiet_read_word _ _).own hcur fun _ s₁ _ hcur₁ => ?_
      refine returned_bind (quiet_pa2page _).own hcur₁ fun pp s₂ _ hcur₂ => ?_
      refine returned_bind (keeps_gets _) hcur₂ fun _ s₃ _ hcur₃ => ?_
      refine returned_bind (quiet_deref _).own hcur₃ fun pgdir s₄ _ hcur₄ => ?_
      refine returned_bind (quiet_page_insert _ _ _ _ _).own hcur₄ fun r s₅ _ hcur₅ => ?_
      rw [wp_ite]
      exact ⟨fun _ => .refl hcur₅, fun _ => hedit s₅ perm hcur₅⟩

theorem acts_sys_ipc_try_send {s : Kernel} {envid value srcva perm : Word}
    (hcur : s.ctl.cpuEnv k = some c) (hlive : s.ctl.status c ≠ .free)
    (hgrant : ∀ e f, Edit s k c (.ipcTrySend envid value srcva perm) e f → g.edit e f) :
    wp (sysIpcTrySend k c envid value srcva perm) (fun _ s' => Returned k g c s s')
      (Leaves k g s) s := by
  rw [sysIpcTrySend, wp_bind, wp_get]
  cases he : envid2env s k envid false with
  | none => exact .refl hcur
  | some e =>
      simp only [wp_bind, wp_gets, wp_ite]
      refine ⟨fun hrecv => ?_, fun _ => .refl hcur⟩
      refine wp_mono (looked_ipc_source c srcva perm s) (fun source s₁ h₁ => ?_)
        fun _ _ h => h.leaves
      have hquiet := h₁.quiet
      have hcur₁ : s₁.ctl.cpuEnv k = some c := by rw [hquiet.1]; exact hcur
      cases source with
      | none => exact ⟨hquiet.does, hcur₁⟩
      | some source =>
          rw [wp_bind, wp_modify]
          have hfrom : (s₁.envs c).envId = (s.envs c).envId := by
            obtain ⟨log, addr, rfl⟩ := h₁
            rfl
          rw [hfrom]
          have hsend : Does k g s₁ (s₁.setEnv e fun env => { env with
              envIpcFrom := (s.envs c).envId
              envIpcValue := value
              envIpcRecving := false
              envStatus := .runnable }) := by
            refine does_edit (hgrant e _ (.send he hrecv)) (.inr ⟨?_, fun _ => .inl rfl⟩)
            rw [hquiet.1]
            exact envid2env_live hcur hlive he
          refine returned_after ⟨Composes.trans (E := Leaves k g) hquiet.does hsend, hcur₁⟩ ?_
          refine acts_ipc_deliver ?_ (fun sent => hgrant e _ (.sendPerm sent he hrecv)) _ _
          exact hcur₁

theorem acts_sys_ipc_recv {s : Kernel} {dstva : Word} (hcur : s.ctl.cpuEnv k = some c)
    (hlive : s.ctl.status c ≠ .free)
    (hgrant : ∀ e f, Edit s k c (.ipcRecv dstva) e f → g.edit e f) :
    wp (sysIpcRecv k c dstva) (fun _ s' => Returned k g c s s') (Leaves k g s) s := by
  rw [sysIpcRecv, wp_ite]
  refine ⟨fun _ => .refl hcur, fun _ => ?_⟩
  have hedit : Does k g s (s.setEnv c fun env => { env with
      envIpcRecving := true, envIpcDstva := dstva, envStatus := .notRunnable }) :=
    does_edit (hgrant c _ .recv) (.inr ⟨hlive, fun _ => .inr rfl⟩)
  rw [wp_bind, modifyEnv, wp_modify, wp_bind]
  exact wp_mono (leaves_after hedit (leaves_sched_yield _)) (fun _ _ => False.elim) fun _ _ h => h

theorem quiet_modify_e1000 (f : E1000 → E1000) : IsQuiet (modifyE1000 f) :=
  keeps_modify fun _ => ⟨rfl, rfl⟩

theorem own_e1000_transmit (buf size : Word) : IsOwnQuiet k g c (e1000Transmit k buf size) := by
  refine keeps_bind (keeps_gets _) fun dev => ?_
  refine keeps_ite (keeps_pure _) (keeps_ite (keeps_pure _) ?_)
  refine keeps_bind (quiet_modify_e1000 _).own fun _ => ?_
  refine keeps_bind (own_load_bytes _ _) fun _ => ?_
  refine keeps_bind (quiet_modify_e1000 _).own fun _ => ?_
  refine keeps_bind (quiet_modify_e1000 _).own fun _ => ?_
  exact keeps_bind (quiet_modify_e1000 _).own fun _ => keeps_pure _

theorem own_e1000_receive (buf size : Word) : IsOwnQuiet k g c (e1000Receive k buf size) := by
  refine keeps_bind (keeps_gets _) fun dev => ?_
  refine keeps_ite (keeps_pure _) (keeps_ite (keeps_pure _) ?_)
  refine keeps_bind (own_store_bytes _ _) fun _ => ?_
  refine keeps_bind (quiet_modify_e1000 _).own fun _ => ?_
  exact keeps_bind (quiet_modify_e1000 _).own fun _ => keeps_pure _

theorem own_puts_loop (fuel : Nat) (p : Word) (precision : Int) :
    IsOwnQuiet k g c (putsLoop k fuel p precision) := by
  induction fuel generalizing p precision with
  | zero => exact keeps_exit fun s _ => leaves_stop (by simp) (by simp) s
  | succ fuel ih =>
      rw [putsLoop]
      refine keeps_bind (own_load_byte _) fun _ => keeps_ite ?_ (keeps_pure _)
      exact keeps_bind (keeps_modify fun _ _ => ⟨rfl, rfl⟩) fun _ => ih _ _

theorem own_cprintf_string (str len : Word) : IsOwnQuiet k g c (cprintfString k str len) :=
  keeps_ite (keeps_modify fun _ _ => ⟨rfl, rfl⟩) (own_puts_loop _ _ _)

theorem own_sys_cputs (str len : Word) : IsOwnQuiet k g c (sysCputs k c str len) :=
  keeps_bind (own_user_mem_assert _ _ _) fun _ => own_cprintf_string _ _

theorem quiet_sys_cgetc : IsQuiet sysCgetc := by
  refine keeps_bind (keeps_gets _) fun waiting => ?_
  cases waiting with
  | nil => exact keeps_pure _
  | cons ch rest => exact keeps_bind (keeps_modify fun _ => ⟨rfl, rfl⟩) fun _ => keeps_pure _

/-- A system call makes only the edits listed for it. -/
theorem acts_syscall {s : Kernel} {call : Call} (hcur : s.ctl.cpuEnv k = some c)
    (hlive : s.ctl.status c ≠ .free) (hgrant : ∀ e f, Edit s k c call e f → g.edit e f)
    (hkill : ∀ envid e, call = .envDestroy envid → envid2env s k envid true = some e →
      MayDestroy k g s e)
    (hfork : call = .exofork → ∀ e tf, s.envFreeList = some e →
      tf = (s.envs c).envTf ∨ tf = initialTf → g.fork c e tf) :
    wp (syscall k c call) (fun _ s' => Returned k g c s s') (Leaves k g s) s := by
  cases call with
  | cputs str len =>
      exact returned_own (keeps_bind (own_sys_cputs str len) fun _ => keeps_pure _) hcur
  | cgetc => exact returned_own quiet_sys_cgetc.own hcur
  | getenvid => exact .refl hcur
  | envDestroy envid => exact acts_sys_env_destroy hcur fun e he => hkill envid e rfl he
  | pageAlloc envid va perm => exact returned_own (quiet_sys_page_alloc k envid va perm).own hcur
  | pageMap srcenvid srcva dstenvid dstva perm =>
      exact returned_own (quiet_sys_page_map k srcenvid srcva dstenvid dstva perm).own hcur
  | pageUnmap envid va => exact returned_own (quiet_sys_page_unmap k envid va).own hcur
  | exofork => exact acts_sys_exofork hcur (hfork rfl)
  | envSetStatus envid status => exact acts_sys_env_set_status hcur hlive hgrant
  | envSetTrapframe envid va => exact acts_sys_env_set_trapframe hcur hgrant
  | envSetPgfaultUpcall envid func => exact acts_sys_env_set_pgfault_upcall hcur hgrant
  | yield =>
      rw [syscall, wp_bind]
      exact wp_mono_ret (leaves_sched_yield s) fun _ _ => False.elim
  | ipcTrySend envid value srcva perm => exact acts_sys_ipc_try_send hcur hlive hgrant
  | ipcRecv dstva => exact acts_sys_ipc_recv hcur hlive hgrant
  | timeMsec => exact .refl hcur
  | netSend buf size =>
      exact returned_own (keeps_bind (own_user_mem_assert _ _ _) fun _ =>
        own_e1000_transmit buf size) hcur
  | netRecv buf size =>
      exact returned_own (keeps_bind (own_user_mem_assert _ _ _) fun _ =>
        own_e1000_receive buf size) hcur
  | exec binary argv => exact acts_sys_exec hcur (fun eip esp => hgrant c _ (.exec eip esp)) _ _
  | invalid => exact .refl hcur

/-! ## Traps -/

theorem acts_page_fault_handler {s : Kernel} {tf : Trapframe} (hcur : s.ctl.cpuEnv k = some c)
    (hgrant : ∀ esp eip, g.edit c fun env =>
      { env with envTf := { env.envTf with esp := esp, eip := eip } }) (va : Word) :
    wp (pageFaultHandler k tf va) (fun _ s' => Returned k g c s s') (Leaves k g s) s := by
  rw [pageFaultHandler, wp_ite]
  refine ⟨fun _ => wp_mono_ret (leaves_kernel_page_fault va s) fun _ _ => False.elim, fun _ => ?_⟩
  have hcur' : (s.cpus k).cpuEnv = some c := hcur
  simp only [curenv, wp_bind, wp_gets, hcur', wp_deref_some]
  rw [wp_ite]
  constructor
  · intro _
    exact wp_mono_ret (acts_env_destroy (.inl hcur)) fun _ _ h => absurd hcur h.1
  · intro _
    refine returned_bind (own_user_mem_assert _ _ _) hcur fun _ s₁ _ hcur₁ => ?_
    refine returned_bind (own_user_mem_assert _ _ _) hcur₁ fun _ s₂ _ hcur₂ => ?_
    refine returned_bind (own_store_bytes _ _) hcur₂ fun _ s₃ _ hcur₃ => ?_
    exact ⟨does_edit (hgrant _ _) (.inl fun _ => rfl), hcur₃⟩

/-- `trap_dispatch` of a trap from user mode, whose frame is that of the current environment. -/
theorem acts_trap_dispatch {s : Kernel} {tf : Trapframe} (hcur : s.ctl.cpuEnv k = some c)
    (hlive : s.ctl.status c ≠ .free) (hgrant : ∀ e f, TrapEdit s k c tf e f → g.edit e f)
    (hkill : ∀ envid e, tf.trapno = tSyscall → decodeCall tf.regs = .envDestroy envid →
      envid2env s k envid true = some e → MayDestroy k g s e)
    (hfork : tf.trapno = tSyscall → decodeCall tf.regs = .exofork → ∀ e tf',
      s.envFreeList = some e → tf' = (s.envs c).envTf ∨ tf' = initialTf → g.fork c e tf')
    (cr2 : Word) :
    wp (trapDispatch k (some c) tf cr2) (fun _ s' => Returned k g c s s') (Leaves k g s) s := by
  have hcur' : (s.cpus k).cpuEnv = some c := hcur
  have hyield : ∀ t : Kernel, wp (schedYield k) (fun _ s' => Returned k g c t s') (Leaves k g t) t :=
    fun t => wp_mono_ret (leaves_sched_yield t) fun _ _ => False.elim
  simp only [trapDispatch, wp_ite]
  refine ⟨fun _ => ?_, fun _ => ⟨fun _ => leaves_stop (by simp) (by simp) s, fun _ =>
    ⟨fun htrap => ?_, fun _ => ⟨fun _ => .refl hcur, fun _ => ⟨fun _ => ?_, fun _ =>
    ⟨fun _ => .refl hcur, fun _ => ⟨fun _ => leaves_panic _ s, fun _ => ?_⟩⟩⟩⟩⟩⟩⟩
  · exact acts_page_fault_handler hcur (fun esp eip => hgrant c _ (.fault esp eip)) cr2
  · simp only [curenv, wp_bind, wp_gets, hcur', wp_deref_some]
    refine wp_mono_ret (acts_syscall hcur hlive (fun e f h => hgrant e f (.call htrap h))
      (fun envid e hcall he => hkill envid e htrap hcall he) (hfork htrap)) fun r s₁ h₁ => ?_
    have hedit : Does k g s₁ (s₁.setEnv c fun env => { env with envTf := { env.envTf with
        regs := { env.envTf.regs with eax := BitVec.ofInt 32 r } } }) :=
      does_edit (hgrant c _ (.result _)) (.inl fun _ => rfl)
    exact ⟨Composes.trans (E := Leaves k g) h₁.1 hedit, h₁.2⟩
  · refine ⟨fun _ => ?_, fun _ => hyield s⟩
    exact returned_bind quiet_time_tick.own hcur fun _ t _ _ => hyield t
  · simp only [curenv, wp_bind, wp_gets, hcur', wp_deref_some]
    exact wp_mono_ret (acts_env_destroy (.inl hcur)) fun _ _ h => absurd hcur h.1

/-- The system call that CPU `k` makes with the frame `tf`, if it makes one. A dying environment
makes none. -/
def Asks (s : Kernel) (k : CpuId) (tf : Trapframe) (call : Call) : Prop :=
  ∃ c, s.ctl.cpuEnv k = some c ∧ s.ctl.status c ≠ .dying ∧ tf.trapno = tSyscall ∧
    decodeCall tf.regs = call

/-- What an entry of CPU `k` from user mode with the frame `tf` may do. -/
def entryGrant (s : Kernel) (k : CpuId) (tf : Trapframe) : Grant where
  edit e f := ∃ c, s.ctl.cpuEnv k = some c ∧ s.ctl.status c ≠ .dying ∧ TrapEdit s k c tf e f
  mark e := ∃ envid, Asks s k tf (.envDestroy envid) ∧ envid2env s k envid true = some e ∧
    s.ctl.status e = .running
  reap e := ∃ envid, Asks s k tf (.envDestroy envid) ∧ envid2env s k envid true = some e ∧
    s.ctl.status e ≠ .running
  fork c e tf' := s.ctl.cpuEnv k = some c ∧ s.envFreeList = some e ∧ Asks s k tf .exofork ∧
    (tf' = tf ∨ tf' = initialTf)

/-- A kernel entry of CPU `k` ended with `ex`. It waited for the lock, or it stopped at once, or
it took the lock and then stopped with it or settled without it. -/
def Entry (k : CpuId) (g : Grant) (s : Kernel) (ex : Exit) (s' : Kernel) : Prop :=
  ex = .blocked ∨ QuietExit s ex s' ∨
    (s.kernelLock = none ∨ s.kernelLock = some k) ∧ Acts k g s.ctl s'.ctl ∧
      (s'.kernelLock = some k ∧ ex ≠ .resume ∧ ex ≠ .halt ∨
        s'.kernelLock = none ∧ Settled k ex s'.ctl)

/-- From a state in which CPU `k` holds the lock on, an entry ends as `Leaves` says. -/
theorem Entry.of_leaves {s s₁ s' : Kernel} {ex : Exit}
    (hlock : s.kernelLock = none ∨ s.kernelLock = some k) (hacts : Acts k g s.ctl s₁.ctl)
    (hheld : s₁.kernelLock = some k) (h : Leaves k g s₁ ex s') : Entry k g s ex s' := by
  refine .inr (.inr ⟨hlock, hacts.trans h.1, ?_⟩)
  rcases h.2 with ⟨hsame, hstop⟩ | ⟨_, hnone, hsettled⟩
  · exact .inl ⟨hsame.trans hheld, hstop⟩
  · exact .inr ⟨hnone, hsettled⟩

/-- After `lock_kernel` the entry goes on with the lock held; otherwise it ends there. -/
theorem entry_lock {α : Type} {s s₁ : Kernel} {f : Unit → Kern α}
    (hlock : s₁.kernelLock = s.kernelLock) (hacts : Acts k g s.ctl s₁.ctl)
    (hf : s.kernelLock = none →
      wp (f ()) (fun _ _ => False) (Entry k g s) { s₁ with kernelLock := some k }) :
    wp (lockKernel k >>= f) (fun _ _ => False) (Entry k g s) s₁ := by
  simp only [lockKernel, wp_bind, wp_gets]
  cases hheld : s₁.kernelLock with
  | none => exact hf (hlock.symm.trans hheld)
  | some holder =>
      dsimp only
      rw [wp_ite]
      constructor
      · rintro rfl
        exact .inr (.inr ⟨.inr (hlock.symm.trans hheld), hacts, .inl ⟨hheld, by simp, by simp⟩⟩)
      · intro _
        exact .inl rfl

/-- The entry of a CPU that reaches the scheduler for the first time. -/
theorem start_cpu_spec (s : Kernel) :
    wp (startCpu k) (fun _ _ => False) (Entry k .none s) s := by
  rw [startCpu, wp_bind, wp_gets, wp_ite]
  constructor
  · intro _
    refine entry_lock rfl ReflTransGen.refl fun hnone => ?_
    have hacts : Acts k .none s.ctl ({ s with kernelLock := some k } : Kernel).ctl :=
      ReflTransGen.refl
    refine wp_mono (leaves_sched_yield (g := .none) _) (fun _ _ => False.elim) fun ex s' h => ?_
    exact Entry.of_leaves (.inl hnone) hacts rfl h
  · intro hheld
    have hheld' : s.kernelLock = some k := by simpa using hheld
    refine wp_mono (leaves_sched_yield (g := .none) s) (fun _ _ => False.elim) fun ex s' h => ?_
    exact Entry.of_leaves (.inr hheld') ReflTransGen.refl hheld' h

/-- An edit of the state that the edits of a system call do not see. -/
structure SameCall (s s₁ : Kernel) : Prop where
  mem : s₁.mem = s.mem
  cr3 : ∀ j, (s₁.cpus j).cr3 = (s.cpus j).cr3
  cpuEnv : s₁.ctl.cpuEnv = s.ctl.cpuEnv
  status : ∀ e, (s₁.envs e).envStatus = (s.envs e).envStatus
  envId : ∀ e, (s₁.envs e).envId = (s.envs e).envId
  parent : ∀ e, (s₁.envs e).envParentId = (s.envs e).envParentId
  recving : ∀ e, (s₁.envs e).envIpcRecving = (s.envs e).envIpcRecving
  freeList : s₁.envFreeList = s.envFreeList

theorem SameCall.envid2env {s s₁ : Kernel} (h : SameCall s s₁) (k : CpuId) (envid : Word)
    (checkperm : Bool) : envid2env s₁ k envid checkperm = envid2env s k envid checkperm := by
  have hcpu : (s₁.cpus k).cpuEnv = (s.cpus k).cpuEnv := congrFun h.cpuEnv k
  simp only [Jos.envid2env, hcpu, h.status, h.envId, h.parent]

theorem SameCall.user_bytes {s s₁ : Kernel} (h : SameCall s s₁) (k : CpuId) (n : Nat)
    (va : Word) : s₁.userBytes k n va = s.userBytes k n va := by
  induction n generalizing va with
  | zero => rfl
  | succ n ih => simp only [Kernel.userBytes, Kernel.userByte, Kernel.physByte, h.mem, h.cr3, ih]

theorem SameCall.edit {s s₁ : Kernel} (h : SameCall s s₁) {call : Call} {e : EnvIx}
    {f : Env → Env} (hedit : Edit s₁ k c call e f) : Edit s k c call e f := by
  cases hedit with
  | status hst he => exact .status hst (h.envid2env _ _ _ ▸ he)
  | trapframe he hbytes =>
      exact .trapframe (h.envid2env _ _ _ ▸ he) (h.user_bytes _ _ _ ▸ hbytes)
  | upcall he => exact .upcall (h.envid2env _ _ _ ▸ he)
  | send he hrecv =>
      rw [h.envId]
      exact .send (h.envid2env _ _ _ ▸ he) (h.recving e ▸ hrecv)
  | sendPerm sent he hrecv => exact .sendPerm sent (h.envid2env _ _ _ ▸ he) (h.recving e ▸ hrecv)
  | recv => exact .recv
  | exec eip esp => exact .exec eip esp

theorem SameCall.trap_edit {s s₁ : Kernel} (h : SameCall s s₁) {tf : Trapframe} {e : EnvIx}
    {f : Env → Env} (hedit : TrapEdit s₁ k c tf e f) : TrapEdit s k c tf e f := by
  cases hedit with
  | save => exact .save
  | result r => exact .result r
  | fault esp eip => exact .fault esp eip
  | call htrap hcall => exact .call htrap (h.edit hcall)

/-- The part of `trap` for user mode, once the lock is held. -/
theorem leaves_user_trap {s s₁ : Kernel} {tf : Trapframe} (hcall : SameCall s s₁)
    (hlive : ∀ c, s.ctl.cpuEnv k = some c → s.ctl.status c ≠ .free) (cr2 : Word) :
    wp (userTrap k tf cr2)
      (fun _ _ => False) (Leaves k (entryGrant s k tf) s₁) s₁ := by
  simp only [userTrap, curenv, wp_bind, wp_gets]
  cases hcur : (s₁.cpus k).cpuEnv with
  | none => exact leaves_panic _ s₁
  | some c =>
      have hcur₀ : s.ctl.cpuEnv k = some c := by rw [← hcall.cpuEnv]; exact hcur
      simp only [wp_bind, wp_gets, wp_ite]
      constructor
      · intro _
        refine wp_mono_ret (acts_env_free (.inl hcur)) ?_
        rintro _ s₂ ⟨u, hacts, _, hcur₂, hctl, hlock⟩
        rw [modifyCpu, wp_modify]
        refine leaves_after ⟨?_, hlock⟩ (leaves_sched_yield _)
        rw [ctl_set_cpu_env, hctl]
        exact hacts.tail (Act.freedOwn (hcur₂ ▸ hcur))
      · intro hdying
        have hdying₀ : s.ctl.status c ≠ .dying := fun h => hdying ((hcall.status c).trans h)
        have hedit : ∀ e f, TrapEdit s k c tf e f → (entryGrant s k tf).edit e f :=
          fun e f h => ⟨c, hcur₀, hdying₀, h⟩
        have hsave : Does k (entryGrant s k tf) s₁
            (s₁.setEnv c fun env => { env with envTf := tf }) :=
          does_edit (hedit c _ .save) (.inl fun _ => rfl)
        have hcall₁ : SameCall s (s₁.setEnv c fun env => { env with envTf := tf }) := by
          refine ⟨hcall.mem, hcall.cr3, hcall.cpuEnv, ?_, ?_, ?_, ?_, hcall.freeList⟩ <;>
            intro e <;> by_cases he : e = c <;>
            simp [Kernel.setEnv, he, hcall.status, hcall.envId, hcall.parent, hcall.recving]
        rw [modifyEnv, wp_modify]
        have hlive₁ : (s₁.setEnv c fun env => { env with envTf := tf }).ctl.status c ≠ .free := by
          intro hfree
          exact hlive c hcur₀ ((hcall₁.status c).symm.trans hfree)
        have hcur₁ : (s₁.setEnv c fun env => { env with envTf := tf }).ctl.cpuEnv k = some c := hcur
        have htf₁ : ((s₁.setEnv c fun env => { env with envTf := tf }).envs c).envTf = tf := by
          simp [Kernel.setEnv]
        generalize (s₁.setEnv c fun env => { env with envTf := tf }) = s₂
          at hsave hcall₁ hlive₁ hcur₁ htf₁
        refine wp_mono (acts_trap_dispatch hcur₁ hlive₁
          (fun e f h => hedit e f (hcall₁.trap_edit h)) ?_
          (fun htrap hdec e tf' hhead htf' => ?_) cr2) (fun _ s₃ h₃ => ?_)
          fun _ _ h => h.of_acts hsave
        · intro envid e htrap hdec he
          rw [hcall₁.envid2env] at he
          have hasks : Asks s k tf (.envDestroy envid) := ⟨c, hcur₀, hdying₀, htrap, hdec⟩
          have hstatus : s₂.ctl.status e = s.ctl.status e := hcall₁.status e
          have hlive₂ : s₂.ctl.status e ≠ .free := by
            rw [hstatus]
            exact envid2env_live hcur₀ (hlive c hcur₀) he
          refine .inr ⟨hlive₂, fun h => ⟨envid, hasks, he, ?_⟩, fun h => ⟨envid, hasks, he, ?_⟩⟩
          · rw [← hstatus]
            exact h
          · rw [← hstatus]
            exact h
        · rw [htf₁] at htf'
          rw [hcall₁.freeList] at hhead
          exact ⟨hcur₀, hhead, ⟨c, hcur₀, hdying₀, htrap, hdec⟩, htf'⟩
        · exact leaves_after (Composes.trans (E := Leaves k (entryGrant s k tf)) hsave h₃.1)
            (leaves_trap_return s₃)

/-- The part of an entry before the trap body: the CPU counts as started. -/
theorem trap_start {s : Kernel} {tf : Trapframe} {cr2 : Word}
    (hhalted : s.ctl.cpuStatus k = .halted →
      wp (do lockKernel k; trapBody k tf cr2) (fun _ _ => False) (Entry k g s)
        (s.setCpu k fun c => { c with cpuStatus := .started }))
    (hrunning : s.ctl.cpuStatus k ≠ .halted →
      wp (trapBody k tf cr2) (fun _ _ => False) (Entry k g s)
        (s.setCpu k fun c => { c with cpuStatus := .started })) :
    wp (trap k tf cr2) (fun _ _ => False) (Entry k g s) s := by
  rw [trap, wp_bind, wp_gets, wp_ite]
  refine ⟨fun _ => .inr (.inl ⟨⟨rfl, rfl⟩, by simp, by simp⟩), fun _ => ?_⟩
  rw [wp_bind, wp_gets, wp_bind, modifyCpu, wp_modify, wp_ite]
  exact ⟨hhalted, hrunning⟩

theorem acts_started {s : Kernel} :
    Acts k g s.ctl (s.setCpu k fun c => { c with cpuStatus := .started }).ctl := by
  rw [ctl_set_cpu_status]
  exact Act.started.acts

theorem same_call_started (s : Kernel) (k : CpuId) (lock : Option CpuId) :
    SameCall s { s.setCpu k fun c => { c with cpuStatus := .started } with kernelLock := lock } := by
  refine ⟨rfl, fun j => ?_, ?_, fun _ => rfl, fun _ => rfl, fun _ => rfl, fun _ => rfl, rfl⟩
  · by_cases hj : j = k <;> simp [Kernel.setCpu, hj]
  · funext j
    by_cases hj : j = k <;> simp [Kernel.ctl, Kernel.setCpu, hj]

/-- A trap from user mode makes only the edits its frame asks for. -/
theorem trap_spec {s : Kernel} {tf : Trapframe} (hcs : tf.cs &&& 3 = 3)
    (hlive : ∀ c, s.ctl.cpuEnv k = some c → s.ctl.status c ≠ .free) (cr2 : Word) :
    wp (trap k tf cr2) (fun _ _ => False) (Entry k (entryGrant s k tf) s) s := by
  have hbody : trapBody k tf cr2 = do { lockKernel k; userTrap k tf cr2 } := by
    rw [trapBody, if_pos hcs]
  refine trap_start (fun _ => ?_) fun _ => ?_
  · -- a halted CPU never traps from user mode; if it did, it would take the lock twice
    refine entry_lock rfl acts_started fun hnone => ?_
    rw [hbody]
    simp only [lockKernel, wp_bind, wp_gets, wp_ite]
    refine ⟨fun _ => ?_, fun h => absurd trivial h⟩
    exact .inr (.inr ⟨.inl hnone, acts_started, .inl ⟨rfl, by simp, by simp⟩⟩)
  · rw [hbody]
    refine entry_lock rfl acts_started fun hnone => ?_
    have hacts : Acts k (entryGrant s k tf) s.ctl ({ s.setCpu k fun c =>
        { c with cpuStatus := .started } with kernelLock := some k } : Kernel).ctl := acts_started
    refine wp_mono (leaves_user_trap (same_call_started s k (some k)) hlive cr2)
      (fun _ _ => False.elim) fun ex s' h => ?_
    exact Entry.of_leaves (.inl hnone) hacts rfl h

/-- A trap from user mode does nothing while another CPU holds the lock. -/
theorem trap_held_spec {s : Kernel} {tf : Trapframe} (hcs : tf.cs &&& 3 = 3)
    (hheld : s.kernelLock ≠ none) (cr2 : Word) :
    wp (trap k tf cr2) (fun _ _ => False) (Entry k g s) s := by
  have hbody : trapBody k tf cr2 = do { lockKernel k; userTrap k tf cr2 } := by
    rw [trapBody, if_pos hcs]
  refine trap_start (fun _ => ?_) fun _ => ?_
  · exact entry_lock rfl acts_started fun hnone => absurd hnone hheld
  · rw [hbody]
    exact entry_lock rfl acts_started fun hnone => absurd hnone hheld

/-- An interrupt that wakes a halted CPU makes no edit. -/
theorem irq_spec {s : Kernel} {tf : Trapframe} (hcs : tf.cs = gdKt)
    (hirq : 32 ≤ tf.trapno.toNat ∧ tf.trapno.toNat < 48)
    (hhalted : s.ctl.cpuStatus k = .halted) :
    wp (trap k tf 0) (fun _ _ => False) (Entry k .none s) s := by
  refine trap_start (fun _ => ?_) fun h => absurd hhalted h
  refine entry_lock rfl acts_started fun hnone => ?_
  have hbody : trapBody k tf 0 = do { trapDispatch k none tf 0; trapReturn k } := by
    simp [trapBody, hcs, gdKt]
  rw [hbody]
  generalize hs₁ : ({ s.setCpu k fun c => { c with cpuStatus := .started } with
    kernelLock := some k } : Kernel) = s₁
  have hheld : s₁.kernelLock = some k := by rw [← hs₁]
  have hacts : Acts k .none s.ctl s₁.ctl := by rw [← hs₁]; exact acts_started
  suffices h : wp (do { trapDispatch k none tf 0; trapReturn k }) (fun _ _ => False)
      (Leaves k .none s₁) s₁ by
    exact wp_mono h (fun _ _ => False.elim) fun ex s' h =>
      Entry.of_leaves (.inl hnone) hacts hheld h
  have hnot : ∀ n : Word, n.toNat < 32 ∨ 48 ≤ n.toNat → tf.trapno ≠ n := by
    rintro n hn rfl
    omega
  have hyield : ∀ t : Kernel, Does k .none s₁ t →
      wp (schedYield k) (fun _ s' => wp (trapReturn k) (fun _ _ => False) (Leaves k .none s₁) s')
        (Leaves k .none s₁) t :=
    fun t h => wp_mono_ret (leaves_after h (leaves_sched_yield t)) fun _ _ => False.elim
  rw [wp_bind]
  simp only [trapDispatch, wp_ite, hnot tPgflt (by decide), hnot tBrkpt (by decide),
    hnot tSyscall (by decide), false_implies, not_false_eq_true, true_implies, true_and]
  refine ⟨fun _ => leaves_trap_return s₁, fun _ => ⟨fun _ => ⟨fun _ => ?_, fun _ => ?_⟩, fun _ =>
    ⟨fun _ => leaves_trap_return s₁, fun _ => ⟨fun _ => leaves_panic _ s₁, fun h => absurd hcs h⟩⟩⟩⟩
  · rw [wp_bind]
    refine wp_mono (quiet_time_tick s₁) (fun _ t h => ?_) fun _ _ h => h.leaves
    exact hyield t h.does
  · exact hyield s₁ ⟨ReflTransGen.refl, rfl⟩

end Labs.Jos
