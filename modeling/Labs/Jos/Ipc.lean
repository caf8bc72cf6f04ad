import Labs.Jos.Apart
import Labs.Jos.Refines
import Labs.Jos.Syscall
import Labs.Jos.UserCheck

/-!
# Messages between environments

`sys_ipc_recv` raises the flag `env_ipc_recving` of the caller, and a successful
`sys_ipc_try_send` lowers the flag of its target. Runs of the two calls, by any environments on
any CPUs and in any order, are followed here with the messages that each environment has been
sent since it last began to wait.
-/

namespace Labs.Jos

open Prog

/-- What a send that returns 0 leaves in the receiver's fields. -/
structure Delivery where
  sender : Word
  value : Word
  perm : Word

/-- The delivery of a send by `c` to `e`: `perm` counts only if a page is sent and wanted. -/
def delivery (s : Kernel) (c e : EnvIx) (value srcva perm : Word) : Delivery where
  sender := (s.envs c).envId
  value := value
  perm := if srcva < utop ∧ (s.envs e).envIpcDstva < utop then perm else 0

/-- The fields for messages are the same. -/
def SameIpc (env env' : Env) : Prop :=
  env'.envIpcRecving = env.envIpcRecving ∧ env'.envIpcDstva = env.envIpcDstva ∧
    env'.envIpcFrom = env.envIpcFrom ∧ env'.envIpcValue = env.envIpcValue ∧
    env'.envIpcPerm = env.envIpcPerm

/-- The states that sends and receives reach from `s₀`, with the deliveries to each slot since its
environment last began to wait. A `sys_ipc_recv` that refuses its address does not begin to wait.
In between slots may be allocated anew, and the rest of the system may do anything that leaves the
fields for messages alone. -/
inductive IpcRun (s₀ : Kernel) : Kernel → (EnvIx → List Delivery) → Prop where
  | start : IpcRun s₀ s₀ fun _ => []
  | send {s s' : Kernel} {got : EnvIx → List Delivery} {k : CpuId} {c e : EnvIx}
      {envid value srcva perm : Word} (hrun : IpcRun s₀ s got)
      (hcur : (s.cpus k).cpuEnv = some c) (henv : envid2env s k envid false = some e)
      (hcall : sysIpcTrySend k c envid value srcva perm s = .ret 0 s') :
      IpcRun s₀ s' (Function.update got e (got e ++ [delivery s c e value srcva perm]))
  | refuse {s s' : Kernel} {got : EnvIx → List Delivery} {k : CpuId} {c : EnvIx}
      {envid value srcva perm : Word} {r : Int} (hrun : IpcRun s₀ s got)
      (hcur : (s.cpus k).cpuEnv = some c) (hr : r ≠ 0)
      (hcall : sysIpcTrySend k c envid value srcva perm s = .ret r s') : IpcRun s₀ s' got
  | recv {s : Kernel} {got : EnvIx → List Delivery} {k : CpuId} {c : EnvIx} {dstva : Word}
      (hrun : IpcRun s₀ s got) (hcur : (s.cpus k).cpuEnv = some c)
      (hva : ¬ (dstva < utop ∧ dstva % pgsizeW ≠ 0)) :
      IpcRun s₀ (sysIpcRecv k c dstva s).state (Function.update got c [])
  | misaligned {s : Kernel} {got : EnvIx → List Delivery} {k : CpuId} {c : EnvIx} {dstva : Word}
      (hrun : IpcRun s₀ s got) (hcur : (s.cpus k).cpuEnv = some c)
      (hva : dstva < utop ∧ dstva % pgsizeW ≠ 0) :
      IpcRun s₀ (sysIpcRecv k c dstva s).state got
  | alloc {s s' : Kernel} {got : EnvIx → List Delivery} {parentId : Word}
      {r : Except Int EnvIx} (hrun : IpcRun s₀ s got) (hcall : envAlloc parentId s = .ret r s') :
      IpcRun s₀ s' got
  | other {s s' : Kernel} {got : EnvIx → List Delivery} (hrun : IpcRun s₀ s got)
      (hsame : ∀ e, SameIpc (s.envs e) (s'.envs e)) : IpcRun s₀ s' got

/-- Environment `e` maps page `x.1` with the permissions `x.2` at `va`, as `pgdir_walk` finds
it. -/
def MapsAt (s : Kernel) (e : EnvIx) (va : Word) (x : Nat × Word) : Prop :=
  ∃ dir pte, (s.envs e).envPgdir = some dir ∧ pgdirWalk dir va false s = .ret (some pte) s ∧
    readEntry (s.mem pte.table pte.index) = some x

/-- One delivery at most since the environment began to wait, none while it waits, and the
fields hold it. -/
structure Mailbox (s : Kernel) (got : EnvIx → List Delivery) : Prop where
  waiting : ∀ e, (s.envs e).envIpcRecving = true → got e = []
  once : ∀ e, (got e).length ≤ 1
  fields : ∀ e d, d ∈ got e → (s.envs e).envIpcFrom = d.sender ∧
    (s.envs e).envIpcValue = d.value ∧ (s.envs e).envIpcPerm = d.perm

/-! ## The scheduler -/

/-- What `sched_yield` leaves alone: the fields for messages, the ids, the directories and memory.
It frees no environment. -/
structure Scheduled (s s' : Kernel) : Prop where
  ipc : ∀ e, SameIpc (s.envs e) (s'.envs e)
  pgdir : ∀ e, (s'.envs e).envPgdir = (s.envs e).envPgdir
  id : ∀ e, (s'.envs e).envId = (s.envs e).envId
  live : ∀ e, (s.envs e).envStatus ≠ .free → (s'.envs e).envStatus ≠ .free
  npages : s'.npages = s.npages
  mem : s'.mem = s.mem
  pages : s'.pages = s.pages
  head : s'.pageFreeList = s.pageFreeList

theorem SameIpc.refl (env : Env) : SameIpc env env := ⟨rfl, rfl, rfl, rfl, rfl⟩

theorem SameIpc.trans {env env' env'' : Env} (h : SameIpc env env') (h' : SameIpc env' env'') :
    SameIpc env env'' :=
  ⟨h'.1.trans h.1, h'.2.1.trans h.2.1, h'.2.2.1.trans h.2.2.1, h'.2.2.2.1.trans h.2.2.2.1,
    h'.2.2.2.2.trans h.2.2.2.2⟩

/-- An update of one environment leaves the others alone. -/
theorem set_env_of_ne (s : Kernel) {e e' : EnvIx} (f : Env → Env) (h : e' ≠ e) :
    (s.setEnv e f).envs e' = s.envs e' :=
  Function.update_of_ne h _ _

theorem set_env_self (s : Kernel) (e : EnvIx) (f : Env → Env) :
    (s.setEnv e f).envs e = f (s.envs e) :=
  Function.update_self _ _ _

namespace Scheduled

variable {s s' s'' : Kernel}

theorem refl (s : Kernel) : Scheduled s s :=
  ⟨fun _ => SameIpc.refl _, fun _ => rfl, fun _ => rfl, fun _ h => h, rfl, rfl, rfl, rfl⟩

theorem trans (h : Scheduled s s') (h' : Scheduled s' s'') : Scheduled s s'' :=
  ⟨fun e => (h.ipc e).trans (h'.ipc e), fun e => (h'.pgdir e).trans (h.pgdir e),
    fun e => (h'.id e).trans (h.id e), fun e hlive => h'.live e (h.live e hlive),
    h'.npages.trans h.npages, h'.mem.trans h.mem, h'.pages.trans h.pages, h'.head.trans h.head⟩

instance : Composes Scheduled (fun s (_ : Exit) s' => Scheduled s s') where
  refl := refl
  trans := trans
  absorb := trans

/-- An update of one environment that leaves its message fields, its directory and its id alone. -/
theorem set_env (s : Kernel) (e : EnvIx) {f : Env → Env} (hipc : SameIpc (s.envs e) (f (s.envs e)))
    (hdir : (f (s.envs e)).envPgdir = (s.envs e).envPgdir)
    (hid : (f (s.envs e)).envId = (s.envs e).envId)
    (hlive : (s.envs e).envStatus ≠ .free → (f (s.envs e)).envStatus ≠ .free) :
    Scheduled s (s.setEnv e f) := by
  have hother : ∀ e', e' ≠ e → (s.setEnv e f).envs e' = s.envs e' := fun e' => set_env_of_ne s f
  refine ⟨fun e' => ?_, fun e' => ?_, fun e' => ?_, fun e' hfree => ?_, rfl, rfl, rfl, rfl⟩
  all_goals by_cases he' : e' = e
  · rw [he', set_env_self]
    exact hipc
  · rw [hother e' he']
    exact SameIpc.refl _
  · rw [he', set_env_self, hdir]
  · rw [hother e' he']
  · rw [he', set_env_self, hid]
  · rw [hother e' he']
  · rw [he', set_env_self]
    exact hlive (he' ▸ hfree)
  · rw [hother e' he']
    exact hfree

theorem set_cpu (s : Kernel) (k : CpuId) (f : CpuInfo → CpuInfo) : Scheduled s (s.setCpu k f) :=
  ⟨fun _ => SameIpc.refl _, fun _ => rfl, fun _ => rfl, fun _ h => h, rfl, rfl, rfl, rfl⟩

end Scheduled

/-- A kernel function that leaves messages, directories and memory alone. -/
def Schedules {α : Type} (x : Kern α) : Prop := Keeps Scheduled (fun s _ s' => Scheduled s s') x

theorem schedules_panic {α : Type} (msg : String) : Schedules (panic msg : Kern α) :=
  fun _ => ⟨fun _ => SameIpc.refl _, fun _ => rfl, fun _ => rfl, fun _ h => h, rfl, rfl, rfl, rfl⟩

theorem schedules_modify_cpu (k : CpuId) (f : CpuInfo → CpuInfo) : Schedules (modifyCpu k f) :=
  keeps_modify fun s => Scheduled.set_cpu s k f

theorem schedules_unlock_kernel (k : CpuId) : Schedules (unlockKernel k) := by
  refine keeps_bind (keeps_gets _) fun _ => keeps_ite (keeps_modify fun s => ?_) (schedules_panic _)
  exact ⟨fun _ => SameIpc.refl _, fun _ => rfl, fun _ => rfl, fun _ h => h, rfl, rfl, rfl, rfl⟩

theorem schedules_deschedule_curenv (k : CpuId) : Schedules (descheduleCurenv k) := by
  refine keeps_bind (keeps_gets _) fun cur => ?_
  cases cur with
  | none => exact keeps_pure _
  | some c =>
      refine keeps_modify fun s => Scheduled.set_env s c ?_ ?_ ?_ fun hlive => ?_
      · split <;> exact SameIpc.refl _
      · split <;> rfl
      · split <;> rfl
      · split
        · exact EnvStatus.noConfusion
        · exact hlive

theorem schedules_env_pop_tf (k : CpuId) (e : EnvIx) : Schedules (envPopTf k e) := by
  refine keeps_bind (keeps_modify fun s => Scheduled.set_env s e (SameIpc.refl _) rfl rfl fun h => h)
    fun _ => ?_
  refine keeps_bind (keeps_gets _) fun _ => keeps_ite ?_ (schedules_panic _)
  exact keeps_bind (schedules_modify_cpu k _) fun _ => keeps_exit Scheduled.refl

theorem schedules_env_run (k : CpuId) (e : EnvIx) : Schedules (envRun k e) := by
  refine keeps_bind (schedules_deschedule_curenv k) fun _ => ?_
  refine keeps_bind (schedules_modify_cpu k _) fun _ => ?_
  refine keeps_bind (keeps_modify fun s => Scheduled.set_env s e (SameIpc.refl _) rfl rfl
    fun _ => EnvStatus.noConfusion) fun _ => ?_
  refine keeps_bind (keeps_gets _) fun pgdir => keeps_bind ?_ fun _ => ?_
  · cases pgdir with
    | none => exact keeps_exit Scheduled.refl
    | some dir => exact keeps_pure dir
  · refine keeps_bind (schedules_modify_cpu k _) fun _ => ?_
    exact keeps_bind (schedules_unlock_kernel k) fun _ => schedules_env_pop_tf k e

theorem schedules_sched_halt (k : CpuId) : Schedules (schedHalt k) := by
  refine keeps_bind keeps_get fun _ => keeps_ite ?_ (keeps_exit Scheduled.refl)
  refine keeps_bind (schedules_modify_cpu k _) fun _ => keeps_bind (keeps_gets _) fun _ => ?_
  refine keeps_bind (schedules_modify_cpu k _) fun _ => ?_
  refine keeps_bind (schedules_modify_cpu k _) fun _ => ?_
  refine keeps_bind (schedules_unlock_kernel k) fun _ => ?_
  exact keeps_bind (schedules_modify_cpu k _) fun _ => keeps_exit Scheduled.refl

theorem schedules_sched_yield (k : CpuId) : Schedules (schedYield k) := by
  refine keeps_bind (schedules_deschedule_curenv k) fun _ => keeps_bind keeps_get fun s => ?_
  cases nextRunnable s (s.cpus k).cpuEnv with
  | some e => exact schedules_env_run k e
  | none =>
      cases (s.cpus k).cpuEnv with
      | none => exact schedules_sched_halt k
      | some c => exact keeps_ite (schedules_env_run k c) (schedules_sched_halt k)

/-! ## Receiving -/

/-- `sys_ipc_recv` with a good address waits, however the scheduler goes on. -/
theorem sys_ipc_recv_state {s : Kernel} {k : CpuId} {c : EnvIx} {dstva : Word}
    (hva : ¬ (dstva < utop ∧ dstva % pgsizeW ≠ 0)) :
    Scheduled (s.setEnv c fun env => { env with
        envIpcRecving := true, envIpcDstva := dstva, envStatus := .notRunnable })
      (sysIpcRecv k c dstva s).state := by
  have hkeeps := schedules_sched_yield k (s.setEnv c fun env => { env with
    envIpcRecving := true, envIpcDstva := dstva, envStatus := .notRunnable })
  rw [sysIpcRecv, if_neg hva]
  simp only [bind, modifyEnv, Prog.modify, wp] at hkeeps ⊢
  cases hcall : schedYield k (s.setEnv c fun env => { env with
      envIpcRecving := true, envIpcDstva := dstva, envStatus := .notRunnable }) with
  | ret u t =>
      rw [hcall] at hkeeps
      exact hkeeps
  | exit ex t =>
      rw [hcall] at hkeeps
      exact hkeeps

/-! ## Sending -/

/-- The permissions that the page system calls accept are among the low 12 bits. -/
theorem perm_lt_of_good {perm : Word} (h : badPerm perm = false) : perm.toNat < 4096 := by
  have hmask : perm &&& ~~~0xE07#32 = 0 := by
    rw [badPerm, Bool.or_eq_false_iff] at h
    exact bne_eq_false_iff_eq.1 h.1
  have hsplit : perm = perm &&& 0xE07#32 := by
    have hor : perm = (perm &&& 0xE07#32) ||| (perm &&& ~~~0xE07#32) := by
      ext i hi
      simp only [BitVec.getElem_or, BitVec.getElem_and, BitVec.getElem_not]
      cases perm[i] <;> cases (0xE07#32)[i] <;> rfl
    rw [hmask] at hor
    simpa using hor
  have hle : perm.toNat ≤ (0xE07#32).toNat := by
    rw [hsplit, BitVec.toNat_and]
    exact Nat.and_le_right
  have hlt : (0xE07#32).toNat < 4096 := by decide
  omega

section Sending

variable {s : Kernel} {k : CpuId} {c e : EnvIx} {envid value srcva perm : Word}

/-- What the checks of `sys_ipc_try_send` find out about the page to send. -/
def SourceOk (s : Kernel) (c : EnvIx) (srcva perm : Word) : Option PteRef → Prop
  | none => utop ≤ srcva
  | some pte => srcva < utop ∧ perm.toNat < 4096 ∧
      hasFlag (s.mem pte.table pte.index) pteP = true ∧ ¬ s.isDir (pgnum (s.mem pte.table pte.index)) ∧
      ∃ old, MapsAt s c srcva (pgnum (s.mem pte.table pte.index), old)

theorem ipc_source_spec (h : s.apart) :
    wp (ipcSource c srcva perm)
      (fun r s' => s' = s ∧ ∀ source, r = some source → SourceOk s c srcva perm source)
      (fun _ _ => True) s := by
  rw [ipcSource, wp_ite]
  refine ⟨fun hhigh => ⟨rfl, fun source hsource => ?_⟩, fun hlow => ?_⟩
  · obtain rfl := Option.some.inj hsource
    exact hhigh
  have hva : srcva < utop := BitVec.not_le.1 hlow
  rw [wp_ite]
  refine ⟨fun _ => ⟨rfl, fun source hsource => (by cases hsource)⟩, fun _ => ?_⟩
  rw [wp_ite]
  refine ⟨fun _ => ⟨rfl, fun source hsource => (by cases hsource)⟩, fun hperm => ?_⟩
  rw [wp_bind, wp_gets, wp_bind]
  cases hpgdir : (s.envs c).envPgdir with
  | none => trivial
  | some dir =>
      have hdir : s.isDir dir := ⟨c, hpgdir⟩
      rw [wp_deref_some, wp_bind]
      refine wp_mono_ret (wp_result (pgdir_walk_apart h hdir false)) fun r t ht => ?_
      obtain ⟨⟨-, hsame, hpte⟩, hwalk⟩ := ht
      obtain rfl := hsame rfl
      cases r with
      | none => exact ⟨rfl, fun source hsource => (by cases hsource)⟩
      | some pte =>
          obtain ⟨hpresent, rfl, -⟩ := hpte pte rfl
          rw [wp_bind, readWord, wp_gets, wp_ite]
          refine ⟨fun hshare => ⟨rfl, fun source hsource => ?_⟩, fun _ => ⟨rfl, fun source hsource =>
            (by cases hsource)⟩⟩
          obtain rfl := Option.some.inj hsource
          rw [pteShareable, Bool.and_eq_true] at hshare
          have hpage := h.page dir (pdx srcva) (ptx srcva) hdir ((pdx_lt_iff srcva).2 hva) hpresent
            (ptx_lt srcva) hshare.1
          have hentry : readEntry (t.mem (pgnum (t.mem dir (pdx srcva))) (ptx srcva)) =
              some (entryOf (t.mem (pgnum (t.mem dir (pdx srcva))) (ptx srcva))) := if_pos hshare.1
          exact ⟨hva, perm_lt_of_good (by simpa using hperm), hshare.1, hpage, _, dir, _, hpgdir,
            hwalk, hentry⟩

/-- The receiver after the first stores of `sys_ipc_try_send`. -/
def Kernel.woken (s : Kernel) (c e : EnvIx) (value : Word) : Kernel :=
  s.setEnv e fun env => { env with
    envIpcFrom := (s.envs c).envId
    envIpcValue := value
    envIpcRecving := false
    envStatus := .runnable }

/-- What a send does to the environments, whether it succeeds or not: only the receiver changes. -/
structure Sent (s : Kernel) (c e : EnvIx) (value srcva perm : Word) (r : Int) (s' : Kernel) :
    Prop where
  others : ∀ e', e' ≠ e → s'.envs e' = s.envs e'
  lowered : (s'.envs e).envIpcRecving = false
  success : r = 0 → (s'.envs e).envIpcFrom = (delivery s c e value srcva perm).sender ∧
    (s'.envs e).envIpcValue = (delivery s c e value srcva perm).value ∧
    (s'.envs e).envIpcPerm = (delivery s c e value srcva perm).perm

/-- Setting the permission word ends a send. -/
theorem sent_of_woken {s₁ : Kernel} {word : Word} (henvs : s₁.envs = (s.woken c e value).envs)
    (hword : word = (delivery s c e value srcva perm).perm) :
    Sent s c e value srcva perm 0 (s₁.setEnv e fun env => { env with envIpcPerm := word }) where
  others := by
    intro e' he'
    simp [Kernel.setEnv, henvs, Kernel.woken, he']
  lowered := by simp [Kernel.setEnv, henvs, Kernel.woken]
  success := by
    intro _
    refine ⟨?_, ?_, ?_⟩
    · simp [Kernel.setEnv, henvs, Kernel.woken, delivery]
    · simp [Kernel.setEnv, henvs, Kernel.woken, delivery]
    · simpa [Kernel.setEnv] using hword

/-- The end of `sys_ipc_try_send`: an entry has been found exactly if a page is sent. -/
theorem ipc_deliver_sent {source : Option PteRef} (hsource : source = none ↔ utop ≤ srcva) :
    wp (ipcDeliver k e source perm) (fun r s' => Sent s c e value srcva perm r s')
      (fun _ _ => True) (s.woken c e value) := by
  have hdstva : ((s.woken c e value).envs e).envIpcDstva = (s.envs e).envIpcDstva := by
    simp [Kernel.woken, Kernel.setEnv]
  rw [ipcDeliver, wp_bind, wp_gets, hdstva]
  cases source with
  | none =>
      refine sent_of_woken rfl ?_
      rw [delivery, if_neg fun hboth => BitVec.not_lt.2 (hsource.1 rfl) hboth.1]
  | some pte =>
      have hva : srcva < utop := by
        refine BitVec.not_le.1 fun hhigh => ?_
        cases hsource.2 hhigh
      dsimp only
      rw [wp_ite]
      refine ⟨fun hdst => ?_, fun hdst => sent_of_woken rfl ?_⟩
      · rw [wp_bind, readWord, wp_gets, wp_bind]
        refine wp_mono (quiet_pa2page _ _) (fun pp s₁ hq₁ => ?_) fun _ _ _ => trivial
        rw [wp_bind, wp_gets, wp_bind]
        refine wp_mono (quiet_deref _ _) (fun dir s₂ hq₂ => ?_) fun _ _ _ => trivial
        rw [wp_bind]
        refine wp_mono (quiet_page_insert _ _ _ _ _ _) (fun r s₃ hq₃ => ?_) fun _ _ _ => trivial
        have henvs : s₃.envs = (s.woken c e value).envs :=
          congrArg Ctl.envs (hq₃.1.trans (hq₂.1.trans hq₁.1))
        rw [wp_ite]
        refine ⟨fun hr => ⟨fun e' he' => ?_, ?_, fun heq => ?_⟩, fun _ => sent_of_woken henvs ?_⟩
        · rw [henvs]
          simp [Kernel.woken, Kernel.setEnv, he']
        · rw [henvs]
          simp [Kernel.woken, Kernel.setEnv]
        · omega
        · rw [delivery, if_pos ⟨hva, hdst⟩]
      · rw [delivery, if_neg fun hboth => hdst hboth.2]

/-- `pgdir_walk` without `create` changes nothing. -/
theorem pgdir_walk_reads {s : Kernel} {dir : Nat} {va : Word} :
    wp (pgdirWalk dir va false) (fun _ s' => s' = s) (fun _ _ => True) s := by
  have hkaddr : ∀ pa, wp (kaddr pa) (fun _ s' => s' = s) (fun _ _ => True) s := by
    intro pa
    rw [kaddr, wp_bind, wp_gets, wp_ite]
    exact ⟨fun _ => trivial, fun _ => rfl⟩
  rw [pgdirWalk, wp_bind, haveTable, wp_bind, readWord, wp_gets]
  cases hasFlag (s.mem dir (pdx va)) pteP with
  | false => exact rfl
  | true =>
      simp only [if_true, wp_pure, wp_bind, wp_gets]
      exact hkaddr _

/-- Looking for the page to send changes nothing, and finds no entry exactly if none is sent. -/
theorem ipc_source_reads :
    wp (ipcSource c srcva perm)
      (fun r s' => s' = s ∧ ∀ source, r = some source → (source = none ↔ utop ≤ srcva))
      (fun _ _ => True) s := by
  rw [ipcSource, wp_ite]
  refine ⟨fun hhigh => ⟨rfl, fun source hsource => ?_⟩, fun hlow => ?_⟩
  · obtain rfl := Option.some.inj hsource
    exact ⟨fun _ => hhigh, fun _ => rfl⟩
  rw [wp_ite]
  refine ⟨fun _ => ⟨rfl, fun source hsource => (by cases hsource)⟩, fun _ => ?_⟩
  rw [wp_ite]
  refine ⟨fun _ => ⟨rfl, fun source hsource => (by cases hsource)⟩, fun _ => ?_⟩
  rw [wp_bind, wp_gets, wp_bind]
  cases (s.envs c).envPgdir with
  | none => trivial
  | some dir =>
      rw [wp_deref_some, wp_bind]
      refine wp_mono_ret pgdir_walk_reads fun r t ht => ?_
      obtain rfl := ht
      cases r with
      | none => exact ⟨rfl, fun source hsource => (by cases hsource)⟩
      | some pte =>
          rw [wp_bind, readWord, wp_gets, wp_ite]
          refine ⟨fun _ => ⟨rfl, fun source hsource => ?_⟩, fun _ => ⟨rfl, fun source hsource =>
            (by cases hsource)⟩⟩
          obtain rfl := Option.some.inj hsource
          exact ⟨fun hnone => (by cases hnone), fun hhigh => absurd hhigh hlow⟩

/-- `sys_ipc_try_send` fails and changes nothing, or finds its target waiting. -/
theorem sys_ipc_try_send_spec :
    wp (sysIpcTrySend k c envid value srcva perm)
      (fun r s' => (r ≠ 0 ∧ s' = s) ∨ ∃ e, envid2env s k envid false = some e ∧
        (s.envs e).envIpcRecving = true ∧ Sent s c e value srcva perm r s')
      (fun _ _ => True) s := by
  rw [sysIpcTrySend, wp_bind, wp_get]
  cases henv : envid2env s k envid false with
  | none => exact .inl ⟨by decide, rfl⟩
  | some e =>
      rw [wp_bind, wp_gets, wp_ite]
      refine ⟨fun hrecving => ?_, fun _ => .inl ⟨by decide, rfl⟩⟩
      rw [wp_bind]
      refine wp_mono_ret ipc_source_reads fun r t ht => ?_
      obtain ⟨rfl, hsource⟩ := ht
      cases r with
      | none => exact .inl ⟨by decide, rfl⟩
      | some source =>
          rw [wp_bind, wp_modify]
          refine wp_mono_ret (ipc_deliver_sent (hsource source rfl)) fun r s' hs' => ?_
          exact .inr ⟨e, rfl, hrecving, hs'⟩

/-- A page that is sent and wanted is mapped: the promise of a send that returns `r`. -/
def Maps (s : Kernel) (c e : EnvIx) (srcva perm : Word) (r : Int) (s' : Kernel) : Prop :=
  r = 0 → srcva < utop → (s.envs e).envIpcDstva < utop →
    ∃ pp old, MapsAt s c srcva (pp, old) ∧
      MapsAt s' e (s.envs e).envIpcDstva (pp, perm ||| pteP)

/-- The end of `sys_ipc_try_send`, while the directories are apart. -/
theorem ipc_deliver_maps {source : Option PteRef} (h : s.apart)
    (hsource : SourceOk s c srcva perm source) :
    wp (ipcDeliver k e source perm) (fun r s' => Maps s c e srcva perm r s')
      (fun _ _ => True) (s.woken c e value) := by
  have hapart : (s.woken c e value).apart := set_env_apart h rfl
  have hdstva : ((s.woken c e value).envs e).envIpcDstva = (s.envs e).envIpcDstva := by
    simp [Kernel.woken, Kernel.setEnv]
  have hpgdir : ∀ e', ((s.woken c e value).envs e').envPgdir = (s.envs e').envPgdir := by
    intro e'
    by_cases he' : e' = e
    · subst he'
      simp [Kernel.woken, Kernel.setEnv]
    · simp [Kernel.woken, Kernel.setEnv, he']
  have hisdir : (s.woken c e value).isDir = s.isDir := by
    funext p
    simp only [Kernel.isDir, hpgdir]
  rw [ipcDeliver, wp_bind, wp_gets, hdstva]
  cases source with
  | none => exact fun _ hlow => absurd hlow (BitVec.not_lt.2 hsource)
  | some pte =>
      obtain ⟨hva, hperm, hpresent, hnot, old, hold⟩ := hsource
      dsimp only
      rw [wp_ite]
      refine ⟨fun hdst => ?_, fun hdst _ _ hlow => absurd hlow hdst⟩
      rw [wp_bind, readWord, wp_gets, wp_bind]
      have hmem : (s.woken c e value).mem = s.mem := rfl
      rw [hmem]
      by_cases hlt : pgnum (pteAddr (s.mem pte.table pte.index)) < (s.woken c e value).npages
      · rw [wp_pa2page hlt, pgnum_pte_addr, wp_bind, wp_gets, wp_bind, hpgdir]
        rw [pgnum_pte_addr] at hlt
        cases hdir : (s.envs e).envPgdir with
        | none => trivial
        | some dir =>
            rw [wp_deref_some, wp_bind]
            have hsmall := hapart.small
            refine wp_mono_ret (page_insert_apart hapart ⟨e, (hpgdir e).trans hdir⟩
              ((pdx_lt_iff _).2 hdst) (by omega) (by rw [hisdir]; exact hnot) hperm) fun r t ht => ?_
            obtain ⟨hkept, hthere⟩ := ht
            rw [wp_ite]
            refine ⟨fun hr heq => ?_, fun hr _ _ _ => ?_⟩
            · omega
            · obtain ⟨hpde, hbound, hentry⟩ := hthere (by omega)
              refine ⟨_, old, hold, dir, ⟨pgnum (t.mem dir (pdx (s.envs e).envIpcDstva)),
                ptx (s.envs e).envIpcDstva⟩, ?_, ?_, ?_⟩
              · simp [Kernel.setEnv, hkept.envs, hpgdir, hdir]
              · exact pgdir_walk_present hpde hbound
              · show readEntry (t.mem _ _) = _
                rw [hentry, read_entry_mk_pte (by omega) hperm]
      · rw [pa2page, wp_bind, wp_gets, if_pos (Nat.le_of_not_lt hlt)]
        trivial

/-- While the directories are apart a send keeps its promise. -/
theorem sys_ipc_try_send_maps (h : s.apart) :
    wp (sysIpcTrySend k c envid value srcva perm)
      (fun r s' => ∀ e, envid2env s k envid false = some e → Maps s c e srcva perm r s')
      (fun _ _ => True) s := by
  rw [sysIpcTrySend, wp_bind, wp_get]
  cases henv : envid2env s k envid false with
  | none =>
      intro e he
      cases he
  | some e =>
      have hfail : ∀ (r : Int) t, r ≠ 0 →
          ∀ e', some e = some e' → Maps s c e' srcva perm r t :=
        fun r t hne e' _ heq => absurd heq hne
      rw [wp_bind, wp_gets, wp_ite]
      refine ⟨fun _ => ?_, fun _ => hfail _ _ (by decide)⟩
      rw [wp_bind]
      refine wp_mono_ret (ipc_source_spec h) fun r t ht => ?_
      obtain ⟨rfl, hsource⟩ := ht
      cases r with
      | none => exact hfail _ _ (by decide)
      | some source =>
          rw [wp_bind, wp_modify]
          refine wp_mono_ret (ipc_deliver_maps h (hsource source rfl)) fun r s' hs' e' he' => ?_
          obtain rfl := Option.some.inj he'
          exact hs'

end Sending

/-! ## Allocating a slot -/

/-- The message is as it was, and the environment does not begin to wait. -/
def Unmoved (env env' : Env) : Prop :=
  (env'.envIpcRecving = true → env.envIpcRecving = true) ∧ env'.envIpcFrom = env.envIpcFrom ∧
    env'.envIpcValue = env.envIpcValue ∧ env'.envIpcPerm = env.envIpcPerm

theorem SameIpc.unmoved {env env' : Env} (h : SameIpc env env') : Unmoved env env' :=
  ⟨fun hrecv => h.1 ▸ hrecv, h.2.2.1, h.2.2.2.1, h.2.2.2.2⟩

/-- No environment begins to wait, and the messages are as they were. -/
def AllUnmoved (s s' : Kernel) : Prop := ∀ e, Unmoved (s.envs e) (s'.envs e)

theorem AllUnmoved.of_envs {s s' : Kernel} (h : s'.envs = s.envs) : AllUnmoved s s' := by
  intro e
  rw [h]
  exact (SameIpc.refl _).unmoved

theorem AllUnmoved.set_env (s : Kernel) (e : EnvIx) {f : Env → Env}
    (h : Unmoved (s.envs e) (f (s.envs e))) : AllUnmoved s (s.setEnv e f) := by
  intro e'
  by_cases he' : e' = e
  · rw [he', set_env_self]
    exact h
  · rw [set_env_of_ne s f he']
    exact (SameIpc.refl _).unmoved

instance : Composes AllUnmoved (fun _ (_ : Exit) _ => True) where
  refl _ := AllUnmoved.of_envs rfl
  trans h h' e :=
    ⟨fun hrecv => (h e).1 ((h' e).1 hrecv), (h' e).2.1.trans (h e).2.1,
      (h' e).2.2.1.trans (h e).2.2.1, (h' e).2.2.2.trans (h e).2.2.2⟩
  absorb _ _ := trivial

/-- `env_alloc` lowers the flag of the slot it takes. -/
theorem env_alloc_unmoved (parentId : Word) :
    Keeps AllUnmoved (fun _ _ _ => True) (envAlloc parentId) := by
  have hzero : ∀ p, Keeps AllUnmoved (fun _ _ _ => True) (zeroPage p) := by
    intro p
    refine keeps_bind (keeps_bind (keeps_gets _) fun _ => keeps_ite (fun _ => trivial) (keeps_pure _))
      fun _ => keeps_modify fun s => AllUnmoved.of_envs rfl
  have hpage : Keeps AllUnmoved (fun _ _ _ => True) (pageAlloc true) := by
    refine keeps_bind (keeps_gets _) fun head => ?_
    cases head with
    | none => exact keeps_pure _
    | some p =>
        refine keeps_bind (keeps_modify fun s => AllUnmoved.of_envs rfl) fun _ => ?_
        refine keeps_bind (keeps_modify fun s => AllUnmoved.of_envs rfl) fun _ => ?_
        exact keeps_ite (keeps_bind (hzero p) fun _ => keeps_pure _) (keeps_pure _)
  have hsetup : ∀ e, Keeps AllUnmoved (fun _ _ _ => True) (envSetupVm e) := by
    intro e
    refine keeps_bind hpage fun page => ?_
    cases page with
    | none => exact keeps_pure _
    | some p =>
        refine keeps_bind (keeps_modify fun s => AllUnmoved.set_env s e (SameIpc.refl _).unmoved)
          fun _ => ?_
        refine keeps_bind (keeps_modify fun s => AllUnmoved.of_envs rfl) fun _ => ?_
        refine keeps_bind (keeps_modify fun s => AllUnmoved.of_envs rfl) fun _ => ?_
        exact keeps_bind (keeps_modify fun s => AllUnmoved.of_envs rfl) fun _ => keeps_pure _
  refine keeps_bind (keeps_gets _) fun head => ?_
  cases head with
  | none => exact keeps_pure _
  | some e =>
      refine keeps_bind (hsetup e) fun done => keeps_ite ?_ (keeps_pure _)
      refine keeps_bind (keeps_modify fun s => AllUnmoved.set_env s e ?_) fun _ => ?_
      · refine ⟨fun hrecv => ?_, rfl, rfl, rfl⟩
        cases hrecv
      · exact keeps_bind (keeps_modify fun s => AllUnmoved.of_envs rfl) fun _ => keeps_pure _

/-! ## Runs -/

theorem Mailbox.unmoved {s s' : Kernel} {got : EnvIx → List Delivery} (h : Mailbox s got)
    (hunmoved : AllUnmoved s s') : Mailbox s' got := by
  refine ⟨fun e hrecv => h.waiting e ((hunmoved e).1 hrecv), h.once, fun e d hd => ?_⟩
  obtain ⟨-, hfrom, hvalue, hperm⟩ := hunmoved e
  rw [hfrom, hvalue, hperm]
  exact h.fields e d hd

/-- A send to a waiting environment, successful or not. -/
theorem Mailbox.deliver {s s' : Kernel} {got got' : EnvIx → List Delivery} {c e : EnvIx}
    {value srcva perm : Word} {r : Int} (h : Mailbox s got)
    (hrecving : (s.envs e).envIpcRecving = true) (hd : Sent s c e value srcva perm r s')
    (hothers : ∀ e', e' ≠ e → got' e' = got e')
    (hself : got' e = got e ∨ r = 0 ∧ got' e = got e ++ [delivery s c e value srcva perm]) :
    Mailbox s' got' := by
  have hempty := h.waiting e hrecving
  rw [hempty] at hself
  refine ⟨fun e' hrecv => ?_, fun e' => ?_, fun e' d hmem => ?_⟩
  · by_cases he' : e' = e
    · rw [he', hd.lowered] at hrecv
      cases hrecv
    · rw [hd.others e' he'] at hrecv
      rw [hothers e' he']
      exact h.waiting e' hrecv
  · by_cases he' : e' = e
    · subst he'
      rcases hself with hgot | ⟨-, hgot⟩
      all_goals
        rw [hgot]
        simp
    · rw [hothers e' he']
      exact h.once e'
  · by_cases he' : e' = e
    · subst he'
      rcases hself with hgot | ⟨hr, hgot⟩
      · rw [hgot] at hmem
        cases hmem
      · rw [hgot] at hmem
        rw [List.mem_singleton.1 hmem]
        exact hd.success hr
    · rw [hothers e' he'] at hmem
      rw [hd.others e' he']
      exact h.fields e' d hmem

/-- Beginning to wait. -/
theorem Mailbox.recv {s s' : Kernel} {got : EnvIx → List Delivery} {c : EnvIx}
    (h : Mailbox s got) (hothers : ∀ e, e ≠ c → SameIpc (s.envs e) (s'.envs e)) :
    Mailbox s' (Function.update got c []) := by
  refine ⟨fun e hrecv => ?_, fun e => ?_, fun e d hd => ?_⟩
  all_goals by_cases he : e = c
  · rw [he, Function.update_self]
  · rw [Function.update_of_ne he]
    exact h.waiting e ((hothers e he).unmoved.1 hrecv)
  · rw [he, Function.update_self]
    exact Nat.zero_le 1
  · rw [Function.update_of_ne he]
    exact h.once e
  · rw [he, Function.update_self] at hd
    cases hd
  · rw [Function.update_of_ne he] at hd
    obtain ⟨-, hfrom, hvalue, hperm⟩ := (hothers e he).unmoved
    rw [hfrom, hvalue, hperm]
    exact h.fields e d hd

/-- What a run keeps. -/
theorem IpcRun.mailbox {s₀ s : Kernel} {got : EnvIx → List Delivery} (hrun : IpcRun s₀ s got) :
    Mailbox s got := by
  induction hrun with
  | start =>
      refine ⟨fun e _ => rfl, fun e => Nat.zero_le 1, fun e d hd => ?_⟩
      cases hd
  | @send s s' got k c e envid value srcva perm _ hcur henv hcall ih =>
      rcases (wp_of_ret hcall).1 sys_ipc_try_send_spec with ⟨hne, -⟩ | ⟨e', he', hrecv, hd⟩
      · exact absurd rfl hne
      · obtain rfl : e = e' := Option.some.inj (henv.symm.trans he')
        exact ih.deliver hrecv hd (fun e' he' => Function.update_of_ne he' _ _)
          (.inr ⟨rfl, Function.update_self _ _ _⟩)
  | refuse _ hcur hr hcall ih =>
      rcases (wp_of_ret hcall).1 sys_ipc_try_send_spec with ⟨-, rfl⟩ | ⟨e, -, hrecv, hd⟩
      · exact ih
      · exact ih.deliver hrecv hd (fun _ _ => rfl) (.inl rfl)
  | @recv s got k c dstva _ hcur hva ih =>
      have hstate : Scheduled _ (sysIpcRecv k c dstva s).state := sys_ipc_recv_state hva
      refine ih.recv fun e he => ?_
      have hipc := hstate.ipc e
      rw [set_env_of_ne _ _ he] at hipc
      exact hipc
  | misaligned _ hcur hva ih =>
      rw [sysIpcRecv, if_pos hva]
      exact ih
  | alloc _ hcall ih => exact ih.unmoved ((wp_of_ret hcall).1 (env_alloc_unmoved _ _))
  | other _ hsame ih => exact ih.unmoved fun e => (hsame e).unmoved

/-- In every run of sends and receives an environment is sent at most one message between two
receives, and its fields hold that message until it receives again. A page that is sent and wanted
is mapped by the send, if no page directory is free, a page table, or mapped before it. -/
theorem ipc_exactly_once (s₀ s : Kernel) (got : EnvIx → List Delivery) (hrun : IpcRun s₀ s got) :
    (∀ e, (got e).length ≤ 1) ∧
      (∀ e d, d ∈ got e → (s.envs e).envIpcFrom = d.sender ∧ (s.envs e).envIpcValue = d.value ∧
        (s.envs e).envIpcPerm = d.perm) ∧
      (s.apart → ∀ k c envid value srcva perm s', (s.cpus k).cpuEnv = some c →
        sysIpcTrySend k c envid value srcva perm s = .ret 0 s' →
        ∃ e, envid2env s k envid false = some e ∧
          (srcva < utop → (s.envs e).envIpcDstva < utop → ∃ pp old,
            MapsAt s c srcva (pp, old) ∧
              MapsAt s' e (s.envs e).envIpcDstva (pp, perm ||| pteP))) := by
  have hmail := hrun.mailbox
  refine ⟨hmail.once, hmail.fields, fun hapart k c envid value srcva perm s' _ hcall => ?_⟩
  rcases (wp_of_ret hcall).1 sys_ipc_try_send_spec with ⟨hne, -⟩ | ⟨e, he, -, -⟩
  · exact absurd rfl hne
  · exact ⟨e, he, (wp_of_ret hcall).1 (sys_ipc_try_send_maps hapart) e he rfl⟩

/-- Environment 0, whose directory is page 1, runs on CPU 0 and maps page 4 at address 0 through
the table in page 3. Environment 1, whose directory is page 2, waits for a message with a page at
address 0. Page 5 is free. -/
def ipcStart : Kernel :=
  { npages := 6, npagesBasemem := 6, nextfree := 0, pages := fun _ => {}, pageFreeList := some 5
    mem := fun p i =>
      if p = 1 ∧ i = 0 then mkPde 3 else if p = 3 ∧ i = 0 then mkPte 4 (pteU ||| pteW) else 0
    kernPgdir := 0, mmioBase := 0
    envs := fun e =>
      if e = 0 then { envId := 0x1000, envStatus := .running, envPgdir := some 1 }
      else if e = 1 then
        { envId := 0x1001, envStatus := .notRunnable, envPgdir := some 2, envIpcRecving := true }
      else {}
    envFreeList := none, cpus := fun _ => { cr3 := 1, cpuEnv := some 0 }, kernelLock := some 0
    panicstr := none, ticks := 0, userMemCheckAddr := 0, e1000 := {}, consIn := [], consOut := []
    accesses := [], frees := [], pageFrees := [] }

theorem ipc_start_apart : ipcStart.apart := by
  have hdir : ∀ p, ipcStart.isDir p → p = 1 ∨ p = 2 := by
    intro p hp
    obtain ⟨e, he⟩ := hp
    by_cases h0 : e = 0
    · subst h0
      exact .inl (Option.some.inj he).symm
    · by_cases h1 : e = 1
      · subst h1
        exact .inr (Option.some.inj he).symm
      · simp [ipcStart, h0, h1] at he
  have hnot : ∀ p, p ≠ 1 → p ≠ 2 → ¬ ipcStart.isDir p := by
    intro p h1 h2 hp
    rcases hdir p hp with h | h
    · exact h1 h
    · exact h2 h
  have hpde : ∀ p d, ipcStart.isDir p → hasFlag (ipcStart.mem p d) pteP = true →
      ipcStart.mem p d = mkPde 3 := by
    intro p d hp hpresent
    have hp3 : p ≠ 3 := by
      rcases hdir p hp with h | h <;> omega
    by_cases h1 : p = 1 ∧ d = 0
    · simp [ipcStart, h1]
    · have habsent : hasFlag (0#32) pteP = false := by decide
      simp [ipcStart, h1, hp3, habsent] at hpresent
  have hthree : pgnum (mkPde 3) = 3 := pgnum_mk_pde (by decide)
  refine ⟨by decide, ⟨fun p => p = 5, fun p hp => (Option.some.inj hp).symm, fun p q _ hq => ?_,
    fun p hp => ?_⟩, fun p d hp _ hpresent => ?_, fun p d t hp _ hpresent _ hpage => ?_⟩
  · cases hq
  · rw [hp]
    exact ⟨by decide, hnot 5 (by decide) (by decide)⟩
  · rw [hpde p d hp hpresent, hthree]
    exact hnot 3 (by decide) (by decide)
  · rw [hpde p d hp hpresent, hthree] at hpage ⊢
    by_cases ht : t = 0
    · subst ht
      have hfour : pgnum (ipcStart.mem 3 0) = 4 := pgnum_mk_pte (by decide) (by decide)
      rw [hfour]
      exact hnot 4 (by decide) (by decide)
    · have habsent : hasFlag (0#32) pteP = false := by decide
      simp [ipcStart, ht, habsent] at hpage

/-- Environment 0 sends the value 7 and the page at address 0. -/
theorem ipc_exactly_once_page_sent :
    ∃ s', sysIpcTrySend 0 0 0x1001 7 0 pteU ipcStart = .ret 0 s' ∧
      (s'.envs 1).envIpcFrom = 0x1000 ∧ (s'.envs 1).envIpcValue = 7 ∧
      (s'.envs 1).envIpcPerm = pteU ∧
      ∃ pp old, MapsAt ipcStart 0 0 (pp, old) ∧ MapsAt s' 1 0 (pp, pteU ||| pteP) := by
  have hzero : (match sysIpcTrySend 0 0 0x1001 7 0 pteU ipcStart with
      | .ret r _ => r == 0
      | .exit _ _ => false) = true := by
    decide +kernel
  split at hzero
  · rename_i r s' hcall
    rw [beq_iff_eq.1 hzero] at hcall
    have henv : envid2env ipcStart 0 0x1001 false = some 1 := by decide
    have hrun : IpcRun ipcStart s' _ := IpcRun.start.send rfl henv hcall
    obtain ⟨e, he, hmapped⟩ :=
      (ipc_exactly_once ipcStart ipcStart _ .start).2.2 ipc_start_apart 0 0 _ _ _ _ s' rfl hcall
    obtain rfl : 1 = e := Option.some.inj (henv.symm.trans he)
    obtain ⟨hfrom, hvalue, hperm⟩ :=
      (ipc_exactly_once ipcStart s' _ hrun).2.1 1 _
        (by rw [Function.update_self]; exact List.mem_singleton_self _)
    have hword : (delivery ipcStart 0 1 7 0 pteU).perm = pteU := by decide +kernel
    exact ⟨s', hcall, hfrom, hvalue, hperm.trans hword, hmapped (by decide +kernel)
      (by decide +kernel)⟩
  · cases hzero

end Labs.Jos
