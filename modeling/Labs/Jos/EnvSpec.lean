import Labs.Jos.PmapSpec
import Labs.Jos.Refines

/-!
# Specifications of the environment functions

What the functions of `kern/env.c` and `kern/sched.c` do to the abstract memory: `env_alloc` adds
a directory, `env_free` removes every mapping, every page table and the directory of a slot, and
the scheduler changes nothing. A CPU that leaves the kernel for user mode has the directory of its
environment loaded and an empty translation cache.
-/

namespace Labs.Jos

open Prog Relation

variable {v : Scope} {m m' : Space} {s : Kernel} {k : CpuId} {i e : EnvIx} {p q : Nat} {va : Word}
  {spaces : EnvIx → Prop}

/-- Actions that leave no page held that was not held before. -/
structure Tidy (v : Scope) (spaces : EnvIx → Prop) (m m' : Space) : Prop where
  acts : MemActs v.limit spaces m m'
  held : ∀ q, m'.role q = .held → m.role q = .held

theorem Tidy.refl (m : Space) : Tidy v spaces m m := ⟨ReflTransGen.refl, fun _ h => h⟩

theorem Tidy.trans {m₁ m₂ m₃ : Space} (h : Tidy v spaces m₁ m₂) (h' : Tidy v spaces m₂ m₃) :
    Tidy v spaces m₁ m₃ :=
  ⟨h.acts.trans h'.acts, fun q hq => h.held q (h'.held q hq)⟩

theorem Tidy.idle (h : Tidy v spaces m m') (hidle : m.Idle) : m'.Idle :=
  fun q hq => hidle q (h.held q hq)

/-- A kernel entry of CPU `k` that began with the abstract memory `m` leaves the kernel. -/
def MemExit (v : Scope) (k : CpuId) (spaces : EnvIx → Prop) (m : Space) (ex : Exit) (s' : Kernel) :
    Prop :=
  ∃ m', MemActs v.limit spaces m m' ∧ Rep v m' s'.mm ∧ (ex = .resume ∨ ex = .halt → m'.Idle) ∧
    (ex = .resume → ∃ e, (s'.cpus k).cpuEnv = some e ∧ m'.role (s'.cpus k).cr3 = .dir e ∧
      ∀ n y, ¬ (s'.cpus k).tlb n y)

theorem MemExit.after {ex : Exit} {s' : Kernel} (h : MemActs v.limit spaces m m')
    (h' : MemExit v k spaces m' ex s') : MemExit v k spaces m ex s' := by
  obtain ⟨m₂, hacts, hrest⟩ := h'
  exact ⟨m₂, h.trans hacts, hrest⟩

/-- A CPU that stops for good leaves the memory as it is. -/
theorem Rep.stop {ex : Exit} (h : Rep v m s.mm) (hresume : ex ≠ .resume) (hhalt : ex ≠ .halt) :
    MemExit v k spaces m ex s :=
  ⟨m, ReflTransGen.refl, h, fun hex => absurd hex (by simp [hresume, hhalt]),
    fun hex => absurd hex hresume⟩

/-- The memory does not depend on the lock. -/
theorem Rep.set_lock (h : Rep v m s.mm) (holder : Option CpuId) :
    Rep v m ({ s with kernelLock := holder } : Kernel).mm := h

theorem mem_panic {α : Type} {Q : α → Kernel → Prop} (h : Rep v m s.mm) (msg : String) :
    wp (panic msg : Kern α) Q (MemExit v k spaces m) s :=
  ⟨m, ReflTransGen.refl, h, by simp, by simp⟩

/-! ## Freeing an address space -/

/-- Removing a mapping does not concern the page tables. -/
theorem Space.role_unmap {n : Nat} {r : Role} (h : m.Ok v.limit) (hr : r.plain = false) :
    (m.unmap i n).role q = r ↔ m.role q = r := by
  have hnot : ∀ r', r'.plain = true → r' ≠ r := by
    rintro r' hr' rfl
    rw [hr'] at hr
    cases hr
  unfold Space.unmap
  cases hw : m.map i n with
  | none => rfl
  | some w =>
      obtain ⟨hn, -, -, hdata⟩ := h.entry i n w hw
      by_cases hq : pgnum w = q
      · subst hq
        rw [hdata]
        dsimp only
        unfold Space.remove
        split
        · rw [Space.role_release, if_pos rfl]
          simp [hnot .free rfl, hnot .data rfl]
        · rw [Space.role_set_map, hdata]
      · rw [(Space.remove_other hn hw hq).1]

theorem Space.map_unmap (m : Space) (i : EnvIx) (n n' : Nat) :
    (m.unmap i n).map i n' = if n' = n then none else m.map i n' := by
  have hset : (m.setMap i n none).map i n' = if n' = n then none else m.map i n' := by
    simp [Space.map_set_map]
  unfold Space.unmap
  cases hw : m.map i n with
  | none =>
      dsimp only
      split
      · rename_i heq
        rw [heq]
        exact hw
      · rfl
  | some w =>
      dsimp only
      unfold Space.remove
      split
      · exact hset
      · exact hset

theorem tidy_unmap (hspace : spaces i) (n : Nat) : Tidy v spaces m (m.unmap i n) := by
  unfold Space.unmap
  cases hw : m.map i n with
  | none => exact .refl m
  | some w => exact ⟨ReflTransGen.single (.remove hspace hw), fun q => Space.held_remove⟩

/-- The loop of `env_free` over one page table removes all its mappings. -/
theorem remove_table_spec {d : Nat} (h : Rep v m s.mm) (hk : v.watch k = none)
    (hp : m.role p = .dir i) (hd : d < 955) (hspace : spaces i) (hun : Unwatched v.watch i)
    (hq : m.role q = .table i d) :
    wp (forUpto nptentries fun pteno => do
        if hasFlag (← readWord q pteno) pteP then pageRemove k p (pgaddr d pteno) : Kern Unit)
      (fun _ s' => ∃ m', Tidy v spaces m m' ∧ Rep v m' s'.mm ∧
        (∀ r, r.plain = false → ∀ q', m'.role q' = r ↔ m.role q' = r) ∧
        ∀ t, t < 1024 → m'.map i (d * 1024 + t) = none) (fun _ _ => False) s := by
  refine wp_for_upto (I := fun n (s' : Kernel) => ∃ m', Tidy v spaces m m' ∧ Rep v m' s'.mm ∧
    (∀ r, r.plain = false → ∀ q', m'.role q' = r ↔ m.role q' = r) ∧
    ∀ t, t < n → m'.map i (d * 1024 + t) = none) ?_ ?_
  · exact ⟨m, .refl m, h, fun _ _ _ => Iff.rfl, fun t ht => absurd ht (by omega)⟩
  · rintro t ht s₁ ⟨m₁, htidy, hrep, hroles, hempty⟩
    have ht' : t < 1024 := ht
    have hp₁ : m₁.role p = .dir i := (hroles _ rfl p).2 hp
    have hq₁ : m₁.role q = .table i d := (hroles _ rfl q).2 hq
    have hpdx : pdx (pgaddr d t) = d := pdx_pgaddr (by omega) ht'
    have hpgnum : pgnum (pgaddr d t) = d * 1024 + t := pgnum_pgaddr (by omega) ht'
    rw [wp_bind, readWord, wp_gets, wp_ite]
    refine ⟨fun _ => ?_, fun habsent => ?_⟩
    · refine wp_mono_ret (page_remove_spec hrep hk hp₁ (by rw [hpdx]; exact hd) hun)
        fun _ s₂ hrep₂ => ?_
      rw [hpgnum] at hrep₂
      refine ⟨_, htidy.trans (tidy_unmap hspace _), hrep₂, fun r hr q' => ?_, fun t' ht' => ?_⟩
      · rw [Space.role_unmap hrep.ok hr]
        exact hroles r hr q'
      · rw [Space.map_unmap]
        split
        · rfl
        · exact hempty t' (by omega)
    · rw [wp_pure]
      refine ⟨m₁, htidy, hrep, hroles, fun t' ht' => ?_⟩
      by_cases heq : t' = t
      · subst heq
        rw [hrep.tables.pte i d q t' hq₁ (by omega)]
        exact if_neg habsent
      · exact hempty t' (by omega)

/-- Clearing the directory entry of an empty page table and dropping its reference. -/
theorem drop_table_spec {d : Nat} (h : Rep v m s.mm) (hp : m.role p = .dir i)
    (hun : Unwatched v.watch i) (hq : m.role q = .table i d)
    (hempty : ∀ t, t < 1024 → m.map i (d * 1024 + t) = none) :
    wp (pageDecref q) (fun _ s' => Rep v (m.release q) s'.mm) (fun _ _ => False)
      (s.setWord p d 0) := by
  have hcount := h.ok.count_eq_zero (p := q) (by rw [hq]; simp)
  have hrefs : m.refs q = 0 + 1 := by
    rw [Space.refs, hcount, hq]
    rfl
  refine wp_mono_ret (page_decref_spec (s := s.setWord p d 0) h.ledger (by rw [hq]; simp)
    (by rw [hq]; simp) hrefs (by omega)) ?_
  rintro _ s₁ ⟨pages, head, log, rfl, ⟨-, rfl, hnew⟩ | ⟨hne, -⟩⟩
  · refine h.update rfl ?_ ?_ ?_ ?_ ?_
    · refine Ledger.congr_refs hnew fun q' _ => ?_
      rw [Space.refs, Space.count_release, Space.role_release]
      by_cases hqq : q' = q
      · rw [if_pos hqq, hqq, Function.update_self, hcount]
        rfl
      · rw [if_neg hqq, Function.update_of_ne hqq, Space.refs]
    · show q :: s.pageFrees = q :: m.released
      rw [show s.pageFrees = m.released from h.released]
    · have hact : MemAct v.limit (fun _ => True) m _ := .dropTable trivial hq
      exact hact.ok v.limit_pos h.ok
    · exact (h.tables.drop_table hp hq hempty rfl).set_released _
    · refine (h.coherent.write (q := p) h.tables (fun _ => h.page_lt) (fun e he => ?_)
        (fun e d he => ?_) (fun d he => ?_)).congr_role fun e q' _ hq' => ?_
      · rw [hp] at he
        cases he
        exact hun
      · rw [hp] at he
        cases he
      · rw [hp] at he
        cases he
      · rw [Space.role_release, if_neg]
        · exact hq'
        · rintro rfl
          rw [hq] at hq'
          cases hq'
  · exact absurd rfl hne

/-- What `env_free` has achieved after the first `n` directory entries of `i`. -/
structure Flushed (v : Scope) (spaces : EnvIx → Prop) (i : EnvIx) (p n : Nat) (m m' : Space) :
    Prop where
  tidy : Tidy v spaces m m'
  dir : m'.role p = .dir i
  gone : ∀ d q, d < n → m'.role q ≠ .table i d

/-- `env_free` removes one page table with all its mappings. -/
theorem env_free_table_spec {d : Nat} (h : Rep v m s.mm) (hk : v.watch k = none)
    (hp : m.role p = .dir i) (hd : d < 955) (hspace : spaces i) (hun : Unwatched v.watch i)
    (hgone : ∀ d' q, d' < d → m.role q ≠ .table i d') :
    wp (envFreeTable k p d) (fun _ s' => ∃ m', Flushed v spaces i p (d + 1) m m' ∧ Rep v m' s'.mm)
      (fun _ _ => False) s := by
  rw [envFreeTable, wp_bind, readWord, wp_gets, wp_ite]
  refine ⟨fun hpresent => ?_, fun habsent => ?_⟩
  · have hq : m.role (pgnum (s.mem p d)) = .table i d :=
      (h.tables.pde i p d _ hp hd).2 ⟨hpresent, rfl⟩
    generalize hqdef : pgnum (s.mem p d) = q at hq
    have hlt : pgnum (pteAddr (s.mem p d)) < s.npages := by
      rw [pgnum_pte_addr, hqdef]
      exact h.lt_npages (by rw [hq]; simp)
    rw [wp_bind, wp_kaddr hlt, pgnum_pte_addr, hqdef, wp_bind]
    refine wp_mono_ret (remove_table_spec h hk hp hd hspace hun hq) ?_
    rintro _ s₁ ⟨m₁, htidy, hrep, hroles, hempty⟩
    have hp₁ : m₁.role p = .dir i := (hroles _ rfl p).2 hp
    have hq₁ : m₁.role q = .table i d := (hroles _ rfl q).2 hq
    have hlt₁ : pgnum (pteAddr (s.mem p d)) < (s₁.setWord p d 0).npages := by
      rw [pgnum_pte_addr, hqdef]
      exact hrep.lt_npages (by rw [hq₁]; simp)
    rw [wp_bind, writeWord, wp_modify, wp_bind, wp_pa2page hlt₁, pgnum_pte_addr, hqdef]
    refine wp_mono_ret (drop_table_spec hrep hp₁ hun hq₁ hempty) fun _ s₂ hrep₂ => ?_
    refine ⟨_, ⟨htidy.trans ⟨ReflTransGen.single (.dropTable hspace hq₁), fun q' hq' => ?_⟩, ?_,
      fun d' q' hd' => ?_⟩, hrep₂⟩
    · rw [Space.role_release] at hq'
      split at hq'
      · cases hq'
      · exact hq'
    · rw [Space.role_release, if_neg]
      · exact hp₁
      · rintro rfl
        rw [hp₁] at hq₁
        cases hq₁
    · rw [Space.role_release]
      split
      · simp
      · rename_i hne
        intro hq'
        by_cases heq : d' = d
        · subst heq
          exact hne (hrep.tables.table_unique hq' hq₁)
        · exact hgone d' q' (by omega) ((hroles _ rfl q').1 hq')
  · have habsent' : hasFlag (s.mem p d) pteP = false := by simpa using habsent
    rw [wp_pure]
    refine ⟨m, ⟨.refl m, hp, fun d' q hd' hq => ?_⟩, h⟩
    by_cases heq : d' = d
    · subst heq
      have hpresent := ((h.tables.pde i p d' q hp hd).1 hq).1
      rw [show s.mm.mem p d' = s.mem p d' from rfl, habsent'] at hpresent
      cases hpresent
    · exact hgone d' q (by omega) hq

/-- The loop of `env_free` over the directory removes every page table. -/
theorem flush_spec (h : Rep v m s.mm) (hk : v.watch k = none) (hp : m.role p = .dir i)
    (hspace : spaces i) (hun : Unwatched v.watch i) :
    wp (forUpto (pdx utop) fun pdeno => envFreeTable k p pdeno)
      (fun _ s' => ∃ m', Flushed v spaces i p 955 m m' ∧ Rep v m' s'.mm) (fun _ _ => False) s := by
  rw [pdx_utop]
  refine wp_for_upto (I := fun n (s' : Kernel) => ∃ m', Flushed v spaces i p n m m' ∧ Rep v m' s'.mm)
    ⟨m, ⟨.refl m, hp, fun d q hd => absurd hd (by omega)⟩, h⟩ ?_
  rintro d hd s₁ ⟨m₁, hflushed, hrep⟩
  refine wp_mono_ret (env_free_table_spec hrep hk hflushed.dir hd hspace hun hflushed.gone) ?_
  rintro _ s₂ ⟨m₂, hflushed₂, hrep₂⟩
  exact ⟨m₂, ⟨hflushed.tidy.trans hflushed₂.tidy, hflushed₂.dir, hflushed₂.gone⟩, hrep₂⟩

/-- The first half of `env_free`. -/
theorem env_flush_spec (h : Rep v m s.mm) (hk : v.watch k = none) (hspace : spaces e)
    (hun : Unwatched v.watch e) :
    wp (envFlush k e)
      (fun p s' => s'.envs = s.envs ∧ ∃ m', Flushed v spaces e p 955 m m' ∧ Rep v m' s'.mm)
      (fun ex s' => ex = .undefined ∧ Rep v m s'.mm) s := by
  have hrest : ∀ s₁ : Kernel, Rep v m s₁.mm → s₁.envs = s.envs →
      wp (do
        let pgdir ← deref (← gets fun s => (s.envs e).envPgdir)
        forUpto (pdx utop) fun pdeno => envFreeTable k pgdir pdeno
        pure pgdir : Kern Nat)
      (fun p s' => s'.envs = s.envs ∧ ∃ m', Flushed v spaces e p 955 m m' ∧ Rep v m' s'.mm)
      (fun ex s' => ex = .undefined ∧ Rep v m s'.mm) s₁ := by
    intro s₁ hrep henvs
    rw [wp_bind, wp_gets, wp_bind]
    cases hdir : (s₁.envs e).envPgdir with
    | none =>
        rw [wp_deref_none]
        exact ⟨rfl, hrep⟩
    | some p =>
        have hp : m.role p = .dir e := (hrep.tables.dir e p).1 hdir
        have hquiet : IsQuiet (forUpto (pdx utop) fun pdeno => envFreeTable k p pdeno) :=
          keeps_for_upto (fun _ => quiet_env_free_table _ _ _) _
        rw [wp_deref_some, wp_bind]
        refine wp_mono (wp_and (flush_spec hrep hk hp hspace hun) (hquiet s₁)) ?_ ?_
        · rintro _ s₂ ⟨hflushed, hctl, -⟩
          have henvs₂ : s₂.envs = s₁.envs := congrArg Ctl.envs hctl
          rw [wp_pure]
          exact ⟨henvs₂.trans henvs, hflushed⟩
        · exact fun _ _ h => h.1.elim
  rw [envFlush, wp_bind, curenv, wp_gets]
  by_cases hcur : (s.cpus k).cpuEnv = some e
  · rw [if_pos hcur, wp_bind, wp_gets, wp_bind, lcr3, modifyCpu, wp_modify]
    exact hrest _ (h.set_cpu hk _) rfl
  · rw [if_neg hcur]
    exact hrest s h rfl

/-- The directory of a slot without page tables goes back to the free list. -/
theorem drop_dir_spec (h : Rep v m s.mm) (hp : m.role p = .dir e)
    (hnone : ∀ d q, m.role q ≠ .table e d) (hun : Unwatched v.watch e) :
    wp (pageDecref p) (fun _ s' => Rep v (m.release p) s'.mm ∧ (s'.envs e).envPgdir = none)
      (fun _ _ => False) (s.setEnv e fun env => { env with envPgdir := none }) := by
  have hcount := h.ok.count_eq_zero (p := p) (by rw [hp]; simp)
  have hrefs : m.refs p = 0 + 1 := by
    rw [Space.refs, hcount, hp]
    rfl
  have hpgdir : (s.setEnv e fun env => { env with envPgdir := none }).mm.pgdir =
      Function.update s.mm.pgdir e none := by
    funext j
    by_cases hj : j = e <;> simp [Kernel.mm, Kernel.setEnv, hj]
  have hstatus : (s.setEnv e fun env => { env with envPgdir := none }).mm.status =
      s.mm.status := by
    funext j
    by_cases hj : j = e <;> simp [Kernel.mm, Kernel.setEnv, hj]
  generalize hs₁ : (s.setEnv e fun env => { env with envPgdir := none }) = s₁ at hpgdir hstatus
  have hledger : Ledger s₁.reserved m.role m.refs s₁.pages s₁.pageFreeList := by
    rw [← hs₁]
    exact h.ledger
  have hreleased : s₁.pageFrees = m.released := by
    rw [← hs₁]
    exact h.released
  have hcoh : Coherent v.watch m.role s₁.mm.mem s₁.mm.cr3 s₁.mm.tlb := by
    rw [← hs₁]
    exact h.coherent
  have htables := h.tables.drop_dir (r := .free) hp hnone rfl
  rw [← hpgdir] at htables
  refine wp_mono_ret (page_decref_spec hledger (by rw [hp]; simp) (by rw [hp]; simp) hrefs
    (by omega)) ?_
  rintro _ s₂ ⟨pages, head, log, rfl, ⟨-, rfl, hnew⟩ | ⟨hne, -⟩⟩
  · have hnone' : s₁.mm.pgdir e = none := by
      rw [hpgdir]
      simp
    refine ⟨⟨?_, ?_, ?_, ?_, ?_, ?_, ?_, ?_, ?_⟩, hnone'⟩
    · rw [← hs₁]
      exact h.small
    · rw [← hs₁]
      exact h.beyond
    · refine Ledger.congr_refs hnew fun q _ => ?_
      rw [Space.refs, Space.count_release, Space.role_release]
      by_cases hqp : q = p
      · rw [if_pos hqp, hqp, Function.update_self, hcount]
        rfl
      · rw [if_neg hqp, Function.update_of_ne hqp, Space.refs]
    · show p :: s₁.pageFrees = p :: m.released
      rw [hreleased]
    · have hact : MemAct v.limit (fun _ => True) m _ := .dropDir trivial hp
      exact hact.ok v.limit_pos h.ok
    · rw [← hs₁] at htables ⊢
      exact htables.set_released _
    · intro j hj
      show s₁.mm.pgdir j = none
      rw [hpgdir]
      by_cases hje : j = e
      · simp [hje]
      · rw [Function.update_of_ne hje]
        exact h.slots j (hstatus ▸ hj)
    · refine Coherent.congr_role (m := m) hcoh fun e' q hwatched hq => ?_
      rw [Space.role_release, if_neg]
      · exact hq
      · rintro rfl
        rw [hp] at hq
        cases hq
        exact hwatched hun
    · rw [← hs₁]
      exact h.log
  · exact absurd rfl hne

/-- `env_free` removes the address space of `e`. A slot without one is a null pointer. -/
theorem env_free_spec (h : Rep v m s.mm) (hk : v.watch k = none) (hspace : spaces e)
    (hun : Unwatched v.watch e) :
    wp (envFree k e) (fun _ s' => ∃ m', Tidy v spaces m m' ∧ Rep v m' s'.mm)
      (fun ex s' => ex = .undefined ∧ Rep v m s'.mm) s := by
  rw [envFree, wp_bind, wp_modify, wp_bind]
  refine wp_mono_ret (env_flush_spec (s := { s with
    frees := ⟨k, e, fun j => (s.cpus j).cpuEnv⟩ :: s.frees }) h hk hspace hun) ?_
  rintro p s₁ ⟨-, m₁, hflushed, hrep⟩
  have hp := hflushed.dir
  have hnone : ∀ d q, m₁.role q ≠ .table e d := by
    intro d q hq
    exact hflushed.gone d q (hrep.tables.owned e d q hq).1 hq
  have hpage : pgnum (page2pa p) = p := pgnum_page2pa (hrep.page_lt (by rw [hp]; simp))
  have hlt : pgnum (page2pa p) <
      (s₁.setEnv e fun env => { env with envPgdir := none }).npages := by
    rw [hpage]
    exact hrep.lt_npages (by rw [hp]; simp)
  rw [wp_bind, modifyEnv, wp_modify, wp_bind, wp_pa2page hlt, hpage, wp_bind]
  refine wp_mono (drop_dir_spec hrep hp hnone hun) ?_ fun _ _ => False.elim
  rintro _ s₂ ⟨hrep₂, hdir⟩
  simp only [wp_bind, wp_gets, modifyEnv, wp_modify]
  refine ⟨_, hflushed.tidy.trans ⟨ReflTransGen.single (.dropDir hspace hp), fun q hq => ?_⟩, ?_⟩
  · rw [Space.role_release] at hq
    split at hq
    · cases hq
    · exact hq
  · exact Rep.set_env (f := fun env =>
      { env with envStatus := .free, envLink := s₂.envFreeList }) hrep₂ rfl fun _ => hdir

/-! ## The scheduler -/

theorem Rep.descheduled (h : Rep v m s.mm) (k : CpuId) : Rep v m (s.descheduled k).mm := by
  unfold Kernel.descheduled
  cases (s.cpus k).cpuEnv with
  | none => exact h
  | some c =>
      refine h.set_env ?_ fun hfree => ?_
      · split <;> rfl
      · split at hfree
        · cases hfree
        · exact h.slots c hfree

theorem Rep.dispatched (h : Rep v m s.mm) (hk : v.watch k = none) (e : EnvIx) :
    Rep v m (s.dispatched k e).mm := by
  refine ((h.descheduled k).set_cpu hk _).set_env rfl fun hfree => ?_
  cases hfree

/-- `env_run` leaves the memory alone, loads the directory of `e` and empties the cache. -/
theorem env_run_spec (h : Rep v m s.mm) (hk : v.watch k = none) (hidle : m.Idle) :
    wp (envRun k e) (fun _ _ => False) (MemExit v k spaces m) s := by
  have hrep := h.dispatched hk e
  rw [wp, env_run_eq, ← wp, wp_bind, wp_gets, wp_bind]
  cases hdir : ((s.dispatched k e).envs e).envPgdir with
  | none =>
      rw [wp_deref_none]
      exact hrep.stop (by simp) (by simp)
  | some p =>
      have hp : m.role p = .dir e := (hrep.tables.dir e p).1 hdir
      have hcur : ((s.dispatched k e).cpus k).cpuEnv = some e := by
        simp [Kernel.dispatched, Kernel.setCpu, Kernel.setEnv]
      have hload := hrep.set_cpu hk fun c => { c with cr3 := p, tlb := fun _ _ => False }
      simp only [wp_deref_some, lcr3, modifyCpu, unlockKernel, wp_bind, wp_modify, wp_gets, wp_ite]
      refine ⟨fun _ => ?_, fun _ => mem_panic hload _⟩
      -- only the CPU's mode and the environment's CPU number change from here on
      simp only [envPopTf, modifyEnv, modifyCpu, wp_bind, wp_modify, wp_gets, wp_ite, wp_exit]
      have hpop : Rep v m ((s.dispatched k e).setCpu k fun c =>
          { c with cr3 := p, tlb := fun _ _ => False }).mm := hload
      generalize hs₂ : ((s.dispatched k e).setCpu k fun c =>
        { c with cr3 := p, tlb := fun _ _ => False }) = s₂ at hpop
      have hcpu : (s₂.cpus k).cpuEnv = some e ∧ (s₂.cpus k).cr3 = p ∧
          ∀ n y, ¬ (s₂.cpus k).tlb n y := by
        rw [← hs₂]
        simp [Kernel.setCpu, hcur]
      have hnum : Rep v m ({ s₂ with kernelLock := none }.setEnv e fun env =>
          { env with envCpunum := k }).mm :=
        Rep.set_env (s := { s₂ with kernelLock := none }) hpop rfl fun hfree => hpop.slots e hfree
      refine ⟨fun _ => ⟨m, ReflTransGen.refl, ?_, fun _ => hidle, fun _ => ⟨e, ?_, ?_, ?_⟩⟩,
        fun _ => mem_panic hnum _⟩
      · exact hnum.set_cpu hk _
      · simpa [Kernel.setCpu, Kernel.setEnv] using hcpu.1
      · simpa [Kernel.setCpu, Kernel.setEnv, hcpu.2.1] using hp
      · simpa [Kernel.setCpu, Kernel.setEnv] using hcpu.2.2

theorem sched_halt_spec (h : Rep v m s.mm) (hk : v.watch k = none) (hidle : m.Idle) :
    wp (schedHalt k) (fun _ _ => False) (MemExit v k spaces m) s := by
  simp only [schedHalt, wp_bind, wp_get, wp_ite, wp_exit, modifyCpu, wp_modify, wp_gets, lcr3,
    unlockKernel]
  refine ⟨fun _ => ?_, fun _ => h.stop (by simp) (by simp)⟩
  have hrep := ((h.set_cpu hk fun c => { c with cpuEnv := none }).set_cpu hk fun c =>
    { c with cr3 := s.kernPgdir, tlb := fun _ _ => False }).set_cpu hk fun c =>
    { c with cpuStatus := .halted }
  refine ⟨fun _ => ?_, fun _ => ?_⟩
  · refine ⟨m, ReflTransGen.refl, ?_, fun _ => hidle, by simp⟩
    exact (hrep.set_lock none).set_cpu hk _
  · exact mem_panic hrep _

theorem sched_yield_spec (h : Rep v m s.mm) (hk : v.watch k = none) (hidle : m.Idle) :
    wp (schedYield k) (fun _ _ => False) (MemExit v k spaces m) s := by
  have hrep := h.descheduled k
  rw [schedYield, wp_bind, wp_of_ret (deschedule_curenv_eq k s), wp_bind, wp_get]
  cases nextRunnable (s.descheduled k) ((s.descheduled k).cpus k).cpuEnv with
  | some e => exact env_run_spec hrep hk hidle
  | none =>
      cases ((s.descheduled k).cpus k).cpuEnv with
      | none => exact sched_halt_spec hrep hk hidle
      | some c =>
          simp only [wp_ite]
          exact ⟨fun _ => env_run_spec hrep hk hidle, fun _ => sched_halt_spec hrep hk hidle⟩

theorem trap_return_spec (h : Rep v m s.mm) (hk : v.watch k = none) (hidle : m.Idle) :
    wp (trapReturn k) (fun _ _ => False) (MemExit v k spaces m) s := by
  rw [trapReturn, wp_bind, wp_get]
  cases (s.cpus k).cpuEnv with
  | none => exact sched_yield_spec h hk hidle
  | some c =>
      simp only [wp_ite]
      exact ⟨fun _ => env_run_spec h hk hidle, fun _ => sched_yield_spec h hk hidle⟩

/-- `env_destroy` marks `e`, or removes its address space; it does not return if `e` is current. -/
theorem env_destroy_spec (h : Rep v m s.mm) (hk : v.watch k = none) (hidle : m.Idle)
    (hspace : spaces e)
    (hun : (s.envs e).envStatus ≠ .running ∨ (s.cpus k).cpuEnv = some e → Unwatched v.watch e) :
    wp (envDestroy k e) (fun _ s' => ∃ m', Tidy v spaces m m' ∧ Rep v m' s'.mm)
      (MemExit v k spaces m) s := by
  rw [envDestroy, wp_bind, wp_get, wp_ite]
  refine ⟨fun _ => ⟨m, .refl m, h.set_env rfl fun hfree => (by cases hfree)⟩, fun hnot => ?_⟩
  have hun' : Unwatched v.watch e := by
    refine hun ?_
    by_cases hcur : (s.cpus k).cpuEnv = some e
    · exact .inr hcur
    · exact .inl fun hrun => hnot ⟨hrun, hcur⟩
  rw [wp_bind]
  refine wp_mono (env_free_spec h hk hspace hun') ?_ ?_
  · rintro _ s₁ ⟨m₁, htidy, hrep⟩
    simp only [curenv, wp_bind, wp_gets, wp_ite, modifyCpu, wp_modify, wp_pure]
    refine ⟨fun _ => ?_, fun _ => ⟨m₁, htidy, hrep⟩⟩
    refine wp_mono (sched_yield_spec (hrep.set_cpu hk _) hk (htidy.idle hidle))
      (fun _ _ => False.elim) fun _ _ h' => h'.after htidy.acts
  · rintro _ s₁ ⟨rfl, hrep⟩
    exact hrep.stop (by simp) (by simp)

/-! ## Creating environments -/

/-- A held page with a copy of the kernel's directory becomes the directory of `e`, which is put
to use. -/
theorem Rep.add_dir (h : Rep v m s.mm) (hheld : m.role p = .held)
    (hnone : (s.envs e).envPgdir = none)
    (hwords : ∀ d, d < 1024 →
      s.mem p d = if d = 957 then page2pa p ||| pteP ||| pteU else s.mem s.kernPgdir d)
    {f : Env → Env} (hdir : (f (s.envs e)).envPgdir = some p)
    (hstatus : (f (s.envs e)).envStatus ≠ .free) :
    Rep v (m.setRole p (.dir e))
      ((s.setPage p fun info => { info with ppRef := info.ppRef + 1 }).setEnv e f).mm := by
  have hcount := h.ok.count_eq_zero (p := p) (by rw [hheld]; simp)
  have hrefs : m.refs p = 0 := h.refs_eq_zero (by rw [hheld]; rfl) (by rw [hheld]; simp)
  have hone : (s.pages p).ppRef + 1 = BitVec.ofNat 16 1 := by
    have href := h.ledger.refs_eq p (by rw [hheld]; simp)
    rw [hrefs] at href
    rw [show (s.pages p).ppRef = BitVec.ofNat 16 0 from href]
    rfl
  have hpgdir : ((s.setPage p fun info => { info with ppRef := info.ppRef + 1 }).setEnv e f).mm.pgdir
      = Function.update s.mm.pgdir e (some p) := by
    funext j
    by_cases hj : j = e
    · subst hj
      simpa [Kernel.mm, Kernel.setEnv, Kernel.setPage] using hdir
    · simp [Kernel.mm, Kernel.setEnv, Kernel.setPage, hj]
  have htables := h.tables.add_dir (p := p) hnone (by rw [hheld]; rfl) hwords
  rw [show Function.update s.mm.mem p (s.mem p) = s.mm.mem from Function.update_eq_self p s.mem,
    ← hpgdir] at htables
  refine ⟨h.small, h.beyond, ?_, h.released, ?_, htables, fun j hj => ?_, ?_, h.log⟩
  · refine Ledger.set_role (Ledger.set_ref h.ledger rfl (fun q hq => ?_) ?_)
      (by rw [hheld]; simp) (by rw [hheld]; simp) (by simp) (by simp)
    · rw [Space.refs, Space.refs, Space.count_set_role, Space.role_set_role, if_neg hq]
    · rw [Space.refs, Space.count_set_role, hcount, Space.role_set_role, if_pos rfl]
      exact hone
  · have hact : MemAct v.limit (fun _ => True) m (m.setRole p (.dir e)) := .addDir hheld
    exact hact.ok v.limit_pos h.ok
  · by_cases hje : j = e
    · subst hje
      refine absurd ?_ hstatus
      simpa [Kernel.mm, Kernel.setEnv, Kernel.setPage] using hj
    · rw [hpgdir, Function.update_of_ne hje]
      refine h.slots j ?_
      simpa [Kernel.mm, Kernel.setEnv, Kernel.setPage, hje] using hj
  · refine Coherent.congr_role (m := m) h.coherent fun e' q _ hq => ?_
    rw [Space.role_set_role, if_neg]
    · exact hq
    · rintro rfl
      rw [hheld] at hq
      cases hq

/-- The record that `env_alloc` sets up. -/
def Env.fresh (parentId : Word) (p : Nat) (e : EnvIx) (env : Env) : Env :=
  { env with
    envPgdir := some p
    envId := nextEnvId env.envId e
    envParentId := parentId
    envType := .user
    envStatus := .runnable
    envRuns := 0
    envTf := initialTf
    envPgfaultUpcall := 0
    envIpcRecving := false }

/-- `env_alloc` fails without a change of the memory, or adds a directory. -/
theorem env_alloc_mem_spec (h : Rep v m s.mm)
    (hfree : ∀ e, s.envFreeList = some e → (s.envs e).envStatus = .free) (parentId : Word) :
    wp (envAlloc parentId) (fun r s' => match r with
      | .error _ => Rep v m s'.mm
      | .ok e => ∃ p, m.role p = .free ∧
          Rep v ((m.setRole p .held).setRole p (.dir e)) s'.mm) (fun _ _ => False) s := by
  rw [envAlloc, wp_bind, wp_gets]
  cases hhead : s.envFreeList with
  | none => exact h
  | some e =>
      have hnone : (s.envs e).envPgdir = none := h.slots e (hfree e hhead)
      rw [wp_bind, envSetupVm, wp_bind]
      refine wp_mono_ret (wp_mono (wp_and (page_alloc_spec h true) (quiet_page_alloc true s))
        (fun _ _ h => h) fun _ _ h => h.1) fun r s₁ ⟨hr, hquiet⟩ => ?_
      cases r with
      | none =>
          rw [wp_pure, if_neg (by simp), wp_pure]
          subst hr
          exact h
      | some p =>
          obtain ⟨hp, hrep, -⟩ := hr
          have henvs : s₁.envs = s.envs := congrArg Ctl.envs hquiet.1
          have hheld : (m.setRole p .held).role p = .held := by simp [Space.role_set_role]
          have hkpd : s₁.kernPgdir ≠ p := by
            rintro rfl
            have hres := hrep.tables.kdir_reserved
            rw [show s₁.mm.kernPgdir = s₁.kernPgdir from rfl, hheld] at hres
            cases hres
          simp only [modifyEnv, modifyPage, writeWord, wp_bind, wp_modify, wp_pure, if_true]
          refine ⟨p, hp, ?_⟩
          -- the directory is filled in while the page is still held
          have hfill := (hrep.write_plain (p := p) (by rw [hheld]; rfl)
            fun i => s₁.mem s₁.kernPgdir i).write_plain (p := p) (by rw [hheld]; rfl)
            (Function.update (fun i => s₁.mem s₁.kernPgdir i) (pdx uvpt)
              (page2pa p ||| pteP ||| pteU))
          have hstate : Rep v (m.setRole p .held)
              ((s₁.setPageWords p fun i => s₁.mem s₁.kernPgdir i).setWord p (pdx uvpt)
                (page2pa p ||| pteP ||| pteU)).mm := by
            rw [mm_set_word, mm_set_page_words]
            have hsame : (s₁.setPageWords p fun i => s₁.mem s₁.kernPgdir i).mem p =
                fun i => s₁.mem s₁.kernPgdir i := by simp [Kernel.setPageWords]
            rw [hsame]
            exact hfill
          have hnone₁ : (s₁.envs e).envPgdir = none := by
            rw [henvs]
            exact hnone
          have hdone := hstate.add_dir (e := e) (f := Env.fresh parentId p e) hheld hnone₁
            (fun d _ => ?_) rfl (by simp [Env.fresh])
          · refine Eq.mp (congrArg (Rep v _) ?_) hdone
            simp only [Kernel.mm, Mm.mk.injEq]
            refine ⟨rfl, rfl, rfl, rfl, rfl, rfl, ?_, ?_, rfl, rfl, rfl, rfl⟩ <;> funext j <;>
              by_cases hj : j = e <;>
              simp [Kernel.setEnv, Kernel.setPage, Kernel.setPageWords, Kernel.setWord, Kernel.fill,
                Env.fresh, hj]
          · by_cases hd : d = 957
            · simp [hd, Kernel.setWord, Kernel.setPageWords, pdx_uvpt]
            · simp [hd, Kernel.setWord, Kernel.setPageWords, pdx_uvpt, hkpd, Kernel.fill]

end Labs.Jos
