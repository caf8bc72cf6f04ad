import Labs.Jos.Memory

/-!
# Specifications of the page functions

Each function of `kern/pmap.c` is specified by the action it performs on the abstract memory. On a
state that represents an abstract memory none of them panics.
-/

namespace Labs.Jos

open Prog

variable {v : Scope} {m : Space} {s : Kernel} {k : CpuId} {i : EnvIx} {p q : Nat} {va : Word}
  {spaces : EnvIx → Prop}

/-! ## Changes that do not concern the memory -/

/-- A change of this CPU's translation state keeps the watched caches coherent. -/
theorem Coherent.set_cpu {role : Nat → Role}
    (h : Coherent v.watch role s.mm.mem s.mm.cr3 s.mm.tlb) (hk : v.watch k = none) (f : CpuInfo → CpuInfo) :
    Coherent v.watch role s.mm.mem (s.setCpu k f).mm.cr3 (s.setCpu k f).mm.tlb := by
  intro j e hj
  have hjk : j ≠ k := by
    rintro rfl
    rw [hk] at hj
    cases hj
  have hcpu : (s.setCpu k f).cpus j = s.cpus j := by simp [Kernel.setCpu, hjk]
  have hcr3 : (s.setCpu k f).mm.cr3 j = s.mm.cr3 j := congrArg CpuInfo.cr3 hcpu
  have htlb : (s.setCpu k f).mm.tlb j = s.mm.tlb j := congrArg CpuInfo.tlb hcpu
  rw [hcr3, htlb]
  exact h j e hj

/-- The registers and the cache of a CPU that is not watched do not matter. -/
theorem Rep.set_cpu (h : Rep v m s.mm) (hk : v.watch k = none) (f : CpuInfo → CpuInfo) :
    Rep v m (s.setCpu k f).mm :=
  ⟨h.small, h.beyond, h.ledger, h.released, h.ok, h.tables, h.slots, h.coherent.set_cpu hk f, h.log⟩

/-- An edit of an environment that keeps its directory and does not free it. -/
theorem Rep.set_env (h : Rep v m s.mm) {e : EnvIx} {f : Env → Env}
    (hdir : (f (s.envs e)).envPgdir = (s.envs e).envPgdir)
    (hstatus : (f (s.envs e)).envStatus = .free → (s.envs e).envPgdir = none) :
    Rep v m (s.setEnv e f).mm := by
  have hpgdir : (s.setEnv e f).mm.pgdir = s.mm.pgdir := by
    funext j
    by_cases hj : j = e
    · subst hj
      simpa [Kernel.mm, Kernel.setEnv] using hdir
    · simp [Kernel.mm, Kernel.setEnv, hj]
  refine ⟨h.small, h.beyond, h.ledger, h.released, h.ok, hpgdir ▸ h.tables, fun j hj => ?_,
    h.coherent, h.log⟩
  rw [hpgdir]
  by_cases hje : j = e
  · subst hje
    refine hstatus ?_
    simpa [Kernel.mm, Kernel.setEnv] using hj
  · refine h.slots j ?_
    simpa [Kernel.mm, Kernel.setEnv, hje] using hj

/-! ## Addresses -/

theorem wp_kaddr {pa : Word} {Q : Nat → Kernel → Prop} {E : Exit → Kernel → Prop}
    (h : pgnum pa < s.npages) : wp (kaddr pa) Q E s ↔ Q (pgnum pa) s := by
  have hnot : ¬ s.npages ≤ pgnum pa := by omega
  rw [kaddr, wp_bind, wp_gets, if_neg hnot, wp_pure]

theorem wp_pa2page {pa : Word} {Q : Nat → Kernel → Prop} {E : Exit → Kernel → Prop}
    (h : pgnum pa < s.npages) : wp (pa2page pa) Q E s ↔ Q (pgnum pa) s := by
  have hnot : ¬ s.npages ≤ pgnum pa := by omega
  rw [pa2page, wp_bind, wp_gets, if_neg hnot, wp_pure]

/-! ## The free list -/

/-- Taking a free page off the list. -/
theorem Rep.take (h : Rep v m s.mm) (hhead : s.pageFreeList = some p) :
    m.role p = .free ∧ Rep v (m.setRole p .held)
      ({ s with pageFreeList := (s.pages p).ppLink }.setPage p
        fun _ => { ppLink := none, ppRef := 0 }).mm := by
  have hledger := h.ledger
  rw [show s.mm.freeList = some p from hhead] at hledger
  have hfree := hledger.head_free
  have hrefs : m.refs p = 0 := h.refs_eq_zero (by rw [hfree]; rfl) (by rw [hfree]; simp)
  refine ⟨hfree, h.small, h.beyond, ?_, h.released, ?_, ?_, h.slots, ?_, h.log⟩
  · refine (hledger.take hrefs).congr_refs fun q _ => ?_
    unfold Space.refs
    rw [Space.count_set_role, Space.role_set_role]
    split
    · rename_i hqp
      rw [hqp, hfree]
      rfl
    · rfl
  · have hact : MemAct v.limit (fun _ => False) m _ := .take hfree
    exact hact.ok v.limit_pos h.ok
  · exact h.tables.set_role (by rw [hfree]; rfl) rfl
  · refine h.coherent.congr_role fun e q _ hq => ?_
    rw [Space.role_set_role, if_neg]
    · exact hq
    · rintro rfl
      rw [hfree] at hq
      cases hq

theorem page_alloc_spec (h : Rep v m s.mm) (zero : Bool) :
    wp (pageAlloc zero) (fun r s' => match r with
      | none => s' = s
      | some p => m.role p = .free ∧ Rep v (m.setRole p .held) s'.mm ∧
          (zero = true → ∀ t, s'.mem p t = 0)) (fun _ _ => False) s := by
  rw [pageAlloc, wp_bind, wp_gets]
  cases hhead : s.pageFreeList with
  | none => rfl
  | some p =>
      obtain ⟨hfree, hrep⟩ := h.take hhead
      simp only [modifyPage, wp_bind, wp_modify]
      generalize ({ s with pageFreeList := (s.pages p).ppLink }.setPage p
        fun _ => { ppLink := none, ppRef := 0 }) = s₁ at hrep
      cases zero with
      | false => exact ⟨hfree, hrep, by simp⟩
      | true =>
          have hheld : (m.setRole p .held).role p = .held := by simp [Space.role_set_role]
          have hlt := hrep.lt_npages (p := p) (by rw [hheld]; simp)
          have hpage : pgnum (page2pa p) = p :=
            pgnum_page2pa (hrep.page_lt (p := p) (by rw [hheld]; simp))
          simp only [if_true, wp_bind, zeroPage, wp_pure]
          rw [wp_kaddr (by rw [hpage]; exact hlt), hpage, wp_modify]
          refine ⟨hfree, ?_, fun _ t => ?_⟩
          · rw [mm_set_page_words]
            exact hrep.write_plain (by rw [hheld]; rfl) _
          · simp [Kernel.setPageWords]

/-- Giving a held page back. -/
theorem page_free_spec (h : Rep v m s.mm) (hheld : m.role p = .held) :
    wp (pageFree p) (fun _ s' => Rep v (m.release p) s'.mm) (fun _ _ => False) s := by
  have hrefs : m.refs p = 0 := h.refs_eq_zero (by rw [hheld]; rfl) (by rw [hheld]; simp)
  have hzero : (s.pages p).ppRef = 0 := by
    have href := h.ledger.refs_eq p (by rw [hheld]; simp)
    rw [hrefs] at href
    exact href
  simp only [pageFree, wp_bind, wp_gets, wp_ite, modifyPage, wp_modify]
  refine ⟨fun hne => absurd hzero hne, fun _ => ?_⟩
  refine ⟨h.small, h.beyond, ?_, ?_, ?_, ?_, h.slots, ?_, h.log⟩
  · refine (h.ledger.give (p := p) (by rw [hheld]; simp) (by rw [hheld]; simp)).congr_refs
      fun q _ => ?_
    unfold Space.refs
    rw [Space.count_release, Space.role_release]
    split
    · rename_i hqp
      rw [hqp, hheld]
      rfl
    · rfl
  · show p :: s.pageFrees = p :: m.released
    rw [show s.pageFrees = m.released from h.released]
  · have hact : MemAct v.limit (fun _ => False) m _ := .give hheld
    exact hact.ok v.limit_pos h.ok
  · exact (h.tables.set_role (by rw [hheld]; rfl) rfl).set_released _
  · refine h.coherent.congr_role fun e q _ hq => ?_
    rw [Space.role_release, if_neg]
    · exact hq
    · rintro rfl
      rw [hheld] at hq
      cases hq

/-- `page_decref` on a page with `r + 1` references: the page is freed with the last one. The
counter has 16 bits, so this needs a bound. -/
theorem page_decref_spec {role : Nat → Role} {refs : Nat → Nat} {r : Nat}
    (h : Ledger s.reserved role refs s.pages s.pageFreeList) (hfree : role p ≠ .free)
    (hres : role p ≠ .reserved) (hrefs : refs p = r + 1) (hle : r < 65536) :
    wp (pageDecref p) (fun _ s' => ∃ pages head log,
      s' = { s with pages := pages, pageFreeList := head, pageFrees := log } ∧
      (r = 0 ∧ log = p :: s.pageFrees ∧
          Ledger s.reserved (Function.update role p .free) (Function.update refs p r) pages head ∨
        r ≠ 0 ∧ log = s.pageFrees ∧
          Ledger s.reserved role (Function.update refs p r) pages head)) (fun _ _ => False) s := by
  have hdec : (s.pages p).ppRef - 1 = BitVec.ofNat 16 r := by
    rw [h.refs_eq p hres, hrefs]
    apply BitVec.eq_of_toNat_eq
    simp
    omega
  have hledger : Ledger s.reserved role (Function.update refs p r)
      (Function.update s.pages p { s.pages p with ppRef := (s.pages p).ppRef - 1 })
      s.pageFreeList := by
    refine h.set_ref rfl (fun q hq => Function.update_of_ne hq _ _) ?_
    rw [Function.update_self]
    exact hdec
  have hzero : BitVec.ofNat 16 r = 0 ↔ r = 0 := by
    rw [← BitVec.toNat_inj]
    simp
    omega
  simp only [pageDecref, modifyPage, wp_bind, wp_modify, wp_gets, wp_ite, wp_pure, pageFree]
  simp only [Kernel.setPage, Function.update_self, hdec, hzero]
  refine ⟨fun hr => ⟨fun hne => absurd (hzero.2 hr) hne, fun _ => ?_⟩, fun hr => ?_⟩
  · refine ⟨_, _, _, rfl, .inl ⟨hr, rfl, ?_⟩⟩
    rw [hdec] at hledger
    have hgive := hledger.give (p := p) hfree hres
    simpa using hgive
  · refine ⟨_, _, _, rfl, .inr ⟨hr, rfl, ?_⟩⟩
    rw [hdec] at hledger
    exact hledger

/-! ## Walking the tables -/

/-- The page table of a present directory entry. -/
theorem Rep.table_of_pde (h : Rep v m s.mm) (hp : m.role p = .dir i) (hva : pdx va < 955)
    (hpresent : hasFlag (s.mem p (pdx va)) pteP = true) :
    m.role (pgnum (s.mem p (pdx va))) = .table i (pdx va) :=
  (h.tables.pde i p _ _ hp hva).2 ⟨hpresent, rfl⟩

/-- `pgdir_walk` on a directory that has the page table. -/
theorem wp_pgdir_walk_some {Q : Option PteRef → Kernel → Prop} {E : Exit → Kernel → Prop}
    (h : Rep v m s.mm) (hp : m.role p = .dir i) (hva : pdx va < 955)
    (hq : m.role q = .table i (pdx va)) (create : Bool) :
    wp (pgdirWalk p va create) Q E s ↔ Q (some ⟨q, ptx va⟩) s := by
  obtain ⟨hpresent, hpage⟩ := (h.tables.pde i p _ q hp hva).1 hq
  have hpresent' : hasFlag (s.mem p (pdx va)) pteP = true := hpresent
  have hpage' : pgnum (s.mem p (pdx va)) = q := hpage
  have hlt : pgnum (pteAddr (s.mem p (pdx va))) < s.npages := by
    rw [pgnum_pte_addr, hpage']
    exact h.lt_npages (by rw [hq]; simp)
  have htable : haveTable p va create s = .ret true s := by
    simp [haveTable, readWord, gets, bind, hpresent', pure]
  rw [pgdirWalk, wp_bind, wp_of_ret htable, if_pos rfl, wp_bind, readWord, wp_gets, wp_bind,
    wp_kaddr hlt, pgnum_pte_addr, hpage', wp_pure]

/-- `pgdir_walk` without creation on a directory that lacks the page table. -/
theorem wp_pgdir_walk_none {Q : Option PteRef → Kernel → Prop} {E : Exit → Kernel → Prop}
    (h : Rep v m s.mm) (hp : m.role p = .dir i) (hva : pdx va < 955)
    (hq : ∀ q, m.role q ≠ .table i (pdx va)) :
    wp (pgdirWalk p va false) Q E s ↔ Q none s := by
  have habsent : hasFlag (s.mem p (pdx va)) pteP = false := by
    by_contra hne
    exact hq _ (h.table_of_pde hp hva (by simpa using hne))
  have htable : haveTable p va false s = .ret false s := by
    simp [haveTable, readWord, gets, bind, habsent, pure]
  rw [pgdirWalk, wp_bind, wp_of_ret htable, if_neg (by simp), wp_pure]

/-- Linking a held, zeroed page into a directory. -/
theorem Rep.add_table (h : Rep v m s.mm) (hp : m.role p = .dir i) (hva : pdx va < 955)
    (hnone : ∀ q, m.role q ≠ .table i (pdx va)) (hun : Unwatched v.watch i)
    (hheld : m.role q = .held) (hzero : ∀ t, s.mem q t = 0) :
    Rep v (m.setRole q (.table i (pdx va)))
      ((s.setPage q fun info => { info with ppRef := info.ppRef + 1 }).setWord p (pdx va)
        (mkPde q)).mm := by
  have habsent : hasFlag (s.mem p (pdx va)) pteP = false := by
    by_contra hne
    exact hnone _ (h.table_of_pde hp hva (by simpa using hne))
  have hrefs : m.refs q = 0 := h.refs_eq_zero (by rw [hheld]; rfl) (by rw [hheld]; simp)
  have htables := h.tables.add_table hp hva habsent (q := q) (by rw [hheld]; rfl) hzero
    (h.page_lt (by rw [hheld]; simp))
  have hone : (s.pages q).ppRef + 1 = BitVec.ofNat 16 1 := by
    have href := h.ledger.refs_eq q (by rw [hheld]; simp)
    rw [hrefs] at href
    rw [show (s.pages q).ppRef = BitVec.ofNat 16 0 from href]
    rfl
  refine ⟨h.small, h.beyond, ?_, h.released, ?_, htables, h.slots, ?_, h.log⟩
  · have hnew : (m.setRole q (.table i (pdx va))).refs q = 1 := by
      have hcount := h.ok.count_eq_zero (p := q) (by rw [hheld]; simp)
      rw [Space.refs, Space.count_set_role, hcount, Space.role_set_role, if_pos rfl]
      rfl
    refine Ledger.set_role (Ledger.set_ref h.ledger rfl (fun q' hq' => ?_) ?_)
      (by rw [hheld]; simp) (by rw [hheld]; simp) (by simp) (by simp)
    · rw [Space.refs, Space.refs, Space.count_set_role, Space.role_set_role, if_neg hq']
    · rw [hnew]
      exact hone
  · have hact : MemAct v.limit (fun _ => True) m (m.setRole q (.table i (pdx va))) :=
      .addTable trivial hheld
    exact hact.ok v.limit_pos h.ok
  · refine (h.coherent.write (q := p) h.tables (fun _ => h.page_lt) (fun e he => ?_)
      (fun e d he => ?_) (fun d he => ?_)).congr_role fun e q' _ hq' => ?_
    · rw [hp] at he
      cases he
      exact hun
    · rw [hp] at he
      cases he
    · rw [hp] at he
      cases he
    · rw [Space.role_set_role, if_neg]
      · exact hq'
      · rintro rfl
        rw [hheld] at hq'
        cases hq'

/-- What a walk with creation does to the abstract memory: at most one free page becomes a page
table. -/
structure Walked (limit : Nat) (spaces : EnvIx → Prop) (m m' : Space) : Prop where
  acts : MemActs limit spaces m m'
  map : m'.map = m.map
  role : ∀ q, m.role q ≠ .free → m'.role q = m.role q
  held : ∀ q, m'.role q = .held → m.role q = .held

theorem Walked.refl {limit : Nat} (m : Space) : Walked limit spaces m m :=
  ⟨Relation.ReflTransGen.refl, rfl, fun _ _ => rfl, fun _ h => h⟩

theorem Walked.count {limit : Nat} {m' : Space} (h : Walked limit spaces m m') (p : Nat) :
    m'.count p = m.count p := by
  unfold Space.count Space.target
  rw [h.map]

/-- `pgdir_walk` with creation fails without a change, or ends with the page table in place. -/
theorem pgdir_walk_spec (h : Rep v m s.mm) (hp : m.role p = .dir i) (hva : pdx va < 955)
    (hspace : spaces i) (hun : Unwatched v.watch i) :
    wp (pgdirWalk p va true) (fun r s' => match r with
      | none => s' = s
      | some pte => pte.index = ptx va ∧ ∃ m', Walked v.limit spaces m m' ∧ Rep v m' s'.mm ∧
          m'.role pte.table = .table i (pdx va)) (fun _ _ => False) s := by
  by_cases hq : ∃ q, m.role q = .table i (pdx va)
  · obtain ⟨q, hq⟩ := hq
    rw [wp_pgdir_walk_some h hp hva hq]
    exact ⟨rfl, m, .refl m, h, hq⟩
  · have hnone : ∀ q, m.role q ≠ .table i (pdx va) := fun q hq' => hq ⟨q, hq'⟩
    have habsent : hasFlag (s.mem p (pdx va)) pteP = false := by
      by_contra hne
      exact hnone _ (h.table_of_pde hp hva (by simpa using hne))
    have htable : haveTable p va true s = newPageTable p va s := by
      simp [haveTable, readWord, gets, bind, habsent]
    rw [pgdirWalk, wp_bind, wp, htable, ← wp, newPageTable, wp_bind]
    refine wp_mono_ret (page_alloc_spec h true) fun r s₁ hr => ?_
    cases r with
    | none =>
        rw [wp_pure, if_neg (by simp), wp_pure]
        exact hr
    | some q =>
        obtain ⟨hfree, hrep, hzero⟩ := hr
        have hp₁ : (m.setRole q .held).role p = .dir i := by
          rw [Space.role_set_role, if_neg]
          · exact hp
          · rintro rfl
            rw [hp] at hfree
            cases hfree
        have hnone₁ : ∀ q', (m.setRole q .held).role q' ≠ .table i (pdx va) := by
          intro q'
          rw [Space.role_set_role]
          split
          · simp
          · exact hnone q'
        have hheld₁ : (m.setRole q .held).role q = .held := by simp [Space.role_set_role]
        have hrep₂ := hrep.add_table hp₁ hva hnone₁ hun hheld₁ (hzero rfl)
        simp only [modifyPage, writeWord, wp_bind, wp_modify, wp_pure, if_true]
        have htable₂ : ((m.setRole q .held).setRole q (.table i (pdx va))).role q =
            .table i (pdx va) := by simp [Space.role_set_role]
        have hp₂ : ((m.setRole q .held).setRole q (.table i (pdx va))).role p = .dir i := by
          rw [Space.role_set_role, if_neg]
          · exact hp₁
          · rintro rfl
            rw [hp₁] at hheld₁
            cases hheld₁
        generalize hs₂ : ((s₁.setPage q fun info => { info with ppRef := info.ppRef + 1 }).setWord p
          (pdx va) (mkPde q)) = s₂ at hrep₂
        obtain ⟨-, hpage⟩ := (hrep₂.tables.pde i p _ q hp₂ hva).1 htable₂
        have hpage' : pgnum (s₂.mem p (pdx va)) = q := hpage
        have hlt : pgnum (pteAddr (s₂.mem p (pdx va))) < s₂.npages := by
          rw [pgnum_pte_addr, hpage']
          exact hrep₂.lt_npages (by rw [htable₂]; simp)
        rw [readWord, wp_gets, wp_kaddr hlt, pgnum_pte_addr, hpage']
        refine ⟨trivial, (m.setRole q .held).setRole q (.table i (pdx va)),
          ⟨?_, rfl, fun q' hq' => ?_, fun q' hq' => ?_⟩, hrep₂, htable₂⟩
        · exact (Relation.ReflTransGen.single (.take hfree)).tail (.addTable hspace hheld₁)
        · have hne : q' ≠ q := by
            rintro rfl
            exact hq' hfree
          rw [Space.role_set_role, if_neg hne, Space.role_set_role, if_neg hne]
        · rw [Space.role_set_role] at hq'
          split at hq'
          · cases hq'
          · rename_i hne
            rw [Space.role_set_role, if_neg hne] at hq'
            exact hq'

/-! ## Mapping and unmapping -/

/-- `tlb_invalidate` concerns the translation cache of this CPU only. -/
theorem tlb_invalidate_spec {pgdir : Nat} :
    wp (tlbInvalidate k pgdir va) (fun _ s' => ∃ f, s' = s.setCpu k f) (fun _ _ => False) s := by
  have hid : s = s.setCpu k id := by simp [Kernel.setCpu]
  rw [tlbInvalidate, wp_bind, wp_get]
  cases (s.cpus k).cpuEnv with
  | none => exact ⟨_, rfl⟩
  | some c =>
      dsimp only
      rw [wp_ite]
      exact ⟨fun _ => ⟨_, rfl⟩, fun _ => ⟨id, hid⟩⟩

/-- The entry for `va` in its page table. -/
theorem Rep.map_eq (h : Rep v m s.mm) (hq : m.role q = .table i (pdx va)) :
    m.map i (pgnum va) =
      if hasFlag (s.mem q (ptx va)) pteP then some (s.mem q (ptx va)) else none := by
  rw [pgnum_split]
  exact h.tables.pte i _ q _ hq (ptx_lt va)

/-- Without a page table nothing is mapped. -/
theorem Rep.map_none (h : Rep v m s.mm) (hq : ∀ q, m.role q ≠ .table i (pdx va)) :
    m.map i (pgnum va) = none := by
  rw [pgnum_split]
  exact h.tables.bare i _ _ (ptx_lt va) hq

/-- Writing an entry of a page table of `i`, as far as the tables and the caches go. -/
theorem Rep.write_pte (h : Rep v m s.mm) (hun : Unwatched v.watch i)
    (hq : m.role q = .table i (pdx va)) (w : Word) :
    Tables (m.setMap i (pgnum va) (if hasFlag w pteP then some w else none))
        (s.setWord q (ptx va) w).mm.mem s.kernPgdir s.mm.pgdir ∧
      Coherent v.watch m.role (s.setWord q (ptx va) w).mm.mem (s.setWord q (ptx va) w).mm.cr3
        (s.setWord q (ptx va) w).mm.tlb := by
  constructor
  · rw [pgnum_split]
    exact h.tables.set_pte hq (ptx_lt va) w
  · refine h.coherent.write (q := q) h.tables (fun _ => h.page_lt) (fun e he => ?_)
      (fun e d he => ?_) (fun d he => ?_)
    · rw [hq] at he
      cases he
    · rw [hq] at he
      cases he
      exact hun
    · rw [hq] at he
      cases he

/-- The references after one mapping of the page of `w` is gone. -/
theorem refs_after_remove {w : Word} {n : Nat} {m' : Space} (hn : n < userPages)
    (hsome : m.map i n = some w) (hdata : m.role (pgnum w) = .data)
    (hcount : ∀ p, m'.count p = (m.setMap i n none).count p)
    (hpins : ∀ p, (m'.role p).pins = (m.role p).pins) (p : Nat) :
    m'.refs p = Function.update m.refs (pgnum w) (m.count (pgnum w) - 1) p := by
  have hp := Space.count_set_none hn hsome p
  rw [Space.refs, hcount, hpins]
  by_cases hpw : p = pgnum w
  · subst hpw
    rw [Function.update_self, hdata, Role.pins]
    rw [if_pos rfl] at hp
    omega
  · rw [Function.update_of_ne hpw, Space.refs]
    rw [if_neg fun heq => hpw heq.symm] at hp
    omega

/-- Clearing an entry and dropping the reference it held. -/
theorem remove_entry_spec {w : Word} (h : Rep v m s.mm) (hk : v.watch k = none)
    (hun : Unwatched v.watch i) (hq : m.role q = .table i (pdx va))
    (hsome : m.map i (pgnum va) = some w) (pgdir : Nat) :
    wp (do
      writeWord q (ptx va) 0
      tlbInvalidate k pgdir va
      pageDecref (pgnum w) : Kern Unit)
      (fun _ s' => Rep v (m.remove i (pgnum va) w) s'.mm) (fun _ _ => False) s := by
  obtain ⟨hn, -, -, hdata⟩ := h.ok.entry i _ w hsome
  obtain ⟨htables, hcoh⟩ := h.write_pte hun hq 0
  rw [zero_not_present, if_neg (by simp)] at htables
  have hok := h.ok.remove hsome
  have hpos := Space.count_pos hn hsome
  have hbound := h.ok.bound (pgnum w)
  have hlimit := v.limit_le
  have hrefs : m.refs (pgnum w) = (m.count (pgnum w) - 1) + 1 := by
    rw [Space.refs, hdata, Role.pins]
    omega
  simp only [writeWord, wp_bind, wp_modify]
  refine wp_mono_ret tlb_invalidate_spec fun _ s₂ hres => ?_
  obtain ⟨f, hs₂⟩ := hres
  subst hs₂
  have hcoh₂ := hcoh.set_cpu (s := s.setWord q (ptx va) 0) hk f
  -- the counter of the page is one behind the tables now
  refine wp_mono_ret (page_decref_spec (s := (s.setWord q (ptx va) 0).setCpu k f) h.ledger
    (by rw [hdata]; simp) (by rw [hdata]; simp) hrefs (by omega)) ?_
  rintro _ s₃ ⟨pages, head, log, rfl, hcase⟩
  rcases hcase with ⟨hzero, rfl, hnew⟩ | ⟨hmore, rfl, hnew⟩
  · have hlast : m.count (pgnum w) = 1 := by omega
    rw [Space.remove, if_pos hlast] at hok ⊢
    refine h.update rfl ?_ ?_ hok ?_ ?_
    · refine Ledger.congr_refs hnew fun p _ => ?_
      refine refs_after_remove hn hsome hdata (fun _ => by rfl) (fun p => ?_) p
      rw [Space.role_release, Space.role_set_map]
      split
      · rename_i hpw
        rw [hpw, hdata]
        rfl
      · rfl
    · show pgnum w :: s.pageFrees = pgnum w :: m.released
      rw [show s.pageFrees = m.released from h.released]
    · exact (htables.set_role (p := pgnum w) (r := .free)
        (by rw [Space.role_set_map, hdata]; rfl) rfl).set_released _
    · refine Coherent.congr_role (m := m) hcoh₂ fun e p _ hp => ?_
      rw [Space.role_release, Space.role_set_map, if_neg]
      · exact hp
      · rintro rfl
        rw [hdata] at hp
        cases hp
  · have hnot : m.count (pgnum w) ≠ 1 := by omega
    rw [Space.remove, if_neg hnot] at hok ⊢
    refine h.update rfl ?_ h.released hok htables hcoh₂
    refine Ledger.congr_refs hnew fun p _ => ?_
    exact refs_after_remove hn hsome hdata (fun _ => rfl) (fun _ => rfl) p

/-- `page_remove` removes the mapping of `va`, if there is one. -/
theorem page_remove_spec (h : Rep v m s.mm) (hk : v.watch k = none) (hp : m.role p = .dir i)
    (hva : pdx va < 955) (hun : Unwatched v.watch i) :
    wp (pageRemove k p va) (fun _ s' => Rep v (m.unmap i (pgnum va)) s'.mm) (fun _ _ => False)
      s := by
  rw [pageRemove, wp_bind, pageLookup, wp_bind]
  by_cases hq : ∃ q, m.role q = .table i (pdx va)
  · obtain ⟨q, hq⟩ := hq
    have hmap := h.map_eq hq
    rw [wp_pgdir_walk_some h hp hva hq]
    simp only [readWord, wp_bind, wp_gets, wp_ite, wp_pure]
    refine ⟨fun hpresent => ?_, fun habsent => ?_⟩
    · rw [if_pos hpresent] at hmap
      have hdata := (h.ok.entry i _ _ hmap).2.2.2
      have hlt : pgnum (pteAddr (s.mem q (ptx va))) < s.npages := by
        rw [pgnum_pte_addr]
        exact h.lt_npages (by rw [hdata]; simp)
      rw [wp_pa2page hlt, pgnum_pte_addr]
      have hspec := remove_entry_spec (k := k) h hk hun hq hmap p
      simp only [wp_bind] at hspec
      rw [Space.unmap, hmap]
      exact hspec
    · rw [if_neg habsent] at hmap
      rw [Space.unmap, hmap]
      exact h
  · have hnone : ∀ q, m.role q ≠ .table i (pdx va) := fun q hq' => hq ⟨q, hq'⟩
    rw [wp_pgdir_walk_none h hp hva hnone]
    simp only [wp_pure]
    rw [Space.unmap, h.map_none hnone]
    exact h

/-- The page `pp` may be mapped with the entry `w` at page number `n` of `i`: it was just taken, or
it is mapped already with the rights of `w`, and not too often. -/
def Insertable (limit : Nat) (m : Space) (i : EnvIx) (n pp : Nat) (w : Word) : Prop :=
  m.role pp = .held ∨ m.role pp = .data ∧ m.Grants w ∧
    (m.count pp < limit ∨ (m.map i n).map pgnum = some pp)

/-- The end of `page_insert`, when nothing is mapped at `va`. -/
theorem page_insert_new_spec {perm : Word} {pte : PteRef} (h : Rep v m s.mm)
    (hk : v.watch k = none) (hva : pdx va < 955) (hun : Unwatched v.watch i)
    (hq : m.role pte.table = .table i (pdx va)) (hindex : pte.index = ptx va)
    (hnone : m.map i (pgnum va) = none) (hperm : perm.toNat < 4096)
    (huser : hasFlag perm pteU = true)
    (hpage : m.role p = .held ∨ m.role p = .data ∧ m.Grants (mkPte p perm) ∧ m.count p < v.limit)
    (pgdir : Nat) :
    wp (pageInsertNew k pgdir p va perm pte)
      (fun r s' => r = 0 ∧ Rep v (m.insert i (pgnum va) (mkPte p perm)) s'.mm)
      (fun _ _ => False) s := by
  have hp : m.role p ≠ .reserved ∧ m.role p ≠ .free := by
    rcases hpage with hheld | ⟨hdata, -⟩
    · rw [hheld]
      simp
    · rw [hdata]
      simp
  have hpg : pgnum (mkPte p perm) = p := pgnum_mk_pte (h.page_lt hp.1) hperm
  have hn : pgnum va < userPages := by
    have hdiv := pgnum_div va
    rw [user_pages_eq]
    omega
  have hpresent := mk_pte_present p perm
  have huser' : hasFlag (mkPte p perm) pteU = true := by
    rw [mk_pte_u]
    exact huser
  have hpins : (m.role p).pins = 0 := by
    rcases hpage with hheld | ⟨hdata, -⟩
    · rw [hheld]
      rfl
    · rw [hdata]
      rfl
  obtain ⟨htables, hcoh⟩ := h.write_pte hun hq (mkPte p perm)
  rw [if_pos hpresent] at htables
  simp only [pageInsertNew, modifyPage, writeWord, wp_bind, wp_modify, wp_pure]
  refine wp_mono_ret tlb_invalidate_spec fun _ s₂ hres => ?_
  obtain ⟨f, hs₂⟩ := hres
  subst hs₂
  rw [hindex]
  have hcoh₂ := hcoh.set_cpu (s := s.setWord pte.table (ptx va) (mkPte p perm)) hk f
  have hcount := fun q => Space.count_insert (w := mkPte p perm) hn hnone q
  refine ⟨trivial, h.update rfl ?_ h.released ?_ ?_ ?_⟩
  · rw [Space.insert, hpg]
    refine Ledger.set_role (Ledger.set_ref h.ledger rfl (fun q hq' => ?_) ?_) hp.2 hp.1
      (by simp) (by simp)
    · have hc := hcount q
      rw [Space.insert, hpg, Space.count_set_role, if_neg fun heq => hq' heq.symm] at hc
      rw [Space.refs, Space.refs, Space.count_set_role, hc, Space.role_set_role, if_neg hq']
      rfl
    · have hc := hcount p
      rw [Space.insert, hpg, Space.count_set_role, if_pos rfl] at hc
      rw [Space.refs, Space.count_set_role, hc, Space.role_set_role, if_pos rfl, Role.pins]
      have href : (s.pages p).ppRef = BitVec.ofNat 16 (m.count p) := by
        have href := h.ledger.refs_eq p hp.1
        rw [Space.refs, hpins, Nat.add_zero] at href
        exact href
      show (s.pages p).ppRef + 1 = _
      rw [href]
      apply BitVec.eq_of_toNat_eq
      simp
  · have hact : MemAct v.limit (fun _ => True) m (m.insert i (pgnum va) (mkPte p perm)) := by
      refine .insert trivial hn hnone hpresent huser' ?_
      rw [hpg]
      exact hpage
    exact hact.ok v.limit_pos h.ok
  · refine htables.set_role ?_ rfl
    rw [Space.role_set_map, hpg]
    rcases hpage with hheld | ⟨hdata, -⟩
    · rw [hheld]
      rfl
    · rw [hdata]
      rfl
  · refine Coherent.congr_role (m := m) hcoh₂ fun e q _ hq' => ?_
    rw [Space.insert, Space.role_set_role, if_neg]
    · exact hq'
    · rintro rfl
      rw [hpg] at hq'
      rcases hpage with hheld | ⟨hdata, -⟩
      · rw [hheld] at hq'
        cases hq'
      · rw [hdata] at hq'
        cases hq'

/-- Stamping an entry with other permissions. -/
theorem restamp_spec {perm : Word} (h : Rep v m s.mm) (hk : v.watch k = none)
    (hun : Unwatched v.watch i) (hq : m.role q = .table i (pdx va)) {old : Word}
    (hsome : m.map i (pgnum va) = some old) (hold : pgnum old = p) (hperm : perm.toNat < 4096)
    (huser : hasFlag perm pteU = true) (pgdir : Nat) :
    wp (do
      writeWord q (ptx va) (mkPte p perm)
      tlbInvalidate k pgdir va
      pure 0 : Kern Int)
      (fun r s' => r = 0 ∧ Rep v (m.setMap i (pgnum va) (some (mkPte p perm))) s'.mm)
      (fun _ _ => False) s := by
  obtain ⟨hn, -, -, hdata⟩ := h.ok.entry i _ old hsome
  rw [hold] at hdata
  have hpg : pgnum (mkPte p perm) = p := pgnum_mk_pte (h.page_lt (by rw [hdata]; simp)) hperm
  have hpresent := mk_pte_present p perm
  have huser' : hasFlag (mkPte p perm) pteU = true := by
    rw [mk_pte_u]
    exact huser
  obtain ⟨htables, hcoh⟩ := h.write_pte hun hq (mkPte p perm)
  rw [if_pos hpresent] at htables
  simp only [writeWord, wp_bind, wp_modify, wp_pure]
  refine wp_mono_ret tlb_invalidate_spec fun _ s₂ hres => ?_
  obtain ⟨f, hs₂⟩ := hres
  subst hs₂
  have hcoh₂ := hcoh.set_cpu (s := s.setWord q (ptx va) (mkPte p perm)) hk f
  have hsame : pgnum old = pgnum (mkPte p perm) := hold.trans hpg.symm
  refine ⟨trivial, h.update rfl ?_ h.released ?_ htables hcoh₂⟩
  · refine Ledger.congr_refs h.ledger fun q' _ => ?_
    rw [Space.refs, Space.refs, Space.count_restamp hn hsome hsame]
    rfl
  · exact h.ok.restamp hsome hsame hpresent huser'

/-- Removing another page leaves the rights to a page as they are. -/
theorem Space.Grants.remove {w w' : Word} {n : Nat} (h : m.Grants w) (hsome : m.map i n = some w')
    (hne : pgnum w' ≠ pgnum w) : (m.remove i n w').Grants w := by
  obtain ⟨j, n', w'', hw, hpage, hrights⟩ := h
  refine ⟨j, n', w'', ?_, hpage, hrights⟩
  have hmap : (m.setMap i n none).map j n' = some w'' := by
    rw [Space.map_set_map, if_neg]
    · exact hw
    · rintro ⟨rfl, rfl⟩
      rw [hsome] at hw
      cases hw
      exact hne hpage
  unfold Space.remove
  split
  · exact hmap
  · exact hmap

/-- Removing another page leaves the use and the count of a page as they are. -/
theorem Space.remove_other {w : Word} {n : Nat} (hn : n < userPages) (hsome : m.map i n = some w)
    (hne : pgnum w ≠ p) :
    (m.remove i n w).role p = m.role p ∧ (m.remove i n w).count p = m.count p := by
  have hcount := Space.count_set_none hn hsome p
  rw [if_neg hne, Nat.add_zero] at hcount
  unfold Space.remove
  split
  · exact ⟨by rw [Space.role_release, if_neg fun heq => hne heq.symm, Space.role_set_map],
      hcount⟩
  · exact ⟨rfl, hcount⟩

theorem Space.map_remove (m : Space) (i : EnvIx) (n : Nat) (w : Word) :
    (m.remove i n w).map i n = none := by
  have hmap : (m.setMap i n none).map i n = none := by simp [Space.map_set_map]
  unfold Space.remove
  split
  · exact hmap
  · exact hmap

/-- Removing a mapping holds no page. -/
theorem Space.held_remove {w : Word} {n q : Nat} (h : (m.remove i n w).role q = .held) :
    m.role q = .held := by
  unfold Space.remove at h
  split at h
  · rw [Space.role_release] at h
    split at h
    · cases h
    · exact h
  · exact h

/-- `page_insert` fails for want of a page table, without a change, or maps the page. -/
theorem page_insert_spec {perm : Word} (h : Rep v m s.mm) (hk : v.watch k = none)
    (hp : m.role p = .dir i) (hva : pdx va < 955) (hspace : spaces i) (hun : Unwatched v.watch i)
    {pp : Nat} (hperm : perm.toNat < 4096) (huser : hasFlag perm pteU = true)
    (hins : Insertable v.limit m i (pgnum va) pp (mkPte pp perm)) :
    wp (pageInsert k p pp va perm)
      (fun r s' => r = -eNoMem ∧ s' = s ∨ r = 0 ∧ ∃ m', MemActs v.limit spaces m m' ∧
        Rep v m' s'.mm ∧ ∀ q, m'.role q = .held → m.role q = .held ∧ q ≠ pp)
      (fun _ _ => False) s := by
  have hpp : m.role pp ≠ .free ∧ m.role pp ≠ .reserved := by
    rcases hins with hheld | ⟨hdata, -⟩
    · rw [hheld]
      simp
    · rw [hdata]
      simp
  have hpg : pgnum (mkPte pp perm) = pp := pgnum_mk_pte (h.page_lt hpp.2) hperm
  have hn : pgnum va < userPages := by
    have hdiv := pgnum_div va
    rw [user_pages_eq]
    omega
  have huser' : hasFlag (mkPte pp perm) pteU = true := by
    rw [mk_pte_u]
    exact huser
  -- what the insertion itself does, from any state in which nothing is mapped at `va`
  have hinsert : ∀ (m₂ : Space) (s₂ : Kernel) (pte : PteRef), MemActs v.limit spaces m m₂ →
      Rep v m₂ s₂.mm → (∀ q, m₂.role q = .held → m.role q = .held) →
      m₂.role pte.table = .table i (pdx va) → pte.index = ptx va → m₂.map i (pgnum va) = none →
      (m₂.role pp = .held ∨
        m₂.role pp = .data ∧ m₂.Grants (mkPte pp perm) ∧ m₂.count pp < v.limit) →
      wp (pageInsertNew k p pp va perm pte)
        (fun r s' => r = -eNoMem ∧ s' = s ∨ r = 0 ∧ ∃ m', MemActs v.limit spaces m m' ∧
          Rep v m' s'.mm ∧ ∀ q, m'.role q = .held → m.role q = .held ∧ q ≠ pp)
        (fun _ _ => False) s₂ := by
    intro m₂ s₂ pte hacts hrep hheld htable hindex hnone hpage
    refine wp_mono_ret (page_insert_new_spec hrep hk hva hun htable hindex hnone hperm huser
      hpage p) fun r s' hres => .inr ⟨hres.1, _, hacts.tail ?_, hres.2, fun q hq => ?_⟩
    · refine .insert hspace hn hnone (mk_pte_present pp perm) huser' ?_
      rw [hpg]
      exact hpage
    · rw [Space.insert, Space.role_set_role, hpg] at hq
      split at hq
      · cases hq
      · rename_i hne
        exact ⟨hheld q hq, hne⟩
  rw [pageInsert, wp_bind]
  refine wp_mono_ret (pgdir_walk_spec h hp hva hspace hun) fun r s₁ hr => ?_
  cases r with
  | none => exact .inl ⟨rfl, hr⟩
  | some pte =>
      obtain ⟨hindex, m₁, hwalk, hrep, htable⟩ := hr
      have hmap := hrep.map_eq htable
      have hrole := hwalk.role pp hpp.1
      simp only [readWord, wp_bind, wp_gets, wp_ite, hindex]
      refine ⟨fun hpresent => ?_, fun habsent => ?_⟩
      · rw [if_pos hpresent] at hmap
        rw [pte_addr_eq_iff (h.page_lt hpp.2)]
        have hentry := hrep.ok.entry i _ _ hmap
        refine ⟨fun hsame => ?_, fun hother => ?_⟩
        · -- the page is there already: only the permissions change
          have hgrants : m.Grants (mkPte pp perm) := by
            rcases hins with hheld | ⟨-, hgrants, -⟩
            · rw [hsame, hrole, hheld] at hentry
              simp at hentry
            · exact hgrants
          have hspec := @restamp_spec v m₁ s₁ k i pp _ va perm hrep hk hun htable
            _ hmap hsame hperm huser p
          simp only [wp_bind, wp_pure] at hspec ⊢
          refine wp_mono_ret hspec fun _ s₂ hs₂ => wp_mono_ret hs₂ fun _ s₃ hs₃ => ?_
          refine .inr ⟨trivial, _, hwalk.acts.tail (.restamp hspace hmap (hsame.trans hpg.symm)
            (mk_pte_present pp perm) huser' ?_), hs₃.2, fun q hq => ?_⟩
          · unfold Space.Grants
            rw [hwalk.map]
            exact hgrants
          · refine ⟨hwalk.held q hq, ?_⟩
            rintro rfl
            rw [Space.role_set_map, ← hsame, hentry.2.2.2] at hq
            cases hq
        · -- another page is there: it is removed first
          refine wp_mono_ret (page_remove_spec hrep hk
            ((hwalk.role p (by rw [hp]; simp)).trans hp) hva hun) fun _ s₂ hrep₂ => ?_
          rw [Space.unmap, hmap] at hrep₂
          obtain ⟨hrole₂, hcount₂⟩ := Space.remove_other hn hmap hother
          have htable₂ : (m₁.remove i (pgnum va) (s₁.mem pte.table (ptx va))).role pte.table =
              .table i (pdx va) := by
            have hne : pgnum (s₁.mem pte.table (ptx va)) ≠ pte.table := by
              intro heq
              rw [heq, htable] at hentry
              simp at hentry
            rw [(Space.remove_other hn hmap hne).1]
            exact htable
          refine hinsert _ s₂ pte (hwalk.acts.tail (.remove hspace hmap)) hrep₂
            (fun q hq => hwalk.held q (Space.held_remove hq)) htable₂ hindex
            (Space.map_remove _ _ _ _) ?_
          rw [hrole₂, hcount₂, hrole, hwalk.count]
          refine hins.imp_right fun hpage => ⟨hpage.1, ?_, ?_⟩
          · refine Space.Grants.remove ?_ hmap (by rw [hpg]; exact hother)
            unfold Space.Grants
            rw [hwalk.map]
            exact hpage.2.1
          · refine hpage.2.2.resolve_right fun hthere => hother ?_
            rw [← hwalk.map, hmap] at hthere
            exact Option.some.inj hthere
      · rw [if_neg habsent] at hmap
        refine hinsert m₁ s₁ pte hwalk.acts hrep hwalk.held htable hindex hmap ?_
        rw [hrole, hwalk.count]
        refine hins.imp_right fun hpage => ⟨hpage.1, ?_, ?_⟩
        · unfold Space.Grants
          rw [hwalk.map]
          exact hpage.2.1
        · refine hpage.2.2.resolve_right fun hthere => ?_
          rw [← hwalk.map, hmap] at hthere
          cases hthere

end Labs.Jos
