import Labs.Jos.Ipc
import Labs.Jos.PageTableRun

/-!
# A page that is sent and lost

The counter `pp_ref` has 16 bits, so a page that is mapped at many places can be freed while it is
mapped, taken by `env_alloc` for a page directory, and freed once more. A send to the environment
with that directory takes the directory for its own page table: `sys_ipc_try_send` returns 0, and
the address at which the receiver waits maps nothing.
-/

namespace Labs.Jos

open Prog

/-! ## A directory that is the first free page -/

/-- `pgdir_walk` in a directory that is the first free page: the directory becomes its own table. -/
theorem walk_own_table {s : Kernel} {dir : Nat} {va : Word}
    (habsent : hasFlag (s.mem dir (pdx va)) pteP = false) (hhead : s.pageFreeList = some dir)
    (hlt : dir < s.npages) (hsmall : s.npages ≤ 1048576) :
    wp (pgdirWalk dir va true)
      (fun r s' => r = some ⟨dir, ptx va⟩ ∧ s'.npages = s.npages ∧
        s'.mem dir (pdx va) = mkPde dir ∧ (∀ z, z ≠ dir → s'.mem z = s.mem z) ∧
        (s'.pages dir).ppRef = 1)
      (fun _ _ => False) s := by
  have hpage : pgnum (page2pa dir) = dir := pgnum_page2pa (by omega)
  have hpde : pgnum (pteAddr (mkPde dir)) = dir := by
    rw [pgnum_pte_addr, pgnum_mk_pde (by omega)]
  rw [pgdirWalk, wp_bind, haveTable, wp_bind, readWord, wp_gets, habsent]
  simp only [Bool.false_eq_true, if_false, if_true, newPageTable, pageAlloc, wp_bind, wp_gets, hhead,
    modifyPage, writeWord, zeroPage, wp_modify, wp_pure]
  rw [wp_kaddr (by rw [hpage]; exact hlt), hpage]
  have hentry : ∀ u : Kernel, (u.setWord dir (pdx va) (mkPde dir)).mem dir (pdx va) = mkPde dir := by
    intro u
    simp [Kernel.setWord]
  rw [hentry, wp_kaddr (by rw [hpde]; exact hlt), hpde]
  refine ⟨rfl, rfl, hentry _, fun z hz => ?_, ?_⟩
  · simp [Kernel.setWord, Kernel.setPage, Kernel.setPageWords, Kernel.fill, hz]
  · simp [Kernel.setWord, Kernel.setPage, Kernel.setPageWords, Kernel.fill]

/-- `page_remove` frees a directory that is its own table. -/
theorem remove_own_table {s : Kernel} {k : CpuId} {dir : Nat} {va : Word}
    (hpde : s.mem dir (pdx va) = mkPde dir) (hself : ptx va = pdx va)
    (href : (s.pages dir).ppRef = 1) (hlt : dir < s.npages) (hsmall : s.npages ≤ 1048576) :
    wp (pageRemove k dir va)
      (fun _ s' => s'.npages = s.npages ∧ ∀ z, z ≠ dir → s'.mem z = s.mem z)
      (fun _ _ => False) s := by
  have hpg : pgnum (pteAddr (mkPde dir)) = dir := by
    rw [pgnum_pte_addr, pgnum_mk_pde (by omega)]
  have hlook : pageLookup dir va s = .ret (some (dir, ⟨dir, ptx va⟩)) s := by
    have hpresent : hasFlag (s.mem dir (pdx va)) pteP = true := by
      rw [hpde]
      exact mk_pde_present dir
    have hwalk : pgdirWalk dir va false s = _ := pgdir_walk_present hpresent
      (by rw [hpde, pgnum_mk_pde (by omega)]; exact hlt)
    have hwp : wp (pageLookup dir va) (fun r s' => r = some (dir, ⟨dir, ptx va⟩) ∧ s' = s)
        (fun _ _ => False) s := by
      rw [pageLookup, wp_bind, wp_of_ret hwalk, hpde, pgnum_mk_pde (by omega), wp_bind, readWord,
        wp_gets]
      dsimp only
      rw [hself, if_pos hpresent, wp_bind, hpde, wp_pa2page (by rw [hpg]; exact hlt), hpg]
      exact ⟨rfl, rfl⟩
    obtain ⟨r, s', hcall, rfl, rfl⟩ := ret_of_wp hwp
    exact hcall
  rw [pageRemove, wp_bind, wp_of_ret hlook, wp_bind, writeWord, wp_modify, wp_bind]
  refine wp_mono_ret tlb_invalidate_spec fun _ s₂ hs₂ => ?_
  obtain ⟨g, rfl⟩ := hs₂
  rw [wp_page_decref]
  refine ⟨fun _ => ⟨rfl, fun z hz => ?_⟩, fun hne => absurd href hne⟩
  exact Function.update_of_ne hz _ _

/-- Inserting a page into the directory that is the first free page itself. Where both indices are
the same, the new entry replaces the directory entry. -/
theorem page_insert_own_table {s : Kernel} {k : CpuId} {dir pp : Nat} {va perm : Word}
    (habsent : hasFlag (s.mem dir (pdx va)) pteP = false) (hhead : s.pageFreeList = some dir)
    (hlt : dir < s.npages) (hsmall : s.npages ≤ 1048576) (hpp : pp ≠ dir) (hppsmall : pp < 1048576)
    (hself : ptx va = pdx va) :
    wp (pageInsert k dir pp va perm)
      (fun r s' => r = 0 ∧ s'.npages = s.npages ∧ s'.mem dir (pdx va) = mkPte pp perm ∧
        s'.mem pp = s.mem pp)
      (fun _ _ => False) s := by
  have hother : pteAddr (mkPde dir) ≠ page2pa pp := by
    intro heq
    have hpg := congrArg pgnum heq
    rw [pgnum_pte_addr, pgnum_mk_pde (by omega), pgnum_page2pa hppsmall] at hpg
    exact hpp hpg.symm
  rw [pageInsert, wp_bind]
  refine wp_mono_ret (walk_own_table habsent hhead hlt hsmall) fun r s₁ hr => ?_
  obtain ⟨rfl, hnp₁, hpde₁, hmem₁, href₁⟩ := hr
  rw [wp_bind, readWord, wp_gets]
  dsimp only
  rw [hself, hpde₁, if_pos (mk_pde_present dir), if_neg hother, wp_bind]
  refine wp_mono_ret (remove_own_table hpde₁ hself href₁ (hnp₁ ▸ hlt) (hnp₁ ▸ hsmall))
    fun _ s₂ hs₂ => ?_
  obtain ⟨hnp₂, hmem₂⟩ := hs₂
  simp only [pageInsertNew, modifyPage, writeWord, wp_bind, wp_modify, wp_pure]
  refine wp_mono_ret tlb_invalidate_spec fun _ s₃ hs₃ => ?_
  obtain ⟨g, rfl⟩ := hs₃
  refine ⟨trivial, hnp₂.trans hnp₁, ?_, ?_⟩
  · simp [Kernel.setWord, Kernel.setCpu]
  · exact (Function.update_of_ne hpp _ _).trans ((hmem₂ pp hpp).trans (hmem₁ pp hpp))

/-- `env_alloc` when there is a page and a slot. -/
theorem env_alloc_takes {s : Kernel} {p : Nat} {e : EnvIx} (parentId : Word)
    (hhead : s.pageFreeList = some p) (hslot : s.envFreeList = some e) (hlt : p < s.npages)
    (hsmall : s.npages ≤ 1048576) (hkern : s.kernPgdir ≠ p) :
    ∃ s', envAlloc parentId s = .ret (.ok e) s' ∧ s'.npages = s.npages ∧
      s'.kernPgdir = s.kernPgdir ∧ s'.pageFreeList = (s.pages p).ppLink ∧
      s'.pages = Function.update s.pages p { ppLink := none, ppRef := 1 } ∧
      (∀ z, z ≠ p → s'.mem z = s.mem z) ∧
      (∀ d, d ≠ pdx uvpt → s'.mem p d = s.mem s.kernPgdir d) ∧
      (∀ e', e' ≠ e → s'.envs e' = s.envs e') ∧ (s'.envs e).envPgdir = some p ∧
      (s'.envs e).envId = nextEnvId (s.envs e).envId e ∧ (s'.envs e).envStatus = .runnable := by
  have hpage : pgnum (page2pa p) = p := pgnum_page2pa (by omega)
  have hwp : wp (envAlloc parentId) (fun r s' => r = .ok e ∧ s'.npages = s.npages ∧
      s'.kernPgdir = s.kernPgdir ∧ s'.pageFreeList = (s.pages p).ppLink ∧
      s'.pages = Function.update s.pages p { ppLink := none, ppRef := 1 } ∧
      (∀ z, z ≠ p → s'.mem z = s.mem z) ∧
      (∀ d, d ≠ pdx uvpt → s'.mem p d = s.mem s.kernPgdir d) ∧
      (∀ e', e' ≠ e → s'.envs e' = s.envs e') ∧ (s'.envs e).envPgdir = some p ∧
      (s'.envs e).envId = nextEnvId (s.envs e).envId e ∧ (s'.envs e).envStatus = .runnable)
      (fun _ _ => False) s := by
    simp only [envAlloc, envSetupVm, pageAlloc, zeroPage, modifyPage, modifyEnv, writeWord, wp_bind,
      wp_gets, hslot, hhead, wp_modify, if_true, wp_pure]
    rw [wp_kaddr (by rw [hpage]; exact hlt), hpage]
    refine ⟨trivial, ?_, ?_, ?_, ?_, fun z hz => ?_, fun d hd => ?_, fun e' he' => ?_, ?_, ?_, ?_⟩
    · simp [Kernel.setWord, Kernel.setPage, Kernel.setPageWords, Kernel.setEnv, Kernel.fill]
    · simp [Kernel.setWord, Kernel.setPage, Kernel.setPageWords, Kernel.setEnv, Kernel.fill]
    · simp [Kernel.setWord, Kernel.setPage, Kernel.setPageWords, Kernel.setEnv, Kernel.fill]
    · simp [Kernel.setWord, Kernel.setPage, Kernel.setPageWords, Kernel.setEnv, Kernel.fill]
    · simp [Kernel.setWord, Kernel.setPage, Kernel.setPageWords, Kernel.setEnv, Kernel.fill, hz]
    · simp [Kernel.setWord, Kernel.setPage, Kernel.setPageWords, Kernel.setEnv, Kernel.fill, hd,
        hkern]
    · simp [Kernel.setWord, Kernel.setPage, Kernel.setPageWords, Kernel.setEnv, Kernel.fill, he']
    all_goals
      simp [Kernel.setWord, Kernel.setPage, Kernel.setPageWords, Kernel.setEnv, Kernel.fill]
  obtain ⟨r, s', hcall, rfl, hfacts⟩ := ret_of_wp hwp
  exact ⟨s', hcall, hfacts⟩

/-! ## The run -/

/-- `wrapStart` with environment 0, whose directory is page 1, running on CPU 0. Slot 1 is free. -/
def ipcWrapStart : Kernel :=
  { wrapStart with
    envs := fun e =>
      if e = 0 then { envId := 0x1000, envStatus := .running, envPgdir := some 1 } else {}
    envFreeList := some 1, cpus := fun _ => { cr3 := 1, cpuEnv := some 0 } }

theorem ipc_wrap_start_filled :
    Filled 0 ipcWrapStart (fun _ => none) (fun _ => none) (List.range' 4 296) where
  shape := wrap_start_shape
  map := wrap_start_filled.map
  tables := wrap_start_filled.tables
  high := wrap_start_filled.high
  list := wrap_start_filled.list
  room := wrap_start_filled.room
  above := wrap_start_filled.above
  ref := rfl
  npages := rfl
  blank := fun _ _ _ => rfl

theorem ipc_wrap_start_apart : ipcWrapStart.apart := by
  have hdir : ∀ p, ipcWrapStart.isDir p → p = 1 := by
    intro p hp
    obtain ⟨e, he⟩ := hp
    by_cases h0 : e = 0
    · subst h0
      exact (Option.some.inj he).symm
    · simp [ipcWrapStart, h0] at he
  have habsent : ∀ p i, ¬ hasFlag (ipcWrapStart.mem p i) pteP = true := by
    intro p i
    show ¬ hasFlag 0 pteP = true
    decide
  refine ⟨by decide, ⟨fun p => 4 ≤ p ∧ p < 300, fun p hp => ?_, fun p q hp hq => ?_,
    fun p hp => ⟨hp.2, fun h => ?_⟩⟩, fun p d _ _ hpresent => absurd hpresent (habsent p d),
    fun p d _ _ _ hpresent => absurd hpresent (habsent p d)⟩
  · obtain rfl : 4 = p := Option.some.inj hp
    decide
  · by_cases hmid : 4 ≤ p ∧ p < 299
    · have hlink : (ipcWrapStart.pages p).ppLink = some (p + 1) := by
        simp [ipcWrapStart, wrapStart, hmid]
      obtain rfl : p + 1 = q := Option.some.inj (hlink.symm.trans hq)
      omega
    · simp [ipcWrapStart, wrapStart, hmid] at hq
  · have := hdir p h
    omega

/-- Page 2 is mapped at page number 1 and counted once, and page 3 is mapped at page number 65537. -/
structure Shared (s : Kernel) (f : PageMap) (tbl : Nat → Option Nat) (l : List Nat) : Prop where
  shape : s.shape 1 tbl f
  one : f 1 = some (2, 5)
  sent : f 65537 = some (3, 5)
  high : ∀ d q, tbl d = some q → 4 ≤ q
  list : Chain (fun p => (s.pages p).ppLink) s.pageFreeList l
  above : ∀ p ∈ l, 4 ≤ p
  ref : (s.pages 2).ppRef = 1
  npages : s.npages = 300
  kern : s.kernPgdir = 0
  blank : ∀ z < 4, z ≠ 1 → z ≠ 2 → s.mem z = fun _ => 0

/-- Environment 0 maps page 3 behind the places of page 2. -/
theorem Filled.insert_three {s : Kernel} {f : PageMap} {tbl : Nat → Option Nat} {l : List Nat}
    (h : Filled 65537 s f tbl l) (hkern : s.kernPgdir = 0) :
    PtOp.Legal s 1 (.insert 3 (pageVa 65537) 4) ∧ ∃ s',
      (PtOp.insert 3 (pageVa 65537) 4).run 0 1 s = .ret 0 s' ∧
        Shared s' (Function.update f 65537 (some (3, 5))) tbl l := by
  have hpg : pgnum (pageVa 65537) = 65537 := by decide
  have hpd : pdx (pageVa 65537) = 64 := by decide
  have hva : pdx (pageVa 65537) < 955 := by decide
  have hlt : 3 < s.npages := by
    rw [h.npages]
    decide
  have hnone : f (pgnum (pageVa 65537)) = none := by
    rw [hpg, h.map]
    rfl
  have htbl : tbl (pdx (pageVa 65537)) ≠ none := by
    have hsome := (h.tables 64).2 (by decide)
    rw [hpd]
    intro hbare
    rw [hbare] at hsome
    cases hsome
  have hlegal : PtOp.Legal s 1 (.insert 3 (pageVa 65537) 4) :=
    ⟨page_va_lt (by decide), by decide, allocated_of_shape h.shape h.list hlt (by decide)
      (fun d => (h.clean d).2) h.off.2⟩
  obtain ⟨r, s', hcall, rfl, s₁, tbl₁, hgrown, hshape, hpages, hhead, hnp⟩ := ret_of_wp
    (page_insert_vacant (k := 0) h.shape hva hlt (by decide : (4 : Word).toNat < 4096) hnone
      (.inl htbl))
  obtain ⟨hkern', hframe⟩ := (wp_of_ret hcall).1 (page_insert_frame h.shape hva hnone)
  rw [hpg] at hshape
  rcases hgrown with ⟨rfl, rfl⟩ | ⟨hbare, -⟩
  · have hlink : ∀ p, (s'.pages p).ppLink = (s₁.pages p).ppLink := by
      intro p
      rw [hpages]
      by_cases hp : p = 3
      · subst hp
        simp
      · simp [hp]
    refine ⟨hlegal, s', hcall, hshape, ?_, Function.update_self _ _ _, h.high, ?_, h.above, ?_,
      hnp.trans h.npages, hkern'.trans hkern, fun z hz hone _ => ?_⟩
    · rw [Function.update_of_ne (by decide), h.map]
      rfl
    · rw [hhead]
      exact h.list.congr fun p _ => hlink p
    · rw [hpages, Function.update_of_ne (by decide), h.ref]
      decide
    · rw [hframe z hone (fun heq => ?_) fun heq => ?_, h.blank z hz hone]
      · have := h.high _ _ heq
        omega
      · have hlist := h.list
        rw [heq] at hlist
        obtain ⟨rest, rfl, -⟩ := hlist.pop none
        have := h.above z List.mem_cons_self
        omega
  · exact absurd hbare htbl

/-- Page 2 is the first free page, and page 3 is mapped at page number 65537. -/
structure Loose (s : Kernel) (f : PageMap) (tbl : Nat → Option Nat) (l : List Nat) : Prop where
  shape : ∃ link head, Shape 300 s.mem link head 1 tbl f ∧ Chain link head l
  sent : f 65537 = some (3, 5)
  high : ∀ d q, tbl d = some q → 4 ≤ q
  head : s.pageFreeList = some 2
  list : Chain (fun p => (s.pages p).ppLink) (some 2) (2 :: l)
  above : ∀ p ∈ l, 4 ≤ p
  npages : s.npages = 300
  kern : s.kernPgdir = 0
  blank : ∀ z < 4, z ≠ 1 → z ≠ 2 → s.mem z = fun _ => 0

/-- Page 2 is freed while it is mapped. -/
theorem Shared.loose {s : Kernel} {f : PageMap} {tbl : Nat → Option Nat} {l : List Nat} {n : Nat}
    (h : Shared s f tbl l) (hn : n < 65537) (hx : f n = some (2, 5)) :
    ∃ s', (PtOp.remove (pageVa n)).run 0 1 s = .ret 0 s' ∧
      Loose s' (Function.update f n none) tbl l ∧ s'.mem 2 = s.mem 2 := by
  have hpg : pgnum (pageVa n) = n := pgnum_page_va (by omega)
  have hva : pdx (pageVa n) < 955 := by
    rw [pdx_page_va (by omega)]
    omega
  have hoff : 2 ∉ l := by
    intro hmem
    have := h.above _ hmem
    omega
  obtain ⟨s', q, hcall, hnp, hkern, hq, hmem, hshape, hhead, hlist⟩ :=
    page_remove_frees h.shape hva (by rw [hpg]; exact hx) h.ref h.list hoff
  have hsame : ∀ z < 4, s'.mem z = s.mem z := by
    intro z hz
    have hhigh := h.high _ _ hq
    rw [hmem, Function.update_of_ne (by omega)]
  rw [hpg, h.npages] at hshape
  refine ⟨s', hcall, ⟨⟨_, _, hshape, h.list⟩, ?_, h.high, hhead, hlist, h.above, hnp.trans h.npages,
    hkern.trans h.kern, fun z hz hone htwo => ?_⟩, hsame 2 (by decide)⟩
  · rw [Function.update_of_ne (by omega)]
    exact h.sent
  · rw [hsame z hz, h.blank z hz hone htwo]

/-- `env_alloc` takes page 2 for the directory of environment 1, although it is mapped. -/
theorem Loose.env_alloc {s : Kernel} {f : PageMap} {tbl : Nat → Option Nat} {l : List Nat}
    (h : Loose s f tbl l) (hone : f 1 = some (2, 5)) (hslot : s.envFreeList = some 1) :
    ∃ s', envAlloc 0x1000 s = .ret (.ok 1) s' ∧ Shared s' f tbl l ∧
      hasFlag (s'.mem 2 5) pteP = false ∧ (s'.envs 1).envPgdir = some 2 ∧
      (s'.envs 1).envId = nextEnvId (s.envs 1).envId 1 ∧ (s'.envs 1).envStatus = .runnable ∧
      ∀ e, e ≠ 1 → s'.envs e = s.envs e := by
  have hne : s.kernPgdir ≠ 2 := by
    rw [h.kern]
    decide
  obtain ⟨s', hcall, hnp, hkern, hhead, hpages, hmem, hdir, hothers, hpgdir, hid, hstatus⟩ :=
    env_alloc_takes 0x1000 h.head hslot (by rw [h.npages]; decide) (by rw [h.npages]; decide) hne
  obtain ⟨link, head, hshape, hfree⟩ := h.shape
  have hlist : Chain (fun p => (s'.pages p).ppLink) s'.pageFreeList l := by
    rw [hhead]
    refine h.list.2.congr fun p hp => ?_
    have hp2 : p ≠ 2 := by
      have := h.above p hp
      omega
    rw [hpages, Function.update_of_ne hp2]
  have hshape' : s'.shape 1 tbl f := by
    unfold Kernel.shape
    rw [hnp, h.npages]
    refine hshape.congr_mem (hmem 1 (by decide)) (fun d q hq => hmem q ?_) ⟨l, hlist, fun p hp => ?_⟩
    · have := h.high d q hq
      omega
    · obtain ⟨l', hl', hoff⟩ := hshape.free
      rw [Chain.unique hfree hl'] at hp
      exact hoff p hp
  refine ⟨s', hcall, ⟨hshape', hone, h.sent, h.high, hlist, h.above, ?_, hnp.trans h.npages,
    hkern.trans h.kern, fun z hz hone' htwo => ?_⟩, ?_, hpgdir, hid, hstatus, hothers⟩
  · rw [hpages, Function.update_self]
  · rw [hmem z htwo, h.blank z hz hone' htwo]
  · rw [hdir 5 (by decide +kernel), h.kern, h.blank 0 (by decide) (by decide) (by decide)]
    decide

/-- A send into a directory that is the first free page returns 0 and maps nothing. -/
theorem send_into_free_directory {s : Kernel} {f : PageMap} {tbl : Nat → Option Nat}
    {link : Nat → Option Nat} {head : Option Nat} (hshape : Shape 300 s.mem link head 1 tbl f)
    (hnp : s.npages = 300) (hsent : f 65537 = some (3, 5)) (hhead : s.pageFreeList = some 2)
    (hblank : s.mem 3 = fun _ => 0) (habsent : hasFlag (s.mem 2 5) pteP = false)
    (hsender : (s.envs 0).envPgdir = some 1) (henv : envid2env s 0 0x1001 false = some 1)
    (hrecving : (s.envs 1).envIpcRecving = true) (hdir : (s.envs 1).envPgdir = some 2)
    (hdst : (s.envs 1).envIpcDstva = pageVa 5125) :
    (∃ old, MapsAt s 0 (pageVa 65537) (3, old)) ∧
      ∃ s', sysIpcTrySend 0 0 0x1001 7 (pageVa 65537) pteU s = .ret 0 s' ∧
        ∀ x, ¬ MapsAt s' 1 (pageVa 5125) x := by
  have hpd : pdx (pageVa 65537) = 64 := by decide
  have hpt : ptx (pageVa 65537) = 1 := by decide
  have hpd' : pdx (pageVa 5125) = 5 := by decide
  have hpt' : ptx (pageVa 5125) = 5 := by decide
  -- what environment 0 maps at the page to send
  obtain ⟨hpresent, hlt, hentry⟩ : hasFlag (s.mem 1 64) pteP = true ∧ pgnum (s.mem 1 64) < 300 ∧
      readEntry (s.mem (pgnum (s.mem 1 64)) 1) = some (3, 5) := by
    have hpde := hshape.pde 64 (by decide)
    split at hpde
    · rename_i hyes
      exact ⟨hyes, (hshape.table 64 _ hpde).1, by rw [← hshape.pte 64 _ 1 hpde (by decide), hsent]⟩
    · have hnone := hshape.bare 64 1 hpde (by decide)
      rw [hsent] at hnone
      cases hnone
  have hwalk : pgdirWalk 1 (pageVa 65537) false s = .ret (some ⟨pgnum (s.mem 1 64), 1⟩) s := by
    have hwalk : pgdirWalk 1 (pageVa 65537) false s = _ := pgdir_walk_present
      (by rw [hpd]; exact hpresent) (by rw [hpd, hnp]; exact hlt)
    rw [hpd, hpt] at hwalk
    exact hwalk
  refine ⟨⟨5, 1, _, hsender, hwalk, hentry⟩, ?_⟩
  obtain ⟨hpage, hthree⟩ : hasFlag (s.mem (pgnum (s.mem 1 64)) 1) pteP = true ∧
      pgnum (s.mem (pgnum (s.mem 1 64)) 1) = 3 := by
    rw [readEntry] at hentry
    split at hentry
    · rename_i hyes
      exact ⟨hyes, congrArg Prod.fst (Option.some.inj hentry)⟩
    · cases hentry
  have hsource : ipcSource 0 (pageVa 65537) pteU s = .ret (some (some ⟨pgnum (s.mem 1 64), 1⟩)) s := by
    have hwp : wp (ipcSource 0 (pageVa 65537) pteU)
        (fun r s' => r = some (some ⟨pgnum (s.mem 1 64), 1⟩) ∧ s' = s) (fun _ _ => False) s := by
      have hshare : pteShareable (s.mem (pgnum (s.mem 1 64)) 1) pteU = true := by
        rw [pteShareable, hpage]
        rfl
      rw [ipcSource, if_neg (BitVec.not_le.2 (page_va_lt (by decide))), if_neg (by decide),
        if_neg (by decide), wp_bind, wp_gets,
        hsender, wp_bind, wp_deref_some, wp_bind, wp_of_ret hwalk, wp_bind, readWord, wp_gets,
        if_pos hshare]
      exact ⟨rfl, rfl⟩
    obtain ⟨r, s', hcall, rfl, rfl⟩ := ret_of_wp hwp
    exact hcall
  have hwp : wp (sysIpcTrySend 0 0 0x1001 7 (pageVa 65537) pteU)
      (fun r s' => r = 0 ∧ ∀ x, ¬ MapsAt s' 1 (pageVa 5125) x) (fun _ _ => False) s := by
    rw [sysIpcTrySend, wp_bind, wp_get, henv, wp_bind, wp_gets, if_pos hrecving, wp_bind,
      wp_of_ret hsource, wp_bind, wp_modify]
    have hdstva : ((s.woken 0 1 7).envs 1).envIpcDstva = pageVa 5125 := by
      simp [Kernel.woken, Kernel.setEnv, hdst]
    have hpgdir : ((s.woken 0 1 7).envs 1).envPgdir = some 2 := by
      simp [Kernel.woken, Kernel.setEnv, hdir]
    show wp (ipcDeliver 0 1 (some ⟨pgnum (s.mem 1 64), 1⟩) pteU) _ _ (s.woken 0 1 7)
    rw [ipcDeliver, wp_bind, wp_gets, hdstva]
    dsimp only
    have hmem : (s.woken 0 1 7).mem = s.mem := rfl
    rw [if_pos (page_va_lt (by decide)), wp_bind, readWord, wp_gets, wp_bind, hmem,
      wp_pa2page (by rw [pgnum_pte_addr, hthree]; exact hnp ▸ by decide), pgnum_pte_addr, hthree,
      wp_bind, wp_gets, hpgdir, wp_bind, wp_deref_some, wp_bind]
    have hinsert : wp (pageInsert 0 2 3 (pageVa 5125) pteU) _ _ (s.woken 0 1 7) :=
      page_insert_own_table (by rw [hpd']; exact habsent) hhead (hnp ▸ by decide)
        (hnp ▸ by decide) (by decide) (by decide) (by rw [hpd', hpt'])
    obtain ⟨r, s₁, hcall, rfl, hnp₁, hpde, hzero⟩ := ret_of_wp hinsert
    have henvs : s₁.envs = (s.woken 0 1 7).envs :=
      congrArg Ctl.envs ((wp_of_ret hcall).1 (quiet_page_insert 0 2 3 (pageVa 5125) pteU _)).1
    rw [wp_of_ret hcall, if_neg (by decide), wp_bind, modifyEnv, wp_modify]
    refine ⟨rfl, fun x hx => ?_⟩
    -- the directory entry for the address is the entry of page 3, which is blank
    obtain ⟨dir, pte, hdir', hwalk', hentry'⟩ := hx
    rw [set_env_self, henvs, hpgdir] at hdir'
    obtain rfl : 2 = dir := Option.some.inj hdir'
    rw [hpd'] at hpde
    have hpg : pgnum (mkPte 3 pteU) = 3 := pgnum_mk_pte (by decide) (by decide)
    have hown : pgdirWalk 2 (pageVa 5125) false
        (s₁.setEnv 1 fun env => { env with envIpcPerm := pteU }) = _ := pgdir_walk_present
      (by rw [hpd']; exact hpde ▸ mk_pte_present 3 pteU)
      (by rw [hpd']; exact hpde ▸ hpg ▸ hnp₁ ▸ hnp ▸ by decide)
    rw [hwalk', hpd', hpt'] at hown
    injection hown with hpte _
    obtain rfl := Option.some.inj hpte
    have hword : (s₁.setEnv 1 fun env => { env with envIpcPerm := pteU }).mem
        (pgnum (s₁.mem 2 5)) 5 = 0 := by
      rw [hpde, hpg]
      show s₁.mem 3 5 = 0
      rw [hzero, hmem, hblank]
    have hnone : readEntry 0 = some x := hword ▸ hentry'
    rw [read_entry_zero] at hnone
    cases hnone
  obtain ⟨r, s', hcall, rfl, hlost⟩ := ret_of_wp hwp
  exact ⟨s', hcall, hlost⟩

/-- `env_run` leaves messages, directories and memory alone. -/
theorem Scheduled.dispatched (s : Kernel) (k : CpuId) (e : EnvIx) :
    Scheduled s (s.dispatched k e) := by
  have hdesched := (wp_of_ret (deschedule_curenv_eq k s)).1 (schedules_deschedule_curenv k s)
  refine hdesched.trans ((Scheduled.set_cpu _ k fun c => { c with cpuEnv := some e }).trans ?_)
  exact Scheduled.set_env _ e (SameIpc.refl _) rfl rfl fun _ => EnvStatus.noConfusion

theorem cpu_env_dispatched (s : Kernel) (k : CpuId) (e : EnvIx) :
    ((s.dispatched k e).cpus k).cpuEnv = some e := by
  simp [Kernel.dispatched, Kernel.setCpu, Kernel.setEnv]

/-- Editing a directory leaves the environments alone. -/
theorem quiet_pt_op (k : CpuId) (dir : Nat) (op : PtOp) : IsQuiet (op.run k dir) := by
  cases op with
  | insert pp va perm => exact quiet_page_insert k dir pp va perm
  | remove va => exact keeps_bind (quiet_page_remove k dir va) fun _ => keeps_pure _

/-- The counter of page 2 wraps around, and a page that is sent is lost. Environment 0 maps page 2
at 65537 places, so that its counter is 1, and unmaps it at the first; `env_alloc` takes it for the
directory of environment 1, and unmapping it at the second place frees that directory. Environment 1
waits for a page at page number 5125. Environment 0 sends page 3, the send returns 0, and nothing is
mapped there. -/
theorem ipc_send_lost : ipcWrapStart.apart ∧ ∃ s₁ s₂ s₃ s₄ s' f got,
    PtRun (fun _ _ _ => True) 0 1 ipcWrapStart (fun _ => none) s₁ f ∧
      envAlloc 0x1000 s₁ = .ret (.ok 1) s₂ ∧
      (PtOp.remove (pageVa 1)).run 0 1 s₂ = .ret 0 s₃ ∧
      s₄ = (sysIpcRecv 0 1 (pageVa 5125) (s₃.dispatched 0 1)).state ∧
      IpcRun ipcWrapStart (s₄.dispatched 0 0) got ∧
      (∃ old, MapsAt (s₄.dispatched 0 0) 0 (pageVa 65537) (3, old)) ∧
      sysIpcTrySend 0 0 0x1001 7 (pageVa 65537) pteU (s₄.dispatched 0 0) = .ret 0 s' ∧
      ∀ x, ¬ MapsAt s' 1 (pageVa 5125) x := by
  refine ⟨ipc_wrap_start_apart, ?_⟩
  obtain ⟨s, f, tbl, l, hrun, hfilled, hkern, hctl⟩ :=
    filled_run ipc_wrap_start_filled (Nat.le_refl 65537)
  -- page 3 is mapped behind page 2, and page 2 is freed and taken for the new directory
  obtain ⟨hlegal₀, s₀, hcall₀, hshared₀⟩ := hfilled.insert_three hkern
  have hzero : Function.update f 65537 (some (3, 5)) 0 = some (2, 5) := by
    rw [Function.update_of_ne (by decide), hfilled.map]
    rfl
  obtain ⟨s₁, hcall₁, hloose₁, -⟩ := hshared₀.loose (by decide : 0 < 65537) hzero
  have hlegal₁ : PtOp.Legal s₀ 1 (.remove (pageVa 0)) := page_va_lt (by decide)
  have hrun₁ := (hrun.snoc hlegal₀ trivial hcall₀).snoc hlegal₁ trivial hcall₁
  have hctl₁ : s₁.ctl = ipcWrapStart.ctl :=
    ((wp_of_ret hcall₁).1 (quiet_pt_op 0 1 _ _)).1.trans
      (((wp_of_ret hcall₀).1 (quiet_pt_op 0 1 _ _)).1.trans hctl)
  have henvs₁ : s₁.envs = ipcWrapStart.envs := congrArg Ctl.envs hctl₁
  have hone : Function.update (Function.update f 65537 (some (3, 5))) 0 none 1 = some (2, 5) := by
    rw [Function.update_of_ne (by decide)]
    exact hshared₀.one
  obtain ⟨s₂, hcall₂, hshared₂, habsent₂, hpgdir₂, hid₂, hstatus₂, hothers₂⟩ :=
    hloose₁.env_alloc hone (congrArg Ctl.envFreeList hctl₁)
  -- page 2 is freed at its second place
  obtain ⟨s₃, hcall₃, hloose₃, hmem₃⟩ := hshared₂.loose (by decide : 1 < 65537) hone
  have henvs₃ : s₃.envs = s₂.envs :=
    congrArg Ctl.envs ((wp_of_ret hcall₃).1 (quiet_pt_op 0 1 _ _)).1
  -- environment 1 waits, and environment 0 runs again
  have hturn := Scheduled.dispatched s₃ 0 1
  have hva : ¬ (pageVa 5125 < utop ∧ pageVa 5125 % pgsizeW ≠ 0) := by
    intro h
    exact absurd h.2 (by decide)
  have hwait : Scheduled _ (sysIpcRecv 0 1 (pageVa 5125) (s₃.dispatched 0 1)).state :=
    sys_ipc_recv_state hva
  have hback := Scheduled.dispatched (sysIpcRecv 0 1 (pageVa 5125) (s₃.dispatched 0 1)).state 0 0
  have hrest := hwait.trans hback
  have hrun₃ : IpcRun ipcWrapStart s₃ fun _ => [] :=
    ((IpcRun.start.other fun e => henvs₁ ▸ SameIpc.refl _).alloc hcall₂).other
      fun e => henvs₃ ▸ SameIpc.refl _
  have hrun₄ := ((hrun₃.other hturn.ipc).recv (cpu_env_dispatched s₃ 0 1) hva).other hback.ipc
  -- what the sender finds
  generalize ht : (sysIpcRecv 0 1 (pageVa 5125) (s₃.dispatched 0 1)).state.dispatched 0 0 = t
    at hback hrest hrun₄
  have hmem : t.mem = s₃.mem := hrest.mem.trans hturn.mem
  have hnp : t.npages = 300 := (hrest.npages.trans hturn.npages).trans hloose₃.npages
  have hhead : t.pageFreeList = some 2 := (hrest.head.trans hturn.head).trans hloose₃.head
  have hsender : (t.envs 0).envPgdir = some 1 := by
    rw [hrest.pgdir, set_env_of_ne _ _ (by decide), hturn.pgdir, henvs₃, hothers₂ 0 (by decide),
      henvs₁]
    rfl
  have hdir : (t.envs 1).envPgdir = some 2 := by
    rw [hrest.pgdir, set_env_self, hturn.pgdir, henvs₃, hpgdir₂]
  have hid : (t.envs 1).envId = 0x1001 := by
    rw [hrest.id, set_env_self, hturn.id, henvs₃, hid₂, henvs₁]
    decide
  have hlive : (t.envs 1).envStatus ≠ .free := by
    refine hrest.live 1 ?_
    rw [set_env_self]
    exact EnvStatus.noConfusion
  obtain ⟨hrecving, hdst, -⟩ := hrest.ipc 1
  rw [set_env_self] at hrecving hdst
  have henv : envid2env t 0 0x1001 false = some 1 := by
    have hcur : (t.cpus 0).cpuEnv = some 0 := ht ▸ cpu_env_dispatched _ 0 0
    have hx : envx 0x1001 = 1 := by decide
    have hnot : ¬ ((t.envs 1).envStatus = .free ∨ (t.envs 1).envId ≠ 0x1001) :=
      not_or.2 ⟨hlive, not_not.2 hid⟩
    simp only [envid2env, hcur]
    rw [if_neg (by decide), hx, if_neg hnot, if_neg fun h => Bool.false_ne_true h.1]
  obtain ⟨link, head, hshape₃, -⟩ := hloose₃.shape
  obtain ⟨hmaps, s', hcall, hlost⟩ := send_into_free_directory (hmem ▸ hshape₃) hnp hloose₃.sent
    hhead (hmem ▸ hloose₃.blank 3 (by decide) (by decide) (by decide))
    (hmem ▸ hmem₃ ▸ habsent₂) hsender henv hrecving hdir hdst
  exact ⟨s₁, s₂, s₃, _, s', _, _, hrun₁, hcall₂, hcall₃, rfl, ht ▸ hrun₄, ht ▸ hmaps, ht ▸ hcall,
    hlost⟩

end Labs.Jos
