import Labs.Jos.Ipc

/-!
# Failed sends

`sys_ipc_try_send` makes its checks first and then wakes the receiver, but the last of its errors
comes later: `page_insert` may have no page for a missing page table. What a failed send leaves
alone is followed here through every exit, in any state of the kernel.
-/

namespace Labs.Jos

open Prog

/-- The fields for messages, the status and the user mappings of `e` are what they were. -/
structure Untouched (s s' : Kernel) (e : EnvIx) : Prop where
  sender : (s'.envs e).envIpcFrom = (s.envs e).envIpcFrom
  value : (s'.envs e).envIpcValue = (s.envs e).envIpcValue
  perm : (s'.envs e).envIpcPerm = (s.envs e).envIpcPerm
  recving : (s'.envs e).envIpcRecving = (s.envs e).envIpcRecving
  status : (s'.envs e).envStatus = (s.envs e).envStatus
  mapping : ∀ n < userPages, s'.mapping e n = s.mapping e n

theorem Untouched.refl (s : Kernel) (e : EnvIx) : Untouched s s e :=
  ⟨rfl, rfl, rfl, rfl, rfl, fun _ _ => rfl⟩

/-- The page directory in page `dir` has no page table for `va`, and no page is free. -/
def NoRoom (s : Kernel) (dir : Nat) (va : Word) : Prop :=
  hasFlag (s.mem dir (pdx va)) pteP = false ∧ s.pageFreeList = none

/-- The checks of `sys_ipc_try_send` on the page at `srcva` succeed and find the entry `pte`. -/
def Source (s : Kernel) (c : EnvIx) (srcva perm : Word) (pte : PteRef) : Prop :=
  srcva < utop ∧ srcva % pgsizeW = 0 ∧ badPerm perm = false ∧
    ∃ dir, (s.envs c).envPgdir = some dir ∧ hasFlag (s.mem dir (pdx srcva)) pteP = true ∧
      pgnum (s.mem dir (pdx srcva)) < s.npages ∧
      pte = ⟨pgnum (s.mem dir (pdx srcva)), ptx srcva⟩ ∧
      pteShareable (s.mem pte.table pte.index) perm = true

/-- All checks of a send succeed, a page is sent and wanted, and there is no page for the table
that the receiver lacks. -/
def FailsLate (s : Kernel) (k : CpuId) (c : EnvIx) (envid srcva perm : Word) : Prop :=
  ∃ e pte dir, envid2env s k envid false = some e ∧ (s.envs e).envIpcRecving = true ∧
    Source s c srcva perm pte ∧ pgnum (s.mem pte.table pte.index) < s.npages ∧
    (s.envs e).envIpcDstva < utop ∧ (s.envs e).envPgdir = some dir ∧ NoRoom s dir (s.envs e).envIpcDstva

/-! ## Inserting a page -/

section Inserting

variable {s : Kernel} {k : CpuId} {dir pp : Nat} {va perm : Word}

/-- No page is allocated only if no page is free. -/
theorem page_alloc_none :
    wp (pageAlloc true) (fun r s' => r = none → s' = s ∧ s.pageFreeList = none)
      (fun _ _ => True) s := by
  rw [pageAlloc, wp_bind, wp_gets]
  cases hlist : s.pageFreeList with
  | none => exact fun _ => ⟨rfl, rfl⟩
  | some p =>
      rw [wp_bind, wp_modify, wp_bind, modifyPage, wp_modify]
      dsimp only
      rw [if_pos rfl, wp_bind]
      refine wp_of_forall (fun _ _ => ?_) fun _ _ => trivial
      exact fun h => (by cases h)

/-- A page table is missing after `pgdir_walk` with `create` only if there is no room for it. -/
theorem have_table_false :
    wp (haveTable dir va true) (fun r s' => r = false → s' = s ∧ NoRoom s dir va)
      (fun _ _ => True) s := by
  rw [haveTable, wp_bind, readWord, wp_gets]
  cases hpresent : hasFlag (s.mem dir (pdx va)) pteP with
  | true => exact fun h => (by cases h)
  | false =>
      rw [if_neg Bool.false_ne_true, if_pos rfl, newPageTable, wp_bind]
      refine wp_mono_ret page_alloc_none fun r t ht => ?_
      cases r with
      | none =>
          obtain ⟨hsame, hlist⟩ := ht rfl
          exact fun _ => ⟨hsame, hpresent, hlist⟩
      | some p => exact fun h => (by cases h)

theorem pgdir_walk_create_none :
    wp (pgdirWalk dir va true) (fun r s' => r = none → s' = s ∧ NoRoom s dir va)
      (fun _ _ => True) s := by
  rw [pgdirWalk, wp_bind]
  refine wp_mono_ret have_table_false fun r t ht => ?_
  cases r with
  | false => exact fun _ => ht rfl
  | true =>
      rw [if_pos rfl, wp_bind, readWord, wp_gets, wp_bind]
      exact wp_of_forall (fun _ _ h => (by cases h)) fun _ _ => trivial

/-- `page_insert` fails only if there is no room for a page table, and then changes nothing. -/
theorem page_insert_fails :
    wp (pageInsert k dir pp va perm) (fun r s' => r < 0 → s' = s ∧ NoRoom s dir va)
      (fun _ _ => True) s := by
  have hzero : ∀ (x : Kern Unit) t, wp (do x; pure 0 : Kern Int)
      (fun r s' => r < 0 → s' = s ∧ NoRoom s dir va) (fun _ _ => True) t := by
    intro x t
    rw [wp_bind]
    refine wp_of_forall (fun _ _ => ?_) fun _ _ => trivial
    exact fun h => absurd h (Int.lt_irrefl 0)
  have hnew : ∀ pte t, wp (pageInsertNew k dir pp va perm pte)
      (fun r s' => r < 0 → s' = s ∧ NoRoom s dir va) (fun _ _ => True) t := by
    intro pte t
    rw [pageInsertNew, wp_bind, modifyPage, wp_modify, wp_bind, writeWord, wp_modify]
    exact hzero _ _
  rw [pageInsert, wp_bind]
  refine wp_mono_ret pgdir_walk_create_none fun r t ht => ?_
  cases r with
  | none => exact fun _ => ht rfl
  | some pte =>
      rw [wp_bind, readWord, wp_gets, wp_ite]
      refine ⟨fun _ => ?_, fun _ => hnew _ _⟩
      rw [wp_ite]
      refine ⟨fun _ => ?_, fun _ => ?_⟩
      · rw [wp_bind, writeWord, wp_modify]
        exact hzero _ _
      · rw [wp_bind]
        exact wp_of_forall (fun _ _ => hnew _ _) fun _ _ => trivial

/-- Without room for the page table `page_insert` fails. -/
theorem page_insert_no_room (h : NoRoom s dir va) :
    pageInsert k dir pp va perm s = .ret (-eNoMem) s := by
  have hwp : wp (pageInsert k dir pp va perm) (fun r s' => r = -eNoMem ∧ s' = s)
      (fun _ _ => False) s := by
    rw [pageInsert, wp_bind, pgdirWalk, wp_bind, haveTable, wp_bind, readWord, wp_gets, h.1,
      if_neg Bool.false_ne_true, if_pos rfl, newPageTable, wp_bind, pageAlloc, wp_bind, wp_gets,
      h.2]
    exact ⟨rfl, rfl⟩
  obtain ⟨r, s', hcall, rfl, rfl⟩ := ret_of_wp hwp
  exact hcall

end Inserting

/-! ## Sending -/

section Sending

variable {s : Kernel} {k : CpuId} {c e : EnvIx} {envid value srcva perm : Word}

/-- `pgdir_walk` without `create` changes nothing and finds the table that the directory names. -/
theorem pgdir_walk_finds {dir : Nat} {va : Word} :
    wp (pgdirWalk dir va false) (fun r s' => s' = s ∧ ∀ pte, r = some pte →
        hasFlag (s.mem dir (pdx va)) pteP = true ∧ pgnum (s.mem dir (pdx va)) < s.npages ∧
        pte = ⟨pgnum (s.mem dir (pdx va)), ptx va⟩) (fun _ _ => True) s := by
  rw [pgdirWalk, wp_bind, haveTable, wp_bind, readWord, wp_gets]
  cases hpresent : hasFlag (s.mem dir (pdx va)) pteP with
  | false => exact ⟨rfl, fun _ h => (by cases h)⟩
  | true =>
      rw [if_pos rfl, wp_pure, if_pos rfl, wp_bind, wp_gets, wp_bind]
      by_cases hlt : pgnum (pteAddr (s.mem dir (pdx va))) < s.npages
      · rw [wp_kaddr hlt]
        rw [pgnum_pte_addr] at hlt ⊢
        refine ⟨rfl, fun pte hpte => ⟨rfl, hlt, ?_⟩⟩
        exact (Option.some.inj hpte).symm
      · rw [kaddr, wp_bind, wp_gets, if_pos (Nat.le_of_not_lt hlt)]
        trivial

/-- The checks of a send change nothing. -/
theorem ipc_source_checks :
    wp (ipcSource c srcva perm)
      (fun r s' => s' = s ∧ ∀ pte, r = some (some pte) → Source s c srcva perm pte)
      (fun _ _ => True) s := by
  have hno : ∀ {r : Option (Option PteRef)}, (∀ pte, r ≠ some (some pte)) →
      s = s ∧ ∀ pte, r = some (some pte) → Source s c srcva perm pte :=
    fun hne => ⟨rfl, fun pte heq => absurd heq (hne pte)⟩
  rw [ipcSource, wp_ite]
  refine ⟨fun _ => hno fun _ h => (by cases Option.some.inj h), fun hlow => ?_⟩
  rw [wp_ite]
  refine ⟨fun _ => hno fun _ h => (by cases h), fun halign => ?_⟩
  rw [wp_ite]
  refine ⟨fun _ => hno fun _ h => (by cases h), fun hperm => ?_⟩
  rw [wp_bind, wp_gets, wp_bind]
  cases hdir : (s.envs c).envPgdir with
  | none => trivial
  | some dir =>
      rw [wp_deref_some, wp_bind]
      refine wp_mono_ret pgdir_walk_finds fun r t ht => ?_
      obtain ⟨rfl, hpte⟩ := ht
      cases r with
      | none => exact hno fun _ h => (by cases h)
      | some pte =>
          obtain ⟨hpresent, hlt, heq⟩ := hpte pte rfl
          rw [wp_bind, readWord, wp_gets, wp_ite]
          refine ⟨fun hshare => ⟨rfl, fun pte' hpte' => ?_⟩, fun _ => hno fun _ h => (by cases h)⟩
          obtain rfl := Option.some.inj (Option.some.inj hpte')
          exact ⟨BitVec.not_le.1 hlow, not_not.1 halign, by simpa using hperm, dir, hdir, hpresent,
            hlt, heq, hshare⟩

/-- The receiver's directory is not among the fields that waking it changes. -/
theorem woken_pgdir (e' : EnvIx) : ((s.woken c e value).envs e').envPgdir = (s.envs e').envPgdir := by
  by_cases he' : e' = e
  · subst he'
    simp [Kernel.woken, Kernel.setEnv]
  · simp [Kernel.woken, Kernel.setEnv, he']

theorem woken_dstva : ((s.woken c e value).envs e).envIpcDstva = (s.envs e).envIpcDstva := by
  simp [Kernel.woken, Kernel.setEnv]

/-- Once the receiver is awake, a send fails only for want of a page table. -/
theorem ipc_deliver_fails {source : Option PteRef} :
    wp (ipcDeliver k e source perm)
      (fun r _ => r < 0 → ∃ pte dir, source = some pte ∧ (s.envs e).envIpcDstva < utop ∧
        pgnum (s.mem pte.table pte.index) < s.npages ∧ (s.envs e).envPgdir = some dir ∧
        NoRoom s dir (s.envs e).envIpcDstva)
      (fun _ _ => True) (s.woken c e value) := by
  rw [ipcDeliver, wp_bind, wp_gets, woken_dstva]
  cases source with
  | none => exact fun h => absurd h (Int.lt_irrefl 0)
  | some pte =>
      dsimp only
      rw [wp_ite]
      refine ⟨fun hdst => ?_, fun _ => fun h => absurd h (Int.lt_irrefl 0)⟩
      rw [wp_bind, readWord, wp_gets, wp_bind]
      by_cases hlt : pgnum (pteAddr ((s.woken c e value).mem pte.table pte.index)) <
          (s.woken c e value).npages
      · rw [wp_pa2page hlt, wp_bind, wp_gets, wp_bind, woken_pgdir]
        cases hdir : (s.envs e).envPgdir with
        | none => trivial
        | some dir =>
            rw [wp_deref_some, wp_bind]
            refine wp_mono_ret page_insert_fails fun r t ht => ?_
            rw [wp_ite]
            refine ⟨fun hr => fun _ => ?_, fun _ => fun h => absurd h (Int.lt_irrefl 0)⟩
            rw [pgnum_pte_addr] at hlt
            exact ⟨pte, dir, rfl, hdst, hlt, rfl, (ht hr).2⟩
      · rw [pa2page, wp_bind, wp_gets, if_pos (Nat.le_of_not_lt hlt)]
        trivial

/-- Once the receiver is awake, a send without room for the page table fails. -/
theorem ipc_deliver_no_room {pte : PteRef} {dir : Nat} (hdst : (s.envs e).envIpcDstva < utop)
    (hpage : pgnum (s.mem pte.table pte.index) < s.npages) (hdir : (s.envs e).envPgdir = some dir)
    (hroom : NoRoom s dir (s.envs e).envIpcDstva) :
    wp (ipcDeliver k e (some pte) perm) (fun r s' => r = -eNoMem ∧ s' = s.woken c e value)
      (fun _ _ => False) (s.woken c e value) := by
  have hroom' : NoRoom (s.woken c e value) dir (s.envs e).envIpcDstva := hroom
  have hpage' : pgnum (pteAddr ((s.woken c e value).mem pte.table pte.index)) <
      (s.woken c e value).npages := by
    rw [pgnum_pte_addr]
    exact hpage
  rw [ipcDeliver, wp_bind, wp_gets, woken_dstva]
  dsimp only
  rw [if_pos hdst, wp_bind, readWord, wp_gets, wp_bind, wp_pa2page hpage', wp_bind, wp_gets,
    woken_pgdir, hdir, wp_bind, wp_deref_some, wp_bind, wp_of_ret (page_insert_no_room hroom'),
    if_pos (by decide)]
  exact ⟨rfl, rfl⟩

/-- A send that fails either changes nothing or fails late. -/
theorem sys_ipc_try_send_fails :
    wp (sysIpcTrySend k c envid value srcva perm)
      (fun r s' => r < 0 → s' = s ∨ FailsLate s k c envid srcva perm) (fun _ _ => True) s := by
  rw [sysIpcTrySend, wp_bind, wp_get]
  cases henv : envid2env s k envid false with
  | none => exact fun _ => .inl rfl
  | some e =>
      rw [wp_bind, wp_gets, wp_ite]
      refine ⟨fun hrecving => ?_, fun _ => fun _ => .inl rfl⟩
      rw [wp_bind]
      refine wp_mono_ret ipc_source_checks fun r t ht => ?_
      obtain ⟨rfl, hsource⟩ := ht
      cases r with
      | none => exact fun _ => .inl rfl
      | some source =>
          rw [wp_bind, wp_modify]
          refine wp_mono_ret ipc_deliver_fails fun r s' hfail hr => ?_
          obtain ⟨pte, dir, rfl, hdst, hpage, hdir, hroom⟩ := hfail hr
          exact .inr ⟨e, pte, dir, henv, hrecving, hsource pte rfl, hpage, hdst, hdir, hroom⟩

/-- The checks of a send find the entry of the page. -/
theorem ipc_source_finds {pte : PteRef} (h : Source s c srcva perm pte) :
    ipcSource c srcva perm s = .ret (some (some pte)) s := by
  obtain ⟨hva, halign, hperm, srcdir, hsrc, hpresent, hlt, rfl, hshare⟩ := h
  have hwp : wp (ipcSource c srcva perm) (fun r s' =>
      r = some (some ⟨pgnum (s.mem srcdir (pdx srcva)), ptx srcva⟩) ∧ s' = s)
      (fun _ _ => False) s := by
    rw [ipcSource, if_neg (BitVec.not_le.2 hva), if_neg (not_not.2 halign), hperm,
      if_neg Bool.false_ne_true, wp_bind, wp_gets, hsrc, wp_bind, wp_deref_some, wp_bind,
      wp_of_ret (pgdir_walk_present hpresent hlt), wp_bind, readWord, wp_gets, hshare, if_pos rfl]
    exact ⟨rfl, rfl⟩
  obtain ⟨r, s', hcall, rfl, rfl⟩ := ret_of_wp hwp
  exact hcall

/-- A send that fails late returns its error with the receiver awake. -/
theorem FailsLate.call (h : FailsLate s k c envid srcva perm) :
    ∃ e, envid2env s k envid false = some e ∧ (s.envs e).envIpcRecving = true ∧
      sysIpcTrySend k c envid value srcva perm s = .ret (-eNoMem) (s.woken c e value) := by
  obtain ⟨e, pte, dir, henv, hrecving, hsource, hpage, hdst, hdir, hroom⟩ := h
  refine ⟨e, henv, hrecving, ?_⟩
  have hwp : wp (sysIpcTrySend k c envid value srcva perm)
      (fun r s' => r = -eNoMem ∧ s' = s.woken c e value) (fun _ _ => False) s := by
    rw [sysIpcTrySend, wp_bind, wp_get, henv]
    dsimp only
    rw [wp_bind, wp_gets, hrecving, if_pos rfl, wp_bind, wp_of_ret (ipc_source_finds hsource), wp_bind, wp_modify]
    exact ipc_deliver_no_room hdst hpage hdir hroom
  obtain ⟨r, s', hcall, rfl, rfl⟩ := ret_of_wp hwp
  exact hcall

/-- Waking a receiver is an effect. -/
theorem not_untouched_woken (h : (s.envs e).envIpcRecving = true) :
    ¬ Untouched s (s.woken c e value) e := by
  intro huntouched
  have hsame := huntouched.recving
  rw [h] at hsame
  simp [Kernel.woken, Kernel.setEnv] at hsame

end Sending

/-- A failed send leaves its receiver untouched exactly when it does not fail late: when a check
fails, when no page is sent or wanted, or when `page_insert` has a page table to write to. -/
theorem failed_send_untouched_iff (s : Kernel) (k : CpuId) (c : EnvIx)
    (envid value srcva perm : Word) :
    (∀ r s' e, sysIpcTrySend k c envid value srcva perm s = .ret r s' → r < 0 →
        envid2env s k envid false = some e → Untouched s s' e) ↔
      ¬ FailsLate s k c envid srcva perm := by
  constructor
  · intro h hlate
    obtain ⟨e, henv, hrecving, hcall⟩ := FailsLate.call hlate
    exact not_untouched_woken hrecving (h _ _ e hcall (by decide) henv)
  · intro hnot r s' e hcall hr henv
    rcases (wp_of_ret hcall).1 sys_ipc_try_send_fails hr with hsame | hlate
    · rw [hsame]
      exact Untouched.refl s e
    · exact absurd hlate hnot

/-- Environment 1 waits for a page, its page table is missing and no page is free. -/
def ipcNoMem : Kernel := { ipcStart with pageFreeList := none }

/-- The send of environment 0 returns `-E_NO_MEM`, and environment 1 no longer waits. -/
theorem failed_send_wakes :
    ∃ s', sysIpcTrySend 0 0 0x1001 7 0 pteU ipcNoMem = .ret (-eNoMem) s' ∧
      (ipcNoMem.cpus 0).cpuEnv = some 0 ∧ envid2env ipcNoMem 0 0x1001 false = some 1 ∧
      ¬ Untouched ipcNoMem s' 1 := by
  have hlate : FailsLate ipcNoMem 0 0 0x1001 0 pteU := by
    have hsource : Source ipcNoMem 0 0 pteU ⟨3, 0⟩ :=
      ⟨by decide +kernel, by decide +kernel, by decide +kernel, 1, rfl, by decide +kernel,
        by decide +kernel, by decide +kernel, by decide +kernel⟩
    exact ⟨1, ⟨3, 0⟩, 2, by decide, rfl, hsource, by decide +kernel, by decide +kernel, rfl,
      by decide +kernel, rfl⟩
  obtain ⟨e, henv, hrecving, hcall⟩ := hlate.call
  have hreceiver : envid2env ipcNoMem 0 0x1001 false = some 1 := by decide
  obtain rfl : 1 = e := Option.some.inj (hreceiver.symm.trans henv)
  exact ⟨_, hcall, rfl, hreceiver, not_untouched_woken hrecving⟩

end Labs.Jos
