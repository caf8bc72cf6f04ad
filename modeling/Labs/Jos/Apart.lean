import Labs.Jos.PageTable

/-!
# Page directories stay apart

`page_insert` relies on little: no page directory is on the free list, is used as a page table,
or is mapped as a user page. This much is kept by `page_insert` whatever the reference counts
are, and it is enough for the mapping to be there afterwards.
-/

namespace Labs.Jos

open Prog

/-- The pages in `isDir` are neither free, nor page tables of one another, nor mapped. -/
structure Apart (isDir : Nat → Prop) (npages : Nat) (mem : Nat → Nat → Word)
    (link : Nat → Option Nat) (head : Option Nat) : Prop where
  small : npages ≤ 1048576
  free : ∃ free : Nat → Prop, (∀ p, head = some p → free p) ∧
    (∀ p q, free p → link p = some q → free q) ∧ ∀ p, free p → p < npages ∧ ¬ isDir p
  table : ∀ p d, isDir p → d < 955 → hasFlag (mem p d) pteP = true → ¬ isDir (pgnum (mem p d))
  page : ∀ p d t, isDir p → d < 955 → hasFlag (mem p d) pteP = true → t < 1024 →
    hasFlag (mem (pgnum (mem p d)) t) pteP = true → ¬ isDir (pgnum (mem (pgnum (mem p d)) t))

/-- Page `p` is the directory of an environment. -/
def Kernel.isDir (s : Kernel) (p : Nat) : Prop := ∃ e, (s.envs e).envPgdir = some p

/-- The directories of all environments are apart. -/
def Kernel.apart (s : Kernel) : Prop :=
  Apart s.isDir s.npages s.mem (fun p => (s.pages p).ppLink) s.pageFreeList

namespace Apart

variable {isDir : Nat → Prop} {npages : Nat} {mem : Nat → Nat → Word} {link : Nat → Option Nat}
  {head : Option Nat} {p q d t : Nat}

theorem congr_link (h : Apart isDir npages mem link head) {link' : Nat → Option Nat}
    (heq : ∀ p, link' p = link p) : Apart isDir npages mem link' head := by
  have hsame : link' = link := funext heq
  rw [hsame]
  exact h

/-- Writing an entry of a page that is no directory. -/
theorem write_entry (h : Apart isDir npages mem link head) (hq : ¬ isDir q) {w : Word}
    (hw : hasFlag w pteP = true → ¬ isDir (pgnum w)) :
    Apart isDir npages (Function.update mem q (Function.update (mem q) t w)) link head := by
  have hdir : ∀ p, isDir p → Function.update mem q (Function.update (mem q) t w) p = mem p := by
    intro p hp
    have hne : p ≠ q := fun heq => hq (heq ▸ hp)
    exact Function.update_of_ne hne _ _
  refine ⟨h.small, h.free, fun p d hp hd hpresent => ?_, fun p d t' hp hd hpresent ht' hpage => ?_⟩
  · rw [hdir p hp] at hpresent ⊢
    exact h.table p d hp hd hpresent
  · rw [hdir p hp] at hpresent hpage ⊢
    by_cases hpq : pgnum (mem p d) = q
    · rw [hpq, Function.update_self] at hpage ⊢
      by_cases htt : t' = t
      · rw [htt, Function.update_self] at hpage ⊢
        exact hw hpage
      · rw [Function.update_of_ne htt] at hpage ⊢
        rw [← hpq] at hpage ⊢
        exact h.page p d t' hp hd hpresent ht' hpage
    · rw [Function.update_of_ne hpq] at hpage ⊢
      exact h.page p d t' hp hd hpresent ht' hpage

/-- The first free page becomes a page table of the directory `q`. -/
theorem add_table (h : Apart isDir npages mem link (some p)) (hq : isDir q) :
    Apart isDir npages
      (Function.update (Function.update mem p fun _ => 0) q
        (Function.update (Function.update mem p (fun _ => 0) q) d (mkPde p)))
      (Function.update link p none) (link p) := by
  obtain ⟨free, hhead, hlink, hfree⟩ := h.free
  have hp := hfree p (hhead p rfl)
  have hsmall := h.small
  have hnum : pgnum (mkPde p) = p := pgnum_mk_pde (by omega)
  have hne : ∀ q', isDir q' → q' ≠ p := fun q' hq' heq => hp.2 (heq ▸ hq')
  have hold : ∀ q' d', isDir q' → (Function.update (Function.update mem p fun _ => 0) q
      (Function.update (Function.update mem p (fun _ => 0) q) d (mkPde p))) q' d' =
      if q' = q ∧ d' = d then mkPde p else mem q' d' := by
    intro q' d' hq'
    by_cases hqq : q' = q
    · subst hqq
      rw [Function.update_self, Function.update_of_ne (hne _ hq')]
      by_cases hdd : d' = d
      · simp [hdd]
      · simp [hdd]
    · rw [Function.update_of_ne hqq, Function.update_of_ne (hne _ hq'), if_neg (fun hc => hqq hc.1)]
  have hnew : ∀ q' t', ¬ isDir q' → (Function.update (Function.update mem p fun _ => 0) q
      (Function.update (Function.update mem p (fun _ => 0) q) d (mkPde p))) q' t' =
      if q' = p then 0 else mem q' t' := by
    intro q' t' hq'
    have hqq : q' ≠ q := fun heq => hq' (heq ▸ hq)
    rw [Function.update_of_ne hqq]
    by_cases hqp : q' = p
    · rw [hqp, Function.update_self, if_pos rfl]
    · rw [Function.update_of_ne hqp, if_neg hqp]
  have htable : ∀ q' d', isDir q' → d' < 955 →
      hasFlag (if q' = q ∧ d' = d then mkPde p else mem q' d') pteP = true →
      ¬ isDir (pgnum (if q' = q ∧ d' = d then mkPde p else mem q' d')) := by
    intro q' d' hq' hd' hpresent
    split
    · rw [hnum]
      exact hp.2
    · rename_i hc
      rw [if_neg hc] at hpresent
      exact h.table q' d' hq' hd' hpresent
  refine ⟨hsmall, ⟨free, fun q' hq' => hlink p q' (hhead p rfl) hq', fun q' r hq' hr => ?_, hfree⟩,
    fun q' d' hq' hd' hpresent => ?_, fun q' d' t' hq' hd' hpresent ht' hpage => ?_⟩
  · by_cases hqp : q' = p
    · rw [hqp, Function.update_self] at hr
      cases hr
    · rw [Function.update_of_ne hqp] at hr
      exact hlink q' r hq' hr
  · rw [hold q' d' hq'] at hpresent ⊢
    exact htable q' d' hq' hd' hpresent
  · rw [hold q' d' hq'] at hpresent hpage ⊢
    rw [hnew _ t' (htable q' d' hq' hd' hpresent)] at hpage ⊢
    by_cases hqp : pgnum (if q' = q ∧ d' = d then mkPde p else mem q' d') = p
    · rw [if_pos hqp, zero_not_present] at hpage
      cases hpage
    · rw [if_neg hqp] at hpage ⊢
      have hc : ¬ (q' = q ∧ d' = d) := by
        intro hc
        rw [if_pos hc] at hqp
        exact hqp hnum
      rw [if_neg hc] at hpresent hpage ⊢
      exact h.page q' d' t' hq' hd' hpresent ht' hpage

/-- A page that is no directory goes to the free list. -/
theorem push (h : Apart isDir npages mem link head) (hlt : p < npages) (hp : ¬ isDir p) :
    Apart isDir npages mem (Function.update link p head) (some p) := by
  obtain ⟨free, hhead, hlink, hfree⟩ := h.free
  refine ⟨h.small, ⟨fun q => q = p ∨ free q, fun q hq => .inl (Option.some.inj hq).symm,
    fun q r hq hr => ?_, fun q hq => ?_⟩, h.table, h.page⟩
  · by_cases hqp : q = p
    · rw [hqp, Function.update_self] at hr
      exact .inr (hhead r hr)
    · rw [Function.update_of_ne hqp] at hr
      exact .inr (hlink q r (hq.resolve_left hqp) hr)
  · rcases hq with heq | hq
    · rw [heq]
      exact ⟨hlt, hp⟩
    · exact hfree q hq

end Apart

/-! ## The functions of `kern/pmap.c` -/

/-- The environments are the same and their directories are apart. -/
structure Kept (s s' : Kernel) : Prop where
  envs : s'.envs = s.envs
  npages : s'.npages = s.npages
  apart : s'.apart

section Functions

variable {s : Kernel} {k : CpuId} {dir : Nat} {va : Word}

theorem Kept.isDir {s' : Kernel} (h : Kept s s') : s'.isDir = s.isDir := by
  unfold Kernel.isDir
  rw [h.envs]

theorem Kept.trans {s' s'' : Kernel} (h : Kept s s') (h' : Kept s' s'') : Kept s s'' :=
  ⟨h'.envs.trans h.envs, h'.npages.trans h.npages, h'.apart⟩

/-- An update of an environment that keeps its directory. -/
theorem set_env_apart {e : EnvIx} {f : Env → Env} (h : s.apart)
    (hdir : (f (s.envs e)).envPgdir = (s.envs e).envPgdir) : (s.setEnv e f).apart := by
  have hpgdir : ∀ e', ((s.setEnv e f).envs e').envPgdir = (s.envs e').envPgdir := by
    intro e'
    by_cases he' : e' = e
    · subst he'
      simpa [Kernel.setEnv] using hdir
    · simp [Kernel.setEnv, he']
  have hsame : (s.setEnv e f).isDir = s.isDir := by
    funext p
    simp only [Kernel.isDir, hpgdir]
  unfold Kernel.apart
  rw [hsame]
  exact h

/-- The links after a change of the reference count of one page. -/
theorem link_set_ref (s : Kernel) (p : Nat) (f : BitVec 16 → BitVec 16) (q : Nat) :
    ((s.setPage p fun info => { info with ppRef := f info.ppRef }).pages q).ppLink =
      (s.pages q).ppLink := by
  by_cases hq : q = p
  · subst hq
    simp [Kernel.setPage]
  · simp [Kernel.setPage, hq]

/-- The first free page becomes a page table. -/
theorem new_page_table_apart (h : s.apart) (hdir : s.isDir dir) :
    wp (newPageTable dir va)
      (fun r s' => Kept s s' ∧ (r = true → hasFlag (s'.mem dir (pdx va)) pteP = true))
      (fun _ _ => True) s := by
  rw [newPageTable, wp_bind, pageAlloc, wp_bind, wp_gets]
  cases hhead : s.pageFreeList with
  | none => exact ⟨⟨rfl, rfl, h⟩, fun hr => (by cases hr)⟩
  | some p =>
      have happart : Apart s.isDir s.npages s.mem (fun p => (s.pages p).ppLink) (some p) := by
        rw [← hhead]
        exact h
      obtain ⟨free, hfirst, -, hfree⟩ := happart.free
      have hp := (hfree p (hfirst p rfl)).1
      have hsmall := h.small
      have hpage : pgnum (page2pa p) = p := pgnum_page2pa (by omega)
      have hadd := happart.add_table (d := pdx va) hdir
      simp only [modifyPage, writeWord, zeroPage, if_true, wp_bind, wp_modify, wp_pure]
      rw [wp_kaddr (by rw [hpage]; exact hp), hpage]
      refine ⟨⟨rfl, rfl, ?_⟩, fun _ => ?_⟩
      · refine hadd.congr_link fun q => ?_
        by_cases hq : q = p
        · subst hq
          simp [Kernel.setWord, Kernel.setPage, Kernel.setPageWords, Kernel.fill]
        · simp [Kernel.setWord, Kernel.setPage, Kernel.setPageWords, Kernel.fill, hq]
      · simp [Kernel.setWord, mk_pde_present]

/-- `pgdir_walk` returns the entry of `va` in the table of its directory entry. -/
theorem pgdir_walk_apart (h : s.apart) (hdir : s.isDir dir) (create : Bool) :
    wp (pgdirWalk dir va create)
      (fun r s' => Kept s s' ∧ (create = false → s' = s) ∧ ∀ pte, r = some pte →
        hasFlag (s'.mem dir (pdx va)) pteP = true ∧ pte = ⟨pgnum (s'.mem dir (pdx va)), ptx va⟩ ∧
          pte.table < s'.npages)
      (fun _ _ => True) s := by
  have htable : ∀ t : Kernel, Kept s t → (create = false → t = s) →
      hasFlag (t.mem dir (pdx va)) pteP = true →
      wp (do
        let pt ← kaddr (pteAddr (← readWord dir (pdx va)))
        pure (some ⟨pt, ptx va⟩))
        (fun r s' => Kept s s' ∧ (create = false → s' = s) ∧ ∀ pte : PteRef, r = some pte →
          hasFlag (s'.mem dir (pdx va)) pteP = true ∧
            pte = ⟨pgnum (s'.mem dir (pdx va)), ptx va⟩ ∧ pte.table < s'.npages)
        (fun _ _ => True) t := by
    intro t hkept hsame hpresent
    simp only [readWord, wp_bind, wp_gets, wp_pure]
    by_cases hlt : pgnum (pteAddr (t.mem dir (pdx va))) < t.npages
    · rw [wp_kaddr hlt]
      refine ⟨hkept, hsame, fun pte hpte => ?_⟩
      have heq : pte = ⟨pgnum (t.mem dir (pdx va)), ptx va⟩ := by
        rw [← Option.some.inj hpte, pgnum_pte_addr]
      rw [pgnum_pte_addr] at hlt
      exact ⟨hpresent, heq, by rw [heq]; exact hlt⟩
    · rw [kaddr, wp_bind, wp_gets, if_pos (Nat.le_of_not_lt hlt)]
      trivial
  rw [pgdirWalk, wp_bind, haveTable, wp_bind, readWord, wp_gets]
  cases hpresent : hasFlag (s.mem dir (pdx va)) pteP with
  | true => exact htable s ⟨rfl, rfl, h⟩ (fun _ => rfl) hpresent
  | false =>
      cases create with
      | false => exact ⟨⟨rfl, rfl, h⟩, fun _ => rfl, fun pte hpte => (by cases hpte)⟩
      | true =>
          refine wp_mono_ret (new_page_table_apart h hdir) fun r t ht => ?_
          obtain ⟨hkept, hthere⟩ := ht
          cases r with
          | false =>
              refine ⟨hkept, fun hc => ?_, fun pte hpte => ?_⟩
              · cases hc
              · cases hpte
          | true => exact htable t hkept (fun hc => absurd hc (by decide)) (hthere rfl)

/-- `page_decref` on a page that is no directory. -/
theorem page_decref_apart {p : Nat} (h : s.apart) (hlt : p < s.npages) (hp : ¬ s.isDir p) :
    wp (pageDecref p) (fun _ s' => Kept s s' ∧ s'.mem = s.mem) (fun _ _ => True) s := by
  rw [wp_page_decref]
  refine ⟨fun _ => ⟨⟨rfl, rfl, ?_⟩, rfl⟩, fun _ => ⟨⟨rfl, rfl, ?_⟩, rfl⟩⟩
  · refine (Apart.push h hlt hp).congr_link fun q => ?_
    by_cases hq : q = p
    · subst hq
      simp
    · simp [hq]
  · exact Apart.congr_link h (link_set_ref s p (· - 1))

/-- `page_remove` leaves the directory itself alone. -/
theorem page_remove_apart (h : s.apart) (hdir : s.isDir dir) (hva : pdx va < 955) :
    wp (pageRemove k dir va) (fun _ s' => Kept s s' ∧ s'.mem dir = s.mem dir)
      (fun _ _ => True) s := by
  rw [pageRemove, wp_bind, pageLookup, wp_bind]
  refine wp_mono_ret (pgdir_walk_apart h hdir false) fun r t ht => ?_
  obtain ⟨-, hsame, hpte⟩ := ht
  obtain rfl := hsame rfl
  cases r with
  | none => exact ⟨⟨rfl, rfl, h⟩, rfl⟩
  | some pte =>
      obtain ⟨hpresent, rfl, -⟩ := hpte pte rfl
      have hnot := h.table dir (pdx va) hdir hva hpresent
      rw [wp_bind, readWord, wp_gets, wp_ite]
      refine ⟨fun hthere => ?_, fun _ => ⟨⟨rfl, rfl, h⟩, rfl⟩⟩
      have hpage := h.page dir (pdx va) (ptx va) hdir hva hpresent (ptx_lt va) hthere
      rw [wp_bind]
      by_cases hlt : pgnum (pteAddr (t.mem (pgnum (t.mem dir (pdx va))) (ptx va))) < t.npages
      · rw [wp_pa2page hlt, wp_pure]
        rw [pgnum_pte_addr] at hlt ⊢
        simp only [writeWord, wp_bind, wp_modify]
        refine wp_mono tlb_invalidate_spec (fun _ u hu => ?_) fun _ _ _ => trivial
        obtain ⟨g, rfl⟩ := hu
        have hwrite := Apart.write_entry (t := ptx va) h hnot (w := 0)
          (fun hzero => absurd hzero (by decide))
        refine wp_mono_ret (page_decref_apart hwrite hlt hpage) fun _ v hv => ?_
        obtain ⟨hkept, hmem⟩ := hv
        refine ⟨⟨hkept.envs, hkept.npages, hkept.apart⟩, ?_⟩
        rw [hmem]
        have hne : dir ≠ pgnum (t.mem dir (pdx va)) := fun heq => hnot (heq ▸ hdir)
        exact Function.update_of_ne hne _ _
      · rw [pa2page, wp_bind, wp_gets, if_pos (Nat.le_of_not_lt hlt)]
        trivial

/-- Storing the entry of a page that is no directory. -/
theorem store_entry_apart {pp : Nat} {perm : Word} (h : s.apart) (hdir : s.isDir dir)
    (hva : pdx va < 955) (hpresent : hasFlag (s.mem dir (pdx va)) pteP = true)
    (hpp : pp < 1048576) (hnot : ¬ s.isDir pp) (hperm : perm.toNat < 4096) :
    wp (do
      writeWord (pgnum (s.mem dir (pdx va))) (ptx va) (mkPte pp perm)
      tlbInvalidate k dir va
      pure (0 : Int))
      (fun _ s' => Kept s s' ∧ s'.mem dir = s.mem dir ∧
        s'.mem (pgnum (s.mem dir (pdx va))) (ptx va) = mkPte pp perm)
      (fun _ _ => True) s := by
  have htable := h.table dir (pdx va) hdir hva hpresent
  simp only [writeWord, wp_bind, wp_modify]
  refine wp_mono tlb_invalidate_spec (fun _ u hu => ?_) fun _ _ _ => trivial
  obtain ⟨g, rfl⟩ := hu
  have hwrite := Apart.write_entry (t := ptx va) h htable (w := mkPte pp perm)
    (fun _ => by rw [pgnum_mk_pte hpp hperm]; exact hnot)
  refine ⟨⟨rfl, rfl, hwrite⟩, ?_, ?_⟩
  · have hne : dir ≠ pgnum (s.mem dir (pdx va)) := fun heq => htable (heq ▸ hdir)
    exact Function.update_of_ne hne _ _
  · simp [Kernel.setCpu, Kernel.setWord]

/-- `page_insert` keeps the directories apart, and when it succeeds `va` maps the page. -/
theorem page_insert_apart {pp : Nat} {perm : Word} (h : s.apart) (hdir : s.isDir dir)
    (hva : pdx va < 955) (hpp : pp < 1048576) (hnot : ¬ s.isDir pp) (hperm : perm.toNat < 4096) :
    wp (pageInsert k dir pp va perm)
      (fun r s' => Kept s s' ∧ (0 ≤ r → hasFlag (s'.mem dir (pdx va)) pteP = true ∧
        pgnum (s'.mem dir (pdx va)) < s'.npages ∧
          s'.mem (pgnum (s'.mem dir (pdx va))) (ptx va) = mkPte pp perm))
      (fun _ _ => True) s := by
  rw [pageInsert, wp_bind]
  refine wp_mono_ret (pgdir_walk_apart h hdir true) fun r t ht => ?_
  obtain ⟨hkept, -, hpte⟩ := ht
  cases r with
  | none => exact ⟨hkept, fun hr => absurd hr (by decide)⟩
  | some pte =>
      obtain ⟨hpresent, rfl, hlt⟩ := hpte pte rfl
      have hdir' : t.isDir dir := by
        rw [hkept.isDir]
        exact hdir
      -- the last store, from any state that still has the table
      have hstore : ∀ u : Kernel, Kept t u → u.mem dir = t.mem dir →
          wp (do
            writeWord (pgnum (t.mem dir (pdx va))) (ptx va) (mkPte pp perm)
            tlbInvalidate k dir va
            pure (0 : Int))
            (fun r s' => Kept s s' ∧ (0 ≤ r → hasFlag (s'.mem dir (pdx va)) pteP = true ∧
              pgnum (s'.mem dir (pdx va)) < s'.npages ∧
                s'.mem (pgnum (s'.mem dir (pdx va))) (ptx va) = mkPte pp perm))
            (fun _ _ => True) u := by
        intro u hku hmem
        have hdu : u.isDir dir := by
          rw [hku.isDir]
          exact hdir'
        have hpu : ¬ u.isDir pp := by
          rw [hku.isDir, hkept.isDir]
          exact hnot
        rw [← hmem] at hpresent hlt ⊢
        refine wp_mono_ret (store_entry_apart hku.apart hdu hva hpresent hpp hpu hperm)
          fun r s' hs' => ?_
        obtain ⟨hks, hsame, hentry⟩ := hs'
        refine ⟨hkept.trans (hku.trans hks), fun _ => ?_⟩
        rw [hsame, hks.npages, hku.npages]
        exact ⟨hpresent, hlt, hentry⟩
      have hnew : ∀ u : Kernel, Kept t u → u.mem dir = t.mem dir →
          wp (pageInsertNew k dir pp va perm ⟨pgnum (t.mem dir (pdx va)), ptx va⟩)
            (fun r s' => Kept s s' ∧ (0 ≤ r → hasFlag (s'.mem dir (pdx va)) pteP = true ∧
              pgnum (s'.mem dir (pdx va)) < s'.npages ∧
                s'.mem (pgnum (s'.mem dir (pdx va))) (ptx va) = mkPte pp perm))
            (fun _ _ => True) u := by
        intro u hku hmem
        rw [pageInsertNew, wp_bind, modifyPage, wp_modify]
        refine hstore _ ⟨hku.envs, hku.npages, ?_⟩ hmem
        exact Apart.congr_link hku.apart (link_set_ref u pp (· + 1))
      have hrefl : Kept t t := ⟨rfl, rfl, hkept.apart⟩
      rw [wp_bind, readWord, wp_gets, wp_ite]
      refine ⟨fun _ => ?_, fun _ => hnew t hrefl rfl⟩
      rw [wp_ite]
      refine ⟨fun _ => hstore t hrefl rfl, fun _ => ?_⟩
      rw [wp_bind]
      refine wp_mono_ret (page_remove_apart hkept.apart hdir' hva) fun _ u hu => ?_
      exact hnew u hu.1 hu.2

/-- The memory invariant keeps directories apart. -/
theorem Rep.apart {v : Scope} {m : Space} (h : Rep v m s.mm) : s.apart := by
  have hrole : ∀ p, s.isDir p → ∃ i, m.role p = .dir i := by
    intro p hp
    obtain ⟨i, hi⟩ := hp
    exact ⟨i, (h.tables.dir i p).1 hi⟩
  have hnot : ∀ p, (∀ i, m.role p ≠ .dir i) → ¬ s.isDir p := by
    intro p hne hp
    obtain ⟨i, hi⟩ := hrole p hp
    exact hne i hi
  obtain ⟨l, hchain, hfree⟩ := h.ledger.list
  have hsmall : s.npages ≤ 16639 := h.small
  have hnext : ∀ p q, p ∈ l → (s.pages p).ppLink = some q → q ∈ l := by
    intro p q hp hq
    obtain ⟨front, back, rfl, hback⟩ := hchain.suffix hp
    dsimp only [Kernel.mm] at hback
    rw [hq] at hback
    cases back with
    | nil => exact absurd hback (by simp)
    | cons b rest =>
        obtain rfl := Option.some.inj hback.1
        simp
  refine ⟨by omega, ⟨fun p => p ∈ l, fun p hp => ?_, hnext, fun p hp => ⟨?_, hnot p fun i hi => ?_⟩⟩,
    fun p d hp hd hpresent => ?_, fun p d t hp hd hpresent ht hpage => ?_⟩
  · cases l with
    | nil => exact absurd (hchain.symm.trans hp) (by simp)
    | cons a rest =>
        obtain rfl := Option.some.inj (hp.symm.trans hchain.1)
        exact List.mem_cons_self
  · exact h.lt_npages (by rw [(hfree p).1 hp]; simp)
  · rw [(hfree p).1 hp] at hi
    cases hi
  · obtain ⟨i, hi⟩ := hrole p hp
    have htable := (h.tables.pde i p d (pgnum (s.mem p d)) hi hd).2 ⟨hpresent, rfl⟩
    exact hnot _ fun j hj => by rw [htable] at hj; cases hj
  · obtain ⟨i, hi⟩ := hrole p hp
    have htable := (h.tables.pde i p d (pgnum (s.mem p d)) hi hd).2 ⟨hpresent, rfl⟩
    have hmap := (h.tables.pte i d _ t htable ht).trans (if_pos hpage)
    have hdata : m.role (pgnum (s.mem (pgnum (s.mem p d)) t)) = .data :=
      (h.ok.entry i _ _ hmap).2.2.2
    exact hnot _ fun j hj => by rw [hdata] at hj; cases hj

end Functions

end Labs.Jos
