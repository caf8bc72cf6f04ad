import Labs.Base.Chain
import Labs.Jos.PmapSpec

/-!
# The entries of a page directory

The entry that the walk of a page directory finds for a page number, for any directory and all of
its 1024 entries. A directory may map itself: then a part of the address space shows its page
tables, and the directory. Writing an entry of one table changes one entry of the directory, and a
new page table changes what the directory shows of itself.
-/

namespace Labs.Jos

open Prog

variable {s s' : Kernel} {dir n d t p q : Nat} {w : Word}

/-- The directory `dir` has a page table with index `d`. -/
abbrev HasPageTable (s : Kernel) (dir d : Nat) : Prop := hasFlag (s.mem dir d) pteP = true

/-- The page of the page table with index `d`. -/
abbrev tableOf (s : Kernel) (dir d : Nat) : Nat := pgnum (s.mem dir d)

/-- The page table entry of the directory `dir` for page number `n`. -/
def dirEntry (s : Kernel) (dir n : Nat) : Option Word :=
  let pde := s.mem dir (n / 1024)
  let pte := s.mem (pgnum pde) (n % 1024)
  if hasFlag pde pteP && hasFlag pte pteP then some pte else none

theorem dir_entry_eq (s : Kernel) (dir n : Nat) : dirEntry s dir n =
    if hasFlag (s.mem dir (n / 1024)) pteP &&
        hasFlag (s.mem (tableOf s dir (n / 1024)) (n % 1024)) pteP then
      some (s.mem (tableOf s dir (n / 1024)) (n % 1024))
    else none :=
  rfl

theorem mem_set_word_dir (hne : dir ≠ q) (d : Nat) :
    (s.setWord q t w).mem dir d = s.mem dir d := by
  simp [Kernel.setWord, Function.update_of_ne hne]

/-- Writing an entry of a page table that no other index has changes one entry. -/
theorem dir_entry_set_word (htable : HasPageTable s dir d) (hne : dir ≠ tableOf s dir d)
    (halone : ∀ d' < 1024, d' ≠ d → HasPageTable s dir d' →
      tableOf s dir d' ≠ tableOf s dir d)
    (ht : t < 1024) (hn : n < 1048576) :
    dirEntry (s.setWord (tableOf s dir d) t w) dir n =
      if n = d * 1024 + t then (if hasFlag w pteP then some w else none) else dirEntry s dir n := by
  unfold dirEntry
  rw [mem_set_word_dir hne]
  by_cases hd : n / 1024 = d
  · rw [hd]
    by_cases htn : n % 1024 = t
    · rw [if_pos (show n = d * 1024 + t by omega)]
      simp [Kernel.setWord, htn, htable]
    · rw [if_neg (show n ≠ d * 1024 + t by omega)]
      simp [Kernel.setWord, htn]
  · rw [if_neg (show n ≠ d * 1024 + t by omega)]
    by_cases hpresent : HasPageTable s dir (n / 1024)
    · have hother := halone (n / 1024) (by omega) hd hpresent
      simp [Kernel.setWord, Function.update_of_ne hother]
    · simp [hpresent]

/-- After a page `p` has been zeroed and has become the page table with index `d`. -/
structure NewTable (s : Kernel) (dir d p : Nat) (s' : Kernel) : Prop where
  pde : s'.mem dir d = mkPde p
  pdes : ∀ d', d' ≠ d → s'.mem dir d' = s.mem dir d'
  zero : s'.mem p = fun _ => 0
  mem : ∀ q, q ≠ p → q ≠ dir → s'.mem q = s.mem q

/-- A new page table changes no entry, but what the directory shows of itself. -/
theorem NewTable.entries (h : NewTable s dir d p s') (hp : p < 1048576)
    (habsent : ¬ HasPageTable s dir d)
    (hnew : ∀ d' < 1024, HasPageTable s dir d' → tableOf s dir d' ≠ p) (hn : n < 1048576)
    (hwindow : HasPageTable s dir (n / 1024) → tableOf s dir (n / 1024) = dir →
      n % 1024 ≠ d) :
    dirEntry s' dir n = dirEntry s dir n := by
  rw [dir_entry_eq, dir_entry_eq, tableOf, tableOf]
  by_cases heq : n / 1024 = d
  · rw [heq, h.pde, pgnum_mk_pde hp, h.zero, Bool.eq_false_iff.2 habsent, Bool.false_and]
    rw [show hasFlag ((fun _ => 0 : Nat → Word) (n % 1024)) pteP = false from zero_not_present,
      Bool.and_false]
    rfl
  · rw [h.pdes _ heq]
    by_cases hpres : HasPageTable s dir (n / 1024)
    · have hne := hnew (n / 1024) (by omega) hpres
      by_cases hthis : tableOf s dir (n / 1024) = dir
      · -- the window that shows the directory
        have hself : pgnum (s.mem dir (n / 1024)) = dir := hthis
        rw [hself, h.pdes (n % 1024) (hwindow hpres hthis)]
      · rw [h.mem _ hne hthis]
    · simp [hpres]

/-- After `pgdir_walk` has taken the first free page `p` for the page table with index `d`. -/
structure MadeTable (s : Kernel) (dir d p : Nat) (s' : Kernel) : Prop extends
    NewTable s dir d p s' where
  npages : s'.npages = s.npages
  kernPgdir : s'.kernPgdir = s.kernPgdir
  mmioBase : s'.mmioBase = s.mmioBase
  head : s.pageFreeList = some p
  list : s'.pageFreeList = (s.pages p).ppLink
  pages : s'.pages = Function.update s.pages p { ppLink := none, ppRef := 1 }

/-- `KADDR`, when it does not panic. -/
theorem wp_kaddr_of {pa : Word} {Q : Nat → Kernel → Prop} (h : Q (pgnum pa) s) :
    wp (kaddr pa) Q (fun _ _ => True) s := by
  unfold kaddr
  simp only [wp_bind, wp_gets, wp_ite]
  exact ⟨fun _ => trivial, fun _ => h⟩

/-- `pgdir_walk` with `create`, when it succeeds: the page table was there, or it is the first free
page. -/
theorem wp_walk_create {va : Word}
    (hfree : ∀ p, s.pageFreeList = some p → p < 1048576 ∧ p ≠ dir) :
    wp (pgdirWalk dir va true)
      (fun r s' => ∀ pte, r = some pte → pte = ⟨tableOf s' dir (pdx va), ptx va⟩ ∧
        (HasPageTable s dir (pdx va) ∧ s' = s ∨
          ¬ HasPageTable s dir (pdx va) ∧ ∃ p, MadeTable s dir (pdx va) p s'))
      (fun _ _ => True) s := by
  -- what follows when the table is there
  have hfound : ∀ s', (HasPageTable s dir (pdx va) ∧ s' = s ∨
      ¬ HasPageTable s dir (pdx va) ∧ ∃ p, MadeTable s dir (pdx va) p s') →
      wp (kaddr (pteAddr (s'.mem dir (pdx va))))
        (fun pt s'' => ∀ pte, some (PteRef.mk pt (ptx va)) = some pte →
          pte = ⟨tableOf s'' dir (pdx va), ptx va⟩ ∧ (HasPageTable s dir (pdx va) ∧ s'' = s ∨
            ¬ HasPageTable s dir (pdx va) ∧ ∃ p, MadeTable s dir (pdx va) p s''))
        (fun _ _ => True) s' := by
    intro s' hwalked
    refine wp_kaddr_of fun pte hpte => ⟨?_, hwalked⟩
    rw [← Option.some.inj hpte, pgnum_pte_addr]
  rw [pgdirWalk, wp_bind, haveTable, wp_bind, readWord, wp_gets]
  by_cases hpres : HasPageTable s dir (pdx va)
  · rw [if_pos hpres]
    simp only [wp_pure, if_true, wp_bind, wp_gets]
    exact hfound s (.inl ⟨hpres, rfl⟩)
  · rw [if_neg hpres, if_pos rfl, newPageTable, wp_bind, pageAlloc, wp_bind, wp_gets]
    cases hhead : s.pageFreeList with
    | none =>
        intro pte hpte
        cases hpte
    | some p =>
        obtain ⟨hp, hpdir⟩ := hfree p hhead
        simp only [modifyPage, writeWord, zeroPage, if_true, wp_bind, wp_modify, wp_pure]
        refine wp_kaddr_of ?_
        rw [pgnum_page2pa hp, wp_gets]
        refine hfound _ (.inr ⟨hpres, p, ⟨?_, fun d' hd' => ?_, ?_, fun q hq hdir => ?_⟩, rfl, rfl,
          rfl, hhead, rfl, ?_⟩)
        · simp [Kernel.setWord]
        · simp [Kernel.setWord, Kernel.setPage, Kernel.setPageWords, Kernel.fill, hd',
            Ne.symm hpdir]
        · simp [Kernel.setWord, Kernel.setPage, Kernel.setPageWords, Kernel.fill, hpdir]
        · simp [Kernel.setWord, Kernel.setPage, Kernel.setPageWords, Kernel.fill, hq, hdir]
        · simp [Kernel.setWord, Kernel.setPage, Kernel.setPageWords, Kernel.fill]

end Labs.Jos
