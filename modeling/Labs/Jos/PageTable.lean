import Labs.Jos.PmapSpec

/-!
# Two-level page tables as finite maps

`page_insert`, `page_remove`, `page_lookup` and `pgdir_walk` on the user half of one page
directory, whoever owns it. `Shape` says that the directory and its page tables in memory spell
out a map from page numbers to pages with permissions, and that the pages of the free list are
neither the directory nor one of its tables. It is kept by every insertion at a free place.
Removing a page needs more, since the page may go to the free list: `Sound` says that `pp_ref`
counts at least the places of this directory that map the page.
-/

namespace Labs.Jos

open Prog

/-- A map from page numbers to pages with their permission bits. -/
abbrev PageMap := Nat → Option (Nat × Word)

/-- The page and the permission bits of a page table entry. -/
def entryOf (w : Word) : Nat × Word := (pgnum w, w &&& 0xFFF#32)

/-- What a page table entry says. -/
def readEntry (w : Word) : Option (Nat × Word) := if hasFlag w pteP then some (entryOf w) else none

theorem read_entry_zero : readEntry 0 = none := by decide

/-- The entry that `page_insert` writes. -/
theorem entry_of_mk_pte {p : Nat} {perm : Word} (hp : p < 1048576) (hperm : perm.toNat < 4096) :
    entryOf (mkPte p perm) = (p, perm ||| pteP) := by
  rw [entryOf, pgnum_mk_pte hp hperm]
  have hlow : mkPte p perm &&& 0xFFF#32 = perm ||| pteP := by
    ext i hi
    rw [BitVec.getElem_and, mkPte, BitVec.getElem_or, BitVec.getElem_or]
    by_cases hi12 : i < 12
    · have hpage : (page2pa p)[i] = false := get_lsb_page2pa p hi12
      have hmask : (0xFFF#32)[i] = true := by
        have hall : ∀ j : Fin 12, (0xFFF#32).getLsbD j = true := by decide
        exact hall ⟨i, hi12⟩
      rw [hpage, hmask]
      simp
    · have hmask : (0xFFF#32)[i] = false := by
        have hall : ∀ j : Fin 32, 12 ≤ j.val → (0xFFF#32).getLsbD j = false := by decide
        exact hall ⟨i, hi⟩ (by simpa using hi12)
      have hzero : perm[i] = false := by
        have hpow : 2 ^ 12 ≤ 2 ^ i := Nat.pow_le_pow_right Nat.two_pos (Nat.le_of_not_lt hi12)
        have hsmall : perm.toNat < 2 ^ i := Nat.lt_of_lt_of_le hperm hpow
        exact Nat.testBit_lt_two_pow hsmall
      have hpres : pteP[i] = false := by
        have hall : ∀ j : Fin 32, 12 ≤ j.val → pteP.getLsbD j = false := by decide
        exact hall ⟨i, hi⟩ (by simpa using hi12)
      rw [hmask, BitVec.getElem_or, hzero, hpres]
      simp
  rw [hlow]

theorem read_entry_mk_pte {p : Nat} {perm : Word} (hp : p < 1048576) (hperm : perm.toNat < 4096) :
    readEntry (mkPte p perm) = some (p, perm ||| pteP) := by
  rw [readEntry, mk_pte_present, if_pos rfl, entry_of_mk_pte hp hperm]

/-- The memory `mem` and the free list, linked by `link` from `head`, hold a directory in page
`dir` whose page tables are `tbl` and which maps what `f` says. -/
structure Shape (npages : Nat) (mem : Nat → Nat → Word) (link : Nat → Option Nat)
    (head : Option Nat) (dir : Nat) (tbl : Nat → Option Nat) (f : PageMap) : Prop where
  small : npages ≤ 1048576
  pde : ∀ d, d < 955 →
    tbl d = if hasFlag (mem dir d) pteP then some (pgnum (mem dir d)) else none
  pte : ∀ d q t, tbl d = some q → t < 1024 → f (d * 1024 + t) = readEntry (mem q t)
  bare : ∀ d t, tbl d = none → t < 1024 → f (d * 1024 + t) = none
  low : ∀ d q, tbl d = some q → d < 955
  inj : ∀ d d' q, tbl d = some q → tbl d' = some q → d = d'
  table : ∀ d q, tbl d = some q → q < npages ∧ q ≠ dir
  mapped : ∀ n x, f n = some x → x.1 < npages
  free : ∃ l, Chain link head l ∧ ∀ p ∈ l, p < npages ∧ p ≠ dir ∧ ∀ d, tbl d ≠ some p

/-- The state holds a directory in page `dir` with the tables `tbl` that maps what `f` says. -/
def Kernel.shape (s : Kernel) (dir : Nat) (tbl : Nat → Option Nat) (f : PageMap) : Prop :=
  Shape s.npages s.mem (fun p => (s.pages p).ppLink) s.pageFreeList dir tbl f

namespace Shape

variable {npages : Nat} {mem : Nat → Nat → Word} {link : Nat → Option Nat} {head : Option Nat}
  {dir : Nat} {tbl : Nat → Option Nat} {f : PageMap} {d q t p : Nat}

/-- Pages beyond the user half are not mapped. -/
theorem map_low (h : Shape npages mem link head dir tbl f) {n : Nat} {x : Nat × Word}
    (hx : f n = some x) : n < userPages := by
  rw [user_pages_eq]
  by_contra hge
  have hnone : tbl (n / 1024) = none := by
    cases htbl : tbl (n / 1024) with
    | none => rfl
    | some q =>
        have hlow := h.low _ q htbl
        omega
  have hsplit : n = n / 1024 * 1024 + n % 1024 := by omega
  rw [hsplit, h.bare _ _ hnone (Nat.mod_lt _ (by decide))] at hx
  cases hx

/-- The links of pages off the free list do not matter. -/
theorem congr_link (h : Shape npages mem link head dir tbl f) {link' : Nat → Option Nat}
    (heq : ∀ p, link' p = link p) : Shape npages mem link' head dir tbl f := by
  have hsame : link' = link := funext heq
  rw [hsame]
  exact h

/-- Writing an entry of a page table changes the map at one place. -/
theorem write_pte (h : Shape npages mem link head dir tbl f) (hq : tbl d = some q) (ht : t < 1024)
    {w : Word} (hw : hasFlag w pteP = true → pgnum w < npages) :
    Shape npages (Function.update mem q (Function.update (mem q) t w)) link head dir tbl
      (Function.update f (d * 1024 + t) (readEntry w)) := by
  obtain ⟨-, hqdir⟩ := h.table d q hq
  have hdir : Function.update mem q (Function.update (mem q) t w) dir = mem dir :=
    Function.update_of_ne (Ne.symm hqdir) _ _
  refine ⟨h.small, fun d' hd' => ?_, fun d' q' t' hq' ht' => ?_, fun d' t' hnone ht' => ?_,
    h.low, h.inj, h.table, fun n x hx => ?_, h.free⟩
  · rw [hdir]
    exact h.pde d' hd'
  · by_cases hd : d' = d
    · subst hd
      rw [hq] at hq'
      cases hq'
      rw [Function.update_self]
      by_cases htt : t' = t
      · subst htt
        rw [Function.update_self, Function.update_self]
      · rw [Function.update_of_ne (by omega), Function.update_of_ne htt]
        exact h.pte _ _ _ hq ht'
    · have hqq : q' ≠ q := by
        intro heq
        subst heq
        exact hd (h.inj _ _ _ hq' hq)
      rw [Function.update_of_ne (by omega), Function.update_of_ne hqq]
      exact h.pte _ _ _ hq' ht'
  · have hd : d' ≠ d := by
      intro heq
      rw [heq, hq] at hnone
      cases hnone
    rw [Function.update_of_ne (by omega)]
    exact h.bare _ _ hnone ht'
  · by_cases hn : n = d * 1024 + t
    · rw [hn, Function.update_self, readEntry] at hx
      split at hx
      · rename_i hpresent
        cases hx
        exact hw hpresent
      · cases hx
    · rw [Function.update_of_ne hn] at hx
      exact h.mapped n x hx

/-- Taking the first free page for a page table that the directory lacks. -/
theorem add_table (h : Shape npages mem link (some p) dir tbl f) (hd : d < 955)
    (hnone : tbl d = none) :
    Shape npages
      (Function.update (Function.update mem p fun _ => 0) dir
        (Function.update (Function.update mem p (fun _ => 0) dir) d (mkPde p)))
      (Function.update link p none) (link p) dir (Function.update tbl d (some p)) f := by
  obtain ⟨l, hchain, hfree⟩ := h.free
  obtain ⟨rest, rfl, hrest⟩ := hchain.pop none
  have hnot : p ∉ rest := (List.nodup_cons.1 hchain.nodup).1
  obtain ⟨hp, hpdir, hptbl⟩ := hfree p List.mem_cons_self
  have hsmall := h.small
  have hother : ∀ q, q ≠ dir → q ≠ p →
      Function.update (Function.update mem p fun _ => 0) dir
        (Function.update (Function.update mem p (fun _ => 0) dir) d (mkPde p)) q = mem q := by
    intro q hqdir hqp
    rw [Function.update_of_ne hqdir, Function.update_of_ne hqp]
  have hzero : ∀ t, Function.update (Function.update mem p fun _ => 0) dir
      (Function.update (Function.update mem p (fun _ => 0) dir) d (mkPde p)) p t = 0 := by
    intro t
    rw [Function.update_of_ne hpdir, Function.update_self]
  refine ⟨hsmall, fun d' hd' => ?_, fun d' q' t' hq' ht' => ?_, fun d' t' hnone' ht' => ?_,
    fun d' q' hq' => ?_, fun d₁ d₂ q' h₁ h₂ => ?_, fun d' q' hq' => ?_, h.mapped,
    ⟨rest, hrest, fun q hq => ?_⟩⟩
  · rw [Function.update_self, Function.update_of_ne (Ne.symm hpdir)]
    by_cases hdd : d' = d
    · subst hdd
      rw [Function.update_self, Function.update_self, mk_pde_present, if_pos rfl,
        pgnum_mk_pde (by omega)]
    · rw [Function.update_of_ne hdd, Function.update_of_ne hdd]
      exact h.pde d' hd'
  · by_cases hdd : d' = d
    · subst hdd
      rw [Function.update_self] at hq'
      cases hq'
      rw [hzero, read_entry_zero]
      exact h.bare _ _ hnone ht'
    · rw [Function.update_of_ne hdd] at hq'
      have hqp : q' ≠ p := fun heq => hptbl d' (heq ▸ hq')
      rw [hother q' (h.table _ _ hq').2 hqp]
      exact h.pte _ _ _ hq' ht'
  · have hdd : d' ≠ d := by
      intro heq
      rw [heq, Function.update_self] at hnone'
      cases hnone'
    rw [Function.update_of_ne hdd] at hnone'
    exact h.bare _ _ hnone' ht'
  · by_cases hdd : d' = d
    · rw [hdd]
      exact hd
    · rw [Function.update_of_ne hdd] at hq'
      exact h.low _ _ hq'
  · by_cases h₁d : d₁ = d
    · by_cases h₂d : d₂ = d
      · rw [h₁d, h₂d]
      · rw [h₁d, Function.update_self] at h₁
        rw [Function.update_of_ne h₂d] at h₂
        exact absurd (h₂.trans h₁.symm) (hptbl d₂)
    · rw [Function.update_of_ne h₁d] at h₁
      by_cases h₂d : d₂ = d
      · rw [h₂d, Function.update_self] at h₂
        exact absurd (h₁.trans h₂.symm) (hptbl d₁)
      · rw [Function.update_of_ne h₂d] at h₂
        exact h.inj _ _ _ h₁ h₂
  · by_cases hdd : d' = d
    · rw [hdd, Function.update_self] at hq'
      cases hq'
      exact ⟨hp, hpdir⟩
    · rw [Function.update_of_ne hdd] at hq'
      exact h.table _ _ hq'
  · obtain ⟨hlt, hqdir, hqtbl⟩ := hfree q (List.mem_cons_of_mem p hq)
    refine ⟨hlt, hqdir, fun d' => ?_⟩
    by_cases hdd : d' = d
    · rw [hdd, Function.update_self]
      intro heq
      cases heq
      exact hnot hq
    · rw [Function.update_of_ne hdd]
      exact hqtbl d'

/-- A shape depends only on the directory, the tables and the free list. -/
theorem congr_mem (h : Shape npages mem link head dir tbl f) {mem' : Nat → Nat → Word}
    {link' : Nat → Option Nat} {head' : Option Nat} (hdir : mem' dir = mem dir)
    (htbl : ∀ d q, tbl d = some q → mem' q = mem q)
    (hfree : ∃ l, Chain link' head' l ∧ ∀ p ∈ l, p < npages ∧ p ≠ dir ∧ ∀ d, tbl d ≠ some p) :
    Shape npages mem' link' head' dir tbl f where
  small := h.small
  pde := by
    rw [hdir]
    exact h.pde
  pte := by
    intro d q t hq ht
    rw [htbl d q hq]
    exact h.pte d q t hq ht
  bare := h.bare
  low := h.low
  inj := h.inj
  table := h.table
  mapped := h.mapped
  free := hfree

/-- Putting a page that is neither the directory nor a table on the free list. -/
theorem push (h : Shape npages mem link head dir tbl f) (hp : p < npages) (hdir : p ≠ dir)
    (htbl : ∀ d, tbl d ≠ some p) (hnew : ∀ l, Chain link head l → p ∉ l) :
    Shape npages mem (Function.update link p head) (some p) dir tbl f := by
  obtain ⟨l, hchain, hfree⟩ := h.free
  refine ⟨h.small, h.pde, h.pte, h.bare, h.low, h.inj, h.table, h.mapped, p :: l,
    hchain.push (hnew l hchain), fun q hq => ?_⟩
  rcases List.mem_cons.1 hq with heq | hmem
  · rw [heq]
    exact ⟨hp, hdir, htbl⟩
  · exact hfree q hmem

end Shape

/-! ## Walking the directory -/

section Functions

variable {s : Kernel} {k : CpuId} {dir : Nat} {tbl : Nat → Option Nat} {f : PageMap} {va : Word}

/-- The tables after `pgdir_walk` has looked for the table of directory entry `d`: the same, or
one more that was the first free page. -/
def Grown (s : Kernel) (tbl : Nat → Option Nat) (d : Nat) (s' : Kernel)
    (tbl' : Nat → Option Nat) : Prop :=
  (s' = s ∧ tbl' = tbl) ∨
    tbl d = none ∧ ∃ p, s.pageFreeList = some p ∧ tbl' = Function.update tbl d (some p) ∧
      s'.pages = Function.update s.pages p { ppLink := none, ppRef := 1 } ∧
      s'.pageFreeList = (s.pages p).ppLink ∧ s'.npages = s.npages

/-- The directory entry of a table points to it. -/
theorem pde_of_table {q : Nat} (h : s.shape dir tbl f) (hva : pdx va < 955)
    (hq : tbl (pdx va) = some q) :
    hasFlag (s.mem dir (pdx va)) pteP = true ∧ pgnum (s.mem dir (pdx va)) = q := by
  have hpde := h.pde (pdx va) hva
  rw [hq] at hpde
  split at hpde
  · rename_i hpresent
    exact ⟨hpresent, (Option.some.inj hpde).symm⟩
  · cases hpde

/-- A directory entry without a table is empty. -/
theorem pde_of_none (h : s.shape dir tbl f) (hva : pdx va < 955) (hnone : tbl (pdx va) = none) :
    hasFlag (s.mem dir (pdx va)) pteP = false := by
  have hpde := h.pde (pdx va) hva
  rw [hnone] at hpde
  split at hpde
  · cases hpde
  · rename_i habsent
    exact Bool.eq_false_iff.2 habsent

/-- The first free page becomes a page table. -/
theorem new_page_table_shape (h : s.shape dir tbl f) (hva : pdx va < 955)
    (hnone : tbl (pdx va) = none) :
    wp (newPageTable dir va)
      (fun found s' => match found with
        | false => s' = s ∧ s.pageFreeList = none
        | true => ∃ tbl' q, tbl' (pdx va) = some q ∧ s'.shape dir tbl' f ∧
            Grown s tbl (pdx va) s' tbl') (fun _ _ => False) s := by
  rw [newPageTable, wp_bind, pageAlloc, wp_bind, wp_gets]
  cases hhead : s.pageFreeList with
  | none => exact ⟨rfl, rfl⟩
  | some p =>
      have hshape : Shape s.npages s.mem (fun p => (s.pages p).ppLink) (some p) dir tbl f := by
        rw [← hhead]
        exact h
      obtain ⟨l, hchain, hfree⟩ := hshape.free
      obtain ⟨rest, rfl, -⟩ := hchain.pop none
      have hp := (hfree p List.mem_cons_self).1
      have hsmall := h.small
      have hpage : pgnum (page2pa p) = p := pgnum_page2pa (by omega)
      have hadd := hshape.add_table hva hnone
      simp only [modifyPage, writeWord, zeroPage, if_true, wp_bind, wp_modify, wp_pure]
      rw [wp_kaddr (by rw [hpage]; exact hp), hpage]
      refine ⟨Function.update tbl (pdx va) (some p), p, Function.update_self _ _ _, ?_, .inr
        ⟨hnone, p, hhead, rfl, ?_, rfl, rfl⟩⟩
      · refine hadd.congr_link fun q => ?_
        by_cases hq : q = p
        · subst hq
          simp [Kernel.setWord, Kernel.setPage, Kernel.setPageWords, Kernel.fill]
        · simp [Kernel.setWord, Kernel.setPage, Kernel.setPageWords, Kernel.fill, hq]
      · funext q
        by_cases hq : q = p
        · subst hq
          simp [Kernel.setWord, Kernel.setPage, Kernel.setPageWords, Kernel.fill]
        · simp [Kernel.setWord, Kernel.setPage, Kernel.setPageWords, Kernel.fill, hq]

/-- The second half of `pgdir_walk`: there is a table for `va`. -/
theorem wp_walk_table {q : Nat} {Q : Option PteRef → Kernel → Prop} {E : Exit → Kernel → Prop}
    (h : s.shape dir tbl f) (hva : pdx va < 955) (hq : tbl (pdx va) = some q)
    (hpost : Q (some ⟨q, ptx va⟩) s) :
    wp (do
      let pt ← kaddr (pteAddr (← readWord dir (pdx va)))
      pure (some ⟨pt, ptx va⟩)) Q E s := by
  obtain ⟨-, hnum⟩ := pde_of_table h hva hq
  simp only [readWord, wp_bind, wp_gets, wp_pure]
  rw [wp_kaddr (by rw [pgnum_pte_addr, hnum]; exact (h.table _ _ hq).1), pgnum_pte_addr, hnum]
  exact hpost

/-- `pgdir_walk` without `create` finds the table. -/
theorem walk_shape (h : s.shape dir tbl f) (hva : pdx va < 955) :
    wp (pgdirWalk dir va false)
      (fun r s' => s' = s ∧ r = (tbl (pdx va)).map fun q => ⟨q, ptx va⟩) (fun _ _ => False) s := by
  rw [pgdirWalk, wp_bind, haveTable, wp_bind, readWord, wp_gets]
  cases htbl : tbl (pdx va) with
  | some q =>
      rw [(pde_of_table h hva htbl).1]
      exact wp_walk_table h hva htbl ⟨rfl, rfl⟩
  | none =>
      rw [pde_of_none h hva htbl]
      exact ⟨rfl, rfl⟩

/-- `pgdir_walk` with `create` fails only if a table is missing and no page is free. -/
theorem walk_create_shape (h : s.shape dir tbl f) (hva : pdx va < 955) :
    wp (pgdirWalk dir va true)
      (fun r s' => match r with
        | none => s' = s ∧ tbl (pdx va) = none ∧ s.pageFreeList = none
        | some pte => pte.index = ptx va ∧ ∃ tbl', tbl' (pdx va) = some pte.table ∧
            s'.shape dir tbl' f ∧ Grown s tbl (pdx va) s' tbl') (fun _ _ => False) s := by
  rw [pgdirWalk, wp_bind, haveTable, wp_bind, readWord, wp_gets]
  cases htbl : tbl (pdx va) with
  | some q =>
      rw [(pde_of_table h hva htbl).1]
      exact wp_walk_table h hva htbl ⟨rfl, tbl, htbl, h, .inl ⟨rfl, rfl⟩⟩
  | none =>
      rw [pde_of_none h hva htbl]
      refine wp_mono_ret (new_page_table_shape h hva htbl) fun found s₁ hfound => ?_
      cases found with
      | false => exact ⟨hfound.1, rfl, hfound.2⟩
      | true =>
          obtain ⟨tbl', q, hq, hshape, hgrown⟩ := hfound
          exact wp_walk_table hshape hva hq ⟨rfl, tbl', hq, hshape, hgrown⟩

/-! ## Looking up, removing and inserting -/

/-- The entry for `va` in its page table. -/
theorem map_at {q : Nat} (h : s.shape dir tbl f) (hq : tbl (pdx va) = some q) :
    f (pgnum va) = readEntry (s.mem q (ptx va)) := by
  rw [pgnum_split]
  exact h.pte _ _ _ hq (ptx_lt va)

/-- `page_lookup` finds what the map says. -/
theorem page_lookup_shape (h : s.shape dir tbl f) (hva : pdx va < 955) :
    wp (pageLookup dir va)
      (fun r s' => s' = s ∧ match r with
        | none => f (pgnum va) = none
        | some (pp, pte) => tbl (pdx va) = some pte.table ∧ pte.index = ptx va ∧
            pp = pgnum (s.mem pte.table (ptx va)) ∧
            f (pgnum va) = some (entryOf (s.mem pte.table (ptx va))))
      (fun _ _ => False) s := by
  rw [pageLookup, wp_bind]
  refine wp_mono_ret (walk_shape h hva) fun r s₁ hr => ?_
  obtain ⟨rfl, rfl⟩ := hr
  cases htbl : tbl (pdx va) with
  | none =>
      refine ⟨rfl, ?_⟩
      show f (pgnum va) = none
      rw [pgnum_split]
      exact h.bare _ _ htbl (ptx_lt va)
  | some q =>
      have hmap := map_at h htbl
      simp only [Option.map_some, readWord, wp_bind, wp_gets, wp_ite, wp_pure]
      refine ⟨fun hpresent => ?_, fun habsent => ?_⟩
      · rw [readEntry, if_pos hpresent] at hmap
        rw [wp_pa2page (by rw [pgnum_pte_addr]; exact h.mapped _ _ hmap), pgnum_pte_addr]
        exact ⟨rfl, trivial, trivial, rfl, hmap⟩
      · rw [readEntry, if_neg habsent] at hmap
        exact ⟨trivial, hmap⟩

/-- `page_decref` frees the page when its last reference goes. -/
theorem wp_page_decref {p : Nat} {Q : Unit → Kernel → Prop} {E : Exit → Kernel → Prop} :
    wp (pageDecref p) Q E s ↔
      ((s.pages p).ppRef = 1 → Q ()
        { s with
          pages := Function.update s.pages p { ppLink := s.pageFreeList, ppRef := 0 }
          pageFreeList := some p
          pageFrees := p :: s.pageFrees }) ∧
      ((s.pages p).ppRef ≠ 1 →
        Q () (s.setPage p fun info => { info with ppRef := info.ppRef - 1 })) := by
  have hone : ∀ r : BitVec 16, r - 1 = 0 ↔ r = 1 := by
    intro r
    constructor
    · intro hzero
      bv_omega
    · intro hone
      rw [hone]
      rfl
  simp only [pageDecref, pageFree, modifyPage, wp_bind, wp_modify, wp_gets, wp_ite, wp_pure,
    Kernel.setPage, Function.update_self, hone]
  constructor
  · intro hwp
    refine ⟨fun href => ?_, hwp.2⟩
    have hfree := (hwp.1 href).2 (by simp [href])
    simpa [href] using hfree
  · intro hwp
    refine ⟨fun href => ⟨fun hne => ?_, fun _ => ?_⟩, hwp.2⟩
    · simp [href] at hne
    · have hfree := hwp.1 href
      simpa [href] using hfree

/-- `page_remove` clears the entry and drops a reference. -/
theorem wp_page_remove {q : Nat} {x : Nat × Word} {Q : Unit → Kernel → Prop}
    (h : s.shape dir tbl f) (hva : pdx va < 955) (hq : tbl (pdx va) = some q)
    (hx : f (pgnum va) = some x)
    (hpost : ∀ s₁ : Kernel, s₁.npages = s.npages → s₁.kernPgdir = s.kernPgdir →
      s₁.pages = s.pages → s₁.pageFreeList = s.pageFreeList →
      s₁.mem = Function.update s.mem q (Function.update (s.mem q) (ptx va) 0) →
      s₁.shape dir tbl (Function.update f (pgnum va) none) →
      wp (pageDecref x.1) Q (fun _ _ => False) s₁) :
    wp (pageRemove k dir va) Q (fun _ _ => False) s := by
  rw [pageRemove, wp_bind]
  refine wp_mono_ret (page_lookup_shape h hva) fun r s₁ hr => ?_
  obtain ⟨rfl, hr⟩ := hr
  cases r with
  | none =>
      rw [hx] at hr
      cases hr
  | some found =>
      obtain ⟨pp, pte⟩ := found
      obtain ⟨htbl, hindex, hpp, hmap⟩ := hr
      rw [hq] at htbl
      have hqt : q = pte.table := Option.some.inj htbl
      rw [hx] at hmap
      have hxw : x = entryOf (s₁.mem pte.table (ptx va)) := Option.some.inj hmap
      have hx1 : pp = x.1 := by rw [hpp, hxw, entryOf]
      simp only [writeWord, wp_bind, wp_modify]
      refine wp_mono_ret tlb_invalidate_spec fun _ s₂ hs₂ => ?_
      obtain ⟨g, rfl⟩ := hs₂
      rw [hx1]
      refine hpost _ rfl rfl rfl rfl ?_ ?_
      · rw [hqt, hindex]
        rfl
      · have hwrite := Shape.write_pte h hq (ptx_lt va) (w := 0)
          (fun hp => absurd hp (by decide))
        rw [read_entry_zero, ← pgnum_split, hqt] at hwrite
        rw [hindex]
        exact hwrite

/-- `page_remove` does nothing where no page is mapped. -/
theorem page_remove_none (h : s.shape dir tbl f) (hva : pdx va < 955)
    (hnone : f (pgnum va) = none) :
    wp (pageRemove k dir va) (fun _ s' => s' = s) (fun _ _ => False) s := by
  rw [pageRemove, wp_bind]
  refine wp_mono_ret (page_lookup_shape h hva) fun r s₁ hr => ?_
  obtain ⟨rfl, hr⟩ := hr
  cases r with
  | none => rfl
  | some found =>
      rw [hnone] at hr
      cases hr.2.2.2

/-- The end of `page_insert` maps the page and counts the reference. -/
theorem page_insert_new_shape {q pp : Nat} {perm : Word} (h : s.shape dir tbl f)
    (hq : tbl (pdx va) = some q) (hpp : pp < s.npages) (hperm : perm.toNat < 4096) :
    wp (pageInsertNew k dir pp va perm ⟨q, ptx va⟩)
      (fun r s' => r = 0 ∧
        s'.shape dir tbl (Function.update f (pgnum va) (some (pp, perm ||| pteP))) ∧
        s'.pages = Function.update s.pages pp
          { s.pages pp with ppRef := (s.pages pp).ppRef + 1 } ∧
        s'.pageFreeList = s.pageFreeList ∧ s'.npages = s.npages ∧
        s'.mem = Function.update s.mem q (Function.update (s.mem q) (ptx va) (mkPte pp perm)))
      (fun _ _ => False) s := by
  have hsmall := h.small
  have hpg := pgnum_mk_pte (p := pp) (by omega) hperm
  simp only [pageInsertNew, modifyPage, writeWord, wp_bind, wp_modify, wp_pure]
  refine wp_mono_ret tlb_invalidate_spec fun _ s₂ hs₂ => ?_
  obtain ⟨g, rfl⟩ := hs₂
  refine ⟨trivial, ?_, rfl, rfl, rfl, rfl⟩
  have hwrite := Shape.write_pte h hq (ptx_lt va) (w := mkPte pp perm)
    (fun _ => by rw [hpg]; exact hpp)
  rw [read_entry_mk_pte (by omega) hperm, ← pgnum_split] at hwrite
  refine hwrite.congr_link fun p => ?_
  by_cases hp : p = pp
  · subst hp
    simp [Kernel.setWord, Kernel.setPage, Kernel.setCpu, Kernel.fill]
  · simp [Kernel.setWord, Kernel.setPage, Kernel.setCpu, Kernel.fill, hp]

end Functions

end Labs.Jos
