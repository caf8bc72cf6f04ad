import Labs.Jos.ExecAtomic
import Labs.Jos.PageTableRefines

/-!
# The pages of a new image

How the page tables of the caller change while `sys_exec` replaces its address space, seen as the
map that they spell out. Pages are unmapped, and new pages are mapped that nothing else maps. A new
page keeps its zeros while it is mapped: page tables are made of other pages. After that the kernel
stores through the tables, and a store at a user address changes the one page that is mapped there.
-/

namespace Labs.Jos

open Prog

/-! ## New pages -/

/-- The first free page is taken from the free list and cleared. -/
theorem Shape.take {npages : Nat} {mem : Nat → Nat → Word} {link : Nat → Option Nat} {p dir : Nat}
    {tbl : Nat → Option Nat} {f : PageMap} (h : Shape npages mem link (some p) dir tbl f) :
    Shape npages (Function.update mem p fun _ => 0) (Function.update link p none) (link p) dir tbl
      f := by
  obtain ⟨l, hchain, hfree⟩ := h.free
  obtain ⟨rest, rfl, hrest⟩ := hchain.pop none
  obtain ⟨-, hdir, htbl⟩ := hfree p List.mem_cons_self
  refine ⟨h.small, fun d hd => ?_, fun d q t hq ht => ?_, h.bare, h.low, h.inj, h.table, h.mapped,
    rest, hrest, fun q hq => hfree q (List.mem_cons_of_mem p hq)⟩
  · rw [Function.update_of_ne (Ne.symm hdir)]
    exact h.pde d hd
  · have hqp : q ≠ p := by
      rintro rfl
      exact htbl d hq
    rw [Function.update_of_ne hqp]
    exact h.pte d q t hq ht

/-- The first free page is not mapped, and taking it concerns no page that is. -/
theorem Sound.take {link : Nat → Option Nat} {ref : Nat → BitVec 16} {p dir : Nat}
    {tbl : Nat → Option Nat} {f : PageMap} (h : Sound link (some p) ref dir tbl f)
    (hlist : ∃ l, Chain link (some p) l) :
    Sound (Function.update link p none) (link p) (Function.update ref p 0) dir tbl f ∧
      ∀ n w, f n ≠ some (p, w) := by
  obtain ⟨l, hchain⟩ := hlist
  obtain ⟨rest, rfl, hrest⟩ := hchain.pop none
  have hfree : ∀ n y, f n = some y → y.1 ≠ p := by
    intro n y hy heq
    exact h.unmapped _ hchain n y hy (heq ▸ List.mem_cons_self)
  refine ⟨⟨h.range, h.plain, fun l hl n y hy => ?_, fun q => ?_⟩, fun n w hw => hfree n _ hw rfl⟩
  · rw [Chain.unique hl hrest]
    intro hmem
    exact h.unmapped _ hchain n y hy (List.mem_cons_of_mem p hmem)
  · by_cases hq : q = p
    · have hzero : mapCount f q = 0 := by
        refine fiber_card_eq_zero fun n _ hn => ?_
        obtain ⟨y, hy, hyq⟩ := Option.map_eq_some_iff.1 hn
        exact hfree n y hy (hyq.trans hq)
      rw [hzero]
      exact Nat.zero_le _
    · rw [Function.update_of_ne hq]
      exact h.counted q

/-- Page `pp` was just allocated: it is not part of the page tables and not mapped, it has no
references, and it holds zeros. -/
structure Fresh (s : Kernel) (dir pp : Nat) (f : PageMap) : Prop extends Allocated s dir pp where
  refs : (s.pages pp).ppRef = 0
  unmapped : ∀ n w, f n ≠ some (pp, w)
  zero : ∀ i, s.mem pp i = 0

section Functions

variable {s : Kernel} {k : CpuId} {dir pp : Nat} {f : PageMap} {va perm : Word}

/-- `page_alloc` does not change what is mapped. -/
theorem page_alloc_maps (h : s.maps dir f) :
    wp (pageAlloc true) (fun r s' => s'.maps dir f ∧ ∀ pp, r = some pp → Fresh s' dir pp f)
      (fun _ _ => False) s := by
  obtain ⟨tbl, hshape, hsound⟩ := h
  rw [pageAlloc, wp_bind, wp_gets]
  cases hhead : s.pageFreeList with
  | none => exact ⟨⟨tbl, hshape, hsound⟩, fun _ h => (by cases h)⟩
  | some p =>
      have hshape₁ : Shape s.npages s.mem (fun q => (s.pages q).ppLink) (some p) dir tbl f :=
        hhead ▸ hshape
      have hsound₁ : Sound (fun q => (s.pages q).ppLink) (some p) (fun q => (s.pages q).ppRef) dir
          tbl f := hhead ▸ hsound
      obtain ⟨l, hchain, hfree⟩ := hshape₁.free
      obtain ⟨hlt, hdir, htbl⟩ : p < s.npages ∧ p ≠ dir ∧ ∀ d, tbl d ≠ some p := by
        obtain ⟨rest, rfl, -⟩ := hchain.pop none
        exact hfree p List.mem_cons_self
      have hsmall := hshape₁.small
      have hpage : pgnum (page2pa p) = p := pgnum_page2pa (by omega)
      have htake := hshape₁.take
      obtain ⟨hsound₂, hnew⟩ := hsound₁.take ⟨l, hchain⟩
      simp only [modifyPage, zeroPage, if_true, wp_bind, wp_modify, wp_pure]
      rw [wp_kaddr (by rw [hpage]; exact hlt), hpage]
      generalize ht : Kernel.setPageWords _ p _ = t
      have hmem : t.mem = Function.update s.mem p fun _ => 0 := by rw [← ht]; rfl
      have hpages : t.pages = Function.update s.pages p { ppLink := none, ppRef := 0 } := by
        rw [← ht]
        rfl
      have hlist : t.pageFreeList = (s.pages p).ppLink := by rw [← ht]; rfl
      have hnp : t.npages = s.npages := by rw [← ht]; rfl
      have hlink : (fun q => (t.pages q).ppLink) =
          Function.update (fun q => (s.pages q).ppLink) p none := by
        funext q
        rw [hpages]
        by_cases hq : q = p
        · rw [hq, Function.update_self, Function.update_self]
        · rw [Function.update_of_ne hq, Function.update_of_ne hq]
      have href : (fun q => (t.pages q).ppRef) =
          Function.update (fun q => (s.pages q).ppRef) p 0 := by
        funext q
        rw [hpages]
        by_cases hq : q = p
        · rw [hq, Function.update_self, Function.update_self]
        · rw [Function.update_of_ne hq, Function.update_of_ne hq]
      have hshape' : t.shape dir tbl f := by
        rw [Kernel.shape, hmem, hnp, hlink, hlist]
        exact htake
      have hsound' : t.sound dir tbl f := by
        rw [Kernel.sound, hlink, hlist, href]
        exact hsound₂
      refine ⟨⟨tbl, hshape', hsound'⟩, fun pp hpp => ?_⟩
      cases hpp
      refine ⟨⟨hnp ▸ hlt, hdir, fun d hd hpresent heq => ?_, fun l' hl' => ?_⟩, ?_, hnew,
        fun i => ?_⟩
      · have hpde := hshape'.pde d hd
        rw [if_pos hpresent, heq] at hpde
        exact htbl d hpde
      · rw [hlink, hlist] at hl'
        obtain ⟨rest, rfl, hrest⟩ := hchain.pop none
        rw [Chain.unique hl' hrest]
        exact (List.nodup_cons.1 hchain.nodup).1
      · rw [hpages, Function.update_self]
      · rw [hmem, Function.update_self]

/-- A conversion of a physical address that returns gives its page number. -/
theorem kaddr_returns (pa : Word) (s : Kernel) :
    wp (kaddr pa) (fun p s' => p = pgnum pa ∧ s' = s) (fun _ _ => True) s := by
  rw [kaddr, wp_bind, wp_gets, wp_ite]
  exact ⟨fun _ => trivial, fun _ => ⟨rfl, rfl⟩⟩

/-- Zeros stay zeros, but for those of the directory. -/
def Blank (dir : Nat) (s s' : Kernel) : Prop :=
  ∀ p, p ≠ dir → (∀ i, s.mem p i = 0) → ∀ i, s'.mem p i = 0

/-- A new page table is cleared. -/
theorem new_page_table_blank (dir : Nat) (va : Word) (s : Kernel) :
    wp (newPageTable dir va) (fun _ s' => Blank dir s s') (fun _ _ => True) s := by
  rw [newPageTable, wp_bind, pageAlloc, wp_bind, wp_gets]
  cases s.pageFreeList with
  | none => exact fun _ _ h => h
  | some q =>
      dsimp only
      rw [modifyPage, wp_bind, wp_modify, wp_bind, wp_modify, if_pos rfl, zeroPage, wp_bind, wp_bind]
      refine wp_mono_ret (kaddr_returns _ _) fun kva t hres => ?_
      obtain ⟨_, ht⟩ := hres
      rw [wp_modify, wp_pure]
      dsimp only
      rw [modifyPage, wp_bind, wp_modify, writeWord, wp_bind, wp_modify, wp_pure]
      intro p hp hzero i
      show Function.update (Function.update t.mem kva fun _ => 0) dir _ p i = 0
      rw [Function.update_of_ne hp]
      by_cases hpk : p = kva
      · rw [hpk, Function.update_self]
      · rw [Function.update_of_ne hpk, ht]
        exact hzero i

/-- A walk that creates a page table stores zeros only, but for the directory. -/
theorem pgdir_walk_blank (dir : Nat) (va : Word) (s : Kernel) :
    wp (pgdirWalk dir va true) (fun _ s' => Blank dir s s') (fun _ _ => True) s := by
  have hhave : wp (haveTable dir va true) (fun _ s' => Blank dir s s') (fun _ _ => True) s := by
    rw [haveTable, wp_bind, readWord, wp_gets, wp_ite]
    refine ⟨fun _ _ _ h => h, fun _ => ?_⟩
    rw [if_pos rfl]
    exact new_page_table_blank dir va s
  rw [pgdirWalk, wp_bind]
  refine wp_mono_ret hhave fun there t ht => ?_
  rw [wp_ite]
  refine ⟨fun _ => ?_, fun _ => ht⟩
  rw [wp_bind, readWord, wp_gets, wp_bind]
  refine wp_mono_ret (kaddr_returns _ t) fun pt t' hres => ?_
  obtain ⟨_, ht'⟩ := hres
  rw [wp_pure, ht']
  exact ht

/-- A page that can be mapped keeps its zeros when `page_insert` maps it. -/
theorem page_insert_blank (h : s.maps dir f) (hva : pdx va < 955) (hpp : Allocated s dir pp)
    (hzero : ∀ i, s.mem pp i = 0) :
    wp (pageInsert k dir pp va perm) (fun _ s' => ∀ i, s'.mem pp i = 0) (fun _ _ => True) s := by
  obtain ⟨tbl, hshape, hsound⟩ := h
  have husable : Usable s dir tbl pp := ⟨hpp.lt, hpp.ne_dir, hpp.no_table hshape, hpp.free⟩
  have hwrite : ∀ (t : Kernel) (q x : Nat) (w : Word), q ≠ pp → (∀ i, t.mem pp i = 0) →
      ∀ i, (t.setWord q x w).mem pp i = 0 := by
    intro t q x w hq ht j
    show Function.update t.mem q _ pp j = 0
    rw [Function.update_of_ne (Ne.symm hq)]
    exact ht j
  have hflush : ∀ t : Kernel, (∀ i, t.mem pp i = 0) →
      wp (tlbInvalidate k dir va) (fun _ s' => ∀ i, s'.mem pp i = 0) (fun _ _ => True) t := by
    intro t ht
    refine wp_mono tlb_invalidate_spec (fun _ s' hs' => ?_) fun _ _ _ => trivial
    obtain ⟨g, rfl⟩ := hs'
    exact ht
  rw [pageInsert, wp_bind]
  refine wp_mono (wp_and (walk_create_shape hshape hva) (pgdir_walk_blank dir va s))
    (fun r s₁ hres => ?_) fun _ _ _ => trivial
  obtain ⟨hr, hblank⟩ := hres
  have hzero₁ := hblank pp hpp.ne_dir hzero
  cases r with
  | none => exact hzero₁
  | some pte =>
      obtain ⟨-, tbl₁, hq, hshape₁, hgrown⟩ := hr
      obtain ⟨-, husable₁, -⟩ := hgrown.sound hshape hsound husable
      -- the entry lies in a page table, and `pp` is none
      have hne : pte.table ≠ pp := by
        intro heq
        exact husable₁.table _ (heq ▸ hq)
      have hnew : ∀ t : Kernel, (∀ i, t.mem pp i = 0) →
          wp (pageInsertNew k dir pp va perm pte) (fun _ s' => ∀ i, s'.mem pp i = 0)
            (fun _ _ => True) t := by
        intro t ht
        rw [pageInsertNew, modifyPage, wp_bind, wp_modify, writeWord, wp_bind, wp_modify, wp_bind]
        exact wp_mono_ret (hflush _ (hwrite _ _ _ _ hne ht)) fun _ _ h => h
      rw [wp_bind, readWord, wp_gets, wp_ite, wp_ite]
      refine ⟨fun _ => ⟨fun _ => ?_, fun _ => ?_⟩, fun _ => hnew s₁ hzero₁⟩
      · rw [writeWord, wp_bind, wp_modify, wp_bind]
        exact wp_mono_ret (hflush _ (hwrite _ _ _ _ hne hzero₁)) fun _ _ h => h
      · rw [wp_bind]
        refine wp_mono_ret (page_remove_erases k dir va s₁) fun _ s₂ hres => ?_
        obtain ⟨herase, _⟩ := hres
        refine hnew s₂ fun i => ?_
        rcases herase.mem pp i with hsame | hclear
        · rw [hsame]
          exact hzero₁ i
        · exact hclear

/-! ## Regions -/

/-- One iteration of `region_alloc`. -/
def allocPage (who : String) (k : CpuId) (pgdir : Nat) (va perm : Word) : Kern Unit := do
  match ← pageAlloc true with
  | none => panic (who ++ ": page_alloc failed")
  | some pp =>
      let r ← pageInsert k pgdir pp va perm
      if r < 0 then panic (who ++ ": page_insert failed: %e")

theorem alloc_region_eq (who : String) (k : CpuId) (pgdir : Nat) (va len perm : Word) :
    allocRegion who k pgdir va len perm = forUpto (regionPages va len) fun i =>
      allocPage who k pgdir (rounddown va + BitVec.ofNat 32 (i * pgsize)) perm := rfl

/-- If an iteration comes to its end, a new page of zeros is mapped. -/
theorem alloc_page_maps (who : String) (h : s.maps dir f) (hva : pdx va < 955)
    (hperm : perm.toNat < 4096) :
    wp (allocPage who k dir va perm) (fun _ s' => ∃ pp, (∀ n w, f n ≠ some (pp, w)) ∧
      s'.maps dir (Function.update f (pgnum va) (some (pp, perm ||| pteP))) ∧
      ∀ i, s'.mem pp i = 0) (fun _ _ => True) s := by
  rw [allocPage, wp_bind]
  refine wp_mono (page_alloc_maps h) (fun r s₁ ⟨h₁, hfresh⟩ => ?_) fun _ _ _ => trivial
  cases r with
  | none => trivial
  | some pp =>
      have hnew := hfresh pp rfl
      have hroom : (s₁.pages pp).ppRef.toNat < 65535 := by
        rw [hnew.refs]
        decide
      dsimp only
      rw [wp_bind]
      refine wp_mono (wp_and (page_insert_maps h₁ hva hperm hnew.toAllocated (.inr hroom))
        (page_insert_blank (k := k) h₁ hva hnew.toAllocated hnew.zero))
        (fun r s₂ ⟨hr, hzero⟩ => ?_) fun _ _ _ => trivial
      rw [wp_ite]
      refine ⟨fun _ => trivial, fun hok => ?_⟩
      rcases hr with ⟨-, h₂⟩ | ⟨rfl, -⟩
      · exact ⟨pp, hnew.unmapped, h₂, hzero⟩
      · exact absurd (by decide) hok

/-- The pages of the region are user pages. -/
def InUser (va len : Word) : Prop :=
  ∀ i < regionPages va len, pdx (rounddown va + BitVec.ofNat 32 (i * pgsize)) < 955

/-- A region of user pages is mapped. -/
theorem alloc_region_maps (who : String) {len : Word} (h : ∃ f, s.maps dir f)
    (hlow : InUser va len) (hperm : perm.toNat < 4096) :
    wp (allocRegion who k dir va len perm) (fun _ s' => ∃ f, s'.maps dir f) (fun _ _ => True) s := by
  rw [alloc_region_eq]
  refine wp_for_upto (I := fun _ (s' : Kernel) => ∃ f, s'.maps dir f) h ?_
  rintro i hi t ⟨f, ht⟩
  exact wp_mono_ret (alloc_page_maps who ht (hlow i hi) hperm) fun _ s' ⟨_, _, h', _⟩ => ⟨_, h'⟩

/-- The old image is unmapped. -/
theorem exec_unmap_user_maps {keepLo keepHi : Word} (h : ∃ f, s.maps dir f) :
    wp (execUnmapUser k dir keepLo keepHi) (fun _ s' => ∃ f, s'.maps dir f) (fun _ _ => True)
      s := by
  refine wp_for_upto (I := fun _ (s' : Kernel) => ∃ f, s'.maps dir f) h ?_
  intro d hd t ht
  rw [pdx_utop] at hd
  rw [wp_bind, readWord, wp_gets, wp_ite]
  refine ⟨fun _ => ?_, fun _ => ht⟩
  rw [wp_bind]
  refine wp_mono_ret (kaddr_returns _ t) fun pt t₁ hres => ?_
  obtain ⟨_, ht₁⟩ := hres
  refine wp_for_upto (I := fun _ (s' : Kernel) => ∃ f, s'.maps dir f) (ht₁ ▸ ht) ?_
  rintro j hj t₂ ⟨f, h₂⟩
  rw [wp_bind, readWord, wp_gets, wp_ite]
  refine ⟨fun _ => ?_, fun _ => ⟨f, h₂⟩⟩
  have hva : pdx (pgaddr d j) < 955 := by
    rw [pdx_pgaddr (by omega) hj]
    exact hd
  exact wp_mono (page_remove_maps h₂ hva) (fun _ _ h' => ⟨_, h'⟩) fun _ _ _ => trivial

/-- The segments are mapped. -/
theorem exec_alloc_segments_maps {segs : List Proghdr} (h : ∃ f, s.maps dir f)
    (hlow : ∀ ph ∈ segs, InUser ph.pVa ph.pMemsz) :
    wp (execAllocSegments k dir segs) (fun _ s' => ∃ f, s'.maps dir f) (fun _ _ => True) s := by
  induction segs generalizing s with
  | nil => exact h
  | cons ph rest ih =>
      rw [exec_alloc_segments_cons, wp_ite]
      refine ⟨fun _ => h, fun _ => ?_⟩
      rw [wp_bind]
      refine wp_mono_ret (alloc_region_maps _ h (hlow ph List.mem_cons_self) (by decide))
        fun _ t ht => ?_
      exact ih ht fun ph' hph' => hlow ph' (List.mem_cons_of_mem _ hph')

/-! ## Stores through the tables -/

/-- A page that is not part of the tables may be overwritten. -/
theorem Shape.write_data {npages p : Nat} {mem : Nat → Nat → Word} {link : Nat → Option Nat}
    {head : Option Nat} {tbl : Nat → Option Nat} (h : Shape npages mem link head dir tbl f)
    (hdir : p ≠ dir) (htbl : ∀ d, tbl d ≠ some p) (words : Nat → Word) :
    Shape npages (Function.update mem p words) link head dir tbl f := by
  refine ⟨h.small, fun d hd => ?_, fun d q t hq ht => ?_, h.bare, h.low, h.inj, h.table, h.mapped,
    h.free⟩
  · rw [Function.update_of_ne (Ne.symm hdir)]
    exact h.pde d hd
  · have hqp : q ≠ p := by
      rintro rfl
      exact htbl d hq
    rw [Function.update_of_ne hqp]
    exact h.pte d q t hq ht

/-- The tables of a mapped page: the entry says what the map says. -/
theorem entry_of_maps {n p : Nat} {w : Word} (h : s.maps dir f) (hx : f n = some (p, w)) :
    hasFlag (s.mem dir (n / 1024)) pteP = true ∧
      hasFlag (s.mem (pgnum (s.mem dir (n / 1024))) (n % 1024)) pteP = true ∧
      entryOf (s.mem (pgnum (s.mem dir (n / 1024))) (n % 1024)) = (p, w) := by
  obtain ⟨tbl, hshape, -⟩ := h
  have hn := hshape.map_low hx
  rw [user_pages_eq] at hn
  have hsplit : n / 1024 * 1024 + n % 1024 = n := by omega
  have hpde := hshape.pde (n / 1024) (by omega)
  cases htbl : tbl (n / 1024) with
  | none =>
      have hbare := hshape.bare _ (n % 1024) htbl (Nat.mod_lt _ (by decide))
      rw [hsplit, hx] at hbare
      cases hbare
  | some q =>
      rw [htbl] at hpde
      split at hpde
      case isFalse => cases hpde
      case isTrue hpresent =>
        have hpte := hshape.pte _ q (n % 1024) htbl (Nat.mod_lt _ (by decide))
        rw [hsplit, hx, readEntry, Option.some.inj hpde] at hpte
        split at hpte
        case isFalse => cases hpte
        case isTrue hentry => exact ⟨hpresent, hentry, (Option.some.inj hpte).symm⟩

/-- What the walk of the CPU finds for a user page is mapped. -/
theorem map_of_walk {n : Nat} {x : Xlat} (h : s.maps dir f) (hn : n < userPages)
    (hwalk : walk s.mem dir n = some x) : ∃ w, f n = some (x.page, w) := by
  obtain ⟨tbl, hshape, -⟩ := h
  rw [user_pages_eq] at hn
  have hsplit : n / 1024 * 1024 + n % 1024 = n := by omega
  unfold walk at hwalk
  dsimp only at hwalk
  split at hwalk
  case isFalse => cases hwalk
  case isTrue hpresent =>
    cases hwalk
    rw [Bool.and_eq_true] at hpresent
    have hpde := hshape.pde (n / 1024) (by omega)
    rw [if_pos hpresent.1] at hpde
    have hpte := hshape.pte _ _ (n % 1024) hpde (Nat.mod_lt _ (by decide))
    rw [hsplit, readEntry, if_pos hpresent.2] at hpte
    exact ⟨_, hpte⟩

/-- A store into a mapped page changes no mapping. -/
theorem set_phys_byte_maps {n p : Nat} {w : Word} (h : s.maps dir f) (hx : f n = some (p, w))
    (off : Nat) (b : Byte) : (s.setPhysByte p off b).maps dir f := by
  obtain ⟨tbl, hshape, hsound⟩ := h
  obtain ⟨hdir, htbl⟩ := hsound.plain n (p, w) hx
  exact ⟨tbl, hshape.write_data hdir htbl _, hsound⟩

end Functions

end Labs.Jos
