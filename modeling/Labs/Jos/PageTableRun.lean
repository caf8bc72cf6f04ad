import Labs.Jos.DirEntry
import Labs.Jos.PageTableRefines
import Labs.Jos.Refines

/-!
# Sequences of insertions and removals

Runs of `page_insert` and `page_remove` on one directory, beside the map they should produce.
While no `pp_ref` wraps around, the directory agrees with the map after every call. The counter
has 16 bits and a user address space has 977920 places, so a page mapped 65537 times has the
counter 1; removing it at one place frees it while it is mapped at the others.
-/

namespace Labs.Jos

open Prog

/-- A call that edits a page directory. -/
inductive PtOp where
  | insert (pp : Nat) (va perm : Word)
  | remove (va : Word)

/-- The call on CPU `k` for the directory `dir`. -/
def PtOp.run (k : CpuId) (dir : Nat) : PtOp → Kern Int
  | .insert pp va perm => pageInsert k dir pp va perm
  | .remove va => do
      pageRemove k dir va
      pure 0

/-- What a call that returned `r` does to the map. -/
def PtOp.apply (r : Int) (f : PageMap) : PtOp → PageMap
  | .insert pp va perm =>
      if r = 0 then Function.update f (pgnum va) (some (pp, perm ||| pteP)) else f
  | .remove va => Function.update f (pgnum va) none

/-- What the caller has to see to: an address below `UTOP`, the low 12 bits as permissions, and
an allocated page. -/
def PtOp.Legal (s : Kernel) (dir : Nat) : PtOp → Prop
  | .insert pp va perm => va < utop ∧ perm.toNat < 4096 ∧ Allocated s dir pp
  | .remove va => va < utop

/-- The reference counter of an inserted page does not wrap around: the page is mapped at `va`
already, or its `pp_ref` is below 65535, or the call fails for lack of a page table. -/
def PtOp.Fits (s : Kernel) (dir : Nat) (f : PageMap) : PtOp → Prop
  | .insert pp va _ =>
      ((f (pgnum va)).map Prod.fst = some pp ∨ (s.pages pp).ppRef.toNat < 65535) ∨
        (hasFlag (s.mem dir (pdx va)) pteP = false ∧ s.pageFreeList = none)
  | .remove _ => True

/-- A sequence of calls, all of which meet the condition `ok`, from the state `s₀` and the map
`f₀`. -/
inductive PtRun (ok : Kernel → PageMap → PtOp → Prop) (k : CpuId) (dir : Nat) (s₀ : Kernel)
    (f₀ : PageMap) : Kernel → PageMap → Prop where
  | nil : PtRun ok k dir s₀ f₀ s₀ f₀
  | snoc {s s' : Kernel} {f : PageMap} {op : PtOp} {r : Int} (hrun : PtRun ok k dir s₀ f₀ s f)
      (hlegal : op.Legal s dir) (hok : ok s f op) (hcall : op.run k dir s = .ret r s') :
      PtRun ok k dir s₀ f₀ s' (op.apply r f)

/-- `page_lookup` and `pgdir_walk` without `create` agree with the map at every user address. -/
structure Agrees (s : Kernel) (dir : Nat) (f : PageMap) : Prop where
  lookup : ∀ va, va < utop → ∃ r, pageLookup dir va s = .ret r s ∧
    r.map (fun x => (x.1, s.mem x.2.table x.2.index &&& 0xFFF#32)) = f (pgnum va)
  walk : ∀ va, va < utop → ∃ r, pgdirWalk dir va false s = .ret r s ∧
    r.bind (fun pte => readEntry (s.mem pte.table pte.index)) = f (pgnum va)

section Runs

variable {s s₀ : Kernel} {f f₀ : PageMap} {k : CpuId} {dir : Nat}

/-- A directory that holds a map agrees with it. -/
theorem Kernel.maps.agrees (h : s.maps dir f) : Agrees s dir f := by
  obtain ⟨tbl, hshape, -⟩ := h
  refine ⟨fun va hva => ?_, fun va hva => ?_⟩
  · rw [← pdx_lt_iff] at hva
    obtain ⟨r, s', hcall, rfl, hr⟩ := ret_of_wp (page_lookup_shape hshape hva)
    refine ⟨r, hcall, ?_⟩
    cases r with
    | none => exact hr.symm
    | some x =>
        obtain ⟨pp, pte⟩ := x
        obtain ⟨-, hindex, hpp, hmap⟩ := hr
        rw [hmap, hpp, Option.map_some, hindex, entryOf]
  · rw [← pdx_lt_iff] at hva
    obtain ⟨r, s', hcall, rfl, hr⟩ := ret_of_wp (walk_shape hshape hva)
    refine ⟨r, hcall, ?_⟩
    rw [hr]
    cases htbl : tbl (pdx va) with
    | none =>
        rw [pgnum_split, hshape.bare _ _ htbl (ptx_lt va)]
        rfl
    | some q => exact (map_at hshape htbl).symm

/-- Without a page table and without a free page `page_insert` fails and changes nothing. -/
theorem page_insert_no_table {pp : Nat} {va perm : Word} (h : s.maps dir f) (hva : pdx va < 955)
    (hnone : hasFlag (s.mem dir (pdx va)) pteP = false) (hfree : s.pageFreeList = none) :
    wp (pageInsert k dir pp va perm) (fun r s' => r = -eNoMem ∧ s' = s) (fun _ _ => False) s := by
  obtain ⟨tbl, hshape, -⟩ := h
  rw [pageInsert, wp_bind]
  refine wp_mono_ret (walk_create_shape hshape hva) fun r s₁ hr => ?_
  cases r with
  | none => exact ⟨rfl, hr.1⟩
  | some pte =>
      obtain ⟨-, tbl', hq, -, hgrown⟩ := hr
      rcases hgrown with ⟨-, rfl⟩ | ⟨-, p, hhead, -⟩
      · rw [(pde_of_table hshape hva hq).1] at hnone
        cases hnone
      · rw [hfree] at hhead
        cases hhead

/-- A call whose counters fit returns and does to the map what it should. -/
theorem PtOp.spec {op : PtOp} (h : s.maps dir f) (hlegal : op.Legal s dir)
    (hfits : op.Fits s dir f) :
    wp (op.run k dir) (fun r s' => s'.maps dir (op.apply r f) ∧ (r = 0 ∨ r = -eNoMem))
      (fun _ _ => False) s := by
  cases op with
  | insert pp va perm =>
      obtain ⟨hva, hperm, hpp⟩ := hlegal
      rw [← pdx_lt_iff] at hva
      rcases hfits with hroom | ⟨hnone, hfree⟩
      · refine wp_mono_ret (page_insert_maps h hva hperm hpp hroom) fun r s' hr => ?_
        rcases hr with ⟨rfl, hmaps⟩ | ⟨rfl, hmaps⟩
        · refine ⟨?_, .inl rfl⟩
          rw [PtOp.apply, if_pos rfl]
          exact hmaps
        · refine ⟨?_, .inr rfl⟩
          rw [PtOp.apply, if_neg (by decide)]
          exact hmaps
      · refine wp_mono_ret (page_insert_no_table h hva hnone hfree) fun r s' hr => ?_
        obtain ⟨rfl, rfl⟩ := hr
        refine ⟨?_, .inr rfl⟩
        rw [PtOp.apply, if_neg (by decide)]
        exact h
  | remove va =>
      have hva : pdx va < 955 := (pdx_lt_iff va).2 hlegal
      rw [PtOp.run, wp_bind]
      exact wp_mono_ret (page_remove_maps h hva) fun _ s' hs' => ⟨hs', .inl rfl⟩

/-- A run whose counters fit keeps the directory in step with the map. -/
theorem PtRun.maps (h : s₀.maps dir f₀)
    (hrun : PtRun (fun s f op => op.Fits s dir f) k dir s₀ f₀ s f) :
    s.maps dir f := by
  induction hrun with
  | nil => exact h
  | snoc _ hlegal hok hcall ih => exact ((wp_of_ret hcall).1 (PtOp.spec ih hlegal hok)).1

/-- Re-inserting the page at `va` does the same to memory, reference counts and free list as
removing and inserting it while it is kept from being freed. -/
theorem special_path (h : s.maps dir f) {pp : Nat} {va perm old : Word} (hva : va < utop)
    (hperm : perm.toNat < 4096) (hmap : f (pgnum va) = some (pp, old)) :
    ∃ s₁ s₂, pageInsert k dir pp va perm s = .ret 0 s₁ ∧
      removeAndInsert k dir pp va perm s = .ret 0 s₂ ∧ s₂.mem = s₁.mem ∧ s₂.pages = s₁.pages ∧
      s₂.pageFreeList = s₁.pageFreeList := by
  obtain ⟨tbl, hshape, hsound⟩ := h
  rw [← pdx_lt_iff] at hva
  obtain ⟨q, hq⟩ := table_of_map hshape hmap
  have hpp : pp < s.npages := hshape.mapped _ _ hmap
  have hcount : (s.pages pp).ppRef ≠ 0 := by
    intro hzero
    have hle := hsound.counted pp
    have hpos := map_count_pos (hsound.range _ _ hmap) hmap
    rw [hzero] at hle
    exact absurd hle (Nat.not_le_of_lt hpos)
  have hinsert : wp (pageInsert k dir pp va perm) _ _ s :=
    page_insert_same hshape hva hq hpp hmap
  obtain ⟨r₁, s₁, hcall₁, rfl, hpages₁, hhead₁, hmem₁⟩ := ret_of_wp hinsert
  obtain ⟨r₂, s₂, hcall₂, rfl, hpages₂, hhead₂, hmem₂⟩ :=
    ret_of_wp (remove_and_insert_same (k := k) hshape hva hq hpp hperm hmap hcount)
  exact ⟨s₁, s₂, hcall₁, hcall₂, hmem₂.trans hmem₁.symm, hpages₂.trans hpages₁.symm,
    hhead₂.trans hhead₁.symm⟩

end Runs

/-- In every sequence of insertions and removals whose reference counters fit, the directory
agrees with the map after every call; the next call returns, with 0 or for lack of memory with
the map unchanged; and the special path for the page that is mapped already does what removing
and inserting it would. -/
theorem page_table_refines (k : CpuId) (dir : Nat) (s₀ s : Kernel) (f₀ f : PageMap)
    (hstart : s₀.maps dir f₀) (hrun : PtRun (fun s f op => op.Fits s dir f) k dir s₀ f₀ s f) :
    Agrees s dir f ∧
      (∀ op : PtOp, op.Legal s dir → op.Fits s dir f → ∃ r s', op.run k dir s = .ret r s' ∧
        (r = 0 ∨ r = -eNoMem) ∧ Agrees s' dir (op.apply r f)) ∧
      ∀ pp va perm old, va < utop → perm.toNat < 4096 → f (pgnum va) = some (pp, old) →
        ∃ s₁ s₂, pageInsert k dir pp va perm s = .ret 0 s₁ ∧
          removeAndInsert k dir pp va perm s = .ret 0 s₂ ∧ s₂.mem = s₁.mem ∧
          s₂.pages = s₁.pages ∧ s₂.pageFreeList = s₁.pageFreeList := by
  have hmaps := hrun.maps hstart
  refine ⟨hmaps.agrees, fun op hlegal hfits => ?_, fun pp va perm old hva hperm hmap =>
    special_path hmaps hva hperm hmap⟩
  obtain ⟨r, s', hcall, hnext, hr⟩ := ret_of_wp (PtOp.spec (k := k) hmaps hlegal hfits)
  exact ⟨r, s', hcall, hr, hnext.agrees⟩

/-! ## The counter wraps around -/

/-- A machine of 300 pages: page 1 is an empty directory, pages 2 and 3 are allocated, and the
pages from 4 on are free. -/
def wrapStart : Kernel :=
  { npages := 300, npagesBasemem := 300, nextfree := 0, pages := fun p =>
      if 4 ≤ p ∧ p < 299 then { ppLink := some (p + 1) } else {}
    pageFreeList := some 4, mem := fun _ _ => 0, kernPgdir := 0, mmioBase := 0
    envs := fun _ => {}, envFreeList := none, cpus := fun _ => { cr3 := 0 }, kernelLock := none
    panicstr := none, ticks := 0, userMemCheckAddr := 0, e1000 := {}, consIn := [], consOut := []
    accesses := [], frees := [], pageFrees := [] }

/-- The free pages of `wrapStart` in order. -/
theorem wrap_start_chain (n a : Nat) (ha : 4 ≤ a) (hn : a + n = 299) :
    Chain (fun p => (wrapStart.pages p).ppLink) (some a) (List.range' a (n + 1)) := by
  induction n generalizing a with
  | zero =>
      refine ⟨rfl, ?_⟩
      have hlast : ¬ (4 ≤ a ∧ a < 299) := by omega
      simp [wrapStart, hlast]
  | succ n ih =>
      refine ⟨rfl, ?_⟩
      have hmid : 4 ≤ a ∧ a < 299 := by omega
      have hnext : (wrapStart.pages a).ppLink = some (a + 1) := by simp [wrapStart, hmid]
      dsimp only
      rw [hnext]
      exact ih (a + 1) (by omega) (by omega)

theorem wrap_start_shape : wrapStart.shape 1 (fun _ => none) (fun _ => none) where
  small := by decide
  pde := by
    intro d _
    show none = if hasFlag 0 pteP then _ else none
    rw [zero_not_present]
    rfl
  pte := fun d q t hq => (by cases hq)
  bare := fun _ _ _ _ => rfl
  low := fun d q hq => (by cases hq)
  inj := fun d d' q hq => (by cases hq)
  table := fun d q hq => (by cases hq)
  mapped := fun n x hx => (by cases hx)
  free := by
    refine ⟨List.range' 4 296, wrap_start_chain 295 4 (by decide) rfl, fun p hp => ?_⟩
    rw [List.mem_range'_1] at hp
    refine ⟨?_, ?_, fun _ h => (by cases h)⟩
    · show p < 300
      omega
    · omega

theorem wrap_start_maps : wrapStart.maps 1 fun _ => none := by
  have hsound : wrapStart.sound 1 (fun _ => none) fun _ => none := by
    refine ⟨fun n x hx => ?_, fun n x hx => ?_, fun l _ n x hx => ?_, fun p => ?_⟩
    · cases hx
    · cases hx
    · cases hx
    have hzero : mapCount (fun _ => none) p = 0 := fiber_card_eq_zero fun n _ hn => (by cases hn)
    rw [hzero]
    exact Nat.zero_le _
  exact ⟨fun _ => none, wrap_start_shape, hsound⟩

/-- `page_insert` at a place that maps nothing. -/
theorem page_insert_vacant {s : Kernel} {k : CpuId} {dir pp : Nat} {tbl : Nat → Option Nat}
    {f : PageMap} {va perm : Word} (hshape : s.shape dir tbl f) (hva : pdx va < 955)
    (hpp : pp < s.npages) (hperm : perm.toNat < 4096) (hnone : f (pgnum va) = none)
    (hmem : tbl (pdx va) ≠ none ∨ s.pageFreeList ≠ none) :
    wp (pageInsert k dir pp va perm)
      (fun r s' => r = 0 ∧ ∃ s₁ tbl₁, Grown s tbl (pdx va) s₁ tbl₁ ∧
        s'.shape dir tbl₁ (Function.update f (pgnum va) (some (pp, perm ||| pteP))) ∧
        s'.pages = Function.update s₁.pages pp
          { s₁.pages pp with ppRef := (s₁.pages pp).ppRef + 1 } ∧
        s'.pageFreeList = s₁.pageFreeList ∧ s'.npages = s.npages)
      (fun _ _ => False) s := by
  rw [pageInsert, wp_bind]
  refine wp_mono_ret (walk_create_shape hshape hva) fun r s₁ hr => ?_
  cases r with
  | none =>
      obtain ⟨-, htbl, hhead⟩ := hr
      rcases hmem with h | h
      · exact absurd htbl h
      · exact absurd hhead h
  | some pte =>
      obtain ⟨q, i⟩ := pte
      obtain ⟨rfl, tbl₁, hq, hshape₁, hgrown⟩ := hr
      have hnp : s₁.npages = s.npages := by
        rcases hgrown with ⟨rfl, -⟩ | ⟨-, p, -, -, -, -, hnp⟩
        · rfl
        · exact hnp
      have hentry := map_at hshape₁ hq
      rw [hnone, readEntry] at hentry
      split at hentry
      · cases hentry
      · rename_i habsent
        simp only [readWord, wp_bind, wp_gets, wp_ite]
        refine ⟨fun hpresent => absurd hpresent habsent, fun _ => ?_⟩
        refine wp_mono_ret (page_insert_new_shape hshape₁ hq (hnp ▸ hpp) hperm) fun r s' hr => ?_
        obtain ⟨hr, hshape', hpages, hhead, hnp', -⟩ := hr
        exact ⟨hr, s₁, tbl₁, hgrown, hshape', hpages, hhead, hnp'.trans hnp⟩

/-- At a place that maps nothing `page_insert` writes to the directory, to the page table and to the
first free page only. -/
theorem page_insert_frame {s : Kernel} {k : CpuId} {dir pp : Nat} {tbl : Nat → Option Nat}
    {f : PageMap} {va perm : Word} (hshape : s.shape dir tbl f) (hva : pdx va < 955)
    (hnone : f (pgnum va) = none) :
    wp (pageInsert k dir pp va perm)
      (fun _ s' => s'.kernPgdir = s.kernPgdir ∧ ∀ z, z ≠ dir → tbl (pdx va) ≠ some z →
        s.pageFreeList ≠ some z → s'.mem z = s.mem z) (fun _ _ => True) s := by
  have hfree : ∀ p, s.pageFreeList = some p → p < 1048576 ∧ p ≠ dir := by
    intro p hp
    obtain ⟨l, hlist, hl⟩ := hshape.free
    rw [hp] at hlist
    obtain ⟨rest, rfl, -⟩ := hlist.pop none
    obtain ⟨hlt, hne, -⟩ := hl p List.mem_cons_self
    have hsmall := hshape.small
    exact ⟨by omega, hne⟩
  have hnew : ∀ (s₁ : Kernel) (pte : PteRef), s₁.kernPgdir = s.kernPgdir →
      (∀ z, z ≠ dir → tbl (pdx va) ≠ some z → s.pageFreeList ≠ some z →
        z ≠ pte.table ∧ s₁.mem z = s.mem z) →
      wp (pageInsertNew k dir pp va perm pte)
        (fun _ s' => s'.kernPgdir = s.kernPgdir ∧ ∀ z, z ≠ dir → tbl (pdx va) ≠ some z →
          s.pageFreeList ≠ some z → s'.mem z = s.mem z) (fun _ _ => True) s₁ := by
    intro s₁ pte hkern hmem
    simp only [pageInsertNew, modifyPage, writeWord, wp_bind, wp_modify, wp_pure]
    refine wp_mono tlb_invalidate_spec (fun _ s₂ hs₂ => ?_) fun _ _ _ => trivial
    obtain ⟨g, rfl⟩ := hs₂
    refine ⟨hkern, fun z hdir htbl hhead => ?_⟩
    obtain ⟨hne, hsame⟩ := hmem z hdir htbl hhead
    exact (Function.update_of_ne hne _ _).trans hsame
  rw [pageInsert, wp_bind]
  refine wp_mono (wp_and (wp_walk_create hfree) (walk_create_shape hshape hva))
    (fun r s₁ hr => ?_) fun _ _ _ => trivial
  obtain ⟨hmade, hwalk⟩ := hr
  cases r with
  | none =>
      obtain ⟨rfl, -⟩ := hwalk
      exact ⟨rfl, fun z _ _ _ => rfl⟩
  | some pte =>
      obtain ⟨hpte, hmade⟩ := hmade pte rfl
      obtain ⟨-, tbl₁, hq, hshape₁, -⟩ := hwalk
      -- the entry is empty, whether the table is new or not
      have habsent : ¬ hasFlag (s₁.mem pte.table pte.index) pteP = true := by
        have hentry := map_at hshape₁ hq
        rw [hnone, readEntry] at hentry
        rw [hpte] at hentry ⊢
        split at hentry
        · cases hentry
        · assumption
      rw [wp_bind, readWord, wp_gets, if_neg habsent]
      rcases hmade with ⟨hpresent, rfl⟩ | ⟨-, p, hmade⟩
      · refine hnew s₁ pte rfl fun z _ htbl _ => ⟨fun heq => htbl ?_, rfl⟩
        rw [hshape.pde _ hva, if_pos hpresent, heq, hpte]
      · have hlt := (hfree p hmade.head).1
        have htable : pte.table = p := by
          rw [hpte]
          show pgnum (s₁.mem dir (pdx va)) = p
          rw [hmade.pde, pgnum_mk_pde hlt]
        refine hnew s₁ pte hmade.kernPgdir fun z hdir _ hhead => ?_
        have hne : z ≠ p := fun heq => hhead (heq ▸ hmade.head)
        exact ⟨htable ▸ hne, hmade.mem z hne hdir⟩

/-- A page that is neither a table nor free is allocated. -/
theorem allocated_of_shape {s : Kernel} {dir pp : Nat} {tbl : Nat → Option Nat} {f : PageMap}
    {l : List Nat} (hshape : s.shape dir tbl f)
    (hlist : Chain (fun p => (s.pages p).ppLink) s.pageFreeList l) (hlt : pp < s.npages)
    (hdir : pp ≠ dir) (htbl : ∀ d, tbl d ≠ some pp) (hoff : pp ∉ l) : Allocated s dir pp := by
  refine ⟨hlt, hdir, fun d hd hpresent hpage => ?_, fun l' hl' => ?_⟩
  · have hpde := hshape.pde d hd
    rw [if_pos hpresent, hpage] at hpde
    exact htbl d hpde
  · rw [Chain.unique hl' hlist]
    exact hoff

/-- Page 2 is mapped at the first `n` places. -/
structure Filled (n : Nat) (s : Kernel) (f : PageMap) (tbl : Nat → Option Nat) (l : List Nat) :
    Prop where
  shape : s.shape 1 tbl f
  map : ∀ m, f m = if m < n then some (2, 5) else none
  tables : ∀ d, (tbl d).isSome = true ↔ d * 1024 < n
  high : ∀ d q, tbl d = some q → 4 ≤ q
  list : Chain (fun p => (s.pages p).ppLink) s.pageFreeList l
  room : l.length + (n + 1023) / 1024 = 296
  above : ∀ p ∈ l, 4 ≤ p
  ref : (s.pages 2).ppRef = BitVec.ofNat 16 n
  npages : s.npages = 300
  blank : ∀ z < 4, z ≠ 1 → s.mem z = fun _ => 0

/-- The address of page number `n`. -/
def pageVa (n : Nat) : Word := BitVec.ofNat 32 (n * 4096)

theorem pgnum_page_va {n : Nat} (hn : n < 1048576) : pgnum (pageVa n) = n := by
  rw [pgnum_eq, pageVa, BitVec.toNat_ofNat]
  omega

theorem pdx_page_va {n : Nat} (hn : n < 1048576) : pdx (pageVa n) = n / 1024 := by
  rw [← pgnum_div, pgnum_page_va hn]

theorem page_va_lt {n : Nat} (hn : n < 977920) : pageVa n < utop := by
  rw [← pdx_lt_iff, pdx_page_va (by omega)]
  omega

theorem wrap_start_filled :
    Filled 0 wrapStart (fun _ => none) (fun _ => none) (List.range' 4 296) where
  shape := wrap_start_shape
  map := fun m => rfl
  tables := by
    intro d
    simp
  high := by
    intro d q hq
    cases hq
  list := wrap_start_chain 295 4 (by decide) rfl
  room := by
    rw [List.length_range']
  above := by
    intro p hp
    rw [List.mem_range'_1] at hp
    exact hp.1
  ref := rfl
  npages := rfl
  blank := fun _ _ _ => rfl

namespace Filled

variable {n : Nat} {s s₁ s' : Kernel} {f : PageMap} {tbl : Nat → Option Nat} {l : List Nat}

theorem clean (h : Filled n s f tbl l) (d : Nat) : tbl d ≠ some 2 ∧ tbl d ≠ some 3 := by
  refine ⟨fun heq => ?_, fun heq => ?_⟩
  all_goals
    have := h.high d _ heq
    omega

theorem off (h : Filled n s f tbl l) : 2 ∉ l ∧ 3 ∉ l := by
  refine ⟨fun hmem => ?_, fun hmem => ?_⟩
  all_goals
    have := h.above _ hmem
    omega

theorem vacant (h : Filled n s f tbl l) : f n = none := by
  rw [h.map, if_neg (Nat.lt_irrefl n)]

theorem legal (h : Filled n s f tbl l) (hn : n < 65537) :
    PtOp.Legal s 1 (.insert 2 (pageVa n) 4) := by
  have hlt : 2 < s.npages := by
    rw [h.npages]
    decide
  exact ⟨page_va_lt (by omega), by decide, allocated_of_shape h.shape h.list hlt (by decide)
    (fun d => (h.clean d).1) h.off.1⟩

/-- There is room for a table. -/
theorem head_ne_none (h : Filled n s f tbl l) (hn : n < 65537) : s.pageFreeList ≠ none := by
  intro hnone
  have hroom := h.room
  have hlist := h.list
  rw [hnone] at hlist
  cases l with
  | nil =>
      simp only [List.length_nil] at hroom
      omega
  | cons a rest => cases hlist.1

theorem map_next (h : Filled n s f tbl l) (m : Nat) :
    Function.update f n (some (2, 4 ||| pteP)) m = if m < n + 1 then some (2, 5) else none := by
  by_cases hm : m = n
  · rw [hm, Function.update_self, if_pos (Nat.lt_succ_self n)]
    rfl
  · rw [Function.update_of_ne hm, h.map]
    by_cases hlt : m < n
    · rw [if_pos hlt, if_pos (by omega)]
    · rw [if_neg hlt, if_neg (by omega)]

/-- Only the first place of a table finds no table. -/
theorem table_there (h : Filled n s f tbl l)
    (hshape : s'.shape 1 tbl (Function.update f n (some (2, 4 ||| pteP)))) :
    n / 1024 * 1024 < n := by
  by_contra hnot
  have hbare : tbl (n / 1024) = none := by
    rw [← h.tables] at hnot
    cases htbl : tbl (n / 1024) with
    | none => rfl
    | some q => exact absurd (by rw [htbl]; rfl) hnot
  have hzero := hshape.bare (n / 1024) 0 hbare (by decide)
  rw [show n / 1024 * 1024 + 0 = n by omega, Function.update_self] at hzero
  cases hzero

theorem ref_next (h : Filled n s f tbl l) :
    (s.pages 2).ppRef + 1 = BitVec.ofNat 16 (n + 1) := by
  rw [h.ref]
  apply BitVec.eq_of_toNat_eq
  simp

/-- Counting a reference leaves the free list alone. -/
theorem link_of_count
    (hpages : s'.pages = Function.update s₁.pages 2
      { s₁.pages 2 with ppRef := (s₁.pages 2).ppRef + 1 }) (p : Nat) :
    (s'.pages p).ppLink = (s₁.pages p).ppLink := by
  rw [hpages]
  by_cases hp : p = 2
  · subst hp
    simp
  · simp [hp]

/-- One more place, in a table that is there. -/
theorem next_place (h : Filled n s f tbl l)
    (hshape : s'.shape 1 tbl (Function.update f n (some (2, 4 ||| pteP))))
    (hpages : s'.pages = Function.update s.pages 2
      { s.pages 2 with ppRef := (s.pages 2).ppRef + 1 })
    (hhead : s'.pageFreeList = s.pageFreeList) (hnp : s'.npages = s.npages)
    (hblank : ∀ z < 4, z ≠ 1 → s'.mem z = fun _ => 0) :
    Filled (n + 1) s' (Function.update f n (some (2, 4 ||| pteP))) tbl l := by
  have hthere := h.table_there hshape
  refine ⟨hshape, h.map_next, fun d => ?_, h.high, ?_, ?_, h.above, ?_, hnp.trans h.npages, hblank⟩
  · rw [h.tables d]
    omega
  · rw [hhead]
    exact h.list.congr fun p _ => link_of_count hpages p
  · rw [← h.room]
    omega
  · rw [hpages, Function.update_self, ← h.ref_next]

/-- One more place, in a new table. -/
theorem next_table (h : Filled n s f tbl l) {p : Nat} (hbare : tbl (n / 1024) = none)
    (hp : s.pageFreeList = some p)
    (hshape : s'.shape 1 (Function.update tbl (n / 1024) (some p))
      (Function.update f n (some (2, 4 ||| pteP))))
    (hpages₁ : s₁.pages = Function.update s.pages p
      { s.pages p with ppRef := 1, ppLink := none })
    (hhead₁ : s₁.pageFreeList = (s.pages p).ppLink)
    (hpages : s'.pages = Function.update s₁.pages 2
      { s₁.pages 2 with ppRef := (s₁.pages 2).ppRef + 1 })
    (hhead : s'.pageFreeList = s₁.pageFreeList) (hnp : s'.npages = s.npages)
    (hblank : ∀ z < 4, z ≠ 1 → s'.mem z = fun _ => 0) :
    ∃ l', Filled (n + 1) s' (Function.update f n (some (2, 4 ||| pteP)))
      (Function.update tbl (n / 1024) (some p)) l' := by
  have hbound : ¬ (n / 1024 * 1024 < n) := by
    rw [← h.tables, hbare]
    simp
  have hroom := h.room
  have hlist := h.list
  rw [hp] at hlist
  obtain ⟨rest, rfl, hrest⟩ := hlist.pop none
  have hhigh : 4 ≤ p := h.above p List.mem_cons_self
  refine ⟨rest, hshape, h.map_next, fun d => ?_, fun d q hq => ?_, ?_, ?_,
    fun q hq => h.above q (List.mem_cons_of_mem p hq), ?_, hnp.trans h.npages, hblank⟩
  · by_cases hd : d = n / 1024
    · rw [hd, Function.update_self]
      simp only [Option.isSome_some, true_iff]
      omega
    · rw [Function.update_of_ne hd, h.tables d]
      omega
  · by_cases hd : d = n / 1024
    · rw [hd, Function.update_self] at hq
      exact Option.some.inj hq ▸ hhigh
    · rw [Function.update_of_ne hd] at hq
      exact h.high d q hq
  · rw [hhead, hhead₁]
    refine hrest.congr fun q _ => ?_
    rw [link_of_count hpages, hpages₁]
    by_cases hq : q = p
    · subst hq
      simp
    · simp [hq]
  · simp only [List.length_cons] at hroom
    omega
  · rw [hpages, Function.update_self, hpages₁, Function.update_of_ne (by omega), ← h.ref_next]

/-- One more place. -/
theorem step (h : Filled n s f tbl l) (hn : n < 65537) :
    PtOp.Legal s 1 (.insert 2 (pageVa n) 4) ∧ ∃ s' tbl' l',
      (PtOp.insert 2 (pageVa n) 4).run 0 1 s = .ret 0 s' ∧
        Filled (n + 1) s' ((PtOp.insert 2 (pageVa n) 4).apply 0 f) tbl' l' ∧
        s'.kernPgdir = s.kernPgdir := by
  have hpg := pgnum_page_va (n := n) (by omega)
  have hpd := pdx_page_va (n := n) (by omega)
  have hva : pdx (pageVa n) < 955 := by
    rw [hpd]
    omega
  have hlt : 2 < s.npages := by
    rw [h.npages]
    decide
  have hspec := page_insert_vacant (k := 0) h.shape hva hlt (by decide : (4 : Word).toNat < 4096)
    (by rw [hpg]; exact h.vacant) (.inr (h.head_ne_none hn))
  obtain ⟨r, s', hcall, hr, s₁, tbl₁, hgrown, hshape', hpages, hhead', hnp'⟩ := ret_of_wp hspec
  obtain ⟨hkern, hframe⟩ := (wp_of_ret hcall).1
    (page_insert_frame h.shape hva (by rw [hpg]; exact h.vacant))
  have hblank : ∀ z < 4, z ≠ 1 → s'.mem z = fun _ => 0 := by
    intro z hz hone
    rw [hframe z hone ?_ ?_, h.blank z hz hone]
    · intro heq
      have := h.high _ _ heq
      omega
    · intro heq
      have hlist := h.list
      rw [heq] at hlist
      obtain ⟨rest, rfl, -⟩ := hlist.pop none
      have := h.above z List.mem_cons_self
      omega
  rw [hr] at hcall
  rw [hpg] at hshape'
  rw [hpd] at hgrown
  have happly : (PtOp.insert 2 (pageVa n) 4).apply 0 f =
      Function.update f n (some (2, 4 ||| pteP)) := by
    rw [PtOp.apply, if_pos rfl, hpg]
  rw [happly]
  rcases hgrown with ⟨rfl, rfl⟩ | ⟨hbare, p, hp, rfl, hpages₁, hhead₁, -⟩
  · exact ⟨h.legal hn, s', _, l, hcall, h.next_place hshape' hpages hhead' hnp' hblank, hkern⟩
  · obtain ⟨l', hnext⟩ := h.next_table hbare hp hshape' hpages₁ hhead₁ hpages hhead' hnp' hblank
    exact ⟨h.legal hn, s', _, l', hcall, hnext, hkern⟩

end Filled

/-- Page 2 can be mapped 65537 times. -/
theorem filled_run {n : Nat} {s₀ : Kernel} {f₀ : PageMap} {tbl₀ : Nat → Option Nat} {l₀ : List Nat}
    (h : Filled 0 s₀ f₀ tbl₀ l₀) (hn : n ≤ 65537) :
    ∃ s f tbl l, PtRun (fun _ _ _ => True) 0 1 s₀ f₀ s f ∧ Filled n s f tbl l ∧
      s.kernPgdir = s₀.kernPgdir ∧ s.ctl = s₀.ctl := by
  induction n with
  | zero => exact ⟨_, _, _, _, .nil, h, rfl, rfl⟩
  | succ n ih =>
      obtain ⟨s, f, tbl, l, hrun, hfilled, hkern, hctl⟩ := ih (by omega)
      obtain ⟨hlegal, s', tbl', l', hcall, hnext, hkern'⟩ := hfilled.step (by omega)
      have hquiet := (wp_of_ret hcall).1 (quiet_page_insert 0 1 2 (pageVa n) 4 s)
      exact ⟨s', _, tbl', l', hrun.snoc hlegal trivial hcall, hnext, hkern'.trans hkern,
        hquiet.1.trans hctl⟩

theorem set_word_npages (s : Kernel) (p i : Nat) (w : Word) :
    (s.setWord p i w).npages = s.npages := rfl

theorem set_page_words_npages (s : Kernel) (p : Nat) (words : Nat → Word) :
    (s.setPageWords p words).npages = s.npages := rfl

theorem set_page_npages (s : Kernel) (p : Nat) (f : PageInfo → PageInfo) :
    (s.setPage p f).npages = s.npages := rfl

theorem set_cpu_npages (s : Kernel) (k : CpuId) (f : CpuInfo → CpuInfo) :
    (s.setCpu k f).npages = s.npages := rfl

/-- `page_insert` takes the first free page for a missing table, whatever else it is used for. -/
theorem page_insert_new_table {s : Kernel} {k : CpuId} {dir pp p : Nat} {va perm : Word}
    (habsent : hasFlag (s.mem dir (pdx va)) pteP = false) (hhead : s.pageFreeList = some p)
    (hp : p < s.npages) (hsmall : s.npages ≤ 1048576) (hdir : p ≠ dir) :
    wp (pageInsert k dir pp va perm)
      (fun r s' => r = 0 ∧ s'.npages = s.npages ∧ s'.mem = Function.update
        (Function.update (Function.update s.mem p fun _ => 0) dir
          (Function.update (s.mem dir) (pdx va) (mkPde p))) p
        (Function.update (fun _ => 0) (ptx va) (mkPte pp perm)))
      (fun _ _ => False) s := by
  have hpage : pgnum (page2pa p) = p := pgnum_page2pa (by omega)
  have hpde : pgnum (pteAddr (mkPde p)) = p := by
    rw [pgnum_pte_addr, pgnum_mk_pde (by omega)]
  rw [pageInsert, wp_bind, pgdirWalk, wp_bind, haveTable, wp_bind, readWord, wp_gets, habsent]
  simp only [Bool.false_eq_true, if_false, if_true, newPageTable, pageAlloc, wp_bind, wp_gets, hhead,
    modifyPage, writeWord, zeroPage, wp_modify, wp_pure]
  rw [wp_kaddr (by rw [hpage]; exact hp), hpage]
  simp only [readWord, wp_gets]
  have hentry : ∀ u : Kernel, (u.setWord dir (pdx va) (mkPde p)).mem dir (pdx va) = mkPde p := by
    intro u
    simp [Kernel.setWord]
  rw [hentry, wp_kaddr (by rw [hpde]; exact hp), hpde]
  simp only [wp_pure, wp_bind, wp_ite, pageInsertNew, modifyPage, writeWord, wp_modify]
  have hzero : ∀ u : Kernel, u.mem p (ptx va) = 0 → ¬ hasFlag (u.mem p (ptx va)) pteP = true := by
    intro u hu
    rw [hu, zero_not_present]
    exact Bool.false_ne_true
  refine ⟨fun hpresent => absurd hpresent (hzero _ ?_), fun _ => ?_⟩
  · simp [Kernel.setWord, Kernel.setPage, Kernel.setPageWords, hdir]
  · refine wp_mono_ret tlb_invalidate_spec fun _ s₂ hs₂ => ?_
    obtain ⟨g, rfl⟩ := hs₂
    refine ⟨trivial, ?_, ?_⟩
    · rw [set_cpu_npages, set_word_npages, set_page_npages, set_word_npages, set_page_npages,
        set_page_words_npages, set_page_npages]
    · simp [Kernel.setWord, Kernel.setPage, Kernel.setPageWords, Kernel.setCpu, hdir, Ne.symm hdir]

/-- `page_lookup` in a table whose entry is empty. -/
theorem page_lookup_empty {s : Kernel} {dir q : Nat} {va : Word}
    (hpresent : hasFlag (s.mem dir (pdx va)) pteP = true) (hq : pgnum (s.mem dir (pdx va)) = q)
    (hlt : q < s.npages) (hzero : s.mem q (ptx va) = 0) :
    pageLookup dir va s = .ret none s := by
  have hwp : wp (pageLookup dir va) (fun r s' => r = none ∧ s' = s) (fun _ _ => False) s := by
    rw [pageLookup, wp_bind, pgdirWalk, wp_bind, haveTable, wp_bind, readWord, wp_gets, hpresent]
    simp only [if_true, wp_pure, readWord, wp_bind, wp_gets]
    rw [wp_kaddr (by rw [pgnum_pte_addr, hq]; exact hlt), pgnum_pte_addr, hq]
    simp only [hzero, zero_not_present]
    exact ⟨rfl, rfl⟩
  obtain ⟨r, s', hcall, rfl, rfl⟩ := ret_of_wp hwp
  exact hcall

/-- Removing a page whose counter is 1 puts it on the free list, wherever else it is mapped. -/
theorem page_remove_frees {s : Kernel} {f : PageMap} {tbl : Nat → Option Nat} {l : List Nat}
    {va w : Word} {pp : Nat} (hshape : s.shape 1 tbl f) (hva : pdx va < 955)
    (hx : f (pgnum va) = some (pp, w)) (href : (s.pages pp).ppRef = 1)
    (hlist : Chain (fun p => (s.pages p).ppLink) s.pageFreeList l) (hnot : pp ∉ l) :
    ∃ s' q, (PtOp.remove va).run 0 1 s = .ret 0 s' ∧ s'.npages = s.npages ∧
      s'.kernPgdir = s.kernPgdir ∧ tbl (pdx va) = some q ∧
      s'.mem = Function.update s.mem q (Function.update (s.mem q) (ptx va) 0) ∧
      Shape s.npages s'.mem (fun p => (s.pages p).ppLink) s.pageFreeList 1 tbl
        (Function.update f (pgnum va) none) ∧
      s'.pageFreeList = some pp ∧ Chain (fun p => (s'.pages p).ppLink) (some pp) (pp :: l) := by
  obtain ⟨q, hq⟩ := table_of_map hshape hx
  have hwp : wp ((PtOp.remove va).run 0 1) (fun r s' => r = 0 ∧ s'.npages = s.npages ∧
      s'.kernPgdir = s.kernPgdir ∧
      s'.mem = Function.update s.mem q (Function.update (s.mem q) (ptx va) 0) ∧
      Shape s.npages s'.mem (fun p => (s.pages p).ppLink) s.pageFreeList 1 tbl
        (Function.update f (pgnum va) none) ∧
      s'.pageFreeList = some pp ∧ Chain (fun p => (s'.pages p).ppLink) (some pp) (pp :: l))
      (fun _ _ => False) s := by
    rw [PtOp.run, wp_bind]
    refine wp_page_remove hshape hva hq hx fun s₁ hnp hkern hpages hhead hmem hshape₁ => ?_
    rw [wp_page_decref, hpages, hhead]
    refine ⟨fun _ => ?_, fun hne => absurd href hne⟩
    unfold Kernel.shape at hshape₁
    rw [hpages, hhead, hnp] at hshape₁
    refine ⟨rfl, hnp, hkern, hmem, hshape₁, rfl, (hlist.push hnot).congr fun p _ => ?_⟩
    by_cases hp : p = pp
    · subst hp
      simp
    · simp [hp]
  obtain ⟨r, s', hcall, rfl, hnp, hkern, hfacts⟩ := ret_of_wp hwp
  obtain ⟨hmem, hrest⟩ := hfacts
  exact ⟨s', q, hcall, hnp, hkern, hq, hmem, hrest⟩

/-- After one removal page 2 is free and still mapped. -/
theorem wrap_remove {s : Kernel} {f : PageMap} {tbl : Nat → Option Nat} {l : List Nat}
    (h : Filled 65537 s f tbl l) :
    ∃ s', (PtOp.remove (pageVa 0)).run 0 1 s = .ret 0 s' ∧
      s'.shape 1 tbl (Function.update f 0 none) ∧ s'.npages = 300 ∧ s'.pageFreeList = some 2 ∧
      Chain (fun p => (s'.pages p).ppLink) (some 2) (2 :: l) := by
  have hpg : pgnum (pageVa 0) = 0 := by decide
  have hx : f (pgnum (pageVa 0)) = some (2, 5) := by
    rw [hpg, h.map]
    rfl
  have hone : (s.pages 2).ppRef = 1 := by
    rw [h.ref]
    decide
  obtain ⟨s', q, hcall, hnp, -, -, -, hshape, hhead, hlist⟩ :=
    page_remove_frees h.shape (by decide) hx hone h.list h.off.1
  rw [hpg] at hshape
  refine ⟨s', hcall, ?_, hnp.trans h.npages, hhead, hlist⟩
  unfold Kernel.shape
  rw [hhead, hnp]
  refine hshape.congr_mem rfl (fun _ _ _ => rfl) ⟨2 :: l, hlist, fun p hp => ?_⟩
  rcases List.mem_cons.1 hp with rfl | hmem
  · rw [h.npages]
    exact ⟨by decide, by decide, fun d => (h.clean d).1⟩
  · obtain ⟨l', hl', hfree⟩ := hshape.free
    rw [Chain.unique h.list hl'] at hmem
    exact hfree p hmem

/-- Page 2, free and still mapped, becomes a page table. -/
theorem wrap_retake {s : Kernel} {f : PageMap} {tbl : Nat → Option Nat} {l : List Nat}
    (hshape : s.shape 1 tbl f) (hnp : s.npages = 300) (hhead : s.pageFreeList = some 2)
    (hlist : Chain (fun p => (s.pages p).ppLink) (some 2) (2 :: l)) (hbare : tbl 100 = none)
    (hnone : f 102400 = none) :
    ∃ s', (PtOp.insert 3 (pageVa 102400) 4).run 0 1 s = .ret 0 s' ∧
      s'.shape 1 (Function.update tbl 100 (some 2))
        (Function.update f 102400 (some (3, 5))) ∧ s'.npages = 300 ∧
      (s'.pages 2).ppRef = 1 ∧ Chain (fun p => (s'.pages p).ppLink) s'.pageFreeList l := by
  have hpg : pgnum (pageVa 102400) = 102400 := by decide
  have hpd : pdx (pageVa 102400) = 100 := by decide
  have hva : pdx (pageVa 102400) < 955 := by decide
  have hspec := page_insert_vacant (k := 0) hshape hva (by rw [hnp]; decide : 3 < s.npages)
    (by decide : (4 : Word).toNat < 4096) (by rw [hpg]; exact hnone) (.inr (by rw [hhead]; simp))
  obtain ⟨r, s', hcall, rfl, s₁, tbl₁, hgrown, hshape', hpages, hhead', hnp'⟩ := ret_of_wp hspec
  rw [hpg] at hshape'
  rw [hpd] at hgrown
  refine ⟨s', hcall, ?_⟩
  rcases hgrown with ⟨rfl, rfl⟩ | ⟨-, p, hp, rfl, hpages₁, hhead₁, -⟩
  · have hmap := hshape'.bare 100 0 hbare (by decide)
    rw [Function.update_self] at hmap
    cases hmap
  · rw [hhead] at hp
    have hp2 : 2 = p := Option.some.inj hp
    subst hp2
    have hlink : ∀ q, q ≠ 2 → (s'.pages q).ppLink = (s.pages q).ppLink := by
      intro q hq
      rw [hpages, hpages₁]
      by_cases hq3 : q = 3
      · subst hq3
        simp
      · simp [hq, hq3]
    have hnot : 2 ∉ l := (List.nodup_cons.1 hlist.nodup).1
    refine ⟨hshape', hnp'.trans hnp, ?_, ?_⟩
    · rw [hpages, Function.update_of_ne (by decide), hpages₁, Function.update_self]
    · rw [hhead', hhead₁]
      refine hlist.2.congr fun q hq => hlink q fun heq => hnot (heq ▸ hq)

/-- Removing page 2 at another place frees it while it is a page table. -/
theorem wrap_remove_again {s : Kernel} {f : PageMap} {tbl : Nat → Option Nat} {l : List Nat}
    (hshape : s.shape 1 tbl f) (hnp : s.npages = 300) (href : (s.pages 2).ppRef = 1)
    (hlist : Chain (fun p => (s.pages p).ppLink) s.pageFreeList l) (hnot : 2 ∉ l)
    (hx : f 1 = some (2, 5)) :
    ∃ s' link head, (PtOp.remove (pageVa 1)).run 0 1 s = .ret 0 s' ∧
      Shape 300 s'.mem link head 1 tbl (Function.update f 1 none) ∧ s'.npages = 300 ∧
      s'.pageFreeList = some 2 ∧ Chain (fun p => (s'.pages p).ppLink) (some 2) (2 :: l) := by
  have hpg : pgnum (pageVa 1) = 1 := by decide
  have hmap : f (pgnum (pageVa 1)) = some (2, 5) := by
    rw [hpg]
    exact hx
  obtain ⟨s', q, hcall, hsame, -, -, -, hshape', hhead, hlist'⟩ :=
    page_remove_frees hshape (by decide) hmap href hlist hnot
  rw [hpg, hnp] at hshape'
  exact ⟨s', _, _, hcall, hshape', hsame.trans hnp, hhead, hlist'⟩

/-- Page 2 is taken for a second page table, and what the first one mapped is gone. -/
theorem wrap_lose {s : Kernel} {f : PageMap} {tbl : Nat → Option Nat} {link : Nat → Option Nat}
    {head : Option Nat} (hshape : Shape 300 s.mem link head 1 tbl f) (hnp : s.npages = 300)
    (hhead : s.pageFreeList = some 2) (htbl : tbl 100 = some 2) (hbare : tbl 101 = none) :
    ∃ s', (PtOp.insert 3 (pageVa 103425) 4).run 0 1 s = .ret 0 s' ∧
      pageLookup 1 (pageVa 102400) s' = .ret none s' := by
  have hpd : pdx (pageVa 103425) = 101 := by decide
  have hpt : ptx (pageVa 103425) = 1 := by decide
  have hpd' : pdx (pageVa 102400) = 100 := by decide
  have hpt' : ptx (pageVa 102400) = 0 := by decide
  have habsent : hasFlag (s.mem 1 (pdx (pageVa 103425))) pteP = false := by
    have hpde := hshape.pde 101 (by decide)
    rw [hbare] at hpde
    rw [hpd]
    split at hpde
    · cases hpde
    · rename_i hno
      exact Bool.eq_false_iff.2 hno
  have hpresent : hasFlag (s.mem 1 100) pteP = true ∧ pgnum (s.mem 1 100) = 2 := by
    have hpde := hshape.pde 100 (by decide)
    rw [htbl] at hpde
    split at hpde
    · rename_i hyes
      exact ⟨hyes, (Option.some.inj hpde).symm⟩
    · cases hpde
  have hspec : wp (pageInsert 0 1 3 (pageVa 103425) 4) _ _ s :=
    page_insert_new_table habsent hhead (by rw [hnp]; decide) (by rw [hnp]; decide) (by decide)
  obtain ⟨r, s', hcall, rfl, hsame, hmem⟩ := ret_of_wp hspec
  have hnp' : s'.npages = 300 := hsame.trans hnp
  refine ⟨s', hcall, page_lookup_empty (q := 2) ?_ ?_ (by rw [hnp']; decide) ?_⟩
  · rw [hmem, hpd, hpd']
    simpa using hpresent.1
  · rw [hmem, hpd, hpd']
    simpa using hpresent.2
  · rw [hmem, hpt, hpt']
    simp

/-- The counter of page 2 wraps around: in a run of legal calls the directory comes to disagree
with the map. -/
theorem page_table_wraps : wrapStart.maps 1 (fun _ => none) ∧
    ∃ s f, PtRun (fun _ _ _ => True) 0 1 wrapStart (fun _ => none) s f ∧ ¬ Agrees s 1 f := by
  refine ⟨wrap_start_maps, ?_⟩
  obtain ⟨s, f, tbl, l, hrun, hfilled, -, -⟩ := filled_run wrap_start_filled (Nat.le_refl 65537)
  have hbare : ∀ d, 100 ≤ d → tbl d = none := by
    intro d hd
    cases htbl : tbl d with
    | none => rfl
    | some q =>
        have hlt := (hfilled.tables d).1 (by rw [htbl]; rfl)
        omega
  -- page 2 is freed
  obtain ⟨s₁, hcall₁, hshape₁, hnp₁, hhead₁, hlist₁⟩ := wrap_remove hfilled
  have hlegal₁ : PtOp.Legal s 1 (.remove (pageVa 0)) := page_va_lt (by decide)
  have hrun₁ := hrun.snoc hlegal₁ trivial hcall₁
  have hmap₁ : (PtOp.remove (pageVa 0)).apply 0 f = Function.update f 0 none := by
    rw [PtOp.apply, pgnum_page_va (by decide)]
  rw [hmap₁] at hrun₁
  have hat : ∀ n, 0 < n → Function.update f 0 none n = if n < 65537 then some (2, 5) else none := by
    intro n hn
    rw [Function.update_of_ne (by omega), hfilled.map]
  -- page 2 becomes the table of page 3
  obtain ⟨s₂, hcall₂, hshape₂, hnp₂, href₂, hlist₂⟩ := wrap_retake hshape₁ hnp₁ hhead₁ hlist₁
    (hbare 100 (by decide)) (by rw [hat _ (by decide)]; rfl)
  have hthree : 3 ∉ 2 :: l := by
    rw [List.mem_cons]
    exact not_or.2 ⟨by decide, hfilled.off.2⟩
  have halloc₁ : Allocated s₁ 1 3 := by
    rw [← hhead₁] at hlist₁
    exact allocated_of_shape hshape₁ hlist₁ (by rw [hnp₁]; decide) (by decide)
      (fun d => (hfilled.clean d).2) hthree
  have hlegal₂ : PtOp.Legal s₁ 1 (.insert 3 (pageVa 102400) 4) :=
    ⟨page_va_lt (by decide), by decide, halloc₁⟩
  have hrun₂ := hrun₁.snoc hlegal₂ trivial hcall₂
  have hmap₂ : (PtOp.insert 3 (pageVa 102400) 4).apply 0 (Function.update f 0 none) =
      Function.update (Function.update f 0 none) 102400 (some (3, 5)) := by
    rw [PtOp.apply, if_pos rfl, pgnum_page_va (by decide)]
    rfl
  rw [hmap₂] at hrun₂
  -- it is freed again
  obtain ⟨s₃, link, head, hcall₃, hshape₃, hnp₃, hhead₃, hlist₃⟩ :=
    wrap_remove_again hshape₂ hnp₂ href₂ hlist₂ hfilled.off.1
      (by rw [Function.update_of_ne (by decide), hat 1 (by decide)]; rfl)
  have hlegal₃ : PtOp.Legal s₂ 1 (.remove (pageVa 1)) := page_va_lt (by decide)
  have hrun₃ := hrun₂.snoc hlegal₃ trivial hcall₃
  -- and taken for a second table
  obtain ⟨s₄, hcall₄, hlost⟩ := wrap_lose hshape₃ hnp₃ hhead₃ (Function.update_self ..)
    (by rw [Function.update_of_ne (by decide)]; exact hbare 101 (by decide))
  have halloc₃ : Allocated s₃ 1 3 := by
    refine ⟨by rw [hnp₃]; decide, by decide, fun d hd hpresent hpage => ?_, fun l' hl' => ?_⟩
    · have hpde := hshape₃.pde d hd
      rw [if_pos hpresent, hpage] at hpde
      by_cases hd100 : d = 100
      · rw [hd100, Function.update_self] at hpde
        exact absurd (Option.some.inj hpde) (by decide)
      · rw [Function.update_of_ne hd100] at hpde
        exact (hfilled.clean d).2 hpde
    · rw [hhead₃] at hl'
      rw [Chain.unique hl' hlist₃]
      exact hthree
  have hlegal₄ : PtOp.Legal s₃ 1 (.insert 3 (pageVa 103425) 4) :=
    ⟨page_va_lt (by decide), by decide, halloc₃⟩
  refine ⟨s₄, _, hrun₃.snoc hlegal₄ trivial hcall₄, fun hagrees => ?_⟩
  obtain ⟨r, hcall, hr⟩ := hagrees.lookup (pageVa 102400) (page_va_lt (by decide))
  rw [hlost] at hcall
  cases hcall
  rw [PtOp.apply, if_pos rfl, PtOp.apply, pgnum_page_va (by decide), pgnum_page_va (by decide),
    pgnum_page_va (by decide), Function.update_of_ne (by decide), Function.update_of_ne (by decide),
    Function.update_self] at hr
  cases hr

/-- Two insertions into the empty directory of `wrapStart`, and the removal of the first. -/
theorem page_table_refines_removal : ∃ s f,
    PtRun (fun s f op => op.Fits s 1 f) 0 1 wrapStart (fun _ => none) s f ∧
      f 0 = none ∧ f 1 = some (2, 5) ∧ Agrees s 1 f := by
  obtain ⟨hlegal₁, s₁, tbl₁, l₁, hcall₁, hfilled₁, -⟩ := wrap_start_filled.step (by decide)
  have hrun₁ : PtRun (fun s f op => op.Fits s 1 f) 0 1 wrapStart (fun _ => none) s₁ _ :=
    PtRun.nil.snoc hlegal₁ (.inl (.inr (by decide))) hcall₁
  obtain ⟨hlegal₂, s₂, tbl₂, l₂, hcall₂, hfilled₂, -⟩ := hfilled₁.step (by decide)
  have hrun₂ := hrun₁.snoc hlegal₂ (.inl (.inr (by rw [hfilled₁.ref]; decide))) hcall₂
  have hlegal₃ : PtOp.Legal s₂ 1 (.remove (pageVa 0)) := page_va_lt (by decide)
  obtain ⟨r, s₃, hcall₃, -⟩ := ret_of_wp (PtOp.spec (k := 0) (hrun₂.maps wrap_start_maps) hlegal₃
    trivial)
  have hrun₃ := hrun₂.snoc hlegal₃ trivial hcall₃
  have hmap : ∀ f, (PtOp.remove (pageVa 0)).apply r f = Function.update f 0 none := by
    intro f
    rw [PtOp.apply, pgnum_page_va (by decide)]
  refine ⟨s₃, _, hrun₃, ?_, ?_, (page_table_refines 0 1 wrapStart s₃ _ _ wrap_start_maps hrun₃).1⟩
  · rw [hmap, Function.update_self]
  · rw [hmap, Function.update_of_ne (by decide), hfilled₂.map]
    rfl

end Labs.Jos
