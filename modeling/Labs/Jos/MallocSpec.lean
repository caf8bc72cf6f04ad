import Labs.Jos.Malloc

/-!
# What `malloc` and `free` do

The allocator of `lib/malloc.c` is a bump allocator in counted pages. `Heap.pages` is the abstract
allocator that a heap stands for. `malloc` opens runs, cuts blocks off and drops pages there
(`malloc_spec`), as long as the call does not overflow a count and does not make the pointer leave
the last page of the region; `free` frees blocks (`free_eq`).
-/

namespace Labs.Jos.Malloc

open Prog

/-- The pages between `mbegin` and `mend`. -/
def InRegion (p : Nat) : Prop := 0x8000 ≤ p ∧ p < 0x10000

instance (p : Nat) : Decidable (InRegion p) := inferInstanceAs (Decidable (_ ∧ _))

/-- Page `p` is mapped. -/
def Heap.mappedPage (h : Heap) (p : Nat) : Bool := h.table (p / 1024) && hasFlag (h.pte p) pteP

/-- The index of the last word of page `p`. -/
@[irreducible] def countIndex (p : Nat) : Nat := p * 1024 + 1023

/-- The allocator that the heap stands for. The count of a page is in its last word. -/
def Heap.pages (h : Heap) : Bump where
  ptr := h.mptr.toNat
  page := fun p =>
    if InRegion p ∧ h.mappedPage p = true then some (hasFlag (h.pte p) pteContinued) else none
  count := fun p => (h.mem (countIndex p)).toNat

/-- User code may write the pages of the region. -/
def Heap.Writable (h : Heap) : Prop :=
  ∀ p, h.pages.page p ≠ none → hasFlag (h.pte p) pteU = true ∧ hasFlag (h.pte p) pteW = true

/-! ## Words -/

theorem to_nat_add {a b : Word} (h : a.toNat + b.toNat < 4294967296) :
    (a + b).toNat = a.toNat + b.toNat := by
  rw [BitVec.toNat_add]
  exact Nat.mod_eq_of_lt h

theorem roundup4_to_nat (n : Word) :
    (roundup4 n).toNat = (n.toNat + 3) % 4294967296 / 4 * 4 := by
  have hlt := n.isLt
  have hup : (n + 4 - 1).toNat = (n.toNat + 3) % 4294967296 := by
    have hfour : (4 : Word).toNat = 4 := rfl
    have hone : (1 : Word).toNat = 1 := rfl
    rw [BitVec.toNat_sub, BitVec.toNat_add, hfour, hone]
    omega
  have hmod : ((n + 4 - 1) % 4).toNat = (n + 4 - 1).toNat % 4 := rfl
  rw [roundup4, BitVec.toNat_sub_of_le (by rw [BitVec.le_def, hmod]; exact Nat.mod_le _ _), hmod, hup]
  omega

theorem rounddown_to_nat (a : Word) : (rounddown a).toNat = a.toNat / 4096 * 4096 := by
  have hmod : (a % pgsizeW).toNat = a.toNat % 4096 := rfl
  rw [rounddown, BitVec.toNat_sub_of_le (by rw [BitVec.le_def, hmod]; exact Nat.mod_le _ _), hmod]
  omega

theorem run_offset_to_nat {j : Nat} (hj : j < 1048576) : (runOffset j).toNat = j * 4096 := by
  unfold runOffset
  rw [BitVec.toNat_ofNat]
  exact Nat.mod_eq_of_lt (by omega)

theorem mbegin_to_nat : mbegin.toNat = 0x08000000 := rfl

theorem mend_to_nat : mend.toNat = 0x10000000 := rfl

theorem maxmalloc_to_nat : maxmalloc.toNat = 0x100000 := rfl

theorem pgsize_w_to_nat : pgsizeW.toNat = 4096 := rfl

theorem mapped_eq (h : Heap) (va : Word) : h.mapped va = h.mappedPage (pgnum va) := by
  rw [Heap.mapped, Heap.mappedPage, pgnum_div]

/-! ## The page table -/

variable {h h' : Heap} {p q : Nat} {va w : Word}

theorem page_eq_some {goes : Bool} : h.pages.page p = some goes ↔
    InRegion p ∧ h.mappedPage p = true ∧ hasFlag (h.pte p) pteContinued = goes := by
  show (if InRegion p ∧ h.mappedPage p = true then some (hasFlag (h.pte p) pteContinued)
    else none) = some goes ↔ _
  split
  · rename_i hp
    rw [Option.some.injEq]
    exact ⟨fun hgoes => ⟨hp.1, hp.2, hgoes⟩, fun hgoes => hgoes.2.2⟩
  · rename_i hp
    exact ⟨fun hgoes => (by cases hgoes), fun hgoes => absurd ⟨hgoes.1, hgoes.2.1⟩ hp⟩

theorem page_eq_none : h.pages.page p = none ↔ ¬ (InRegion p ∧ h.mappedPage p = true) := by
  show (if InRegion p ∧ h.mappedPage p = true then some (hasFlag (h.pte p) pteContinued)
    else none) = none ↔ _
  split
  · rename_i hp
    exact ⟨fun hnone => (by cases hnone), fun hnot => absurd hp hnot⟩
  · rename_i hp
    exact ⟨fun _ => hp, fun _ => rfl⟩

theorem in_region_of_page (hp : h.pages.page p ≠ none) : InRegion p := by
  by_contra hnot
  exact hp (page_eq_none.2 fun hin => hnot hin.1)

/-- Unmapping a page of the region. -/
theorem page_unmap (h : Heap) (va : Word) (p : Nat) :
    (h.unmap va).pages.page p = if p = pgnum va then none else h.pages.page p := by
  unfold Heap.unmap
  split
  · by_cases hp : p = pgnum va
    · subst hp
      have hzero : hasFlag (0#32) pteP = false := by decide
      simp [Heap.pages, Heap.mappedPage, hzero]
    · simp [Heap.pages, Heap.mappedPage, hp]
  · rename_i hnot
    by_cases hp : p = pgnum va
    · subst hp
      rw [if_pos rfl, page_eq_none, ← mapped_eq]
      exact fun hin => hnot hin.2
    · rw [if_neg hp]

@[simp] theorem mptr_unmap (h : Heap) (va : Word) : (h.unmap va).mptr = h.mptr := by
  unfold Heap.unmap
  split <;> rfl

@[simp] theorem mem_unmap (h : Heap) (va : Word) : (h.unmap va).mem = h.mem := by
  unfold Heap.unmap
  split <;> rfl

@[simp] theorem table_unmap (h : Heap) (va : Word) : (h.unmap va).table = h.table := by
  unfold Heap.unmap
  split <;> rfl

theorem writable_unmap (hw : h.Writable) (va : Word) : (h.unmap va).Writable := by
  intro p hp
  rw [page_unmap] at hp
  have hne : p ≠ pgnum va := fun heq => hp (if_pos heq)
  rw [if_neg hne] at hp
  have hpte : (h.unmap va).pte p = h.pte p := by
    unfold Heap.unmap
    split
    · exact Function.update_of_ne hne _ _
    · rfl
  rw [hpte]
  exact hw p hp

/-- Mapping a new page in the region. -/
theorem page_map (h : Heap) (va perm : Word) (hin : InRegion (pgnum va)) (p : Nat) :
    (h.map va perm).pages.page p =
      if p = pgnum va then some (hasFlag (perm ||| pteP) pteContinued) else h.pages.page p := by
  by_cases hp : p = pgnum va
  · subst hp
    rw [if_pos rfl, page_eq_some]
    refine ⟨hin, ?_, ?_⟩
    · show (Function.update h.table (pdx va) true (pgnum va / 1024) &&
        hasFlag ((h.map va perm).pte (pgnum va)) pteP) = true
      rw [pgnum_div, Function.update_self, show (h.map va perm).pte (pgnum va) = perm ||| pteP from
        if_pos rfl, has_flag_or]
      simp [show hasFlag pteP pteP = true by decide]
    · rw [show (h.map va perm).pte (pgnum va) = perm ||| pteP from if_pos rfl]
  · rw [if_neg hp]
    have hpte : (h.map va perm).pte p =
        if p / 1024 = pdx va ∧ h.table (pdx va) = false then 0 else h.pte p := if_neg hp
    by_cases hnew : p / 1024 = pdx va ∧ h.table (pdx va) = false
    · rw [if_pos hnew] at hpte
      have hold : h.pages.page p = none := by
        rw [page_eq_none]
        rintro ⟨-, hmapped⟩
        rw [Heap.mappedPage, hnew.1, hnew.2] at hmapped
        cases hmapped
      rw [hold, page_eq_none]
      rintro ⟨-, hmapped⟩
      have hzero : hasFlag (0 : Word) pteP = false := by decide
      rw [Heap.mappedPage, hpte, hzero, Bool.and_false] at hmapped
      cases hmapped
    · rw [if_neg hnew] at hpte
      have hmapped : (h.map va perm).mappedPage p = h.mappedPage p := by
        show (Function.update h.table (pdx va) true (p / 1024) && hasFlag ((h.map va perm).pte p) pteP)
          = (h.table (p / 1024) && hasFlag (h.pte p) pteP)
        rw [hpte]
        by_cases htable : p / 1024 = pdx va
        · have hthere : h.table (pdx va) = true := by simpa [htable] using hnew
          rw [htable, Function.update_self, hthere]
        · rw [Function.update_of_ne htable]
      show (if InRegion p ∧ (h.map va perm).mappedPage p = true then _ else _) = _
      rw [hmapped, hpte]
      rfl

/-- The count in a new page is 0, and the others are as before. -/
theorem count_map (h : Heap) (va perm : Word) (p : Nat) :
    (h.map va perm).pages.count p = if p = pgnum va then 0 else h.pages.count p := by
  show (if countIndex p / 1024 = pgnum va then (0 : Word) else h.mem (countIndex p)).toNat = _
  rw [show countIndex p / 1024 = p by unfold countIndex; omega]
  split
  · rfl
  · rfl

theorem writable_map (hw : h.Writable) {perm : Word} (hu : hasFlag perm pteU = true)
    (hwr : hasFlag perm pteW = true) (hin : InRegion (pgnum va)) : (h.map va perm).Writable := by
  intro p hp
  rw [page_map h va perm hin] at hp
  by_cases hpp : p = pgnum va
  · subst hpp
    rw [show (h.map va perm).pte (pgnum va) = perm ||| pteP from if_pos rfl, has_flag_or, has_flag_or,
      hu, hwr]
    exact ⟨rfl, rfl⟩
  · rw [if_neg hpp] at hp
    have hpte : (h.map va perm).pte p = h.pte p := by
      have hcases : (h.map va perm).pte p =
        if p / 1024 = pdx va ∧ h.table (pdx va) = false then 0 else h.pte p := if_neg hpp
      rw [hcases, if_neg]
      rintro ⟨htable, hnone⟩
      refine hp (page_eq_none.2 fun hmapped => ?_)
      rw [Heap.mappedPage, htable, hnone] at hmapped
      exact absurd hmapped.2 (by simp)
    rw [hpte]
    exact hw p hp

/-! ## The pointer and the counts -/

theorem pages_turn (h : Heap) (a : Word) :
    ({ h with mptr := a } : Heap).pages = h.pages.turn a.toNat := rfl

/-- The address of the count of page `p`. -/
def slotOf (p : Nat) : Word := BitVec.ofNat 32 (p * 4096 + 4092)

theorem slot_of_to_nat (hp : InRegion p) : (slotOf p).toNat = p * 4096 + 4092 := by
  rw [slotOf, BitVec.toNat_ofNat]
  have := hp.2
  omega

theorem pgnum_slot_of (hp : InRegion p) : pgnum (slotOf p) = p := by
  rw [pgnum_eq, slot_of_to_nat hp]
  omega

/-- Store a new count in page `p`. -/
def Heap.setCount (h : Heap) (p : Nat) (w : Word) : Heap :=
  { h with mem := Function.update h.mem (countIndex p) w }

theorem pages_set_count (h : Heap) (p : Nat) (w : Word) : (h.setCount p w).pages =
    { h.pages with count := Function.update h.pages.count p w.toNat } := by
  have hcount : (h.setCount p w).pages.count = Function.update h.pages.count p w.toNat := by
    funext q
    show (Function.update h.mem (countIndex p) w (countIndex q)).toNat = _
    by_cases hq : q = p
    · subst hq
      rw [Function.update_self, Function.update_self]
    · have hne : countIndex q ≠ countIndex p := by
        unfold countIndex
        omega
      rw [Function.update_of_ne hne, Function.update_of_ne hq]
      rfl
  exact congrArg (Bump.mk h.mptr.toNat h.pages.page) hcount

/-- The last word of a mapped page can be loaded. -/
theorem load_slot (hw : h.Writable) (hp : h.pages.page p ≠ none) :
    loadWord (slotOf p) h = .ret (h.mem (countIndex p)) h := by
  have hin := in_region_of_page hp
  have hmapped : h.mapped (slotOf p) = true := by
    rw [mapped_eq, pgnum_slot_of hin]
    by_contra hnot
    exact hp (page_eq_none.2 fun hin' => hnot hin'.2)
  show (if h.mapped (slotOf p) && hasFlag (h.pte (pgnum (slotOf p))) pteU then
    (pure (h.mem ((slotOf p).toNat / 4)) : Alloc Word) else _) h = _
  rw [hmapped, pgnum_slot_of hin, (hw p hp).1, slot_of_to_nat hin,
    show (p * 4096 + 4092) / 4 = countIndex p by unfold countIndex; omega]
  rfl

/-- The last word of a mapped page can be stored. -/
theorem store_slot (hw : h.Writable) (hp : h.pages.page p ≠ none) (w : Word) :
    storeWord (slotOf p) w h = .ret () (h.setCount p w) := by
  have hin := in_region_of_page hp
  have hmapped : h.mapped (slotOf p) = true := by
    rw [mapped_eq, pgnum_slot_of hin]
    by_contra hnot
    exact hp (page_eq_none.2 fun hin' => hnot hin'.2)
  show (if h.mapped (slotOf p) && hasFlag (h.pte (pgnum (slotOf p))) pteU &&
    hasFlag (h.pte (pgnum (slotOf p))) pteW then
    (modify fun h => { h with mem := Function.update h.mem ((slotOf p).toNat / 4) w } : Alloc Unit)
    else _) h = _
  rw [hmapped, pgnum_slot_of hin, (hw p hp).1, (hw p hp).2, slot_of_to_nat hin,
    show (p * 4096 + 4092) / 4 = countIndex p by unfold countIndex; omega]
  rfl

/-! ## Pages of the region -/

/-- The address of page `p`. -/
def pageStart (p : Nat) : Word := BitVec.ofNat 32 (p * 4096)

theorem page_start_to_nat (hp : p < 1048576) : (pageStart p).toNat = p * 4096 := by
  rw [pageStart, BitVec.toNat_ofNat]
  omega

theorem pgnum_page_start (hp : p < 1048576) : pgnum (pageStart p) = p := by
  rw [pgnum_eq, page_start_to_nat hp]
  omega

theorem page_start_succ (p : Nat) : pageStart p + pgsizeW = pageStart (p + 1) := by
  rw [pageStart, pageStart, Nat.succ_mul, BitVec.ofNat_add]
  rfl

theorem page_start_slot (hin : InRegion p) : pageStart p + pgsizeW - 4 = slotOf p := by
  have hlt := hin.2
  apply BitVec.eq_of_toNat_eq
  have hfour : (4 : Word).toNat = 4 := rfl
  rw [page_start_succ, BitVec.toNat_sub, hfour, page_start_to_nat (by omega), slot_of_to_nat hin]
  omega

theorem rounddown_eq_page_start (va : Word) : rounddown va = pageStart (pgnum va) := by
  have hlt := va.isLt
  apply BitVec.eq_of_toNat_eq
  rw [rounddown_to_nat, pgnum_eq, page_start_to_nat (by omega)]

theorem page_start_mod (hp : p < 1048576) : pageStart p % pgsizeW = 0 := by
  apply BitVec.eq_of_toNat_eq
  rw [BitVec.toNat_umod, page_start_to_nat hp, pgsize_w_to_nat]
  exact Nat.mul_mod_left _ _

theorem pages_unmap (hp : p < 1048576) : (h.unmap (pageStart p)).pages =
    { h.pages with page := Function.update h.pages.page p none } := by
  have hpage : (h.unmap (pageStart p)).pages.page = Function.update h.pages.page p none := by
    funext q
    rw [page_unmap, pgnum_page_start hp]
    by_cases hq : q = p
    · rw [if_pos hq, hq, Function.update_self]
    · rw [if_neg hq, Function.update_of_ne hq]
  have hcount : (h.unmap (pageStart p)).pages.count = h.pages.count := by
    funext q
    show ((h.unmap (pageStart p)).mem (countIndex q)).toNat = _
    rw [mem_unmap]
    rfl
  have hptr : (h.unmap (pageStart p)).pages.ptr = h.pages.ptr :=
    congrArg BitVec.toNat (mptr_unmap h _)
  show Bump.mk _ _ _ = Bump.mk _ _ _
  rw [← hpage, ← hcount, ← hptr]
  rfl

/-- The kernel takes the address of a page of the region. -/
theorem page_start_ok (hin : InRegion p) :
    ¬ (utop ≤ pageStart p ∨ pageStart p % pgsizeW ≠ 0) := by
  have hlt := hin.2
  rintro (hle | hmod)
  · rw [BitVec.le_def, utop_to_nat, page_start_to_nat (by omega)] at hle
    omega
  · exact hmod (page_start_mod (by omega))

theorem sys_page_unmap_eq (hin : InRegion p) :
    sysPageUnmap (pageStart p) h = .ret () (h.unmap (pageStart p)) := by
  rw [sysPageUnmap, if_neg (page_start_ok hin)]
  rfl

/-- The entry of a mapped page. -/
theorem uvpt_entry_eq {goes : Bool} (hp : h.pages.page p = some goes) :
    ∃ w, uvptEntry (pageStart p) h = .ret w h ∧ hasFlag w pteContinued = goes := by
  obtain ⟨hin, hmapped, hgoes⟩ := page_eq_some.1 hp
  have hlt := hin.2
  refine ⟨h.pte p, ?_, hgoes⟩
  have htable : h.table (pdx (pageStart p)) = true := by
    rw [← pgnum_div, pgnum_page_start (by omega)]
    exact (Bool.and_eq_true_iff.1 hmapped).1
  show (if h.table (pdx (pageStart p)) = true then
    (gets fun h => h.pte (pgnum (pageStart p)) : Alloc Word) else _) h = _
  rw [if_pos htable, pgnum_page_start (by omega)]
  rfl

/-! ## `free` -/

/-- The loop of `free` unmaps the pages of a run up to the last. -/
theorem free_loop_eq {f l : Nat} (fuel : Nat) (hw : h.Writable) (hfl : f ≤ l) (hfuel : l - f < fuel)
    (hbody : ∀ p, f ≤ p → p < l → h.pages.page p = some true) (htail : h.pages.page l = some false) :
    ∃ h', freeLoop fuel (pageStart f) h = .ret (pageStart l) h' ∧ h'.mptr = h.mptr ∧
      h'.mem = h.mem ∧ h'.Writable ∧
      ∀ p, h'.pages.page p = if f ≤ p ∧ p < l then none else h.pages.page p := by
  have hl : InRegion l := (page_eq_some.1 htail).1
  induction fuel generalizing f h with
  | zero => omega
  | succ fuel ih =>
      by_cases hf : f = l
      · subst hf
        obtain ⟨w, hentry, hcont⟩ := uvpt_entry_eq htail
        refine ⟨h, ?_, rfl, rfl, hw, fun p => (if_neg (by omega)).symm⟩
        rw [freeLoop, bind_of_ret hentry, hcont]
        rfl
      · have hpage := hbody f (Nat.le_refl _) (by omega)
        have hin : InRegion f := (page_eq_some.1 hpage).1
        obtain ⟨w, hentry, hcont⟩ := uvpt_entry_eq hpage
        have hpages := page_unmap h (pageStart f)
        have hlt := hl.2
        rw [pgnum_page_start (by omega)] at hpages
        obtain ⟨h', hret, hptr, hmem, hw', hpages'⟩ := ih (h := h.unmap (pageStart f)) (f := f + 1)
          (writable_unmap hw _) (by omega) (by omega)
          (fun p hp hpl => by rw [hpages, if_neg (by omega)]; exact hbody p (by omega) hpl)
          (by rw [hpages, if_neg (by omega)]; exact htail)
        refine ⟨h', ?_, by rw [hptr, mptr_unmap], by rw [hmem, mem_unmap], hw', fun p => ?_⟩
        · have hnext : mbegin ≤ pageStart (f + 1) ∧ pageStart (f + 1) < mend := by
            have hge := hin.1
            rw [BitVec.le_def, BitVec.lt_def, page_start_to_nat (by omega), mbegin_to_nat,
              mend_to_nat]
            omega
          rw [freeLoop, bind_of_ret hentry, hcont, if_pos rfl, bind_of_ret (sys_page_unmap_eq hin)]
          rw [page_start_succ, if_pos hnext]
          exact hret
        · rw [hpages', hpages]
          by_cases hpf : p = f
          · subst hpf
            rw [if_neg (by omega), if_pos rfl, if_pos (by omega)]
          · rw [if_neg hpf]
            by_cases hp : f ≤ p ∧ p < l
            · rw [if_pos (by omega), if_pos hp]
            · rw [if_neg (by omega), if_neg hp]

/-- `free` of an address in page `f`, when the run of `f` ends in page `l`, unmaps the pages before
`l` and leaves that one. -/
theorem free_eq {v : Word} {f l : Nat} (hw : h.Writable) (hv : pgnum v = f) (hfl : f ≤ l)
    (hbody : ∀ p, f ≤ p → p < l → h.pages.page p = some true) (htail : h.pages.page l = some false)
    (hcount : 0 < h.pages.count l) :
    ∃ h', free v h = .ret () h' ∧ h'.Writable ∧ h'.pages = Bump.release { h.pages with
      page := fun p => if f ≤ p ∧ p < l then none else h.pages.page p } l := by
  have hl : InRegion l := (page_eq_some.1 htail).1
  have hf : InRegion f := by
    by_cases heq : f = l
    · rw [heq]
      exact hl
    · exact (page_eq_some.1 (hbody f (Nat.le_refl _) (by omega))).1
  have hrange : mbegin ≤ v ∧ v < mend := by
    rw [pgnum_eq] at hv
    obtain ⟨hge, hlt⟩ := hf
    rw [BitVec.le_def, BitVec.lt_def, mbegin_to_nat, mend_to_nat]
    omega
  have hne : v ≠ 0 := by
    rintro rfl
    exact absurd hrange.1 (by decide)
  obtain ⟨h₁, hret, hptr, hmem, hw₁, hpages⟩ := free_loop_eq 32769 hw hfl
    (by have := hf.1; have := hl.2; omega) hbody htail
  have htail₁ : h₁.pages.page l = some false := by rw [hpages, if_neg (by omega), htail]
  have hsome : h₁.pages.page l ≠ none := by simp [htail₁]
  generalize hw' : h₁.mem (countIndex l) - 1 = w
  have hval : w.toNat = h.pages.count l - 1 := by
    have hone : (1 : Word).toNat = 1 := rfl
    rw [← hw', hmem, BitVec.toNat_sub_of_le ?_, hone]
    · rfl
    · rw [BitVec.le_def, hone]
      exact hcount
  have hload₂ : loadWord (slotOf l) (h₁.setCount l w) = .ret w (h₁.setCount l w) := by
    have hpage₂ : (h₁.setCount l w).pages.page l ≠ none := by
      rw [pages_set_count]
      exact hsome
    have hw₂ : (h₁.setCount l w).Writable := by
      intro p hp
      rw [pages_set_count] at hp
      exact hw₁ p hp
    rw [load_slot hw₂ hpage₂]
    show Outcome.ret (Function.update h₁.mem (countIndex l) w (countIndex l)) _ = _
    rw [Function.update_self]
  have hfree : free v h =
      (if w = 0 then sysPageUnmap (pageStart l) else pure () : Alloc Unit) (h₁.setCount l w) := by
    rw [free, if_neg hne, if_neg (not_not_intro hrange), rounddown_eq_page_start, hv,
      bind_of_ret hret, page_start_slot hl, bind_of_ret (load_slot hw₁ hsome), hw',
      bind_of_ret (store_slot hw₁ hsome w), bind_of_ret hload₂]
  have hcounts : Function.update h₁.pages.count l w.toNat =
      Function.update h.pages.count l (h.pages.count l - 1) := by
    rw [hval]
    congr 1
    funext p
    show (h₁.mem _).toNat = (h.mem _).toNat
    rw [hmem]
  have hbump : (h₁.setCount l w).pages = ⟨h.pages.ptr,
      fun p => if f ≤ p ∧ p < l then none else h.pages.page p,
      Function.update h.pages.count l (h.pages.count l - 1)⟩ := by
    rw [pages_set_count, hcounts, Bump.mk.injEq]
    exact ⟨congrArg BitVec.toNat hptr, funext hpages, rfl⟩
  have hw₂ : (h₁.setCount l w).Writable := by
    intro p hp
    rw [pages_set_count] at hp
    exact hw₁ p hp
  by_cases hzero : w = 0
  · have hlt := hl.2
    refine ⟨(h₁.setCount l w).unmap (pageStart l), ?_, writable_unmap hw₂ _, ?_⟩
    · rw [hfree, if_pos hzero, sys_page_unmap_eq hl]
    · have hcz : h.pages.count l - 1 = 0 := by
        rw [← hval, hzero]
        rfl
      rw [pages_unmap (by omega), hbump, Bump.release, if_pos hcz]
  · refine ⟨h₁.setCount l w, ?_, hw₂, ?_⟩
    · rw [hfree, if_neg hzero]
      rfl
    · have hcz : ¬ (h.pages.count l - 1 = 0) := by
        rw [← hval]
        exact fun hz => hzero (BitVec.eq_of_toNat_eq hz)
      rw [hbump, Bump.release, if_neg hcz]

/-! ## The search -/

/-- `isfree` of a page returns, and if it returns 1 the pages up to the end are not mapped. -/
theorem isfree_loop_eq (stop : Word) (fuel : Nat) (hp : p ≤ 0x10000)
    (hfuel : 0x10000 - p < fuel) :
    ∃ r, isfreeLoop stop fuel (pageStart p) h = .ret r h ∧ (r = true →
      ∀ q, p ≤ q → q * 4096 < stop.toNat → q < 0x10000 ∧ h.mappedPage q = false) := by
  induction fuel generalizing p with
  | zero => omega
  | succ fuel ih =>
      have hva := page_start_to_nat (p := p) (by omega)
      have hget : (get : Alloc Heap) h = .ret h h := rfl
      rw [isfreeLoop]
      by_cases hlt : pageStart p < stop
      · rw [if_pos hlt, bind_of_ret hget]
        by_cases hbad : mend ≤ pageStart p ∨ h.mapped (pageStart p) = true
        · rw [if_pos hbad]
          exact ⟨false, rfl, fun hr => (by cases hr)⟩
        · rw [if_neg hbad, page_start_succ]
          rw [not_or, BitVec.le_def, mend_to_nat, hva, mapped_eq, pgnum_page_start (by omega)] at hbad
          obtain ⟨r, hret, hfree⟩ := ih (p := p + 1) (by omega) (by omega)
          refine ⟨r, hret, fun hr q hq hstop => ?_⟩
          by_cases hqp : q = p
          · subst hqp
            exact ⟨by omega, by simpa using hbad.2⟩
          · exact hfree hr q (by omega) hstop
      · rw [if_neg hlt]
        rw [BitVec.lt_def, hva] at hlt
        refine ⟨true, rfl, fun _ q hq hstop => ?_⟩
        have hle : p * 4096 ≤ q * 4096 := Nat.mul_le_mul_right _ hq
        omega

/-- The search from a page of the region ends at a page of the region. If it is successful, the
pages from there on are not mapped and lie in the region. -/
theorem search_loop_eq {n : Word} (fuel nwrap : Nat) (hp : InRegion p) (hptr : h.mptr = pageStart p)
    (hwrap : nwrap ≤ 1) (hfuel : (1 - nwrap) * 0x8000 + (0x10000 - p) < fuel) :
    ∃ r p', searchLoop n fuel nwrap h = .ret r { h with mptr := pageStart p' } ∧ InRegion p' ∧
      (r = true → ∀ q, p' ≤ q → q * 4096 < (pageStart p' + (n + 4)).toNat →
        q < 0x10000 ∧ h.mappedPage q = false) := by
  induction fuel generalizing p nwrap h with
  | zero => omega
  | succ fuel ih =>
      obtain ⟨hge, hlt⟩ := hp
      have hlap : nwrap = 0 → (1 - (nwrap + 1)) * 0x8000 + (0x10000 - 0x8000) < fuel := by
        rintro rfl
        omega
      have hgets : (gets Heap.mptr : Alloc Word) h = .ret (pageStart p) h := by
        rw [← hptr]
        rfl
      obtain ⟨r, hret, hfree⟩ := isfree_loop_eq (h := h) (pageStart p + (n + 4)) 65537
        (Nat.le_of_lt hlt) (by omega)
      have hisfree : isfree (pageStart p) (n + 4) h = .ret r h := hret
      rw [search_loop_succ, bind_of_ret hgets, bind_of_ret hisfree]
      cases r with
      | true =>
          refine ⟨true, p, ?_, ⟨hge, hlt⟩, hfree⟩
          rw [← hptr]
          rfl
      | false =>
          have hmodify : (modify fun h => { h with mptr := h.mptr + pgsizeW } : Alloc Unit) h =
              .ret () { h with mptr := pageStart (p + 1) } := by
            rw [← page_start_succ, ← hptr]
            rfl
          have hgets' : (gets Heap.mptr : Alloc Word) { h with mptr := pageStart (p + 1) } =
              .ret (pageStart (p + 1)) { h with mptr := pageStart (p + 1) } := rfl
          have hval := page_start_to_nat (p := p + 1) (by omega)
          rw [if_neg (by simp), bind_of_ret hmodify, bind_of_ret hgets']
          by_cases hend : pageStart (p + 1) = mend
          · have hp' : p + 1 = 0x10000 := by
              have := congrArg BitVec.toNat hend
              rw [hval, mend_to_nat] at this
              omega
            have hback : (modify fun h => { h with mptr := mbegin } : Alloc Unit)
                { h with mptr := pageStart (p + 1) } = .ret () { h with mptr := pageStart 0x8000 } :=
              rfl
            rw [if_pos hend, bind_of_ret hback]
            by_cases htwice : nwrap + 1 = 2
            · rw [if_pos htwice]
              exact ⟨false, 0x8000, rfl, by decide, fun hr => (by cases hr)⟩
            · rw [if_neg htwice]
              obtain ⟨r, p', hret', hin, hfree'⟩ := ih (h := { h with mptr := pageStart 0x8000 })
                (nwrap + 1) (p := 0x8000) (by decide) rfl (by omega) (hlap (by omega))
              exact ⟨r, p', hret', hin, hfree'⟩
          · have hp' : p + 1 ≠ 0x10000 := by
              rintro heq
              exact hend (by rw [heq]; rfl)
            rw [if_neg hend]
            obtain ⟨r, p', hret', hin, hfree'⟩ := ih (h := { h with mptr := pageStart (p + 1) })
              nwrap (p := p + 1) ⟨by omega, by omega⟩ rfl hwrap (by omega)
            exact ⟨r, p', hret', hin, hfree'⟩

/-! ## Mapping a run -/

theorem page_start_add (p j : Nat) : pageStart p + runOffset j = pageStart (p + j) := by
  rw [pageStart, runOffset, pageStart, Nat.add_mul, BitVec.ofNat_add]

/-- The number of pages for `n` bytes and a count. -/
def runPages (n : Word) : Nat := (n.toNat + 4 + 4095) / 4096

theorem run_pages_bounds {n : Word} (hn : n.toNat + 4 ≤ 0x100000) :
    0 < runPages n ∧ runPages n ≤ 256 := by
  unfold runPages
  omega

/-- Page `j` belongs to the run. -/
theorem run_offset_lt_iff {n : Word} (hn : n.toNat + 4 ≤ 0x100000) {j : Nat} (hj : j ≤ 256) :
    runOffset j < n + 4 ↔ j < runPages n := by
  have hfour : (4 : Word).toNat = 4 := rfl
  rw [BitVec.lt_def, run_offset_to_nat (by omega), to_nat_add (by omega), hfour]
  unfold runPages
  omega

/-- Page `j` of the run is not the last. -/
theorem run_goes_on_iff {n : Word} (hn : n.toNat + 4 ≤ 0x100000) {j : Nat} (hj : j < 256) :
    runOffset j + pgsizeW < n + 4 ↔ j + 1 < runPages n := by
  have hsucc : runOffset j + pgsizeW = runOffset (j + 1) := by
    rw [runOffset, runOffset, Nat.succ_mul, BitVec.ofNat_add]
    rfl
  rw [hsucc, run_offset_lt_iff hn (by omega)]

/-- From `h` to `h'` the first `j` of the `k` pages from `p` on have been mapped. -/
structure RunMapped (h : Heap) (p k j : Nat) (h' : Heap) : Prop where
  ptr : h'.mptr = h.mptr
  writable : h'.Writable
  page : ∀ q, h'.pages.page q =
    if p ≤ q ∧ q < p + j then some (decide (q + 1 < p + k)) else h.pages.page q
  count : ∀ q, h.pages.page q ≠ none → h'.pages.count q = h.pages.count q

/-- The permissions of a page of the run. -/
def runPerm (n : Word) (j : Nat) : Word :=
  pteP ||| pteU ||| pteW ||| if runOffset j + pgsizeW < n + 4 then pteContinued else 0

theorem run_perm_spec (n : Word) (j : Nat) : badPerm (runPerm n j) = false ∧
    hasFlag (runPerm n j) pteU = true ∧ hasFlag (runPerm n j) pteW = true ∧
    hasFlag (runPerm n j ||| pteP) pteContinued = decide (runOffset j + pgsizeW < n + 4) := by
  unfold runPerm
  split
  · rename_i hlt
    rw [decide_eq_true hlt]
    decide
  · rename_i hlt
    rw [decide_eq_false hlt]
    decide

/-- `sys_page_alloc` for page `j` of a run. -/
theorem sys_page_alloc_eq (avail : Bool) {n : Word} {j : Nat} (hin : InRegion p) :
    sysPageAlloc avail (pageStart p) (runPerm n j) h =
      if avail = true then .ret true (h.map (pageStart p) (runPerm n j)) else .ret false h := by
  obtain ⟨hutop, hmod⟩ := not_or.1 (page_start_ok hin)
  have hcond : (utop ≤ pageStart p ∨ pageStart p % pgsizeW ≠ 0 ∨ badPerm (runPerm n j) = true ∨
      (!avail) = true) ↔ avail = false := by
    rw [(run_perm_spec n j).1]
    simp [hutop, not_not.1 hmod]
  unfold sysPageAlloc
  by_cases havail : avail = true
  · rw [if_neg (by rw [hcond, havail]; simp), if_pos havail]
    rfl
  · rw [if_pos (by rw [hcond]; simpa using havail), if_neg havail]
    rfl

theorem RunMapped.next {n : Word} {j : Nat} {h₁ : Heap}
    (hrun : RunMapped h p (runPages n) j h₁) (hn : n.toNat + 4 ≤ 0x100000) (hj : j < runPages n)
    (hge : 0x8000 ≤ p) (hend : p + runPages n ≤ 0x10000) (hfree : h.pages.page (p + j) = none) :
    RunMapped h p (runPages n) (j + 1) (h₁.map (pageStart (p + j)) (runPerm n j)) := by
  have hlast : j + 1 < runPages n ↔ p + j + 1 < p + runPages n := by omega
  have hin : InRegion (p + j) := ⟨by omega, by omega⟩
  have hpgnum := pgnum_page_start (p := p + j) (by omega)
  have hin' : InRegion (pgnum (pageStart (p + j))) := by rwa [hpgnum]
  obtain ⟨-, hu, hw, hcont⟩ := run_perm_spec n j
  have hbound := (run_pages_bounds hn).2
  refine ⟨hrun.ptr, writable_map hrun.writable hu hw hin', fun q => ?_, fun q hq => ?_⟩
  · rw [page_map _ _ _ hin', hpgnum, hcont, hrun.page]
    by_cases hqj : q = p + j
    · subst hqj
      rw [if_pos rfl, if_pos (by omega)]
      refine congrArg some (decide_eq_decide.2 ?_)
      rw [run_goes_on_iff hn (by omega), hlast]
    · rw [if_neg hqj]
      by_cases hq : p ≤ q ∧ q < p + j
      · rw [if_pos hq, if_pos (by omega)]
      · rw [if_neg hq, if_neg (by omega)]
  · rw [count_map, hpgnum, if_neg, hrun.count q hq]
    rintro rfl
    exact hq hfree

/-- The loop that gives a run up unmaps its pages. -/
theorem unmap_loop_eq (j : Nat) (hw : h.Writable) (hge : 0x8000 ≤ p) (hend : p + j < 0x10000) :
    ∃ h', unmapLoop (pageStart p) j h = .ret () h' ∧ h'.mptr = h.mptr ∧ h'.mem = h.mem ∧
      h'.Writable ∧ ∀ q, h'.pages.page q = if p ≤ q ∧ q ≤ p + j then none else h.pages.page q := by
  have hin : InRegion (p + j) := ⟨by omega, hend⟩
  have hpages := page_unmap h (pageStart (p + j))
  rw [pgnum_page_start (by omega)] at hpages
  induction j generalizing h with
  | zero =>
      refine ⟨_, sys_page_unmap_eq hin, mptr_unmap _ _, mem_unmap _ _, writable_unmap hw _,
        fun q => ?_⟩
      rw [Nat.add_zero] at hpages
      rw [hpages]
      by_cases hq : q = p
      · rw [if_pos hq, if_pos (by omega)]
      · rw [if_neg hq, if_neg (by omega)]
  | succ j ih =>
      have hin' : InRegion (p + j) := ⟨by omega, by omega⟩
      have hpages' := page_unmap (h.unmap (pageStart (p + (j + 1)))) (pageStart (p + j))
      rw [pgnum_page_start (by omega)] at hpages'
      obtain ⟨h', hret, hptr, hmem, hw', hpage⟩ :=
        ih (h := h.unmap (pageStart (p + (j + 1)))) (writable_unmap hw _) (by omega) hin' hpages'
      refine ⟨h', ?_, by rw [hptr, mptr_unmap], by rw [hmem, mem_unmap], hw', fun q => ?_⟩
      · rw [unmap_loop_succ, page_start_add, bind_of_ret (sys_page_unmap_eq hin)]
        exact hret
      · rw [hpage, hpages]
        by_cases hq : q = p + (j + 1)
        · rw [if_neg (by omega), if_pos hq, if_pos (by omega)]
        · rw [if_neg hq]
          by_cases hin'' : p ≤ q ∧ q ≤ p + j
          · rw [if_pos hin'', if_pos (by omega)]
          · rw [if_neg hin'', if_neg (by omega)]

/-- The loop that maps a run maps all its pages or none. -/
theorem alloc_loop_eq (avail : Nat → Bool) {n : Word} {j : Nat} {h₁ : Heap} (fuel : Nat)
    (hrun : RunMapped h p (runPages n) j h₁) (hptr : h.mptr = pageStart p)
    (hn : n.toNat + 4 ≤ 0x100000) (hj : j ≤ runPages n) (hge : 0x8000 ≤ p)
    (hend : p + runPages n ≤ 0x10000)
    (hfree : ∀ q, p ≤ q → q < p + runPages n → h.pages.page q = none)
    (hfuel : runPages n - j < fuel) :
    ∃ r h', allocLoop avail n fuel j h₁ = .ret r h' ∧
      (r = some (runOffset (runPages n)) ∧ RunMapped h p (runPages n) (runPages n) h' ∨
        r = none ∧ RunMapped h p (runPages n) 0 h') := by
  have hbound := (run_pages_bounds hn).2
  induction fuel generalizing j h₁ with
  | zero => omega
  | succ fuel ih =>
      rw [alloc_loop_succ]
      dsimp only
      by_cases hlt : j < runPages n
      · have hin : InRegion (p + j) := ⟨by omega, by omega⟩
        have hgets : (gets Heap.mptr : Alloc Word) h₁ = .ret (pageStart p) h₁ := by
          rw [← hptr, ← hrun.ptr]
          rfl
        have halloc := sys_page_alloc_eq (avail j) (h := h₁) (n := n) (j := j) hin
        rw [if_pos ((run_offset_lt_iff hn (by omega)).2 hlt), bind_of_ret hgets, page_start_add]
        change ∃ r h', (do
          if ← sysPageAlloc (avail j) (pageStart (p + j)) (runPerm n j) then
            allocLoop avail n fuel (j + 1)
          else
            unmapLoop (pageStart p) j
            pure none) h₁ = .ret r h' ∧ _
        by_cases havail : avail j = true
        · rw [if_pos havail] at halloc
          rw [bind_of_ret halloc, if_pos rfl]
          exact ih (hrun.next hn hlt hge hend (hfree _ (by omega) (by omega))) (by omega) (by omega)
        · rw [if_neg havail] at halloc
          rw [bind_of_ret halloc, if_neg (by simp)]
          obtain ⟨h', hret, hptr', hmem, hw', hpage⟩ :=
            unmap_loop_eq j hrun.writable hge (by omega : p + j < 0x10000)
          rw [bind_of_ret hret]
          refine ⟨none, h', rfl, .inr ⟨rfl, hptr'.trans hrun.ptr, hw', fun q => ?_, fun q hq => ?_⟩⟩
          · rw [hpage, hrun.page, if_neg (by omega : ¬ (p ≤ q ∧ q < p + 0))]
            by_cases hq : p ≤ q ∧ q ≤ p + j
            · rw [if_pos hq, hfree q hq.1 (by omega)]
            · rw [if_neg hq, if_neg (by omega)]
          · rw [← hrun.count q hq]
            show (h'.mem _).toNat = (h₁.mem _).toNat
            rw [hmem]
      · have hjk : j = runPages n := by omega
        subst hjk
        rw [if_neg (by rw [run_offset_lt_iff hn (by omega)]; exact hlt)]
        exact ⟨_, h₁, rfl, .inl ⟨rfl, hrun⟩⟩

/-! ## `malloc` -/

/-- The blocks `L` lie soundly in the heap, whose pointer is null or in the region. -/
structure Kept (h : Heap) (L : List Block) : Prop where
  sound : Bump.Sound 4096 4 h.pages L
  writable : h.Writable
  ptr : h.mptr = 0 ∨ InRegion (pgnum h.mptr)
  aligned : h.mptr.toNat % 4 = 0

/-- The blocks after a call that returned `v` for `n` rounded bytes. -/
def grown (L : List Block) (v n : Word) : List Block :=
  if v = 0 then L else ⟨v.toNat, n.toNat⟩ :: L

/-- What `malloc` leaves when it is called in `h` with the blocks `L`, and returns `v` for `n`
rounded bytes. -/
structure Served (L : List Block) (n v : Word) (tight : Prop) (h' : Heap) : Prop where
  kept : Kept h' (grown L v n)
  ptr : InRegion (pgnum h'.mptr)
  tight : tight → Bump.Tight 4096 4 h'.pages (grown L v n)

/-- A call that returns null with no change to the blocks. -/
theorem Served.null {L : List Block} {n : Word} {tight : Prop} (hk : Kept h L)
    (hptr : InRegion (pgnum h.mptr)) (htight : tight → Bump.Tight 4096 4 h.pages L) :
    Served L n 0 tight h :=
  ⟨hk, hptr, htight⟩

/-- The pointer moves to the start of a page. -/
theorem Kept.turn {L : List Block} (hk : Kept h L) (hp : InRegion p) :
    Kept { h with mptr := pageStart p } L := by
  have hlt := hp.2
  have hval := page_start_to_nat (p := p) (by omega)
  refine ⟨?_, hk.writable, .inr ?_, ?_⟩
  · rw [pages_turn, hval]
    exact hk.sound.turn (Nat.mul_mod_left _ _)
  · show InRegion (pgnum (pageStart p))
    rwa [pgnum_page_start (by omega)]
  · show (pageStart p).toNat % 4 = 0
    rw [hval]
    omega

/-- The heap after a run for `n` bytes has been opened at page `p`. -/
def Heap.opened (h : Heap) (p : Nat) (n : Word) : Heap :=
  { h.setCount (p + runPages n - 1) 2 with mptr := pageStart p + n }

theorem pages_opened (h : Heap) (p : Nat) (n : Word) : (h.opened p n).pages =
    ⟨(pageStart p + n).toNat, h.pages.page,
      Function.update h.pages.count (p + runPages n - 1) 2⟩ := by
  rw [Heap.opened, pages_turn, pages_set_count]
  rfl

/-- A run that has been mapped is opened for its block. -/
theorem served_opened {L : List Block} {n : Word} {exact : Prop} {h₂ : Heap} (hk : Kept h L)
    (hrun : RunMapped h p (runPages n) (runPages n) h₂) (hge : 0x8000 ≤ p)
    (hend : p + runPages n ≤ 0x10000) (hn : n.toNat + 4 ≤ 0x100000) (hn4 : n.toNat % 4 = 0)
    (hnone : ∀ q, p ≤ q → q < p + runPages n → h.pages.page q = none)
    (hexact : exact → Bump.Exact 4096 4 h.pages L) :
    Served L n (pageStart p) exact (h₂.opened p n) := by
  have hbound := run_pages_bounds hn
  have hk' : runPages n = (n.toNat + 4 + 4095) / 4096 := rfl
  have hval := page_start_to_nat (p := p) (by omega)
  have hsum : (pageStart p + n).toNat = p * 4096 + n.toNat := by
    rw [to_nat_add (by omega), hval]
  have hne : pageStart p ≠ 0 := by
    intro hzero
    rw [hzero] at hval
    have : (0 : Word).toNat = 0 := rfl
    omega
  have hgrown : grown L (pageStart p) n = ⟨p * 4096, n.toNat⟩ :: L := by
    rw [grown, if_neg hne, hval]
  generalize hb : (⟨p * 4096, n.toNat⟩ : Block) = b at hgrown
  have hfirst : b.first 4096 = p := by
    rw [← hb]
    exact Nat.mul_div_cancel p (by decide)
  have hlast : b.last 4096 4 = p + runPages n - 1 := by
    rw [← hb, hk']
    show (p * 4096 + n.toNat + 4 - 1) / 4096 = _
    omega
  have hstart : b.start % 4096 = 0 := by
    rw [← hb]
    exact Nat.mul_mod_left _ _
  have hsize : 4 ∣ b.size := by
    rw [← hb]
    exact Nat.dvd_of_mod_eq_zero hn4
  have hfree : ∀ q, b.first 4096 ≤ q → q ≤ b.last 4096 4 → h.pages.page q = none := by
    rw [hfirst, hlast]
    exact fun q hq hql => hnone q hq (by omega)
  -- the pages are those of the abstract allocator after `openRun`
  have hptr₃ : (h₂.opened p n).pages.ptr = (h.pages.openRun 4096 4 b).ptr := by
    rw [pages_opened, ← hb]
    exact hsum
  have hpage₃ : (h₂.opened p n).pages.page = (h.pages.openRun 4096 4 b).page := by
    rw [pages_opened]
    funext q
    show h₂.pages.page q = if b.first 4096 ≤ q ∧ q < b.last 4096 4 then some true
      else if q = b.last 4096 4 then some false else h.pages.page q
    rw [hrun.page, hfirst, hlast]
    by_cases hin : p ≤ q ∧ q < p + runPages n
    · rw [if_pos hin]
      by_cases hmid : q < p + runPages n - 1
      · rw [if_pos ⟨hin.1, hmid⟩, decide_eq_true (by omega)]
      · rw [if_neg (by omega), if_pos (by omega), decide_eq_false (by omega)]
    · rw [if_neg hin, if_neg (by omega), if_neg (by omega)]
  have hcount₃ : ∀ q, (h.pages.openRun 4096 4 b).page q = some false →
      (h₂.opened p n).pages.count q = (h.pages.openRun 4096 4 b).count q := by
    intro q hq
    rw [pages_opened]
    show Function.update h₂.pages.count (p + runPages n - 1) 2 q =
      Function.update h.pages.count (b.last 4096 4) 2 q
    rw [hlast]
    by_cases hql : q = p + runPages n - 1
    · rw [hql, Function.update_self, Function.update_self]
    · rw [Function.update_of_ne hql, Function.update_of_ne hql]
      refine hrun.count q fun hnone' => ?_
      have hcases : (if b.first 4096 ≤ q ∧ q < b.last 4096 4 then some true
        else if q = b.last 4096 4 then some false else h.pages.page q) = some false := hq
      rw [hlast, if_neg hql, hnone'] at hcases
      split at hcases <;> cases hcases
  have hin : InRegion (pgnum (pageStart p + n)) := by
    rw [pgnum_eq, hsum]
    exact ⟨by omega, by omega⟩
  refine ⟨⟨?_, ?_, .inr hin, ?_⟩, hin, fun he => ?_⟩
  · rw [hgrown]
    exact (hk.sound.open_run (by decide) (by decide) (by decide) hsize hstart hfree).congr hptr₃
      hpage₃ hcount₃
  · intro q hq
    rw [pages_opened] at hq
    exact hrun.writable q hq
  · show (pageStart p + n).toNat % 4 = 0
    rw [hsum]
    omega
  · rw [hgrown]
    exact ((hexact he).open_run (by decide) (by decide) (by decide) hsize hstart).congr hptr₃
      hpage₃ hcount₃

/-- The part of `malloc` that opens a run, from the start of a page. -/
theorem malloc_run_spec {L : List Block} {avail : Nat → Bool} {n : Word} {exact : Prop}
    (hk : Kept h L) (hptr : h.mptr = pageStart p) (hp : InRegion p)
    (hn : n.toNat + 4 ≤ 0x100000) (hn4 : n.toNat % 4 = 0)
    (hexact : exact → Bump.Exact 4096 4 h.pages L) :
    ∃ v h', mallocRun avail n h = .ret v h' ∧ Served L n v exact h' := by
  obtain ⟨r, p', hsearch, hp', hfree⟩ := search_loop_eq (h := h) (n := n) 2097152 0 hp hptr
    (by omega) (by omega)
  generalize hh₁ : ({ h with mptr := pageStart p' } : Heap) = h₁ at hsearch
  obtain ⟨hge', hlt'⟩ := id hp'
  have hval := page_start_to_nat (p := p') (by omega)
  have hptr₁ : h₁.mptr = pageStart p' := by rw [← hh₁]
  have hpages₁ : h₁.pages = h.pages.turn (p' * 4096) := by rw [← hh₁, pages_turn, hval]
  have hk₁ : Kept h₁ L := by
    rw [← hh₁]
    exact hk.turn hp'
  have hin₁ : InRegion (pgnum h₁.mptr) := by rwa [hptr₁, pgnum_page_start (by omega)]
  have hexact₁ : exact → Bump.Exact 4096 4 h₁.pages L := fun he => by
    rw [hpages₁]
    exact (hexact he).turn _
  rw [mallocRun, bind_of_ret hsearch]
  cases r with
  | false => exact ⟨0, h₁, rfl, .null hk₁ hin₁ fun he => (hexact₁ he).tight⟩
  | true =>
      have hfour : (4 : Word).toNat = 4 := rfl
      have hstop : (pageStart p' + (n + 4)).toNat = p' * 4096 + (n.toNat + 4) := by
        have hn' : (n + 4).toNat = n.toNat + 4 := by rw [to_nat_add (by omega), hfour]
        rw [to_nat_add (by omega), hval, hn']
      have hbound := run_pages_bounds hn
      have hk' : runPages n = (n.toNat + 4 + 4095) / 4096 := rfl
      have hend : p' + runPages n ≤ 0x10000 := by
        have := (hfree rfl (p' + runPages n - 1) (by omega) (by rw [hstop]; omega)).1
        omega
      have hnone : ∀ q, p' ≤ q → q < p' + runPages n → h₁.pages.page q = none := by
        intro q hq hlt
        have hmapped := (hfree rfl q hq (by rw [hstop]; omega)).2
        rw [hpages₁]
        refine page_eq_none.2 fun hboth => ?_
        rw [hmapped] at hboth
        exact absurd hboth.2 (by simp)
      have hstart : RunMapped h₁ p' (runPages n) 0 h₁ :=
        ⟨rfl, hk₁.writable, fun q => (if_neg (by omega)).symm, fun _ _ => rfl⟩
      obtain ⟨r, h₂, halloc, hcases⟩ := alloc_loop_eq avail 257 hstart hptr₁ hn
        (Nat.zero_le _) hp'.1 hend hnone (by omega)
      rw [if_pos rfl, bind_of_ret halloc]
      rcases hcases with ⟨rfl, hrun⟩ | ⟨rfl, hrun⟩
      · have hslot : InRegion (p' + runPages n - 1) := ⟨by omega, by omega⟩
        have hgets : (gets Heap.mptr : Alloc Word) h₂ = .ret (pageStart p') h₂ := by
          rw [← hptr₁, ← hrun.ptr]
          rfl
        have hsome : h₂.pages.page (p' + runPages n - 1) ≠ none := by
          rw [hrun.page, if_pos (by omega)]
          simp
        have haddr : pageStart p' + runOffset (runPages n) - 4 = slotOf (p' + runPages n - 1) := by
          rw [page_start_add, ← page_start_slot hslot, page_start_succ]
          congr 2
          omega
        refine ⟨pageStart p', h₂.opened p' n, ?_,
          served_opened hk₁ hrun hp'.1 hend hn hn4 hnone hexact₁⟩
        show (do
          let p ← gets Heap.mptr
          storeWord (p + runOffset (runPages n) - 4) 2
          modify fun h => { h with mptr := p + n }
          pure p : Alloc Word) h₂ = _
        rw [bind_of_ret hgets, haddr, bind_of_ret (store_slot hrun.writable hsome 2)]
        rfl
      · have hpage : h₂.pages.page = h₁.pages.page := by
          funext q
          rw [hrun.page, if_neg (by omega)]
        have hptr₂ : h₂.pages.ptr = h₁.pages.ptr := congrArg BitVec.toNat hrun.ptr
        have hcount : ∀ q, h₁.pages.page q = some false → h₂.pages.count q = h₁.pages.count q :=
          fun q hq => hrun.count q (by simp [hq])
        refine ⟨0, h₂, rfl, .null ⟨hk₁.sound.congr hptr₂ hpage hcount, hrun.writable, ?_, ?_⟩ ?_
          fun he => (hexact₁ he).tight.congr hptr₂ hpage hcount⟩
        · rw [hrun.ptr]
          exact hk₁.ptr
        · rw [hrun.ptr]
          exact hk₁.aligned
        · rw [hrun.ptr]
          exact hin₁

/-- `n` bytes and the count fit in the page of the pointer, as `malloc` computes it. -/
def Fits (h : Heap) (n : Word) : Prop := h.mptr / pgsizeW = (h.mptr + n - 1 + 4) / pgsizeW

instance (h : Heap) (n : Word) : Decidable (Fits h n) := inferInstanceAs (Decidable (_ = _))

/-- A call for `n` rounded bytes neither overflows the count of the page of the pointer nor leaves
the last page of the region. -/
structure Roomy (h : Heap) (n : Word) : Prop where
  count : h.mptr % pgsizeW ≠ 0 → Fits h n → h.pages.count (pgnum h.mptr) ≠ 0xFFFFFFFF
  inside : h.mptr % pgsizeW ≠ 0 → ¬ Fits h n → h.mptr < mend - pgsizeW

/-- The first call sets the pointer. -/
def Heap.started (h : Heap) : Heap := if h.mptr = 0 then { h with mptr := mbegin } else h

theorem started_spec {L : List Block} (hk : Kept h L) : Kept h.started L ∧
    InRegion (pgnum h.started.mptr) ∧ (∀ n, Roomy h n → Roomy h.started n) ∧
    (Bump.Tight 4096 4 h.pages L → Bump.Tight 4096 4 h.started.pages L) ∧
    (Bump.Tight 4096 4 h.pages L → ¬ Bump.Stranded 4096 4 h.pages L →
      ¬ Bump.Stranded 4096 4 h.started.pages L) := by
  unfold Heap.started
  split
  · rename_i hzero
    have hbegin : mbegin = pageStart 0x8000 := rfl
    have hptr : h.pages.ptr = 0 := congrArg BitVec.toNat hzero
    have hnot : ¬ Bump.Stranded 4096 4 h.pages L := by
      rintro ⟨-, hpage, -⟩
      rw [hptr] at hpage
      exact absurd (page_eq_some.1 hpage).1 (by decide)
    have hexact : Bump.Tight 4096 4 h.pages L →
        Bump.Exact 4096 4 ({ h with mptr := mbegin } : Heap).pages L := fun ht =>
      (ht.exact (by rw [hptr]) hnot).turn _
    refine ⟨?_, show InRegion (pgnum mbegin) by decide, fun n _ => ⟨fun hmod => ?_, fun hmod => ?_⟩,
      fun ht => (hexact ht).tight, fun ht _ => (hexact ht).not_stranded⟩
    · rw [hbegin]
      exact hk.turn (by decide)
    · exact absurd (show mbegin % pgsizeW = 0 by decide) hmod
    · exact absurd (show mbegin % pgsizeW = 0 by decide) hmod
  · rename_i hzero
    exact ⟨hk, hk.ptr.resolve_left hzero, fun _ hr => hr, fun ht => ht, fun _ hs => hs⟩

/-- What the test of `malloc` says about the addresses. -/
theorem fits_iff {n : Word} (hptr : InRegion (pgnum h.mptr)) (hn : n.toNat < 0x100000) :
    Fits h n ↔ (h.mptr.toNat + n.toNat + 4 - 1) / 4096 = h.mptr.toNat / 4096 := by
  rw [pgnum_eq] at hptr
  obtain ⟨hge, hlt⟩ := hptr
  have hone : (1 : Word).toNat = 1 := rfl
  have hfour : (4 : Word).toNat = 4 := rfl
  have hsum : (h.mptr + n - 1 + 4).toNat = h.mptr.toNat + n.toNat + 4 - 1 := by
    have hadd : (h.mptr + n).toNat = h.mptr.toNat + n.toNat := to_nat_add (by omega)
    have hsub : (h.mptr + n - 1).toNat = h.mptr.toNat + n.toNat - 1 := by
      rw [BitVec.toNat_sub_of_le, hadd, hone]
      rw [BitVec.le_def, hadd, hone]
      omega
    rw [to_nat_add (by omega), hsub, hfour]
    omega
  rw [Fits, ← BitVec.toNat_inj, BitVec.toNat_udiv, BitVec.toNat_udiv, hsum, pgsize_w_to_nat]
  exact eq_comm

/-- The address of the count of the page that the pointer stands in. -/
theorem roundup_slot {a : Word} (hin : InRegion (pgnum a)) (hmod : a.toNat % 4096 ≠ 0) :
    roundup a - 4 = slotOf (pgnum a) := by
  have hlt := hin.2
  rw [← page_start_slot hin, page_start_succ]
  congr 1
  apply BitVec.eq_of_toNat_eq
  rw [pgnum_eq] at hlt ⊢
  have hone : (1 : Word).toNat = 1 := rfl
  have hadd : (a + pgsizeW).toNat = a.toNat + 4096 := by
    rw [to_nat_add (by rw [pgsize_w_to_nat]; omega), pgsize_w_to_nat]
  have hsub : (a + pgsizeW - 1).toNat = a.toNat + 4096 - 1 := by
    rw [BitVec.toNat_sub_of_le, hadd, hone]
    rw [BitVec.le_def, hadd, hone]
    omega
  rw [roundup, rounddown_to_nat, hsub, page_start_to_nat (by omega)]
  omega

/-- A pointer at the start of a page. -/
theorem mptr_eq_page_start (hmod : h.mptr % pgsizeW = 0) : h.mptr = pageStart (pgnum h.mptr) := by
  rw [← rounddown_eq_page_start, rounddown, hmod]
  simp

/-- A block that fits is cut off in the page of the pointer. -/
theorem served_carve {L : List Block} {n : Word} {tight : Prop} (hk : Kept h L)
    (hptr : InRegion (pgnum h.mptr)) (hmod : h.mptr.toNat % 4096 ≠ 0) (hn : n.toNat < 0x100000)
    (hn4 : n.toNat % 4 = 0) (hfits : Fits h n)
    (hcount : h.pages.count (pgnum h.mptr) ≠ 0xFFFFFFFF)
    (htight : tight → Bump.Tight 4096 4 h.pages L) :
    Served L n h.mptr tight { h.setCount (pgnum h.mptr) (h.mem (countIndex (pgnum h.mptr)) + 1) with
      mptr := h.mptr + n } := by
  have hfit := (fits_iff hptr hn).1 hfits
  have hpg := pgnum_eq h.mptr
  obtain ⟨hge, hlt⟩ := id hptr
  have hsum : (h.mptr + n).toNat = h.mptr.toNat + n.toNat := to_nat_add (by omega)
  have hval : (h.mem (countIndex (pgnum h.mptr)) + 1).toNat = h.pages.count (pgnum h.mptr) + 1 := by
    have hone : (1 : Word).toNat = 1 := rfl
    have hlt' := (h.mem (countIndex (pgnum h.mptr))).isLt
    have hdef : h.pages.count (pgnum h.mptr) = (h.mem (countIndex (pgnum h.mptr))).toNat := rfl
    rw [to_nat_add (by rw [hone]; omega), hone, hdef]
  have hpages : ({ h.setCount (pgnum h.mptr) (h.mem (countIndex (pgnum h.mptr)) + 1) with
      mptr := h.mptr + n } : Heap).pages = h.pages.carve 4096 n.toNat := by
    rw [pages_turn, pages_set_count, hval, hsum, hpg]
    rfl
  have hne : h.mptr ≠ 0 := by
    intro hzero
    rw [hzero] at hmod
    exact hmod rfl
  have hgrown : grown L h.mptr n = ⟨h.pages.ptr, n.toNat⟩ :: L := by
    rw [grown, if_neg hne]
    rfl
  have hin : InRegion (pgnum (h.mptr + n)) := by
    rw [pgnum_eq, hsum]
    exact ⟨by omega, by omega⟩
  refine ⟨⟨?_, ?_, .inr hin, ?_⟩, hin, fun ht => ?_⟩
  · rw [hpages, hgrown]
    exact hk.sound.carve (by decide) (by decide) hmod hfit
  · intro q hq
    rw [hpages] at hq
    exact hk.writable q hq
  · show (h.mptr + n).toNat % 4 = 0
    have := hk.aligned
    rw [hsum]
    omega
  · rw [hpages, hgrown]
    exact (htight ht).carve (by decide) hmod hfit

/-- A pointer whose page has no room for the block leaves it for the next page. -/
theorem drop_spec {L : List Block} (hk : Kept h L) (hptr : InRegion (pgnum h.mptr))
    (hmod : h.mptr.toNat % 4096 ≠ 0) (hlast : h.mptr < mend - pgsizeW) :
    ∃ h₁, free h.mptr h = .ret () h₁ ∧
      Kept { h₁ with mptr := pageStart (pgnum h.mptr + 1) } L ∧
      rounddown (h.mptr + pgsizeW) = pageStart (pgnum h.mptr + 1) ∧
      InRegion (pgnum h.mptr + 1) ∧
      (Bump.Tight 4096 4 h.pages L →
        Bump.Exact 4096 4 ({ h₁ with mptr := pageStart (pgnum h.mptr + 1) } : Heap).pages L) := by
  have hpg := pgnum_eq h.mptr
  have hopen : h.pages.page (pgnum h.mptr) = some false := by
    rw [hpg]
    exact hk.sound.open' hmod
  have hcount : 0 < h.pages.count (pgnum h.mptr) := by
    have := hk.sound.count _ hopen
    rw [if_pos ⟨hmod, hpg.symm⟩] at this
    omega
  obtain ⟨h₁, hret, hw₁, hpages₁⟩ := free_eq hk.writable rfl (Nat.le_refl _)
    (fun p hp hlt => absurd hp (by omega)) hopen hcount
  have hlt : h.mptr.toNat < 0x0FFFF000 := by
    rw [BitVec.lt_def] at hlast
    exact hlast
  have hin : InRegion (pgnum h.mptr + 1) := ⟨by have := hptr.1; omega, by omega⟩
  have hval := page_start_to_nat (p := pgnum h.mptr + 1) (by have := hin.2; omega)
  have hsame : (fun p => if pgnum h.mptr ≤ p ∧ p < pgnum h.mptr then none else h.pages.page p) =
      h.pages.page := by
    funext p
    rw [if_neg (by omega)]
  rw [hsame] at hpages₁
  have hpages : ({ h₁ with mptr := pageStart (pgnum h.mptr + 1) } : Heap).pages =
      (h.pages.release (h.pages.ptr / 4096)).turn ((pgnum h.mptr + 1) * 4096) := by
    rw [pages_turn, hpages₁, hval, hpg]
    rfl
  refine ⟨h₁, hret, ⟨?_, hw₁, .inr ?_, ?_⟩, ?_, hin, fun ht => ?_⟩
  · rw [hpages]
    exact hk.sound.drop hmod (Nat.mul_mod_left _ _)
  · show InRegion (pgnum (pageStart (pgnum h.mptr + 1)))
    rwa [pgnum_page_start (by have := hin.2; omega)]
  · show (pageStart (pgnum h.mptr + 1)).toNat % 4 = 0
    rw [hval]
    omega
  · rw [rounddown_eq_page_start, pgnum_eq, to_nat_add (by rw [pgsize_w_to_nat]; omega),
      pgsize_w_to_nat, hpg]
    congr 1
    omega
  · rw [hpages]
    exact ht.drop hk.sound hmod _

/-- The part of `malloc` after rounding. -/
theorem malloc_rounded_spec {L : List Block} (avail : Nat → Bool) {n : Word} (hk : Kept h L)
    (hptr : InRegion (pgnum h.mptr)) (hn4 : n.toNat % 4 = 0)
    (hroomy : n < maxmalloc → Roomy h n) :
    ∃ v h', mallocRounded avail n h = .ret v h' ∧ Served L n v
      (Bump.Tight 4096 4 h.pages L ∧ (n < maxmalloc → ¬ Bump.Stranded 4096 4 h.pages L)) h' := by
  have hgets : (gets Heap.mptr : Alloc Word) h = .ret h.mptr h := rfl
  have hpg := pgnum_eq h.mptr
  unfold mallocRounded
  by_cases hbig : maxmalloc ≤ n
  · rw [if_pos hbig]
    exact ⟨0, h, rfl, .null hk hptr And.left⟩
  · have hsmall : n < maxmalloc := BitVec.not_le.1 hbig
    have hn : n.toNat + 4 ≤ 0x100000 := by
      rw [BitVec.lt_def, maxmalloc_to_nat] at hsmall
      omega
    rw [if_neg hbig, bind_of_ret hgets]
    by_cases hmod : h.mptr % pgsizeW = 0
    · -- the pointer is at the start of a page
      rw [if_neg (not_not_intro hmod)]
      refine malloc_run_spec hk (mptr_eq_page_start hmod) hptr hn hn4 fun ht => ?_
      exact ht.1.exact (congrArg BitVec.toNat hmod) (ht.2 hsmall)
    · have hmod' : h.mptr.toNat % 4096 ≠ 0 := fun hz => hmod (BitVec.eq_of_toNat_eq hz)
      have hopen : h.pages.page (pgnum h.mptr) ≠ none := by
        rw [hpg, show h.pages.page (h.mptr.toNat / 4096) = some false from hk.sound.open' hmod']
        simp
      rw [if_pos hmod]
      by_cases hfits : h.mptr / pgsizeW = (h.mptr + n - 1 + 4) / pgsizeW
      · rw [if_pos hfits, roundup_slot hptr hmod', bind_of_ret (load_slot hk.writable hopen),
          bind_of_ret (store_slot hk.writable hopen _)]
        exact ⟨h.mptr, _, rfl, served_carve hk hptr hmod' (by omega) hn4 hfits
          ((hroomy hsmall).count hmod hfits) And.left⟩
      · obtain ⟨h₁, hret, hk₁, hround, hin, hexact⟩ :=
          drop_spec hk hptr hmod' ((hroomy hsmall).inside hmod hfits)
        have hmodify : (modify fun h' => { h' with mptr := rounddown (h.mptr + pgsizeW) } : Alloc Unit)
            h₁ = .ret () { h₁ with mptr := pageStart (pgnum h.mptr + 1) } := by
          rw [hround]
          rfl
        rw [if_neg hfits, bind_of_ret hret, bind_of_ret hmodify]
        exact malloc_run_spec hk₁ rfl hin hn hn4 fun ht => hexact ht.1

theorem roundup4_mod (n : Word) : (roundup4 n).toNat % 4 = 0 := by
  rw [roundup4_to_nat]
  omega

/-- `malloc` returns as long as the call is roomy, and keeps the blocks. -/
theorem malloc_spec {L : List Block} (avail : Nat → Bool) {n : Word} (hk : Kept h L)
    (hroomy : roundup4 n < maxmalloc → Roomy h (roundup4 n)) :
    ∃ v h', malloc avail n h = .ret v h' ∧ Served L (roundup4 n) v
      (Bump.Tight 4096 4 h.pages L ∧
        (roundup4 n < maxmalloc → ¬ Bump.Stranded 4096 4 h.pages L)) h' := by
  obtain ⟨hk₀, hin₀, hroomy₀, htight₀, hstr₀⟩ := started_spec hk
  have hgets : (gets Heap.mptr : Alloc Word) h = .ret h.mptr h := rfl
  have hstart : malloc avail n h = mallocRounded avail (roundup4 n) h.started := by
    rw [malloc, bind_of_ret hgets]
    unfold Heap.started
    split <;> rfl
  obtain ⟨v, h', hret, hserved⟩ := malloc_rounded_spec avail hk₀ hin₀ (roundup4_mod n)
    fun hsmall => hroomy₀ _ (hroomy hsmall)
  refine ⟨v, h', hstart.trans hret, hserved.kept, hserved.ptr, fun ht => hserved.tight ?_⟩
  exact ⟨htight₀ ht.1, fun hsmall => hstr₀ ht.1 (ht.2 hsmall)⟩

end Labs.Jos.Malloc
