import Labs.Jos.Mmio

/-!
# Static mappings

`boot_map_region` on any page directory whose page tables are different pages. The loop creates a
page table when it comes to the first page that needs it, and writes one entry for each page. The
directory may map itself, as `kern_pgdir` does at `UVPT`; then the new page tables appear there.
-/

namespace Labs.Jos.BootMap

open Prog Mmio

/-- The directory `dir` and its page tables are a tree: different entries point to different pages,
and neither a page table nor the directory is free. -/
structure Tree (s : Kernel) (dir : Nat) : Prop where
  small : s.npages ≤ 1048576
  inj : ∀ d < 1024, ∀ d' < 1024, HasPageTable s dir d → HasPageTable s dir d' →
    tableOf s dir d = tableOf s dir d' → d = d'
  free : ∃ l, Chain (fun p => (s.pages p).ppLink) s.pageFreeList l ∧ ∀ p ∈ l, p < s.npages ∧
    p ≠ dir ∧ ∀ d < 1024, HasPageTable s dir d → tableOf s dir d ≠ p

/-- `n` is one of `count` page numbers from `first` on. -/
def InRange (first count n : Nat) : Prop := first ≤ n ∧ n < first + count

/-- The directory lacks the page table with index `d`, and a page of the range needs it. -/
def Missing (s : Kernel) (dir first count d : Nat) : Prop :=
  ¬ HasPageTable s dir d ∧ ∃ n, InRange first count n ∧ n / 1024 = d

/-- At page number `n` the directory shows itself, and in it the place of a page table that the
range needs and lacks. -/
def Window (s : Kernel) (dir first count n : Nat) : Prop :=
  HasPageTable s dir (n / 1024) ∧ tableOf s dir (n / 1024) = dir ∧
    Missing s dir first count (n % 1024)

/-- The entry that `boot_map_region` writes for page `j` of the range. -/
def bootPte (pa perm : Word) (j : Nat) : Word :=
  (pa + BitVec.ofNat 32 (j * pgsize)) ||| perm ||| pteP

theorem boot_pte_present (pa perm : Word) (j : Nat) : hasFlag (bootPte pa perm j) pteP = true := by
  rw [has_flag_p]
  simp [bootPte, pteP]

/-- From state `s`, the page tables for `tables` pages from `first` on have been looked for, and the
entries for `count` pages have been written. -/
structure Mapped (s : Kernel) (dir first : Nat) (pte : Nat → Word) (tables count : Nat)
    (s' : Kernel) : Prop where
  entries : ∀ j < count, dirEntry s' dir (first + j) = some (pte j)
  others : ∀ n < 1048576, ¬ InRange first count n → ¬ Window s dir first tables n →
    dirEntry s' dir n = dirEntry s dir n
  refs : ∀ p, (∀ d, Missing s dir first tables d → tableOf s' dir d ≠ p) →
    s'.pages p = s.pages p
  taken : ∀ l, Chain (fun p => (s.pages p).ppLink) s.pageFreeList l →
    ∃ new rest, l = new ++ rest ∧ Chain (fun p => (s'.pages p).ppLink) s'.pageFreeList rest ∧
      ∀ p, p ∈ new ↔ ∃ d, Missing s dir first tables d ∧ tableOf s' dir d = p
  counted : ∀ d, Missing s dir first tables d → (s'.pages (tableOf s' dir d)).ppRef = 1
  memory : ∀ p, p ≠ dir → (∀ n, InRange first tables n → tableOf s' dir (n / 1024) ≠ p) →
    s'.mem p = s.mem p

/-! ## The tree -/

section Tree

variable {s s' : Kernel} {dir d p q t : Nat} {w : Word}

/-- The first free page is not part of the tree. -/
theorem Tree.head (h : Tree s dir) (hhead : s.pageFreeList = some p) :
    p < 1048576 ∧ p ≠ dir ∧ ∀ d < 1024, HasPageTable s dir d → tableOf s dir d ≠ p := by
  obtain ⟨l, hl, hfree⟩ := h.free
  rw [hhead] at hl
  obtain ⟨rest, rfl, -⟩ := hl.pop none
  obtain ⟨hp, hdir, htables⟩ := hfree p List.mem_cons_self
  exact ⟨Nat.lt_of_lt_of_le hp h.small, hdir, htables⟩

/-- Writing an entry of a page table keeps the tree. -/
theorem Tree.set_word (h : Tree s dir) (hne : dir ≠ q) : Tree (s.setWord q t w) dir := by
  have hpde := mem_set_word_dir (s := s) (t := t) (w := w) hne
  obtain ⟨l, hl, hfree⟩ := h.free
  refine ⟨h.small, fun d hd d' hd' hp hp' heq => ?_, l, hl, fun p hp => ?_⟩
  · rw [HasPageTable, hpde] at hp hp'
    rw [tableOf, tableOf, hpde, hpde] at heq
    exact h.inj d hd d' hd' hp hp' heq
  · obtain ⟨hlt, hdir, htables⟩ := hfree p hp
    refine ⟨hlt, hdir, fun d hd hpres => ?_⟩
    rw [HasPageTable, hpde] at hpres
    rw [tableOf, hpde]
    exact htables d hd hpres

/-- The page table with index `d` after it has been created. -/
theorem table_of_made (h : Tree s dir) (hnew : MadeTable s dir d p s') :
    HasPageTable s' dir d ∧ tableOf s' dir d = p := by
  rw [HasPageTable, tableOf, hnew.pde, pgnum_mk_pde (h.head hnew.head).1]
  exact ⟨mk_pde_present p, rfl⟩

/-- A new page table keeps the tree. -/
theorem Tree.add_table (h : Tree s dir) (hnew : MadeTable s dir d p s') : Tree s' dir := by
  obtain ⟨hp, hpdir, hfresh⟩ := h.head hnew.head
  obtain ⟨hpres, htable⟩ := table_of_made h hnew
  have hother : ∀ d' < 1024, d' ≠ d → HasPageTable s' dir d' → tableOf s' dir d' ≠ p := by
    intro d' hd' hne hpres'
    rw [HasPageTable, hnew.pdes d' hne] at hpres'
    rw [tableOf, hnew.pdes d' hne]
    exact hfresh d' hd' hpres'
  obtain ⟨l, hl, hfree⟩ := h.free
  rw [hnew.head] at hl
  obtain ⟨rest, rfl, -⟩ := hl.pop none
  have hnodup := (List.nodup_cons.1 hl.nodup).1
  -- the new table was a free page, so it is none of the others
  refine ⟨?_, fun d₁ hd₁ d₂ hd₂ h₁ h₂ heq => ?_, rest, ?_, fun q hq => ?_⟩
  · rw [hnew.npages]
    exact h.small
  · by_cases h₁d : d₁ = d
    · by_cases h₂d : d₂ = d
      · rw [h₁d, h₂d]
      · rw [h₁d, htable] at heq
        exact absurd heq.symm (hother d₂ hd₂ h₂d h₂)
    · by_cases h₂d : d₂ = d
      · rw [h₂d, htable] at heq
        exact absurd heq (hother d₁ hd₁ h₁d h₁)
      · rw [HasPageTable, hnew.pdes d₁ h₁d] at h₁
        rw [HasPageTable, hnew.pdes d₂ h₂d] at h₂
        rw [tableOf, tableOf, hnew.pdes d₁ h₁d, hnew.pdes d₂ h₂d] at heq
        exact h.inj d₁ hd₁ d₂ hd₂ h₁ h₂ heq
  · rw [hnew.list]
    refine hl.2.congr fun q hq => ?_
    have hqp : q ≠ p := fun heq => hnodup (heq ▸ hq)
    rw [hnew.pages, Function.update_of_ne hqp]
  · obtain ⟨hlt, hqdir, htables⟩ := hfree q (List.mem_cons_of_mem p hq)
    refine ⟨?_, hqdir, fun d' hd' hpres' => ?_⟩
    · rw [hnew.npages]
      exact hlt
    · by_cases hd'd : d' = d
      · rw [hd'd, htable]
        exact fun heq => hnodup (heq ▸ hq)
      · rw [HasPageTable, hnew.pdes d' hd'd] at hpres'
        rw [tableOf, hnew.pdes d' hd'd]
        exact htables d' hd' hpres'

end Tree

/-! ## The loop -/

/-- What the loop keeps, beside what it has mapped. -/
structure Progress (s : Kernel) (dir first : Nat) (pte : Nat → Word) (tables count : Nat)
    (s' : Kernel) : Prop extends Mapped s dir first pte tables count s' where
  tree : Tree s' dir
  pdes : ∀ d, ¬ Missing s dir first tables d → s'.mem dir d = s.mem dir d
  there : ∀ n, InRange first tables n → HasPageTable s' dir (n / 1024) ∧
    tableOf s' dir (n / 1024) ≠ dir

section Loop

variable {s s' s₁ : Kernel} {dir first j n d p q : Nat} {pte : Nat → Word}

theorem progress_zero (h : Tree s dir) : Progress s dir first pte 0 0 s := by
  have hempty : ∀ n, ¬ InRange first 0 n := by
    intro n hn
    unfold InRange at hn
    omega
  have hnone : ∀ d, ¬ Missing s dir first 0 d := by
    intro d hd
    obtain ⟨-, n, hn, -⟩ := hd
    exact hempty n hn
  refine ⟨⟨fun j hj => absurd hj (Nat.not_lt_zero j), fun _ _ _ _ => rfl, fun _ _ => rfl,
    fun l hl => ⟨[], l, rfl, hl, fun p => ?_⟩, fun d hd => absurd hd (hnone d), fun _ _ _ => rfl⟩,
    h, fun _ _ => rfl, fun n hn => absurd hn (hempty n)⟩
  constructor
  · intro hp
    cases hp
  · intro hp
    obtain ⟨d, hd, -⟩ := hp
    exact absurd hd (hnone d)

/-- The range grows by one page. -/
theorem in_range_succ : InRange first (j + 1) n ↔ InRange first j n ∨ n = first + j := by
  unfold InRange
  omega

theorem missing_mono (h : Missing s dir first j d) : Missing s dir first (j + 1) d := by
  obtain ⟨habsent, n, hn, hd⟩ := h
  exact ⟨habsent, n, in_range_succ.2 (.inl hn), hd⟩

/-- The page table that the next page needs. -/
theorem missing_succ : Missing s dir first (j + 1) d ↔
    Missing s dir first j d ∨ ¬ HasPageTable s dir d ∧ d = (first + j) / 1024 := by
  constructor
  · intro h
    obtain ⟨habsent, n, hn, hd⟩ := h
    cases in_range_succ.1 hn with
    | inl hn => exact .inl ⟨habsent, n, hn, hd⟩
    | inr hn => exact .inr ⟨habsent, by rw [← hd, hn]⟩
  · intro h
    cases h with
    | inl h => exact missing_mono h
    | inr h => exact ⟨h.1, first + j, in_range_succ.2 (.inr rfl), h.2.symm⟩

/-- A page table that has been looked for is not the directory. -/
theorem Progress.table_ne (h : Progress s dir first pte j j s')
    (hself : HasPageTable s dir d → tableOf s dir d ≠ dir)
    (hpres : HasPageTable s' dir d) : tableOf s' dir d ≠ dir := by
  by_cases hmissing : Missing s dir first j d
  · obtain ⟨-, n, hn, rfl⟩ := hmissing
    exact (h.there n hn).2
  · have hpde := h.pdes d hmissing
    rw [HasPageTable, hpde] at hpres
    rw [tableOf, hpde]
    exact hself hpres

/-- The page table for the next page is there. -/
theorem Progress.found (h : Progress s dir first pte j j s')
    (hself : HasPageTable s dir ((first + j) / 1024) → tableOf s dir ((first + j) / 1024) ≠ dir)
    (hpres : HasPageTable s' dir ((first + j) / 1024)) : Progress s dir first pte (j + 1) j s' := by
  -- it was there at the start, or has been created since
  have hmissing : ∀ d, Missing s dir first (j + 1) d ↔ Missing s dir first j d := by
    intro d
    rw [missing_succ]
    refine ⟨fun hd => ?_, .inl⟩
    cases hd with
    | inl hd => exact hd
    | inr hd =>
        obtain ⟨habsent, rfl⟩ := hd
        by_contra hno
        rw [HasPageTable, h.pdes _ hno] at hpres
        exact habsent hpres
  refine ⟨⟨h.entries, fun n hn hout hwindow => ?_, fun p hp => ?_, fun l hl => ?_, fun d hd => ?_,
    fun p hp hout => ?_⟩, h.tree, fun d hd => ?_, fun n hn => ?_⟩
  · exact h.others n hn hout fun hw => hwindow ⟨hw.1, hw.2.1, missing_mono hw.2.2⟩
  · exact h.refs p fun d hd => hp d (missing_mono hd)
  · obtain ⟨new, rest, hsplit, hrest, hnew⟩ := h.taken l hl
    refine ⟨new, rest, hsplit, hrest, fun p => ?_⟩
    simp only [hmissing]
    exact hnew p
  · exact h.counted d ((hmissing d).1 hd)
  · exact h.memory p hp fun n hn => hout n (in_range_succ.2 (.inl hn))
  · exact h.pdes d fun hd' => hd (missing_mono hd')
  · cases in_range_succ.1 hn with
    | inl hn => exact h.there n hn
    | inr hn =>
        rw [hn]
        exact ⟨hpres, h.table_ne hself hpres⟩

/-- The page table with index `i` is created for the next page. -/
structure Creation (s : Kernel) (dir first : Nat) (pte : Nat → Word) (j : Nat) (s' : Kernel)
    (i p : Nat) (s₁ : Kernel) : Prop where
  before : Progress s dir first pte j j s'
  last : first + j < 1048576
  index : (first + j) / 1024 = i
  absent : ¬ HasPageTable s' dir i
  made : MadeTable s' dir i p s₁

section Creation

variable {i : Nat} (h : Creation s dir first pte j s' i p s₁)
include h

/-- No earlier page has needed the page table. -/
theorem Creation.index_ne (hn : InRange first j n) : n / 1024 ≠ i :=
  fun heq => h.absent (heq ▸ (h.before.there n hn).1)

theorem Creation.missing_ne (hd : Missing s dir first j d) : d ≠ i := by
  obtain ⟨-, n, hn, rfl⟩ := hd
  exact h.index_ne hn

theorem Creation.missing : Missing s dir first (j + 1) i := by
  refine ⟨?_, first + j, in_range_succ.2 (.inr rfl), h.index⟩
  rw [HasPageTable, ← h.before.pdes i fun hd => h.missing_ne hd rfl]
  exact h.absent

theorem Creation.table : tableOf s₁ dir i = p := (table_of_made h.before.tree h.made).2

/-- The other page tables are as before. -/
theorem Creation.same (hd : d ≠ i) : tableOf s₁ dir d = tableOf s' dir d := by
  rw [tableOf, h.made.pdes d hd]

theorem Creation.pages (hq : q ≠ p) : s₁.pages q = s'.pages q := by
  rw [h.made.pages, Function.update_of_ne hq]

/-- The entries are as before, but where the directory shows itself and in it the new page table. -/
theorem Creation.entry (hn : n < 1048576) (hwindow : HasPageTable s' dir (n / 1024) →
    tableOf s' dir (n / 1024) = dir → n % 1024 ≠ i) : dirEntry s₁ dir n = dirEntry s' dir n :=
  h.made.toNewTable.entries (h.before.tree.head h.made.head).1 h.absent
    (h.before.tree.head h.made.head).2.2 hn hwindow

theorem Creation.others (hn : n < 1048576) (hout : ¬ InRange first j n)
    (hwindow : ¬ Window s dir first (j + 1) n) : dirEntry s₁ dir n = dirEntry s dir n := by
  rw [h.entry hn fun hpres hdir heq => ?_]
  · exact h.before.others n hn hout fun hw => hwindow ⟨hw.1, hw.2.1, missing_mono hw.2.2⟩
  · -- the directory shows itself at `n` from the start on
    have hpde := h.before.pdes (n / 1024) fun hd => by
      obtain ⟨-, n', hn', heq'⟩ := hd
      exact (h.before.there n' hn').2 (heq' ▸ hdir)
    rw [HasPageTable, hpde] at hpres
    rw [tableOf, hpde] at hdir
    exact hwindow ⟨hpres, hdir, heq ▸ h.missing⟩

/-- The new page table is the next page of the free list. -/
theorem Creation.taken {l : List Nat} (hl : Chain (fun p => (s.pages p).ppLink) s.pageFreeList l) :
    ∃ new rest, l = new ++ rest ∧ Chain (fun p => (s₁.pages p).ppLink) s₁.pageFreeList rest ∧
      ∀ q, q ∈ new ↔ ∃ d, Missing s dir first (j + 1) d ∧ tableOf s₁ dir d = q := by
  obtain ⟨new, rest, rfl, hrest, hmem⟩ := h.before.taken l hl
  rw [h.made.head] at hrest
  obtain ⟨rest, rfl, -⟩ := hrest.pop none
  have hnodup := (List.nodup_cons.1 hrest.nodup).1
  refine ⟨new ++ [p], rest, by simp, ?_, fun q => ?_⟩
  · rw [h.made.list]
    exact hrest.2.congr fun q hq => congrArg PageInfo.ppLink (h.pages fun heq => hnodup (heq ▸ hq))
  · rw [List.mem_append, List.mem_singleton, hmem q]
    constructor
    · intro hq
      cases hq with
      | inl hq =>
          obtain ⟨d, hd, hdq⟩ := hq
          exact ⟨d, missing_mono hd, (h.same (h.missing_ne hd)).trans hdq⟩
      | inr hq => exact ⟨i, h.missing, h.table.trans hq.symm⟩
    · intro hq
      obtain ⟨d, hd, hdq⟩ := hq
      cases missing_succ.1 hd with
      | inl hd => exact .inl ⟨d, hd, (h.same (h.missing_ne hd)).symm.trans hdq⟩
      | inr hd =>
          rw [hd.2, h.index, h.table] at hdq
          exact .inr hdq.symm

/-- The new page table is counted once, and the others still are. -/
theorem Creation.counted (hd : Missing s dir first (j + 1) d) :
    (s₁.pages (tableOf s₁ dir d)).ppRef = 1 := by
  cases missing_succ.1 hd with
  | inl hold =>
      have hcounted := h.before.counted d hold
      have hne := h.missing_ne hold
      obtain ⟨-, n, hn, rfl⟩ := hold
      have hlt : n / 1024 < 1024 := by
        have hlast := h.last
        unfold InRange at hn
        omega
      have hfresh := (h.before.tree.head h.made.head).2.2 _ hlt (h.before.there n hn).1
      rw [h.same hne, h.pages hfresh]
      exact hcounted
  | inr hnew => rw [hnew.2, h.index, h.table, h.made.pages, Function.update_self]

/-- The page table for the next page has been created. -/
theorem Creation.progress : Progress s dir first pte (j + 1) j s₁ := by
  refine ⟨⟨fun k hk => ?_, fun n hn hout hwindow => h.others hn hout hwindow, fun q hq => ?_,
    fun l hl => h.taken hl, fun d hd => h.counted hd, fun q hq hout => ?_⟩,
    h.before.tree.add_table h.made, fun d hd => ?_, fun n hn => ?_⟩
  · have hlast := h.last
    have hin : InRange first j (first + k) := by
      unfold InRange
      omega
    rw [h.entry (by omega) fun _ hdir => absurd hdir (h.before.there _ hin).2]
    exact h.before.entries k hk
  · rw [h.pages fun heq => hq i h.missing (h.table.trans heq.symm)]
    refine h.before.refs q fun d hd => ?_
    rw [← h.same (h.missing_ne hd)]
    exact hq d (missing_mono hd)
  · have hqp : q ≠ p := by
      intro heq
      refine hout (first + j) (in_range_succ.2 (.inr rfl)) ?_
      rw [h.index, h.table, heq]
    rw [h.made.mem q hqp hq]
    refine h.before.memory q hq fun n hn => ?_
    rw [← h.same (h.index_ne hn)]
    exact hout n (in_range_succ.2 (.inl hn))
  · rw [h.made.pdes d fun heq => hd (heq ▸ h.missing)]
    exact h.before.pdes d fun hd' => hd (missing_mono hd')
  · cases in_range_succ.1 hn with
    | inl hn =>
        rw [HasPageTable, h.made.pdes _ (h.index_ne hn), h.same (h.index_ne hn)]
        exact h.before.there n hn
    | inr hn =>
        rw [hn, h.index, h.table]
        exact ⟨(table_of_made h.before.tree h.made).1, (h.before.tree.head h.made.head).2.1⟩

end Creation

/-- The entry for the next page is written to its page table. -/
theorem Progress.write (h : Progress s dir first pte (j + 1) j s') (hlast : first + j < 1048576)
    (hpte : hasFlag (pte j) pteP = true) :
    Progress s dir first pte (j + 1) (j + 1)
      (s'.setWord (tableOf s' dir ((first + j) / 1024)) ((first + j) % 1024) (pte j)) := by
  obtain ⟨hpres, hne⟩ := h.there (first + j) (in_range_succ.2 (.inr rfl))
  have hpde := mem_set_word_dir (s := s') (t := (first + j) % 1024) (w := pte j) hne.symm
  have htable : ∀ d, tableOf (s'.setWord (tableOf s' dir ((first + j) / 1024))
      ((first + j) % 1024) (pte j)) dir d = tableOf s' dir d := by
    intro d
    rw [tableOf, hpde]
  have hentry : ∀ n < 1048576, dirEntry (s'.setWord (tableOf s' dir ((first + j) / 1024))
      ((first + j) % 1024) (pte j)) dir n =
      if n = first + j then some (pte j) else dirEntry s' dir n := by
    intro n hn
    have hplace : (first + j) / 1024 * 1024 + (first + j) % 1024 = first + j := by omega
    rw [dir_entry_set_word hpres hne.symm (fun d hd hother hd' heq =>
      hother (h.tree.inj d hd _ (by omega) hd' hpres heq)) (by omega) hn, hplace, if_pos hpte]
  refine ⟨⟨fun k hk => ?_, fun n hn hout hwindow => ?_, fun q hq => ?_, fun l hl => ?_,
    fun d hd => ?_, fun q hq hout => ?_⟩, h.tree.set_word hne.symm, fun d hd => ?_, fun n hn => ?_⟩
  · rw [hentry _ (by omega)]
    by_cases hkj : k = j
    · rw [hkj, if_pos rfl]
    · rw [if_neg (by omega)]
      exact h.entries k (by omega)
  · have hnj : n ≠ first + j := fun heq => hout (in_range_succ.2 (.inr heq))
    rw [hentry n hn, if_neg hnj]
    exact h.others n hn (fun hin => hout (in_range_succ.2 (.inl hin))) hwindow
  · exact h.refs q fun d hd => htable d ▸ hq d hd
  · obtain ⟨new, rest, hsplit, hrest, hmem⟩ := h.taken l hl
    refine ⟨new, rest, hsplit, hrest, fun q => ?_⟩
    simp only [htable]
    exact hmem q
  · rw [htable]
    exact h.counted d hd
  · -- a page that holds no entry of the region is not written
    have hqt : q ≠ tableOf s' dir ((first + j) / 1024) := by
      intro heq
      refine hout (first + j) (in_range_succ.2 (.inr rfl)) ?_
      rw [htable, heq]
    have hmem : (s'.setWord (tableOf s' dir ((first + j) / 1024)) ((first + j) % 1024)
        (pte j)).mem q = s'.mem q := Function.update_of_ne hqt _ _
    rw [hmem]
    exact h.memory q hq fun n hn => htable (n / 1024) ▸ hout n hn
  · rw [hpde]
    exact h.pdes d hd
  · rw [HasPageTable, hpde, htable]
    exact h.there n hn

/-- One iteration of the loop. -/
theorem Progress.step (h : Progress s dir first pte j j s') {va : Word}
    (hva : pgnum va = first + j)
    (hself : HasPageTable s dir ((first + j) / 1024) → tableOf s dir ((first + j) / 1024) ≠ dir)
    (hpte : hasFlag (pte j) pteP = true) :
    wp (mapPage dir va (pte j)) (fun _ s₁ => Progress s dir first pte (j + 1) (j + 1) s₁)
      (fun _ _ => True) s' := by
  have hlast : first + j < 1048576 := by
    have hlt := va.isLt
    rw [← hva, pgnum_eq]
    omega
  have hpdx : pdx va = (first + j) / 1024 := by rw [← hva, pgnum_div]
  have hptx : ptx va = (first + j) % 1024 := by
    rw [← hva, pgnum_eq, ptx_eq]
  have hfree : ∀ p, s'.pageFreeList = some p → p < 1048576 ∧ p ≠ dir :=
    fun p hhead => ⟨(h.tree.head hhead).1, (h.tree.head hhead).2.1⟩
  rw [mapPage, wp_bind]
  refine wp_mono_ret (wp_walk_create hfree) fun r s₁ hr => ?_
  cases r with
  | none => exact trivial
  | some ref =>
      obtain ⟨rfl, hfound⟩ := hr ref rfl
      rw [hpdx] at hfound
      have hstep : Progress s dir first pte (j + 1) j s₁ := by
        cases hfound with
        | inl hthere =>
            obtain ⟨hpres, rfl⟩ := hthere
            exact h.found hself hpres
        | inr hmade =>
            obtain ⟨habsent, p, hnew⟩ := hmade
            exact Creation.progress ⟨h, hlast, rfl, habsent, hnew⟩
      show Progress _ _ _ _ _ _ (s₁.setWord (tableOf s₁ dir (pdx va)) (ptx va) (pte j))
      rw [hpdx, hptx]
      exact hstep.write hlast hpte

end Loop

/-! ## The whole region -/

section Region

variable {s s' : Kernel} {dir : Nat} {va size pa perm : Word}

theorem boot_map_region_spec (htree : Tree s dir) (hsize : size.toNat % 4096 = 0)
    (hfit : va.toNat + size.toNat ≤ 2 ^ 32)
    (hself : ∀ n, InRange (pgnum va) (size.toNat / 4096) n → HasPageTable s dir (n / 1024) →
      tableOf s dir (n / 1024) ≠ dir) :
    wp (bootMapRegion dir va size pa perm)
      (fun _ s' => Progress s dir (pgnum va) (bootPte pa perm) (size.toNat / 4096)
        (size.toNat / 4096) s') (fun _ _ => True) s := by
  rw [boot_map_region_pages hsize]
  refine wp_for_upto (I := fun j s' => Progress s dir (pgnum va) (bootPte pa perm) j j s')
    (progress_zero htree) fun j hj s' h => ?_
  have hva : pgnum (va + BitVec.ofNat 32 (j * pgsize)) = pgnum va + j := by
    rw [pgnum_eq, pgnum_eq, BitVec.toNat_add, BitVec.toNat_ofNat, pgsize]
    omega
  exact h.step hva (hself _ ⟨Nat.le_add_right _ _, by omega⟩) (boot_pte_present pa perm j)

/-- What `boot_map_region` does to a page directory whose page tables are different pages, when it
returns. The region has its entries. Every other page keeps its mapping, but where the directory
shows itself and in it a page table that is new. The free list has lost exactly the page tables
that were missing, which have a `pp_ref` of one; no other `struct PageInfo` has changed, and no page
of memory but the directory and the page tables of the region. -/
theorem boot_map_region_maps (htree : Tree s dir) (hsize : size.toNat % 4096 = 0)
    (hfit : va.toNat + size.toNat ≤ 2 ^ 32)
    (hself : ∀ n, InRange (pgnum va) (size.toNat / 4096) n → HasPageTable s dir (n / 1024) →
      tableOf s dir (n / 1024) ≠ dir)
    (hreturn : bootMapRegion dir va size pa perm s = .ret () s') :
    Mapped s dir (pgnum va) (bootPte pa perm) (size.toNat / 4096) (size.toNat / 4096) s' :=
  ((wp_of_ret hreturn).1 (boot_map_region_spec htree hsize hfit hself)).toMapped

/-- A region of one page. -/
theorem boot_map_region_one :
    bootMapRegion dir va 4096 pa perm = mapPage dir va (bootPte pa perm 0) := by
  have hcount : (4096 : Word).toNat / 4096 = 1 := rfl
  have hva : va + BitVec.ofNat 32 (0 * pgsize) = va := BitVec.add_zero va
  rw [boot_map_region_pages rfl, hcount, for_upto_succ, for_upto_zero, hva]
  rfl

/-- A page is mapped, too, when its page table has to be created and there is a free page. -/
theorem map_page_returns {p : Nat} {w : Word} (habsent : ¬ HasPageTable s dir (pdx va))
    (hhead : s.pageFreeList = some p) (hp : p < s.npages) (hsmall : s.npages ≤ 1048576) :
    wp (mapPage dir va w) (fun _ _ => True) (fun _ _ => False) s := by
  have hpage : pgnum (page2pa p) = p := pgnum_page2pa (by omega)
  rw [mapPage, wp_bind, pgdirWalk, wp_bind, haveTable, wp_bind, readWord, wp_gets,
    if_neg habsent, if_pos rfl, newPageTable, wp_bind, pageAlloc, wp_bind, wp_gets, hhead]
  simp only [modifyPage, writeWord, zeroPage, if_true, wp_bind, wp_modify, wp_pure]
  rw [wp_kaddr (by rw [hpage]; exact hp), hpage, wp_gets]
  rw [wp_kaddr]
  · trivial
  · simp only [Kernel.setWord, Function.update_self, pgnum_pte_addr,
      pgnum_mk_pde (show p < 1048576 by omega)]
    exact hp

end Region

/-! ## Where the mapping of another page changes -/

/-- A directory in page 1 that maps itself at `UVPT`, and a free page. -/
def oneFree : Kernel :=
  { twoTables with
    mem := fun p i => if p = 1 ∧ i = 957 then mkPde 1 else 0
    pageFreeList := some 2 }

/-- A directory in page 1 whose first two entries point to the same page table. -/
def sharedTable : Kernel :=
  { twoTables with mem := fun p i => if p = 1 ∧ (i = 0 ∨ i = 1) then mkPde 2 else 0 }

theorem one_free_pde (d : Nat) : oneFree.mem 1 d = if d = 957 then mkPde 1 else 0 := by
  simp [oneFree]

theorem one_free_table {d : Nat} (h : HasPageTable oneFree 1 d) : d = 957 := by
  rw [HasPageTable, one_free_pde] at h
  by_contra hne
  rw [if_neg hne, zero_not_present] at h
  cases h

theorem one_free_tree : Tree oneFree 1 := by
  refine ⟨by decide, fun d _ d' _ h h' _ => ?_, [2], ⟨rfl, rfl⟩, fun p hp => ?_⟩
  · rw [one_free_table h, one_free_table h']
  · rw [List.mem_singleton.1 hp]
    refine ⟨by decide, by decide, fun d _ h => ?_⟩
    rw [one_free_table h, tableOf, one_free_pde, if_pos rfl]
    decide

/-- The first page above `KERNBASE`, as `mem_init` maps it, with the free page as its frame. -/
theorem one_free_returns :
    ∃ s', bootMapRegion 1 0xF0000000 4096 0x2000 pteW oneFree = .ret () s' := by
  have hreturns : wp (bootMapRegion 1 0xF0000000 4096 0x2000 pteW) (fun _ _ => True)
      (fun _ _ => False) oneFree := by
    rw [boot_map_region_one]
    exact map_page_returns (fun h => absurd (one_free_table h) (by decide)) rfl (by decide)
      (by decide)
  obtain ⟨r, s', hreturn, -⟩ := ret_of_wp hreturns
  exact ⟨s', hreturn⟩

/-- The page table of the region is not the directory. -/
theorem one_free_range {n : Nat} (hn : InRange (pgnum 0xF0000000) ((4096 : Word).toNat / 4096) n) :
    ¬ HasPageTable oneFree 1 (n / 1024) := by
  intro h
  have hindex := one_free_table h
  obtain ⟨hlo, hhi⟩ := hn
  have hbase : pgnum 0xF0000000 = 983040 := by decide
  have hcount : (4096 : Word).toNat / 4096 = 1 := rfl
  rw [hbase] at hlo hhi
  omega

/-- Mapping the first page above `KERNBASE` creates a page table from the free page. -/
theorem boot_map_region_maps_kernbase : ∃ s',
    bootMapRegion 1 0xF0000000 4096 0x2000 pteW oneFree = .ret () s' ∧
      Mapped oneFree 1 (pgnum 0xF0000000) (bootPte 0x2000 pteW) ((4096 : Word).toNat / 4096)
        ((4096 : Word).toNat / 4096) s' := by
  obtain ⟨s', hreturn⟩ := one_free_returns
  exact ⟨s', hreturn, boot_map_region_maps one_free_tree rfl (by decide)
    (fun n hn h => absurd h (one_free_range hn)) hreturn⟩

/-- The new page table appears at `UVPT`, and its `pp_ref` changes although the region maps it. Two
directory entries that share a page table both get the new entry. Mapping a page at the place where
the directory shows itself destroys that place. -/
theorem other_mappings_change :
    (∃ s', bootMapRegion 1 0xF0000000 4096 0x2000 pteW oneFree = .ret () s' ∧
      dirEntry s' 1 (957 * 1024 + 960) ≠ dirEntry oneFree 1 (957 * 1024 + 960) ∧
      (s'.pages 2).ppRef ≠ (oneFree.pages 2).ppRef) ∧
    (∃ s', bootMapRegion 1 0 4096 0 0 sharedTable = .ret () s' ∧
      dirEntry s' 1 1024 ≠ dirEntry sharedTable 1 1024) ∧
    ∃ s', bootMapRegion 1 0xEF7BD000 4096 0 0 oneFree = .ret () s' ∧
      dirEntry s' 1 (pgnum 0xEF7BD000) ≠ some (bootPte 0 0 0) := by
  refine ⟨?_, ?_, ?_⟩
  · obtain ⟨s', hreturn⟩ := one_free_returns
    have h := (wp_of_ret hreturn).1 (boot_map_region_spec one_free_tree rfl (by decide)
      fun n hn h => absurd h (one_free_range hn))
    have hin : InRange (pgnum 0xF0000000) ((4096 : Word).toNat / 4096) 983040 := by
      unfold InRange
      decide
    have hmissing : Missing oneFree 1 (pgnum 0xF0000000) ((4096 : Word).toNat / 4096) 960 :=
      ⟨one_free_range hin, 983040, hin, rfl⟩
    -- the page table is the free page
    obtain ⟨new, rest, hsplit, -, hnew⟩ := h.taken [2] ⟨rfl, rfl⟩
    have htwo : tableOf s' 1 960 = 2 := by
      have hmem := (hnew (tableOf s' 1 960)).2 ⟨960, hmissing, rfl⟩
      have hmem' := List.mem_append_left rest hmem
      rw [← hsplit] at hmem'
      exact List.mem_singleton.1 hmem'
    refine ⟨s', hreturn, ?_, ?_⟩
    · have hself : s'.mem 1 957 = mkPde 1 := by
        rw [h.pdes 957 fun hd => hd.1 (by decide)]
        decide
      have hpres : hasFlag (s'.mem 1 960) pteP = true := (h.there 983040 hin).1
      have hnone : dirEntry oneFree 1 (957 * 1024 + 960) = none := by decide
      have hnum : pgnum (mkPde 1) = 1 := by decide
      rw [hnone, dir_entry_eq, tableOf]
      rw [show (957 * 1024 + 960) / 1024 = 957 from rfl,
        show (957 * 1024 + 960) % 1024 = 960 from rfl, hself, hnum, hpres, mk_pde_present]
      intro heq
      cases heq
    · have hcounted := h.counted 960 hmissing
      rw [htwo] at hcounted
      rw [hcounted]
      decide
  · have hreturns : wp (bootMapRegion 1 0 4096 0 0)
        (fun _ s' => dirEntry s' 1 1024 ≠ dirEntry sharedTable 1 1024) (fun _ _ => False)
        sharedTable := by
      rw [boot_map_region_one]
      exact wp_map_page_there (by decide) (by decide) (by decide)
    obtain ⟨r, s', hreturn, hne⟩ := ret_of_wp hreturns
    exact ⟨s', hreturn, hne⟩
  · have hreturns : wp (bootMapRegion 1 0xEF7BD000 4096 0 0)
        (fun _ s' => dirEntry s' 1 (pgnum 0xEF7BD000) ≠ some (bootPte 0 0 0)) (fun _ _ => False)
        oneFree := by
      rw [boot_map_region_one]
      exact wp_map_page_there (by decide) (by decide) (by decide)
    obtain ⟨r, s', hreturn, hne⟩ := ret_of_wp hreturns
    exact ⟨s', hreturn, hne⟩

end Labs.Jos.BootMap
