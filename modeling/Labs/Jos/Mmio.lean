import Labs.Base.Chain
import Labs.Jos.DirEntry
import Labs.Jos.PageTable

/-!
# Device memory

The regions that `mmio_map_region` hands out. Its static `base` only moves up, so that regions lie
apart, and the entries of a region are written once. The page directory maps itself at `UVPT`: when
the page table of the MMIO region is new, it appears there, too.
-/

namespace Labs.Jos.Mmio

open Prog

/-- `PDX(MMIOBASE)`. All of the MMIO region has this directory index. -/
def mmioPdx : Nat := 958

/-- The page number at which `UVPT` shows the page table of the MMIO region. -/
def windowPage : Nat := 957 * 1024 + mmioPdx

/-- The page table entry of `kern_pgdir` for page number `n`. -/
def kernEntry (s : Kernel) (n : Nat) : Option Word :=
  let pde := s.mem s.kernPgdir (n / 1024)
  let pte := s.mem (pgnum pde) (n % 1024)
  if hasFlag pde pteP && hasFlag pte pteP then some pte else none

/-- `PTE_P|PTE_W|PTE_PCD|PTE_PWT`. -/
def mmioFlags : Word := pteP ||| pteW ||| ptePcd ||| ptePwt

/-- `kern_pgdir` maps the address `va` to the physical address `pa`, with exactly the flags of
device memory. -/
def MapsTo (s : Kernel) (va pa : Word) : Prop :=
  ∃ w, kernEntry s (pgnum va) = some w ∧ w &&& 0xFFF = mmioFlags ∧
    pteAddr w + BitVec.ofNat 32 (pgoff va) = pa

/-- A call of `mmio_map_region`, and the address it returned. -/
structure Region where
  pa : Word
  size : Word
  base : Word

/-- The address of byte `k`. -/
def Region.addr (x : Region) (k : Nat) : Word := x.base + BitVec.ofNat 32 k

/-- Page number `n` is that of a byte of the region. -/
def Region.Covers (x : Region) (n : Nat) : Prop := ∃ k < x.size.toNat, pgnum (x.addr k) = n

/-- The regions have no byte in common. -/
def Region.Apart (x y : Region) : Prop :=
  ∀ j < x.size.toNat, ∀ k < y.size.toNat, x.base.toNat + j ≠ y.base.toNat + k

/-- A sequence of calls. -/
def mmioMapRegions : List (Word × Word) → Kern (List Region)
  | [] => pure []
  | (pa, size) :: calls => do
      let base ← mmioMapRegion pa size
      let regions ← mmioMapRegions calls
      pure (⟨pa, size, base⟩ :: regions)

theorem mmio_map_regions_cons (pa size : Word) (calls : List (Word × Word)) :
    mmioMapRegions ((pa, size) :: calls) = (do
      let base ← mmioMapRegion pa size
      let regions ← mmioMapRegions calls
      pure (⟨pa, size, base⟩ :: regions)) := rfl

/-- What calls that return `regions` have to ensure, from state `s` to state `s'`. -/
structure Law (s s' : Kernel) (regions : List Region) : Prop where
  within : ∀ x ∈ regions, mmiobase.toNat ≤ x.base.toNat ∧
    x.base.toNat + x.size.toNat ≤ mmiolim.toNat
  disjoint : regions.Pairwise Region.Apart
  mapped : ∀ x ∈ regions, ∀ k < x.size.toNat, MapsTo s' (x.addr k) (x.pa + BitVec.ofNat 32 k)
  others : ∀ n < 1048576, (∀ x ∈ regions, ¬ x.Covers n) → kernEntry s' n = kernEntry s n

/-- There is a page table for the MMIO region. -/
def HasTable (s : Kernel) : Prop := hasFlag (s.mem s.kernPgdir mmioPdx) pteP = true

instance (s : Kernel) : Decidable (HasTable s) := inferInstanceAs (Decidable (_ = _))

/-- The calls that do what they are to do: the size does not wrap around when it is rounded up, the
physical address is that of a page, and no page table is created. -/
def Good (s : Kernel) (calls : List (Word × Word)) : Prop :=
  (∀ c ∈ calls, c.2.toNat ≤ 0xFFFFF000 ∧ (c.2 = 0 ∨ c.1.toNat % 4096 = 0)) ∧
    (HasTable s ∨ ∀ c ∈ calls, c.2 = 0)

/-- The kernel's page directory after `mem_init`: it maps itself at `UVPT` and nowhere else, the
page table of the MMIO region is used for nothing else, and its tables are not free. -/
structure KernDir (s : Kernel) : Prop where
  small : s.npages ≤ 1048576
  self : ∀ d < 1024, hasFlag (s.mem s.kernPgdir d) pteP = true →
    (pgnum (s.mem s.kernPgdir d) = s.kernPgdir ↔ d = 957)
  uvpt : hasFlag (s.mem s.kernPgdir 957) pteP = true
  alone : ∀ d < 1024, d ≠ mmioPdx → hasFlag (s.mem s.kernPgdir d) pteP = true → HasTable s →
    pgnum (s.mem s.kernPgdir d) ≠ pgnum (s.mem s.kernPgdir mmioPdx)
  free : ∃ l, Chain (fun p => (s.pages p).ppLink) s.pageFreeList l ∧ ∀ p ∈ l, p < s.npages ∧
    ∀ d < 1024, hasFlag (s.mem s.kernPgdir d) pteP = true → pgnum (s.mem s.kernPgdir d) ≠ p
  base : mmiobase.toNat ≤ s.mmioBase.toNat ∧ s.mmioBase.toNat < mmiolim.toNat ∧
    s.mmioBase.toNat % 4096 = 0

/-! ## Numbers -/

variable {s s' : Kernel} {n d t q : Nat} {w : Word}

theorem mmiobase_to_nat : mmiobase.toNat = 4018143232 := by decide +kernel

theorem mmiolim_to_nat : mmiolim.toNat = 4022337536 := by decide +kernel

theorem roundup_to_nat (size : Word) :
    (roundup size).toNat = if size.toNat ≤ 0xFFFFF000 then (size.toNat + 4095) / 4096 * 4096
      else 0 := by
  have hlt := size.isLt
  have hup : (size + pgsizeW - 1).toNat = (size.toNat + 4095) % 4294967296 := by
    have hpage : pgsizeW.toNat = 4096 := rfl
    have hone : (1 : Word).toNat = 1 := rfl
    rw [BitVec.toNat_sub, BitVec.toNat_add, hpage, hone]
    omega
  have hdown : ∀ a : Word, (rounddown a).toNat = a.toNat / 4096 * 4096 := by
    intro a
    have hmod : (a % pgsizeW).toNat = a.toNat % 4096 := rfl
    rw [rounddown, BitVec.toNat_sub_of_le (by rw [BitVec.le_def, hmod]; exact Nat.mod_le _ _), hmod]
    omega
  rw [roundup, hdown, hup]
  split <;> omega

/-- The number of pages that a call maps. -/
def pages (size : Word) : Nat := (roundup size).toNat / 4096

theorem pages_mul (size : Word) : pages size * 4096 = (roundup size).toNat := by
  unfold pages
  rw [roundup_to_nat]
  split <;> omega

/-! ## Entries -/

/-- The entry that `boot_map_region` writes. -/
def mmioPte (pa : Word) (i : Nat) : Word :=
  (pa + BitVec.ofNat 32 (i * pgsize)) ||| (pteW ||| ptePcd ||| ptePwt) ||| pteP

theorem mmio_pte_present (pa : Word) (i : Nat) : hasFlag (mmioPte pa i) pteP = true := by
  rw [has_flag_p]
  simp [mmioPte, pteP]

theorem kern_entry_eq (s : Kernel) (n : Nat) : kernEntry s n =
    if hasFlag (s.mem s.kernPgdir (n / 1024)) pteP &&
        hasFlag (s.mem (pgnum (s.mem s.kernPgdir (n / 1024))) (n % 1024)) pteP then
      some (s.mem (pgnum (s.mem s.kernPgdir (n / 1024))) (n % 1024))
    else none :=
  rfl

/-- A page table of `kern_pgdir` other than the directory itself. -/
theorem KernDir.table_ne (h : KernDir s) (hd : d < 1024) (hself : d ≠ 957)
    (hpresent : hasFlag (s.mem s.kernPgdir d) pteP = true) :
    s.kernPgdir ≠ pgnum (s.mem s.kernPgdir d) :=
  fun heq => hself ((h.self d hd hpresent).1 heq.symm)

/-- Writing a page table entry keeps the directory. -/
theorem KernDir.set_entry (h : KernDir s) (hd : d < 1024) (hself : d ≠ 957)
    (hpresent : hasFlag (s.mem s.kernPgdir d) pteP = true) :
    KernDir (s.setWord (pgnum (s.mem s.kernPgdir d)) t w) := by
  have hdir := mem_set_word_dir (s := s) (t := t) (w := w) (h.table_ne hd hself hpresent)
  refine ⟨h.small, fun d' hd' hp => ?_, ?_, fun d' hd' hne hp ht => ?_, ?_, h.base⟩
  · have heq := hdir d'
    change hasFlag (Kernel.mem _ s.kernPgdir d') pteP = true at hp
    change pgnum (Kernel.mem _ s.kernPgdir d') = s.kernPgdir ↔ _
    rw [heq] at hp ⊢
    exact h.self d' hd' hp
  · exact (congrArg (hasFlag · pteP) (hdir 957)).trans h.uvpt
  · change hasFlag (Kernel.mem _ s.kernPgdir d') pteP = true at hp
    change hasFlag (Kernel.mem _ s.kernPgdir mmioPdx) pteP = true at ht
    change pgnum (Kernel.mem _ s.kernPgdir d') ≠ pgnum (Kernel.mem _ s.kernPgdir mmioPdx)
    rw [hdir] at hp ht ⊢
    rw [hdir]
    exact h.alone d' hd' hne hp ht
  · obtain ⟨l, hl, hfree⟩ := h.free
    refine ⟨l, hl, fun p hp => ⟨(hfree p hp).1, fun d' hd' hpres => ?_⟩⟩
    change hasFlag (Kernel.mem _ s.kernPgdir d') pteP = true at hpres
    change pgnum (Kernel.mem _ s.kernPgdir d') ≠ p
    rw [hdir] at hpres ⊢
    exact (hfree p hp).2 d' hd' hpres

/-- Writing an entry of the MMIO table changes one mapping. -/
theorem kern_entry_set_word (h : KernDir s) (htable : HasTable s) (ht : t < 1024)
    (hn : n < 1048576) :
    kernEntry (s.setWord (pgnum (s.mem s.kernPgdir mmioPdx)) t w) n =
      if n = mmioPdx * 1024 + t then (if hasFlag w pteP then some w else none)
      else kernEntry s n := by
  have hne := h.table_ne (by decide) (by decide) htable
  exact dir_entry_set_word htable hne (fun d hd hother hpresent =>
    h.alone d hd hother hpresent htable) ht hn

/-! ## Page tables -/

/-- After `pgdir_walk` has looked for the page table with index `d`, from state `s`: there is one,
and it was there or has been created from a free page. -/
structure Walked (s : Kernel) (d : Nat) (s' : Kernel) : Prop where
  dir : s'.kernPgdir = s.kernPgdir
  cursor : s'.mmioBase = s.mmioBase
  kept : KernDir s'
  present : hasFlag (s'.mem s'.kernPgdir d) pteP = true
  same : hasFlag (s.mem s.kernPgdir d) pteP = true → s' = s
  pdes : ∀ d', d' ≠ d → s'.mem s'.kernPgdir d' = s.mem s.kernPgdir d'
  entries : ∀ n < 1048576, n ≠ 957 * 1024 + d → kernEntry s' n = kernEntry s n

/-- The first free page, zeroed, becomes the page table with index `d`. -/
theorem KernDir.add_table (h : KernDir s) {p : Nat} (hd : d < 1024) (hself : d ≠ 957)
    (habsent : hasFlag (s.mem s.kernPgdir d) pteP = false)
    (hnew : MadeTable s s.kernPgdir d p s') : Walked s d s' := by
  have hdir := hnew.kernPgdir
  have hhead := hnew.head
  have hpde := hnew.pde
  have hpdes := hnew.pdes
  obtain ⟨l, hl, hfree⟩ := h.free
  rw [hhead] at hl
  obtain ⟨rest, rfl, -⟩ := hl.pop none
  have hnodup := List.nodup_cons.1 hl.nodup
  have hsmall := h.small
  have hp := (hfree p List.mem_cons_self).1
  have hnum : pgnum (mkPde p) = p := pgnum_mk_pde (by omega)
  have hpself : p ≠ s.kernPgdir := by
    have hne := (hfree p List.mem_cons_self).2 957 (by decide) h.uvpt
    rw [(h.self 957 (by decide) h.uvpt).2 rfl] at hne
    exact hne.symm
  -- no directory entry of before points to the new table
  have hold : ∀ d' < 1024, d' ≠ d → hasFlag (s.mem s.kernPgdir d') pteP = true →
      pgnum (s.mem s.kernPgdir d') ≠ p := fun d' hd' _ hpres =>
    (hfree p List.mem_cons_self).2 d' hd' hpres
  have hkept : KernDir s' := by
    refine ⟨by rw [hnew.npages]; exact h.small, fun d' hd' hpres => ?_, ?_,
      fun d' hd' hne hpres htable => ?_, ⟨rest, ?_, fun q hq => ⟨?_, fun d' hd' hpres => ?_⟩⟩, ?_⟩
    · rw [hdir] at hpres ⊢
      by_cases heq : d' = d
      · subst heq
        rw [hpde, hnum]
        exact iff_of_false hpself hself
      · rw [hpdes d' heq] at hpres ⊢
        exact h.self d' hd' hpres
    · rw [hdir, hpdes 957 hself.symm]
      exact h.uvpt
    · rw [HasTable, hdir] at htable
      rw [hdir] at hpres ⊢
      by_cases heq : d' = d
      · subst heq
        rw [hpdes mmioPdx hne.symm] at htable
        rw [hpdes mmioPdx hne.symm, hpde, hnum]
        exact (hold mmioPdx (by decide) hne.symm htable).symm
      · rw [hpdes d' heq] at hpres ⊢
        by_cases hmmio : mmioPdx = d
        · rw [hmmio, hpde, hnum]
          exact hold d' hd' heq hpres
        · rw [hpdes mmioPdx hmmio] at htable ⊢
          exact h.alone d' hd' hne hpres htable
    · rw [hnew.list]
      refine hl.2.congr fun q hq => ?_
      have hqp : q ≠ p := fun heq => hnodup.1 (heq ▸ hq)
      rw [hnew.pages, Function.update_of_ne hqp]
    · rw [hnew.npages]
      exact (hfree q (List.mem_cons_of_mem _ hq)).1
    · rw [hdir] at hpres ⊢
      by_cases heq : d' = d
      · subst heq
        rw [hpde, hnum]
        rintro rfl
        exact hnodup.1 hq
      · rw [hpdes d' heq] at hpres ⊢
        exact (hfree q (List.mem_cons_of_mem _ hq)).2 d' hd' hpres
    · rw [hnew.mmioBase]
      exact h.base
  refine ⟨hdir, hnew.mmioBase, hkept, ?_, fun hpres => ?_, fun d' hd' => ?_, fun n hn hwindow => ?_⟩
  · rw [hdir, hpde]
    exact mk_pde_present p
  · rw [habsent] at hpres
    cases hpres
  · rw [hdir]
    exact hpdes d' hd'
  · show dirEntry s' s'.kernPgdir n = dirEntry s s.kernPgdir n
    rw [hdir]
    refine hnew.toNewTable.entries (by omega) (by rw [HasPageTable, habsent]; exact Bool.false_ne_true)
      (fun d' hd' hpres => (hfree p List.mem_cons_self).2 d' hd' hpres) hn fun hpres hthis => ?_
    -- the window at `UVPT`: it shows the directory
    have h957 := (h.self _ (by omega) hpres).1 hthis
    omega

/-- `pgdir_walk` of `kern_pgdir` with `create`, when it succeeds. -/
theorem walk_kern {va : Word} (h : KernDir s) (hself : pdx va ≠ 957) :
    wp (pgdirWalk s.kernPgdir va true)
      (fun r s' => ∀ pte, r = some pte → Walked s (pdx va) s' ∧
        pte = PteRef.mk (pgnum (s'.mem s'.kernPgdir (pdx va))) (ptx va)) (fun _ _ => True) s := by
  have hfree : ∀ p, s.pageFreeList = some p → p < 1048576 ∧ p ≠ s.kernPgdir := by
    intro p hhead
    obtain ⟨l, hl, hfree⟩ := h.free
    rw [hhead] at hl
    obtain ⟨rest, rfl, -⟩ := hl.pop none
    have hp := (hfree p List.mem_cons_self).1
    have hne := (hfree p List.mem_cons_self).2 957 (by decide) h.uvpt
    rw [(h.self 957 (by decide) h.uvpt).2 rfl] at hne
    have hsmall := h.small
    exact ⟨by omega, hne.symm⟩
  refine wp_mono_ret (wp_walk_create hfree) fun r s' hwalk pte hpte => ?_
  obtain ⟨rfl, hfound⟩ := hwalk pte hpte
  cases hfound with
  | inl hthere =>
      obtain ⟨hpres, rfl⟩ := hthere
      exact ⟨⟨rfl, rfl, h, hpres, fun _ => rfl, fun _ _ => rfl, fun _ _ _ => rfl⟩, rfl⟩
  | inr hmade =>
      obtain ⟨habsent, p, hnew⟩ := hmade
      refine ⟨h.add_table (pdx_lt va) hself (Bool.eq_false_iff.2 habsent) hnew, ?_⟩
      rw [hnew.kernPgdir]

/-- The body of the loop of `boot_map_region`. -/
def mapPage (pgdir : Nat) (va w : Word) : Kern Unit := do
  match ← pgdirWalk pgdir va true with
  | none => panic "boot_map_region: pgdir_walk failed"
  | some pte => writeWord pte.table pte.index w

/-- `boot_map_region` for whole pages. Such a size does not make the loop endless. -/
theorem boot_map_region_pages {size : Word} (hsize : size.toNat % 4096 = 0) (pgdir : Nat)
    (va pa perm : Word) :
    bootMapRegion pgdir va size pa perm = forUpto (size.toNat / 4096) fun j =>
      mapPage pgdir (va + BitVec.ofNat 32 (j * pgsize))
        ((pa + BitVec.ofNat 32 (j * pgsize)) ||| perm ||| pteP) := by
  have hlt := size.isLt
  have hnot : ¬ (0xFFFFF000 : Word) < size := by
    have hconst : (0xFFFFF000 : Word).toNat = 4294963200 := rfl
    rw [BitVec.lt_def, hconst]
    omega
  have hcount : pageCount size = size.toNat / 4096 := by
    unfold pageCount
    omega
  unfold bootMapRegion
  rw [hcount, if_neg hnot]
  exact bind_pure _

/-- `boot_map_region` for device memory. -/
theorem boot_map_region_mmio (pgdir : Nat) (va size pa : Word) :
    bootMapRegion pgdir va (roundup size) pa (pteW ||| ptePcd ||| ptePwt) =
      forUpto (pages size) fun j =>
        mapPage pgdir (va + BitVec.ofNat 32 (j * pgsize)) (mmioPte pa j) := by
  refine boot_map_region_pages ?_ pgdir va pa _
  rw [← pages_mul]
  exact Nat.mul_mod_left _ _

/-- One iteration of `boot_map_region` on `kern_pgdir`. -/
theorem map_page_kern (va w : Word) (h : KernDir s) (hself : pdx va ≠ 957) :
    wp (mapPage s.kernPgdir va w)
      (fun _ s' => ∃ s₁, Walked s (pdx va) s₁ ∧
        s' = s₁.setWord (pgnum (s₁.mem s₁.kernPgdir (pdx va))) (ptx va) w)
      (fun _ _ => True) s := by
  rw [mapPage, wp_bind]
  refine wp_mono_ret (walk_kern h hself) fun r s₁ hwalk => ?_
  cases r with
  | none => exact trivial
  | some pte =>
      obtain ⟨hwalked, rfl⟩ := hwalk pte rfl
      exact ⟨s₁, hwalked, rfl⟩

/-! ## One call -/

/-- After `j` pages of a call have been mapped, from state `s`. -/
structure Mapped (s : Kernel) (pa : Word) (j : Nat) (s' : Kernel) : Prop where
  dir : s'.kernPgdir = s.kernPgdir
  cursor : s'.mmioBase = s.mmioBase
  kept : KernDir s'
  table : 0 < j → HasTable s'
  old : HasTable s → HasTable s'
  same : j = 0 → s' = s
  entries : ∀ n < 1048576, n ≠ windowPage ∨ HasTable s → kernEntry s' n =
    if pgnum s.mmioBase ≤ n ∧ n < pgnum s.mmioBase + j then
      some (mmioPte pa (n - pgnum s.mmioBase))
    else kernEntry s n

/-- The page at offset `j` of the region at `base`. -/
theorem pgnum_page {base : Word} {j : Nat} (hmod : base.toNat % 4096 = 0)
    (hlo : mmiobase.toNat ≤ base.toNat) (hj : base.toNat + j * 4096 < mmiolim.toNat) :
    pgnum (base + BitVec.ofNat 32 (j * pgsize)) = pgnum base + j ∧
      pdx (base + BitVec.ofNat 32 (j * pgsize)) = mmioPdx := by
  rw [mmiobase_to_nat] at hlo
  rw [mmiolim_to_nat] at hj
  have hsum : (base + BitVec.ofNat 32 (j * pgsize)).toNat = base.toNat + j * 4096 := by
    rw [BitVec.toNat_add, BitVec.toNat_ofNat, pgsize]
    omega
  rw [pgnum_eq, pgnum_eq, pdx_eq, hsum, mmioPdx]
  omega

/-- The next page of a call. -/
theorem Mapped.step {pa : Word} {j : Nat} (h : KernDir s) (hm : Mapped s pa j s')
    (hj : s.mmioBase.toNat + j * 4096 < mmiolim.toNat) :
    wp (mapPage s.kernPgdir (s.mmioBase + BitVec.ofNat 32 (j * pgsize)) (mmioPte pa j))
      (fun _ s'' => Mapped s pa (j + 1) s'') (fun _ _ => True) s' := by
  obtain ⟨hlo, -, hmod⟩ := h.base
  obtain ⟨hnum, hpdx⟩ := pgnum_page hmod hlo hj
  have hmap := map_page_kern (s.mmioBase + BitVec.ofNat 32 (j * pgsize)) (mmioPte pa j) hm.kept
    (by rw [hpdx]; decide)
  rw [hm.dir] at hmap
  refine wp_mono_ret hmap fun _ s'' hs'' => ?_
  obtain ⟨s₁, hwalked, rfl⟩ := hs''
  rw [hpdx] at hwalked ⊢
  have htable : HasTable s₁ := hwalked.present
  have hptx := ptx_lt (s.mmioBase + BitVec.ofNat 32 (j * pgsize))
  have hsplit := pgnum_split (s.mmioBase + BitVec.ofNat 32 (j * pgsize))
  rw [hnum, hpdx] at hsplit
  have hpde := mem_set_word_dir (s := s₁) (t := ptx (s.mmioBase + BitVec.ofNat 32 (j * pgsize)))
    (w := mmioPte pa j) (hwalked.kept.table_ne (by decide) (by decide) htable) mmioPdx
  have hafter : HasTable (s₁.setWord (pgnum (s₁.mem s₁.kernPgdir mmioPdx))
      (ptx (s.mmioBase + BitVec.ofNat 32 (j * pgsize))) (mmioPte pa j)) :=
    (congrArg (hasFlag · pteP) hpde).trans htable
  refine ⟨hwalked.dir.trans hm.dir, hwalked.cursor.trans hm.cursor,
    hwalked.kept.set_entry (by decide) (by decide) htable, fun _ => hafter, fun _ => hafter,
    fun h => absurd h (Nat.succ_ne_zero j), fun n hn hwindow => ?_⟩
  rw [kern_entry_set_word hwalked.kept htable hptx hn, if_pos (mmio_pte_present pa j)]
  by_cases hthis : n = mmioPdx * 1024 + ptx (s.mmioBase + BitVec.ofNat 32 (j * pgsize))
  · rw [if_pos hthis, if_pos (by omega)]
    congr 2
    omega
  · -- the walk may show a new table at `UVPT`, and nowhere else
    have hkeep : kernEntry s₁ n = kernEntry s' n := by
      rcases hwindow with hne | hhas
      · exact hwalked.entries n hn hne
      · rw [hwalked.same (hm.old hhas)]
    rw [if_neg hthis, hkeep, hm.entries n hn hwindow]
    have hrange : (pgnum s.mmioBase ≤ n ∧ n < pgnum s.mmioBase + (j + 1)) ↔
        (pgnum s.mmioBase ≤ n ∧ n < pgnum s.mmioBase + j) := by omega
    simp only [hrange]

/-- Moving the cursor. -/
theorem KernDir.set_base {base : Word} (h : KernDir s) (hbase : mmiobase.toNat ≤ base.toNat ∧
    base.toNat < mmiolim.toNat ∧ base.toNat % 4096 = 0) : KernDir { s with mmioBase := base } :=
  ⟨h.small, h.self, h.uvpt, h.alone, h.free, hbase⟩

/-- What a call of `mmio_map_region` does. -/
structure Call (s : Kernel) (pa size : Word) (base : Word) (s' : Kernel) : Prop where
  base : base = s.mmioBase
  cursor : s'.mmioBase.toNat = s.mmioBase.toNat + pages size * 4096
  kept : KernDir s'
  table : 0 < pages size → HasTable s'
  old : HasTable s → HasTable s'
  same : pages size = 0 → ∀ n, kernEntry s' n = kernEntry s n
  entries : ∀ n < 1048576, n ≠ windowPage ∨ HasTable s → kernEntry s' n =
    if pgnum s.mmioBase ≤ n ∧ n < pgnum s.mmioBase + pages size then
      some (mmioPte pa (n - pgnum s.mmioBase))
    else kernEntry s n

theorem mmio_map_region_spec (h : KernDir s) (pa size : Word) :
    wp (mmioMapRegion pa size) (fun base s' => Call s pa size base s') (fun _ _ => True) s := by
  unfold mmioMapRegion
  simp only [wp_bind, wp_get, wp_ite]
  refine ⟨fun _ => by simp [panic], fun hroom => ?_⟩
  have hlim : (s.mmioBase + roundup size).toNat = s.mmioBase.toNat + (roundup size).toNat ∧
      s.mmioBase.toNat + (roundup size).toNat < mmiolim.toNat := by
    rw [not_or, BitVec.not_le, BitVec.not_lt, BitVec.lt_def, BitVec.le_def] at hroom
    have hsize := (roundup size).isLt
    have hlt := s.mmioBase.isLt
    rw [BitVec.toNat_add] at hroom ⊢
    omega
  have hmul := pages_mul size
  rw [boot_map_region_mmio]
  have hloop : wp (forUpto (pages size) fun j =>
      mapPage s.kernPgdir (s.mmioBase + BitVec.ofNat 32 (j * pgsize)) (mmioPte pa j))
        (fun _ s' => Mapped s pa (pages size) s') (fun _ _ => True) s := wp_for_upto
    ⟨rfl, rfl, h, fun h => absurd h (by omega), id, fun _ => rfl, fun n _ _ => by
      rw [if_neg (by omega)]⟩
    (fun j hj s' hs' => hs'.step h (by omega))
  refine wp_mono_ret hloop fun _ s' hm => ?_
  have hcursor : (s.mmioBase + roundup size).toNat = s.mmioBase.toNat + pages size * 4096 := by
    omega
  obtain ⟨hlo, -, hmod⟩ := h.base
  have hsame : pages size = 0 → ∀ n, kernEntry s' n = kernEntry s n := by
    intro hzero n
    rw [hm.same hzero]
  refine ⟨rfl, hcursor, hm.kept.set_base ⟨?_, ?_, ?_⟩, hm.table, hm.old, hsame, hm.entries⟩ <;>
    omega

/-! ## All calls -/

/-- What a sequence of calls does: each region begins where the cursor stands, its pages have their
entries at the end, and nothing else is mapped from there on, but for a new page table. -/
structure Calls (s : Kernel) (calls : List (Word × Word)) (regions : List Region)
    (s' : Kernel) : Prop where
  args : regions.map (fun x => (x.pa, x.size)) = calls
  kept : KernDir s'
  up : s.mmioBase.toNat ≤ s'.mmioBase.toNat
  bounds : ∀ x ∈ regions, s.mmioBase.toNat ≤ x.base.toNat ∧ x.base.toNat % 4096 = 0 ∧
    x.base.toNat + pages x.size * 4096 ≤ s'.mmioBase.toNat
  apart : regions.Pairwise fun x y => x.base.toNat + pages x.size * 4096 ≤ y.base.toNat
  table : (∃ x ∈ regions, 0 < pages x.size) → HasTable s'
  old : HasTable s → HasTable s'
  same : (∀ x ∈ regions, pages x.size = 0) → ∀ n, kernEntry s' n = kernEntry s n
  entries : ∀ x ∈ regions, ∀ j < pages x.size,
    kernEntry s' (pgnum x.base + j) = some (mmioPte x.pa j)
  others : ∀ n < 1048576, n ≠ windowPage ∨ HasTable s →
    (∀ x ∈ regions, ¬ (pgnum x.base ≤ n ∧ n < pgnum x.base + pages x.size)) →
    kernEntry s' n = kernEntry s n

theorem mmio_map_regions_spec (calls : List (Word × Word)) : ∀ {s : Kernel}, KernDir s →
    wp (mmioMapRegions calls) (fun regions s' => Calls s calls regions s') (fun _ _ => True) s := by
  induction calls with
  | nil =>
      intro s h
      exact ⟨rfl, h, le_rfl, by simp, .nil, by simp, id, fun _ _ => rfl, by simp,
        fun _ _ _ _ => rfl⟩
  | cons c calls ih =>
      intro s h
      obtain ⟨pa, size⟩ := c
      rw [mmio_map_regions_cons, wp_bind]
      refine wp_mono_ret (mmio_map_region_spec h pa size) fun base s₁ hcall => ?_
      rw [wp_bind]
      refine wp_mono_ret (ih hcall.kept) fun regions s' hcalls => ?_
      obtain ⟨rfl, hcursor, hkept, htable, hold, hsame, hentries⟩ := hcall
      have hup := hcalls.up
      obtain ⟨hlo, hhi, hmod⟩ := h.base
      obtain ⟨-, hhi', -⟩ := hcalls.kept.base
      rw [mmiobase_to_nat] at hlo
      rw [mmiolim_to_nat] at hhi hhi'
      refine ⟨by simp [hcalls.args], hcalls.kept, by omega, fun x hx => ?_, ?_, ?_,
        fun hs => hcalls.old (hold hs), fun hzero n => ?_, fun x hx j hj => ?_,
        fun n hn hwindow hout => ?_⟩
      · rcases List.mem_cons.1 hx with rfl | hx
        · exact ⟨le_rfl, hmod, by show s.mmioBase.toNat + pages size * 4096 ≤ _; omega⟩
        · have := hcalls.bounds x hx
          exact ⟨by omega, this.2⟩
      · refine List.pairwise_cons.2 ⟨fun y hy => ?_, hcalls.apart⟩
        have := hcalls.bounds y hy
        show s.mmioBase.toNat + pages size * 4096 ≤ _
        omega
      · rintro ⟨x, hx, hpos⟩
        rcases List.mem_cons.1 hx with rfl | hx
        · exact hcalls.old (htable hpos)
        · exact hcalls.table ⟨x, hx, hpos⟩
      · rw [hcalls.same (fun x hx => hzero x (List.mem_cons_of_mem _ hx)),
          hsame (hzero ⟨pa, size, s.mmioBase⟩ List.mem_cons_self)]
      · rcases List.mem_cons.1 hx with rfl | hx
        · -- the pages of this call lie below those of the later ones
          change j < pages size at hj
          show kernEntry s' (pgnum s.mmioBase + j) = some (mmioPte pa j)
          have hbase : pgnum s.mmioBase = s.mmioBase.toNat / 4096 := pgnum_eq _
          have hwindow : pgnum s.mmioBase + j ≠ windowPage := by
            unfold windowPage mmioPdx
            omega
          rw [hcalls.others _ (by omega) (.inl hwindow) fun y hy => ?_,
            hentries _ (by omega) (.inl hwindow), if_pos (by omega), Nat.add_sub_cancel_left]
          have := hcalls.bounds y hy
          rw [pgnum_eq y.base]
          omega
        · exact hcalls.entries x hx j hj
      · have hfirst := hout ⟨pa, size, s.mmioBase⟩ List.mem_cons_self
        rw [hcalls.others n hn (hwindow.imp_right hold) fun x hx =>
          hout x (List.mem_cons_of_mem _ hx), hentries n hn hwindow, if_neg hfirst]

/-! ## When the calls do what they are to do -/

/-- The address field of an entry is that of a page. -/
theorem pte_addr_to_nat (w : Word) : (pteAddr w).toNat = pgnum w * 4096 := by
  have hlt : pgnum w < 1048576 := by
    have := w.isLt
    rw [pgnum_eq]
    omega
  rw [(pte_addr_eq_iff hlt).2 rfl, page2pa, BitVec.toNat_ofNat, pgsize]
  omega

/-- The entries of a region whose physical address is that of a page. -/
theorem mmio_pte_aligned {pa : Word} (hpa : pa.toNat % 4096 = 0) (j : Nat) :
    mmioPte pa j &&& 0xFFF = mmioFlags ∧
      pteAddr (mmioPte pa j) = pa + BitVec.ofNat 32 (j * pgsize) := by
  have hsum : (pa + BitVec.ofNat 32 (j * pgsize)).toNat % 4096 = 0 := by
    rw [BitVec.toNat_add, BitVec.toNat_ofNat, pgsize]
    omega
  have hlt : pgnum (pa + BitVec.ofNat 32 (j * pgsize)) < 1048576 := by
    have := (pa + BitVec.ofNat 32 (j * pgsize)).isLt
    rw [pgnum_eq]
    omega
  have hpage : pa + BitVec.ofNat 32 (j * pgsize) =
      page2pa (pgnum (pa + BitVec.ofNat 32 (j * pgsize))) := by
    apply BitVec.eq_of_toNat_eq
    have hbound := (pa + BitVec.ofNat 32 (j * pgsize)).isLt
    rw [page2pa, BitVec.toNat_ofNat (x := _ * pgsize), pgnum_eq, pgsize]
    rw [pgsize] at hsum hbound
    omega
  have hpte : mmioPte pa j = mkPte (pgnum (pa + BitVec.ofNat 32 (j * pgsize)))
      (pteW ||| ptePcd ||| ptePwt) := by
    rw [mmioPte, mkPte, ← hpage]
  have hentry := entry_of_mk_pte hlt (show (pteW ||| ptePcd ||| ptePwt).toNat < 4096 by decide)
  rw [← hpte] at hentry
  have hflags : mmioFlags = pteW ||| ptePcd ||| ptePwt ||| pteP := by decide
  refine ⟨by rw [hflags]; exact congrArg Prod.snd hentry, ?_⟩
  rw [(pte_addr_eq_iff hlt).2 (congrArg Prod.fst hentry), ← hpage]

/-- What `UVPT` shows of the page table of the MMIO region. -/
theorem window_entry (h : KernDir s) :
    kernEntry s windowPage =
      if hasFlag (s.mem s.kernPgdir mmioPdx) pteP then some (s.mem s.kernPgdir mmioPdx)
      else none := by
  have hself := (h.self 957 (by decide) h.uvpt).2 rfl
  rw [kern_entry_eq, show windowPage / 1024 = 957 from rfl,
    show windowPage % 1024 = mmioPdx from rfl, hself, h.uvpt, Bool.true_and]

section Regions

variable {calls : List (Word × Word)} {regions : List Region} {x : Region} {k : Nat}

/-- A byte of a region that lies in its pages. -/
theorem Calls.addr (h : Calls s calls regions s') (hs : KernDir s) (hx : x ∈ regions)
    (hk : k < pages x.size * 4096) :
    pgnum (x.addr k) = pgnum x.base + k / 4096 ∧ pgoff (x.addr k) = k % 4096 := by
  obtain ⟨hlo, hmod, hhi⟩ := h.bounds x hx
  have hlo' := hs.base.1
  have hhi' := h.kept.base.2.1
  rw [mmiobase_to_nat] at hlo'
  rw [mmiolim_to_nat] at hhi'
  have hsum : (x.addr k).toNat = x.base.toNat + k := by
    rw [Region.addr, BitVec.toNat_add, BitVec.toNat_ofNat]
    omega
  rw [pgnum_eq, pgnum_eq, pgoff_eq, hsum]
  omega

/-- A size that does not wrap around is covered by its pages. -/
theorem size_le_pages {size : Word} (h : size.toNat ≤ 0xFFFFF000) :
    size.toNat ≤ pages size * 4096 ∧ pages size * 4096 < size.toNat + 4096 := by
  rw [pages_mul, roundup_to_nat, if_pos h]
  omega

theorem law_of_good (hs : KernDir s) (h : Calls s calls regions s') (hgood : Good s calls) :
    Law s s' regions := by
  have hargs : ∀ x ∈ regions, x.size.toNat ≤ 0xFFFFF000 ∧
      (x.size = 0 ∨ x.pa.toNat % 4096 = 0) := by
    intro x hx
    have hmem : (x.pa, x.size) ∈ calls := by
      rw [← h.args]
      exact List.mem_map_of_mem hx
    exact hgood.1 _ hmem
  refine ⟨fun x hx => ?_, ?_, fun x hx k hk => ?_, fun n hn hout => ?_⟩
  · obtain ⟨hlo, -, hhi⟩ := h.bounds x hx
    have := size_le_pages (hargs x hx).1
    have := hs.base.1
    have := h.kept.base.2.1
    omega
  · refine (List.Pairwise.and_mem.1 h.apart).imp ?_
    rintro x y ⟨hx, hy, happart⟩ j hj k hk
    have := size_le_pages (hargs x hx).1
    omega
  · have hle := size_le_pages (hargs x hx).1
    obtain ⟨hnum, hoff⟩ := h.addr hs hx (k := k) (by omega)
    have hpa : x.pa.toNat % 4096 = 0 := by
      refine (hargs x hx).2.resolve_left ?_
      intro hzero
      rw [hzero] at hk
      exact absurd hk (Nat.not_lt_zero k)
    obtain ⟨hflags, haddr⟩ := mmio_pte_aligned hpa (k / 4096)
    refine ⟨_, by rw [hnum]; exact h.entries x hx _ (by omega), hflags, ?_⟩
    rw [haddr, hoff, BitVec.add_assoc, ← BitVec.ofNat_add]
    congr 2
    rw [pgsize]
    omega
  · rcases hgood.2 with htable | hzero
    · refine h.others n hn (.inr htable) fun x hx hrange => ?_
      have hle := size_le_pages (hargs x hx).1
      refine hout x hx ⟨(n - pgnum x.base) * 4096, by omega, ?_⟩
      rw [(h.addr hs hx (by omega)).1]
      omega
    · refine h.same (fun x hx => ?_) n
      have hmem : (x.pa, x.size) ∈ calls := by
        rw [← h.args]
        exact List.mem_map_of_mem hx
      have hsize : x.size = 0 := hzero _ hmem
      rw [hsize]
      decide +kernel

theorem good_of_law (hs : KernDir s) (h : Calls s calls regions s') (hlaw : Law s s' regions) :
    Good s calls := by
  have hregion : ∀ c ∈ calls, ∃ x ∈ regions, (x.pa, x.size) = c := by
    intro c hc
    rw [← h.args] at hc
    exact List.mem_map.1 hc
  have hsize : ∀ x ∈ regions, x.size.toNat ≤ 0xFFFFF000 := by
    intro x hx
    have := hlaw.within x hx
    rw [mmiobase_to_nat, mmiolim_to_nat] at this
    omega
  refine ⟨fun c hc => ?_, ?_⟩
  · obtain ⟨x, hx, rfl⟩ := hregion c hc
    refine ⟨hsize x hx, ?_⟩
    by_cases hzero : x.size = 0
    · exact .inl hzero
    · -- the first byte of the region is at the start of a page
      have hpos : 0 < x.size.toNat := Nat.pos_of_ne_zero fun h => hzero (BitVec.eq_of_toNat_eq h)
      obtain ⟨w, -, -, haddr⟩ := hlaw.mapped x hx 0 hpos
      have hle := size_le_pages (hsize x hx)
      rw [(h.addr hs hx (k := 0) (by omega)).2, BitVec.add_zero, BitVec.add_zero] at haddr
      refine .inr ?_
      show x.pa.toNat % 4096 = 0
      rw [← haddr, pte_addr_to_nat]
      exact Nat.mul_mod_left _ _
  · by_contra hcon
    rw [not_or] at hcon
    obtain ⟨htable, hsome⟩ := hcon
    obtain ⟨c, hc, hne⟩ : ∃ c ∈ calls, c.2 ≠ 0 := by
      by_contra hno
      exact hsome fun c hc => by_contra fun hne => hno ⟨c, hc, hne⟩
    obtain ⟨x, hx, rfl⟩ := hregion c hc
    have hpos : 0 < x.size.toNat := Nat.pos_of_ne_zero fun h => hne (BitVec.eq_of_toNat_eq h)
    have hle := size_le_pages (hsize x hx)
    have hnew : HasTable s' := h.table ⟨x, hx, by omega⟩
    -- no region covers the page at `UVPT` that shows the new table
    have hout : ∀ y ∈ regions, ¬ y.Covers windowPage := by
      rintro y hy ⟨k, hk, hnum⟩
      have hley := size_le_pages (hsize y hy)
      rw [(h.addr hs hy (by omega)).1, pgnum_eq, windowPage, mmioPdx] at hnum
      have hlo := (h.bounds y hy).1
      have hbase := hs.base.1
      rw [mmiobase_to_nat] at hbase
      omega
    have hsame := hlaw.others windowPage (by decide) hout
    rw [window_entry h.kept, window_entry hs, if_pos (show hasFlag _ _ = true from hnew),
      if_neg (show ¬ hasFlag _ _ = true from htable)] at hsame
    cases hsame

end Regions

/-- Calls that return do what they are to do exactly when no size wraps around, every region with a
byte has the physical address of a page, and the page table of the MMIO region is there. -/
theorem mmio_map_regions_law_iff {calls : List (Word × Word)} {regions : List Region}
    (h : KernDir s) (hreturn : mmioMapRegions calls s = .ret regions s') :
    Law s s' regions ↔ Good s calls := by
  have hcalls : Calls s calls regions s' :=
    (wp_of_ret hreturn).1 (mmio_map_regions_spec calls h)
  exact ⟨good_of_law h hcalls, law_of_good h hcalls⟩

/-- The page directory is in page 1, and the page table of the MMIO region in page 2. -/
def twoTables : Kernel where
  npages := 3
  npagesBasemem := 0
  nextfree := 3
  pages := fun _ => {}
  pageFreeList := none
  mem := fun p i =>
    if p = 1 ∧ i = 957 then mkPde 1 else if p = 1 ∧ i = mmioPdx then mkPde 2 else 0
  kernPgdir := 1
  mmioBase := mmiobase
  envs := fun _ => {}
  envFreeList := none
  cpus := fun _ => { cr3 := 1 }
  kernelLock := none
  panicstr := none
  ticks := 0
  userMemCheckAddr := 0
  e1000 := {}
  consIn := []
  consOut := []
  accesses := []
  frees := []
  pageFrees := []

theorem two_tables_pde (d : Nat) : twoTables.mem twoTables.kernPgdir d =
    if d = 957 then mkPde 1 else if d = mmioPdx then mkPde 2 else 0 := by
  simp [twoTables]

theorem two_tables_kern_dir : KernDir twoTables := by
  refine ⟨by decide, fun d _ hp => ?_, by decide, fun d _ hne hp _ => ?_, ⟨[], rfl, by simp⟩,
    by decide +kernel⟩
  · rw [two_tables_pde] at hp ⊢
    by_cases hself : d = 957
    · subst hself
      decide
    · by_cases hmmio : d = mmioPdx
      · subst hmmio
        decide
      · rw [if_neg hself, if_neg hmmio] at hp
        exact absurd hp (by decide)
  · rw [two_tables_pde, two_tables_pde] at *
    by_cases hself : d = 957
    · subst hself
      decide
    · rw [if_neg hself, if_neg hne] at hp
      exact absurd hp (by decide)

/-- One iteration of `boot_map_region` when the page table is there. -/
theorem wp_map_page_there {dir : Nat} {va : Word} {Q : Unit → Kernel → Prop}
    {E : Exit → Kernel → Prop} (htable : HasPageTable s dir (pdx va))
    (hpage : tableOf s dir (pdx va) < s.npages)
    (hQ : Q () (s.setWord (tableOf s dir (pdx va)) (ptx va) w)) :
    wp (mapPage dir va w) Q E s := by
  rw [mapPage, wp_bind, pgdirWalk, wp_bind, haveTable, wp_bind, readWord, wp_gets, if_pos htable]
  simp only [wp_pure, if_true, wp_bind, wp_gets]
  rw [wp_kaddr (by rw [pgnum_pte_addr]; exact hpage), pgnum_pte_addr]
  exact hQ

/-- A call returns when there is room and a page table, which stays where it is. -/
theorem mmio_map_region_returns (h : KernDir s) (htable : HasTable s)
    (hpage : pgnum (s.mem s.kernPgdir mmioPdx) < s.npages) (pa : Word) {size : Word}
    (hroom : s.mmioBase.toNat + (roundup size).toNat < mmiolim.toNat) :
    wp (mmioMapRegion pa size) (fun _ s' => s'.npages = s.npages ∧
      s'.mem s'.kernPgdir mmioPdx = s.mem s.kernPgdir mmioPdx) (fun _ _ => False) s := by
  obtain ⟨hlo, hhi, hmod⟩ := h.base
  have hmul := pages_mul size
  have hsum : (s.mmioBase + roundup size).toNat = s.mmioBase.toNat + (roundup size).toNat := by
    rw [mmiolim_to_nat] at hroom
    rw [BitVec.toNat_add]
    omega
  unfold mmioMapRegion
  simp only [wp_bind, wp_get, wp_ite]
  refine ⟨fun hno => ?_, fun _ => ?_⟩
  · rw [BitVec.le_def, BitVec.lt_def] at hno
    omega
  · rw [boot_map_region_mmio]
    have hloop : wp (forUpto (pages size) fun j =>
        mapPage s.kernPgdir (s.mmioBase + BitVec.ofNat 32 (j * pgsize)) (mmioPte pa j))
          (fun _ (s' : Kernel) => s'.npages = s.npages ∧ s'.kernPgdir = s.kernPgdir ∧
            s'.mem s.kernPgdir mmioPdx = s.mem s.kernPgdir mmioPdx) (fun _ _ => False) s :=
      wp_for_upto (I := fun _ (s' : Kernel) => s'.npages = s.npages ∧ s'.kernPgdir = s.kernPgdir ∧
        s'.mem s.kernPgdir mmioPdx = s.mem s.kernPgdir mmioPdx) ⟨rfl, rfl, rfl⟩
        fun j hj s' hs' => ?_
    · refine wp_mono_ret hloop fun _ s' hs' => ⟨hs'.1, ?_⟩
      show s'.mem s'.kernPgdir mmioPdx = _
      rw [hs'.2.1]
      exact hs'.2.2
    · obtain ⟨-, hpdx⟩ := pgnum_page (j := j) hmod hlo (by omega)
      have hpres : hasFlag (s.mem s.kernPgdir mmioPdx) pteP = true := htable
      have htable' : HasPageTable s' s.kernPgdir mmioPdx := by
        rw [HasPageTable, hs'.2.2]
        exact hpres
      have hsame : tableOf s' s.kernPgdir mmioPdx = pgnum (s.mem s.kernPgdir mmioPdx) := by
        rw [tableOf, hs'.2.2]
      refine wp_map_page_there (hpdx ▸ htable') ?_ ⟨hs'.1, hs'.2.1, ?_⟩
      · rw [hpdx, hsame, hs'.1]
        exact hpage
      · rw [hpdx, hsame, mem_set_word_dir (h.table_ne (by decide) (by decide) htable)]
        exact hs'.2.2

/-- Calls return when there is room for all of them and a page table. -/
theorem mmio_map_regions_returns (calls : List (Word × Word)) : ∀ {s : Kernel}, KernDir s →
    HasTable s → pgnum (s.mem s.kernPgdir mmioPdx) < s.npages →
    s.mmioBase.toNat + (calls.map fun c => (roundup c.2).toNat).sum < mmiolim.toNat →
    wp (mmioMapRegions calls) (fun _ _ => True) (fun _ _ => False) s := by
  induction calls with
  | nil => exact fun _ _ _ _ => trivial
  | cons c calls ih =>
      intro s h htable hpage hroom
      rw [List.map_cons, List.sum_cons] at hroom
      obtain ⟨base, s₁, hret, hnpages, hsame⟩ := ret_of_wp
        (mmio_map_region_returns h htable hpage c.1
          (show s.mmioBase.toNat + (roundup c.2).toNat < mmiolim.toNat by omega))
      have hcall : Call s c.1 c.2 base s₁ := by
        have hspec := mmio_map_region_spec h c.1 c.2
        rwa [wp_of_ret hret] at hspec
      have hcursor := hcall.cursor
      rw [pages_mul] at hcursor
      rw [mmio_map_regions_cons, wp_bind, wp_of_ret hret, wp_bind]
      refine wp_mono_ret (ih hcall.kept (hcall.old htable) ?_ (by omega)) fun _ _ _ => trivial
      rw [hsame, hnpages]
      exact hpage

/-- Mapping the page of the local interrupt controller and the registers of the network card. -/
theorem mmio_map_regions_law_iff_devices : ∃ regions s',
    mmioMapRegions [(0xFEE00000, 4096), (0xFEB80000, 0x20000)] twoTables = .ret regions s' ∧
      Law twoTables s' regions := by
  have hreturns := mmio_map_regions_returns [(0xFEE00000, 4096), (0xFEB80000, 0x20000)]
    two_tables_kern_dir (by decide) (by decide) (by decide +kernel)
  obtain ⟨regions, s', hreturn, -⟩ := ret_of_wp hreturns
  refine ⟨regions, s', hreturn, ?_⟩
  exact (mmio_map_regions_law_iff two_tables_kern_dir hreturn).2 ⟨by simp, .inl (by decide)⟩

/-- A size that wraps around is granted, and the region exceeds the MMIO region. -/
theorem mmio_map_region_wraps : ∃ regions s',
    mmioMapRegions [(0, 0xFFFFFFFF)] twoTables = .ret regions s' ∧
      ¬ Law twoTables s' regions := by
  have hreturns := mmio_map_regions_returns [(0, 0xFFFFFFFF)] two_tables_kern_dir (by decide)
    (by decide) (by decide +kernel)
  obtain ⟨regions, s', hreturn, -⟩ := ret_of_wp hreturns
  have hcalls : Calls twoTables _ regions s' :=
    (wp_of_ret hreturn).1 (mmio_map_regions_spec _ two_tables_kern_dir)
  refine ⟨regions, s', hreturn, fun hlaw => ?_⟩
  have hgood := (good_of_law two_tables_kern_dir hcalls hlaw).1 _ List.mem_cons_self
  exact absurd hgood.1 (by decide)

end Labs.Jos.Mmio
