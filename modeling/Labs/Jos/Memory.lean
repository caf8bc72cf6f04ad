import Labs.Base.Chain
import Labs.Jos.Pmap
import Labs.Jos.Space

/-!
# The representation of the abstract memory

`Rep v m x` says that the memory management part `x` of the kernel's state represents the
abstract memory `m`: the free list links the free pages, `pp_ref` counts references modulo
`2 ^ 16`, the directories and page tables spell out the mappings, and every address space shares
the kernel's half. The scope `v` names the CPUs that execute user code meanwhile; their
translation caches agree with their tables.
-/

namespace Labs.Jos

/-- The part of the state that memory management is about. -/
structure Mm where
  npages : Nat
  reserved : Nat → Bool
  pages : Nat → PageInfo
  freeList : Option Nat
  mem : Nat → Nat → Word
  kernPgdir : Nat
  pgdir : EnvIx → Option Nat
  status : EnvIx → EnvStatus
  cr3 : CpuId → Nat
  tlb : CpuId → Nat → Xlat → Prop
  accesses : List Access
  pageFrees : List Nat

/-- The memory management part of the kernel's state. -/
def Kernel.mm (s : Kernel) : Mm where
  npages := s.npages
  reserved := s.reserved
  pages := s.pages
  freeList := s.pageFreeList
  mem := s.mem
  kernPgdir := s.kernPgdir
  pgdir := fun i => (s.envs i).envPgdir
  status := fun i => (s.envs i).envStatus
  cr3 := fun k => (s.cpus k).cr3
  tlb := fun k => (s.cpus k).tlb
  accesses := s.accesses
  pageFrees := s.pageFrees

/-- Overwrite page `p`. Every CPU may have cached its translations before. -/
def Mm.write (x : Mm) (p : Nat) (words : Nat → Word) : Mm :=
  { x with
    mem := Function.update x.mem p words
    tlb := fun k n y => x.tlb k n y ∨ walk x.mem (x.cr3 k) n = some y }

theorem mm_set_word (s : Kernel) (p i : Nat) (w : Word) :
    (s.setWord p i w).mm = s.mm.write p (Function.update (s.mem p) i w) := rfl

theorem mm_set_page_words (s : Kernel) (p : Nat) (words : Nat → Word) :
    (s.setPageWords p words).mm = s.mm.write p words := rfl

/-! ## Pages -/

/-- The books of the page allocator: the free list links exactly the free pages, and `pp_ref`
counts the references modulo `2 ^ 16`. -/
structure Ledger (reserved : Nat → Bool) (role : Nat → Role) (refs : Nat → Nat)
    (pages : Nat → PageInfo) (head : Option Nat) : Prop where
  reserved_iff : ∀ p, role p = .reserved ↔ reserved p = true
  list : ∃ l, Chain (fun p => (pages p).ppLink) head l ∧ ∀ p, p ∈ l ↔ role p = .free
  refs_eq : ∀ p, role p ≠ .reserved → (pages p).ppRef = BitVec.ofNat 16 (refs p)

namespace Ledger

variable {reserved : Nat → Bool} {role : Nat → Role} {refs refs' : Nat → Nat}
  {pages : Nat → PageInfo} {head : Option Nat} {p : Nat} {r : Role}

/-- The head of the free list is a free page. -/
theorem head_free (h : Ledger reserved role refs pages (some p)) : role p = .free := by
  obtain ⟨l, hchain, hmem⟩ := h.list
  cases l with
  | nil => simp at hchain
  | cons a l =>
      rw [Chain.cons_iff] at hchain
      exact (hmem p).1 (by simp [Option.some.inj hchain.1])

/-- Take the head of the free list. -/
theorem take (h : Ledger reserved role refs pages (some p)) (hzero : refs p = 0) :
    Ledger reserved (Function.update role p .held) refs
      (Function.update pages p { ppLink := none, ppRef := 0 }) (pages p).ppLink := by
  have hfree := h.head_free
  obtain ⟨l, hchain, hmem⟩ := h.list
  obtain ⟨rest, rfl, hrest⟩ := hchain.pop none
  have hnot : p ∉ rest := (List.nodup_cons.1 hchain.nodup).1
  refine ⟨fun q => ?_, ⟨rest, ?_, fun q => ?_⟩, fun q hq => ?_⟩
  · by_cases hqp : q = p
    · subst hqp
      rw [Function.update_self, ← h.reserved_iff q, hfree]
      simp
    · rw [Function.update_of_ne hqp]
      exact h.reserved_iff q
  · refine hrest.congr fun q _ => ?_
    by_cases hqp : q = p <;> simp [hqp]
  · by_cases hqp : q = p
    · subst hqp
      simp [hnot]
    · rw [Function.update_of_ne hqp, ← hmem q]
      simp [hqp]
  · by_cases hqp : q = p
    · subst hqp
      simp [hzero]
    · rw [Function.update_of_ne hqp] at hq ⊢
      exact h.refs_eq q hq

/-- Put a page that is neither free nor reserved on the free list. -/
theorem give (h : Ledger reserved role refs pages head) (hfree : role p ≠ .free)
    (hres : role p ≠ .reserved) :
    Ledger reserved (Function.update role p .free) refs
      (Function.update pages p { pages p with ppLink := head }) (some p) := by
  obtain ⟨l, hchain, hmem⟩ := h.list
  have hnot : p ∉ l := fun hp => hfree ((hmem p).1 hp)
  refine ⟨fun q => ?_, ⟨p :: l, ?_, fun q => ?_⟩, fun q hq => ?_⟩
  · by_cases hqp : q = p
    · subst hqp
      have hold := h.reserved_iff q
      simp only [hres, false_iff] at hold
      simp [hold]
    · rw [Function.update_of_ne hqp]
      exact h.reserved_iff q
  · refine (hchain.push hnot).congr fun q _ => ?_
    by_cases hqp : q = p <;> simp [hqp]
  · by_cases hqp : q = p
    · simp [hqp]
    · rw [Function.update_of_ne hqp, ← hmem q]
      simp [hqp]
  · by_cases hqp : q = p
    · subst hqp
      rw [Function.update_self]
      exact h.refs_eq q hres
    · rw [Function.update_of_ne hqp] at hq ⊢
      exact h.refs_eq q hq

/-- Change the use of a page that is neither free nor reserved. -/
theorem set_role (h : Ledger reserved role refs pages head) (hfree : role p ≠ .free)
    (hres : role p ≠ .reserved) (hrfree : r ≠ .free) (hrres : r ≠ .reserved) :
    Ledger reserved (Function.update role p r) refs pages head := by
  obtain ⟨l, hchain, hmem⟩ := h.list
  refine ⟨fun q => ?_, ⟨l, hchain, fun q => ?_⟩, fun q hq => h.refs_eq q ?_⟩
  · by_cases hqp : q = p
    · subst hqp
      rw [Function.update_self, ← h.reserved_iff q]
      simp [hres, hrres]
    · rw [Function.update_of_ne hqp]
      exact h.reserved_iff q
  · by_cases hqp : q = p
    · subst hqp
      rw [Function.update_self, hmem q]
      simp [hfree, hrfree]
    · rw [Function.update_of_ne hqp]
      exact hmem q
  · by_cases hqp : q = p
    · subst hqp
      exact hres
    · rwa [Function.update_of_ne hqp] at hq

/-- Adjust the counter of a page to a new number of references. -/
theorem set_ref (h : Ledger reserved role refs pages head) {info : PageInfo}
    (hlink : info.ppLink = (pages p).ppLink) (hother : ∀ q, q ≠ p → refs' q = refs q)
    (hnew : info.ppRef = BitVec.ofNat 16 (refs' p)) :
    Ledger reserved role refs' (Function.update pages p info) head := by
  obtain ⟨l, hchain, hmem⟩ := h.list
  refine ⟨h.reserved_iff, ⟨l, hchain.congr fun q _ => ?_, hmem⟩, fun q hq => ?_⟩
  · by_cases hqp : q = p
    · subst hqp
      simpa using hlink
    · simp [hqp]
  · by_cases hqp : q = p
    · subst hqp
      simpa using hnew
    · rw [Function.update_of_ne hqp, hother q hqp]
      exact h.refs_eq q hq

/-- The number of references may be given in another form. -/
theorem congr_refs (h : Ledger reserved role refs pages head)
    (heq : ∀ p, role p ≠ .reserved → refs' p = refs p) :
    Ledger reserved role refs' pages head :=
  ⟨h.reserved_iff, h.list, fun p hp => (h.refs_eq p hp).trans (by rw [heq p hp])⟩

end Ledger

/-! ## Page tables -/

/-- A page without a place in the page tables. -/
def Role.plain : Role → Bool
  | .reserved => false
  | .free => true
  | .held => true
  | .data => true
  | .dir _ => false
  | .table _ _ => false
  | .kern _ => false

/-- The directories and page tables in `mem` spell out the mappings of `m`. The user half of a
directory points to its page tables, its kernel half is a copy of the kernel's directory, and
entry `PDX(UVPT)` points back to the directory itself. -/
structure Tables (m : Space) (mem : Nat → Nat → Word) (kpd : Nat) (pgdir : EnvIx → Option Nat) :
    Prop where
  dir : ∀ i p, pgdir i = some p ↔ m.role p = .dir i
  pde : ∀ i p d q, m.role p = .dir i → d < 955 →
    (m.role q = .table i d ↔ hasFlag (mem p d) pteP = true ∧ pgnum (mem p d) = q)
  pde_flags : ∀ i p d, m.role p = .dir i → d < 955 → hasFlag (mem p d) pteP = true →
    hasFlag (mem p d) pteW = true ∧ hasFlag (mem p d) pteU = true
  owned : ∀ i d q, m.role q = .table i d → d < 955 ∧ ∃ p, m.role p = .dir i
  pte : ∀ i d q t, m.role q = .table i d → t < 1024 →
    m.map i (d * 1024 + t) = if hasFlag (mem q t) pteP then some (mem q t) else none
  bare : ∀ i d t, t < 1024 → (∀ q, m.role q ≠ .table i d) → m.map i (d * 1024 + t) = none
  high : ∀ i p d, m.role p = .dir i → 955 ≤ d → d < 1024 →
    mem p d = if d = 957 then page2pa p ||| pteP ||| pteU else m.kmem kpd d
  kdir : ∀ d, d < 1024 → mem kpd d = m.kmem kpd d
  kdir_reserved : m.role kpd = .reserved
  kdir_low : ∀ d, d < 955 → hasFlag (m.kmem kpd d) pteP = false
  ktable : ∀ d q, m.role q = .kern d ↔ 955 ≤ d ∧ d < 1024 ∧ d ≠ 957 ∧
    hasFlag (m.kmem kpd d) pteP = true ∧ pgnum (m.kmem kpd d) = q
  kpte : ∀ d q t, m.role q = .kern d → t < 1024 → mem q t = m.kmem q t
  kflags : ∀ d q t, m.role q = .kern d → t < 1024 →
    (hasFlag (m.kmem q t) pteW = false ∨ hasFlag (m.kmem q t) pteU = false) ∧
      (958 ≤ d → hasFlag (m.kmem q t) pteU = false)

namespace Tables

variable {m : Space} {mem : Nat → Nat → Word} {kpd : Nat} {pgdir : EnvIx → Option Nat}
  {i e : EnvIx} {p q d t n : Nat} {r : Role} {w : Word}

/-- An address space has one directory. -/
theorem dir_unique (h : Tables m mem kpd pgdir) (hp : m.role p = .dir i) (hq : m.role q = .dir i) :
    p = q :=
  Option.some.inj (((h.dir i p).2 hp).symm.trans ((h.dir i q).2 hq))

/-- A directory has one page table for each entry. -/
theorem table_unique (h : Tables m mem kpd pgdir) (hp : m.role p = .table i d)
    (hq : m.role q = .table i d) : p = q := by
  obtain ⟨hd, dir, hdir⟩ := h.owned i d p hp
  exact ((h.pde i dir d p hdir hd).1 hp).2.symm.trans ((h.pde i dir d q hdir hd).1 hq).2

/-- Two memories with the same tables for `e` and the same kernel tables translate alike. -/
theorem walk_congr (h : Tables m mem kpd pgdir) {mem' : Nat → Nat → Word}
    (hp : m.role p = .dir e) (hpage : p < 1048576) (hn : n < 1048576)
    (hdir : mem' p = mem p) (htable : ∀ d q, m.role q = .table e d → mem' q = mem q)
    (hkern : ∀ d q, m.role q = .kern d → mem' q = mem q) : walk mem' p n = walk mem p n := by
  have hd : n / 1024 < 1024 := by omega
  unfold walk
  dsimp only
  rw [hdir]
  by_cases hpresent : hasFlag (mem p (n / 1024)) pteP = true
  · have hsame : mem' (pgnum (mem p (n / 1024))) = mem (pgnum (mem p (n / 1024))) := by
      by_cases hlow : n / 1024 < 955
      · exact htable _ _ ((h.pde e p _ _ hp hlow).2 ⟨hpresent, rfl⟩)
      · have hhigh := h.high e p (n / 1024) hp (by omega) hd
        by_cases hself : n / 1024 = 957
        · rw [if_pos hself] at hhigh
          rw [hhigh, pgnum_or_of_lt (by decide), pgnum_or_of_lt (by decide), pgnum_page2pa hpage]
          exact hdir
        · rw [if_neg hself] at hhigh
          refine hkern (n / 1024) _ ((h.ktable _ _).2 ⟨by omega, hd, hself, ?_, ?_⟩)
          · rw [← hhigh]
            exact hpresent
          · rw [hhigh]
    rw [hsame]
  · simp [hpresent]

/-- A page whose use was plain or `special` before and after a change has no other place in the
tables. -/
theorem role_set_iff {special r' : Role} (hold : (m.role p).plain = true ∨ m.role p = special)
    (hnew : r.plain = true ∨ r = special) (hr' : r'.plain = false) (hne : r' ≠ special) (q : Nat) :
    (m.setRole p r).role q = r' ↔ m.role q = r' := by
  rw [Space.role_set_role]
  split
  · rename_i hqp
    subst hqp
    have hneq : ∀ r₀ : Role, r₀.plain = true ∨ r₀ = special → r₀ ≠ r' := by
      rintro r₀ (hplain | rfl) rfl
      · rw [hplain] at hr'
        cases hr'
      · exact hne rfl
    exact ⟨fun heq => absurd heq (hneq _ hnew), fun heq => absurd heq (hneq _ hold)⟩
  · rfl

/-- Changing the plain use of a page does not concern the page tables. -/
theorem set_role (h : Tables m mem kpd pgdir) (hold : (m.role p).plain = true)
    (hnew : r.plain = true) : Tables (m.setRole p r) mem kpd pgdir := by
  have hsame : ∀ r', r'.plain = false → ∀ q, (m.setRole p r).role q = r' ↔ m.role q = r' := by
    intro r' hr'
    refine @role_set_iff _ _ _ .free r' (.inl hold) (.inl hnew) hr' ?_
    rintro rfl
    cases hr'
  have hdir := fun i => hsame (.dir i) rfl
  have htable := fun i d => hsame (.table i d) rfl
  have hkern := fun d => hsame (.kern d) rfl
  have hres := hsame .reserved rfl
  constructor
  · intro i q
    rw [hdir]
    exact h.dir i q
  · intro i q d q'
    rw [hdir, htable]
    exact h.pde i q d q'
  · intro i q d
    rw [hdir]
    exact h.pde_flags i q d
  · intro i d q
    simp only [hdir, htable]
    exact h.owned i d q
  · intro i d q t
    rw [htable]
    exact h.pte i d q t
  · intro i d t ht hnone
    exact h.bare i d t ht fun q hq => hnone q ((htable i d q).2 hq)
  · intro i q d
    rw [hdir]
    exact h.high i q d
  · exact h.kdir
  · exact (hres kpd).2 h.kdir_reserved
  · exact h.kdir_low
  · intro d q
    rw [hkern]
    exact h.ktable d q
  · intro d q t
    rw [hkern]
    exact h.kpte d q t
  · intro d q t
    rw [hkern]
    exact h.kflags d q t

/-- The list of released pages does not concern the page tables. -/
theorem set_released (h : Tables m mem kpd pgdir) (l : List Nat) :
    Tables { m with released := l } mem kpd pgdir :=
  ⟨h.dir, h.pde, h.pde_flags, h.owned, h.pte, h.bare, h.high, h.kdir, h.kdir_reserved, h.kdir_low,
    h.ktable, h.kpte, h.kflags⟩

/-- A memory that agrees on all directories and page tables. -/
theorem congr_mem (h : Tables m mem kpd pgdir) {mem' : Nat → Nat → Word}
    (heq : ∀ p, (m.role p).plain = false → mem' p = mem p) : Tables m mem' kpd pgdir := by
  have hdir : ∀ i p, m.role p = .dir i → mem' p = mem p :=
    fun i p hp => heq p (by rw [hp]; rfl)
  have htable : ∀ i d p, m.role p = .table i d → mem' p = mem p :=
    fun i d p hp => heq p (by rw [hp]; rfl)
  have hkern : ∀ d p, m.role p = .kern d → mem' p = mem p := fun d p hp => heq p (by rw [hp]; rfl)
  have hkdir : mem' kpd = mem kpd := heq kpd (by rw [h.kdir_reserved]; rfl)
  refine ⟨h.dir, fun i p d q hp => ?_, fun i p d hp => ?_, h.owned, fun i d q t hq => ?_, h.bare,
    fun i p d hp => ?_, ?_, h.kdir_reserved, h.kdir_low, h.ktable, fun d q t hq => ?_, h.kflags⟩
  · rw [hdir i p hp]
    exact h.pde i p d q hp
  · rw [hdir i p hp]
    exact h.pde_flags i p d hp
  · rw [htable i d q hq]
    exact h.pte i d q t hq
  · rw [hdir i p hp]
    exact h.high i p d hp
  · rw [hkdir]
    exact h.kdir
  · rw [hkern d q hq]
    exact h.kpte d q t hq

/-- Writing an entry of a page table changes one mapping. -/
theorem set_pte (h : Tables m mem kpd pgdir) (hq : m.role q = .table i d) (ht : t < 1024) (w : Word) :
    Tables (m.setMap i (d * 1024 + t) (if hasFlag w pteP then some w else none))
      (Function.update mem q (Function.update (mem q) t w)) kpd pgdir := by
  have hother : ∀ p, p ≠ q → Function.update mem q (Function.update (mem q) t w) p = mem p :=
    fun p hp => Function.update_of_ne hp _ _
  have hdir : ∀ i' p, m.role p = .dir i' → p ≠ q := by
    rintro i' p hp rfl
    rw [hp] at hq
    cases hq
  have hkern : ∀ d' p, m.role p = .kern d' → p ≠ q := by
    rintro d' p hp rfl
    rw [hp] at hq
    cases hq
  refine ⟨h.dir, fun i' p d' q' hp => ?_, fun i' p d' hp => ?_, h.owned, fun i' d' q' t' hq' ht' => ?_,
    fun i' d' t' ht' hnone => ?_, fun i' p d' hp => ?_, fun d' hd' => ?_, h.kdir_reserved,
    h.kdir_low, h.ktable, fun d' p t' hp => ?_, h.kflags⟩
  · rw [hother p (hdir i' p hp)]
    exact h.pde i' p d' q' hp
  · rw [hother p (hdir i' p hp)]
    exact h.pde_flags i' p d' hp
  · rw [Space.map_set_map]
    by_cases hqq : q' = q
    · subst hqq
      have hsame : i' = i ∧ d' = d := by
        rw [Space.role_set_map, hq] at hq'
        injection hq' with hi hd
        exact ⟨hi.symm, hd.symm⟩
      obtain ⟨rfl, rfl⟩ := hsame
      rw [Function.update_self]
      by_cases htt : t' = t
      · subst htt
        simp
      · rw [if_neg (by rintro ⟨-, heq⟩; omega), Function.update_of_ne htt]
        exact h.pte i' d' q' t' hq ht'
    · rw [hother q' hqq, if_neg]
      · exact h.pte i' d' q' t' hq' ht'
      · -- another table holds other mappings
        rintro ⟨rfl, heq⟩
        have hdd : d' = d := by omega
        subst hdd
        exact hqq (h.table_unique hq' hq)
  · rw [Space.map_set_map, if_neg]
    · exact h.bare i' d' t' ht' hnone
    · rintro ⟨rfl, heq⟩
      have hdd : d' = d := by omega
      subst hdd
      exact hnone q hq
  · rw [hother p (hdir i' p hp)]
    exact h.high i' p d' hp
  · rw [hother kpd]
    · exact h.kdir d' hd'
    · rintro rfl
      rw [h.kdir_reserved] at hq
      cases hq
  · rw [hother p (hkern d' p hp)]
    exact h.kpte d' p t' hp

/-- Writing entry `d` of the directory of `i` while one page becomes or ceases to be the page
table there. -/
theorem relink (h : Tables m mem kpd pgdir) {m' : Space} (hp : m.role p = .dir i) (hd : d < 955)
    (hrole : ∀ r', r'.plain = false → r' ≠ .table i d → ∀ q, m'.role q = r' ↔ m.role q = r')
    (hmap : m'.map = m.map) (hkmem : m'.kmem = m.kmem)
    (hpde : ∀ q, m'.role q = .table i d ↔ hasFlag w pteP = true ∧ pgnum w = q)
    (hflags : hasFlag w pteP = true → hasFlag w pteW = true ∧ hasFlag w pteU = true)
    (hpte : ∀ q t, m'.role q = .table i d → t < 1024 →
      m.map i (d * 1024 + t) = if hasFlag (mem q t) pteP then some (mem q t) else none)
    (hbare : (∀ q, m'.role q ≠ .table i d) → ∀ t, t < 1024 → m.map i (d * 1024 + t) = none) :
    Tables m' (Function.update mem p (Function.update (mem p) d w)) kpd pgdir := by
  have hdir : ∀ i' q, m'.role q = .dir i' ↔ m.role q = .dir i' := fun i' => hrole _ rfl (by simp)
  have hkern : ∀ d' q, m'.role q = .kern d' ↔ m.role q = .kern d' :=
    fun d' => hrole _ rfl (by simp)
  have htable : ∀ i' d' q, ¬ (i' = i ∧ d' = d) →
      (m'.role q = .table i' d' ↔ m.role q = .table i' d') :=
    fun i' d' q hne => hrole _ rfl (by simpa using hne) q
  have hother : ∀ q, m'.role q ≠ .dir i →
      Function.update mem p (Function.update (mem p) d w) q = mem q := by
    intro q hq
    refine Function.update_of_ne ?_ _ _
    rintro rfl
    exact hq ((hdir i q).2 hp)
  have hentry : ∀ i' q d', m.role q = .dir i' → ¬ (i' = i ∧ d' = d) →
      Function.update mem p (Function.update (mem p) d w) q d' = mem q d' := by
    intro i' q d' hq hne
    by_cases hqp : q = p
    · subst hqp
      rw [hp] at hq
      injection hq with hi
      rw [Function.update_self, Function.update_of_ne]
      exact fun hdd => hne ⟨hi.symm, hdd⟩
    · rw [Function.update_of_ne hqp]
  constructor
  · intro i' q
    rw [hdir]
    exact h.dir i' q
  · intro i' q d' q' hq hd'
    rw [hdir] at hq
    by_cases hsame : i' = i ∧ d' = d
    · obtain ⟨rfl, rfl⟩ := hsame
      have hqp := h.dir_unique hq hp
      subst hqp
      rw [Function.update_self, Function.update_self]
      exact hpde q'
    · rw [htable i' d' q' hsame, hentry i' q d' hq hsame]
      exact h.pde i' q d' q' hq hd'
  · intro i' q d' hq hd' hpresent
    rw [hdir] at hq
    by_cases hsame : i' = i ∧ d' = d
    · obtain ⟨rfl, rfl⟩ := hsame
      have hqp := h.dir_unique hq hp
      subst hqp
      rw [Function.update_self, Function.update_self] at hpresent ⊢
      exact hflags hpresent
    · rw [hentry i' q d' hq hsame] at hpresent ⊢
      exact h.pde_flags i' q d' hq hd' hpresent
  · intro i' d' q hq
    by_cases hsame : i' = i ∧ d' = d
    · obtain ⟨rfl, rfl⟩ := hsame
      exact ⟨hd, p, (hdir i' p).2 hp⟩
    · rw [htable i' d' q hsame] at hq
      obtain ⟨hd', p', hp'⟩ := h.owned i' d' q hq
      exact ⟨hd', p', (hdir i' p').2 hp'⟩
  · intro i' d' q t ht' hlt
    rw [hmap, hother q (by rw [ht']; simp)]
    by_cases hsame : i' = i ∧ d' = d
    · obtain ⟨rfl, rfl⟩ := hsame
      exact hpte q t ht' hlt
    · exact h.pte i' d' q t ((htable i' d' q hsame).1 ht') hlt
  · intro i' d' t ht hnone
    rw [hmap]
    by_cases hsame : i' = i ∧ d' = d
    · obtain ⟨rfl, rfl⟩ := hsame
      exact hbare hnone t ht
    · exact h.bare i' d' t ht fun q hq => hnone q ((htable i' d' q hsame).2 hq)
  · intro i' q d' hq hlow hhigh
    rw [hdir] at hq
    rw [hentry i' q d' hq (by omega), hkmem]
    exact h.high i' q d' hq hlow hhigh
  · intro d' hd'
    have hres := (hrole .reserved rfl (by simp) kpd).2 h.kdir_reserved
    rw [hother kpd (by rw [hres]; simp), hkmem]
    exact h.kdir d' hd'
  · exact (hrole .reserved rfl (by simp) kpd).2 h.kdir_reserved
  · rw [hkmem]
    exact h.kdir_low
  · intro d' q
    rw [hkern, hkmem]
    exact h.ktable d' q
  · intro d' q t hq ht
    rw [hother q (by rw [hq]; simp), hkmem]
    exact h.kpte d' q t ((hkern d' q).1 hq) ht
  · intro d' q t hq ht
    rw [hkmem]
    exact h.kflags d' q t ((hkern d' q).1 hq) ht

/-- Linking a zeroed page into a directory adds an empty page table. -/
theorem add_table (h : Tables m mem kpd pgdir) (hp : m.role p = .dir i) (hd : d < 955)
    (hnone : hasFlag (mem p d) pteP = false) (hq : (m.role q).plain = true)
    (hzero : ∀ t, mem q t = 0) (hpage : q < 1048576) :
    Tables (m.setRole q (.table i d)) (Function.update mem p (Function.update (mem p) d (mkPde q)))
      kpd pgdir := by
  have hfresh : ∀ q', m.role q' ≠ .table i d := by
    intro q' hq'
    have hpresent := ((h.pde i p d q' hp hd).1 hq').1
    rw [hnone] at hpresent
    cases hpresent
  have hnew : ∀ q', (m.setRole q (.table i d)).role q' = .table i d ↔ q' = q := by
    intro q'
    rw [Space.role_set_role]
    split
    · rename_i hqq
      simp [hqq]
    · rename_i hqq
      simp [hqq, hfresh q']
  refine h.relink hp hd (fun r' => role_set_iff (.inl hq) (.inr rfl)) rfl rfl (fun q' => ?_) (fun _ => ?_)
    (fun q' t hq' ht => ?_) (fun hno => ?_)
  · rw [hnew, pgnum_mk_pde hpage]
    simp [eq_comm]
  · rw [has_flag_w, has_flag_u]
    simp [mkPde, pteW, pteU]
  · rw [(hnew q').1 hq', hzero t, zero_not_present]
    exact h.bare i d t ht hfresh
  · exact absurd ((hnew q).2 rfl) (hno q)

/-- Clearing a directory entry drops the page table, which must be empty. -/
theorem drop_table (h : Tables m mem kpd pgdir) (hp : m.role p = .dir i)
    (hq : m.role q = .table i d) (hempty : ∀ t, t < 1024 → m.map i (d * 1024 + t) = none)
    (hr : r.plain = true) :
    Tables (m.setRole q r) (Function.update mem p (Function.update (mem p) d 0)) kpd pgdir := by
  have hnew : ∀ q', (m.setRole q r).role q' ≠ .table i d := by
    intro q'
    rw [Space.role_set_role]
    split
    · intro heq
      rw [heq] at hr
      cases hr
    · rename_i hqq
      exact fun hq' => hqq (h.table_unique hq' hq)
  refine h.relink hp (h.owned i d q hq).1 (fun r' => role_set_iff (.inr hq) (.inl hr)) rfl rfl
    (fun q' => ?_) (fun hpresent => ?_) (fun q' t hq' => ?_) (fun _ => hempty)
  · refine ⟨fun hq' => absurd hq' (hnew q'), fun hpresent => ?_⟩
    rw [zero_not_present] at hpresent
    cases hpresent.1
  · rw [zero_not_present] at hpresent
    cases hpresent
  · exact absurd hq' (hnew q')

/-- One page becomes or ceases to be the directory of `i`, which has no page tables. -/
theorem redirect (h : Tables m mem kpd pgdir) {m' : Space} {mem' : Nat → Nat → Word}
    {dir' : Option Nat}
    (hrole : ∀ r', r'.plain = false → r' ≠ .dir i → ∀ q, m'.role q = r' ↔ m.role q = r')
    (hmap : m'.map = m.map) (hkmem : m'.kmem = m.kmem) (hnone : ∀ d q, m.role q ≠ .table i d)
    (hmem : ∀ q r', r'.plain = false → r' ≠ .dir i → m.role q = r' → mem' q = mem q)
    (hdir : ∀ q, dir' = some q ↔ m'.role q = .dir i)
    (hlow : ∀ q d, m'.role q = .dir i → d < 955 → hasFlag (mem' q d) pteP = false)
    (hhigh : ∀ q d, m'.role q = .dir i → 955 ≤ d → d < 1024 →
      mem' q d = if d = 957 then page2pa q ||| pteP ||| pteU else m.kmem kpd d) :
    Tables m' mem' kpd (Function.update pgdir i dir') := by
  have htable : ∀ i' d q, m'.role q = .table i' d ↔ m.role q = .table i' d :=
    fun i' d => hrole _ rfl (by simp)
  have hkern : ∀ d q, m'.role q = .kern d ↔ m.role q = .kern d := fun d => hrole _ rfl (by simp)
  have hres := (hrole .reserved rfl (by simp) kpd).2 h.kdir_reserved
  constructor
  · intro i' q
    by_cases hi : i' = i
    · subst hi
      rw [Function.update_self]
      exact hdir q
    · rw [Function.update_of_ne hi, hrole _ rfl (by simpa using hi)]
      exact h.dir i' q
  · intro i' q d q' hq hd
    by_cases hi : i' = i
    · subst hi
      rw [htable, hlow q d hq hd]
      simp [hnone d q']
    · rw [hrole _ rfl (by simpa using hi)] at hq
      rw [htable, hmem q _ rfl (by simpa using hi) hq]
      exact h.pde i' q d q' hq hd
  · intro i' q d hq hd hpresent
    by_cases hi : i' = i
    · subst hi
      rw [hlow q d hq hd] at hpresent
      cases hpresent
    · rw [hrole _ rfl (by simpa using hi)] at hq
      rw [hmem q _ rfl (by simpa using hi) hq] at hpresent ⊢
      exact h.pde_flags i' q d hq hd hpresent
  · intro i' d q hq
    rw [htable] at hq
    obtain ⟨hd, p, hp⟩ := h.owned i' d q hq
    have hi : i' ≠ i := by
      rintro rfl
      exact hnone d q hq
    exact ⟨hd, p, (hrole _ rfl (by simpa using hi) p).2 hp⟩
  · intro i' d q t hq ht
    rw [htable] at hq
    rw [hmap, hmem q _ rfl (by simp) hq]
    exact h.pte i' d q t hq ht
  · intro i' d t ht hno
    rw [hmap]
    exact h.bare i' d t ht fun q hq => hno q ((htable i' d q).2 hq)
  · intro i' q d hq hlo hhi
    rw [hkmem]
    by_cases hi : i' = i
    · subst hi
      exact hhigh q d hq hlo hhi
    · rw [hrole _ rfl (by simpa using hi)] at hq
      rw [hmem q _ rfl (by simpa using hi) hq]
      exact h.high i' q d hq hlo hhi
  · intro d hd
    rw [hkmem, hmem kpd _ rfl (by simp) h.kdir_reserved]
    exact h.kdir d hd
  · exact hres
  · rw [hkmem]
    exact h.kdir_low
  · intro d q
    rw [hkern, hkmem]
    exact h.ktable d q
  · intro d q t hq ht
    rw [hkern] at hq
    rw [hkmem, hmem q _ rfl (by simp) hq]
    exact h.kpte d q t hq ht
  · intro d q t hq ht
    rw [hkmem]
    exact h.kflags d q t ((hkern d q).1 hq) ht

/-- A page with a copy of the kernel's directory becomes the directory of a slot without one. -/
theorem add_dir (h : Tables m mem kpd pgdir) (hnone : pgdir i = none)
    (hp : (m.role p).plain = true) {words : Nat → Word}
    (hwords : ∀ d, d < 1024 →
      words d = if d = 957 then page2pa p ||| pteP ||| pteU else mem kpd d) :
    Tables (m.setRole p (.dir i)) (Function.update mem p words) kpd
      (Function.update pgdir i (some p)) := by
  have hno : ∀ q, m.role q ≠ .dir i := by
    intro q hq
    rw [(h.dir i q).2 hq] at hnone
    cases hnone
  have hnew : ∀ q, (m.setRole p (.dir i)).role q = .dir i ↔ q = p := by
    intro q
    rw [Space.role_set_role]
    split
    · rename_i hqp
      simp [hqp]
    · rename_i hqp
      simp [hqp, hno q]
  refine h.redirect (fun r' => role_set_iff (.inl hp) (.inr rfl)) rfl rfl (fun d q hq => ?_)
    (fun q r' hr' _ hq => Function.update_of_ne ?_ _ _) (fun q => ?_) (fun q d hq hd => ?_)
    (fun q d hq hlo hhi => ?_)
  · obtain ⟨-, q', hq'⟩ := h.owned i d q hq
    exact hno q' hq'
  · rintro rfl
    rw [hq, hr'] at hp
    cases hp
  · rw [hnew]
    simp [eq_comm]
  · rw [(hnew q).1 hq, Function.update_self, hwords d (by omega), if_neg (by omega),
      h.kdir d (by omega)]
    exact h.kdir_low d hd
  · rw [(hnew q).1 hq, Function.update_self, hwords d hhi]
    split
    · rfl
    · exact h.kdir d hhi

/-- The directory of a slot without page tables is dropped. -/
theorem drop_dir (h : Tables m mem kpd pgdir) (hp : m.role p = .dir i)
    (hnone : ∀ d q, m.role q ≠ .table i d) (hr : r.plain = true) :
    Tables (m.setRole p r) mem kpd (Function.update pgdir i none) := by
  have hnew : ∀ q, (m.setRole p r).role q ≠ .dir i := by
    intro q
    rw [Space.role_set_role]
    split
    · intro heq
      rw [heq] at hr
      cases hr
    · rename_i hqp
      exact fun hq => hqp (h.dir_unique hq hp)
  refine h.redirect (fun r' => role_set_iff (.inr hp) (.inl hr)) rfl rfl hnone
    (fun q _ _ _ _ => rfl) (fun q => ?_) (fun q d hq => ?_) (fun q d hq => ?_)
  · simp [hnew q]
  · exact absurd hq (hnew q)
  · exact absurd hq (hnew q)

end Tables

/-! ## Translation caches -/

/-- The watched CPUs have the directory of their environment loaded, and what their caches hold
for user code agrees with it. -/
def Coherent (watch : CpuId → Option EnvIx) (role : Nat → Role) (mem : Nat → Nat → Word)
    (cr3 : CpuId → Nat) (tlb : CpuId → Nat → Xlat → Prop) : Prop :=
  ∀ j e, watch j = some e → role (cr3 j) = .dir e ∧
    ∀ n y, n < 1048576 → tlb j n y → y.user = true → walk mem (cr3 j) n = some y

/-- No watched CPU executes in the address space of `i`. -/
def Unwatched (watch : CpuId → Option EnvIx) (i : EnvIx) : Prop := ∀ j, watch j ≠ some i

section Coherent

variable {watch : CpuId → Option EnvIx} {m : Space} {mem : Nat → Nat → Word}
  {cr3 : CpuId → Nat} {tlb : CpuId → Nat → Xlat → Prop} {role' : Nat → Role}

/-- Coherence depends on the directories of the watched address spaces only. -/
theorem Coherent.congr_role (h : Coherent watch m.role mem cr3 tlb)
    (hrole : ∀ e p, ¬ Unwatched watch e → m.role p = .dir e → role' p = .dir e) :
    Coherent watch role' mem cr3 tlb := by
  intro j e hj
  obtain ⟨hdir, htlb⟩ := h j e hj
  exact ⟨hrole e _ (fun hun => hun j hj) hdir, htlb⟩

/-- Overwriting a page that is no table of a watched address space keeps the caches coherent. -/
theorem Coherent.write (h : Coherent watch m.role mem cr3 tlb) {kpd : Nat}
    {pgdir : EnvIx → Option Nat} (ht : Tables m mem kpd pgdir)
    (hpage : ∀ p, m.role p ≠ .reserved → p < 1048576) {q : Nat} {words : Nat → Word}
    (hdir : ∀ e, m.role q = .dir e → Unwatched watch e)
    (htable : ∀ e d, m.role q = .table e d → Unwatched watch e)
    (hkern : ∀ d, m.role q ≠ .kern d) :
    Coherent watch m.role (Function.update mem q words) cr3
      (fun j n y => tlb j n y ∨ walk mem (cr3 j) n = some y) := by
  intro j e hj
  obtain ⟨hrole, htlb⟩ := h j e hj
  refine ⟨hrole, fun n y hn hy huser => ?_⟩
  have hold : walk mem (cr3 j) n = some y := by
    rcases hy with hy | hy
    · exact htlb n y hn hy huser
    · exact hy
  have hother : ∀ p, p ≠ q → Function.update mem q words p = mem p :=
    fun p hp => Function.update_of_ne hp _ _
  rw [← hold]
  refine ht.walk_congr hrole (hpage _ (by rw [hrole]; simp)) hn (hother _ ?_) (fun d p hp => ?_)
    fun d p hp => ?_
  · rintro rfl
    exact hdir e hrole j hj
  · refine hother p ?_
    rintro rfl
    exact htable e d hp j hj
  · refine hother p ?_
    rintro rfl
    exact hkern d hp

end Coherent

/-! ## The representation -/

/-- What a kernel entry has to respect: the bound on the mappings of a page, the CPUs that
execute user code meanwhile with their environments, and whether loads through user addresses
must stay below `ULIM`. -/
structure Scope where
  limit : Nat
  watch : CpuId → Option EnvIx
  strict : Prop
  limit_pos : 1 ≤ limit
  limit_le : limit ≤ 65536

/-- The state `x` represents the abstract memory `m`. -/
structure Rep (v : Scope) (m : Space) (x : Mm) : Prop where
  small : x.npages ≤ 16639
  beyond : ∀ p, x.npages ≤ p → x.reserved p = true
  ledger : Ledger x.reserved m.role m.refs x.pages x.freeList
  released : x.pageFrees = m.released
  ok : m.Ok v.limit
  tables : Tables m x.mem x.kernPgdir x.pgdir
  slots : ∀ i, x.status i = .free → x.pgdir i = none
  coherent : Coherent v.watch m.role x.mem x.cr3 x.tlb
  log : ∀ a ∈ x.accesses, (a.store = true → a.va < utop) ∧ (v.strict → a.va < ulim)

namespace Rep

variable {v : Scope} {m : Space} {x : Mm} {p : Nat}

/-- A change of pages, words and caches that leaves the environment table and the log alone. -/
theorem update (h : Rep v m x) {m' : Space} {x' : Mm}
    (hsame : x' = { x with
      pages := x'.pages, freeList := x'.freeList, mem := x'.mem
      cr3 := x'.cr3, tlb := x'.tlb, pageFrees := x'.pageFrees })
    (hledger : Ledger x.reserved m'.role m'.refs x'.pages x'.freeList)
    (hreleased : x'.pageFrees = m'.released) (hok : m'.Ok v.limit)
    (htables : Tables m' x'.mem x.kernPgdir x.pgdir)
    (hcoherent : Coherent v.watch m'.role x'.mem x'.cr3 x'.tlb) : Rep v m' x' := by
  rw [hsame]
  exact ⟨h.small, h.beyond, hledger, hreleased, hok, htables, h.slots, hcoherent, h.log⟩

/-- A page in use is a page of physical memory. -/
theorem lt_npages (h : Rep v m x) (hp : m.role p ≠ .reserved) : p < x.npages := by
  by_contra hlt
  exact hp ((h.ledger.reserved_iff p).2 (h.beyond p (by omega)))

theorem page_lt (h : Rep v m x) (hp : m.role p ≠ .reserved) : p < 1048576 := by
  have hlt := h.lt_npages hp
  have hsmall := h.small
  omega

/-- A free or held page is not referenced. -/
theorem refs_eq_zero (h : Rep v m x) (hplain : (m.role p).plain = true)
    (hdata : m.role p ≠ .data) : m.refs p = 0 := by
  have hcount := h.ok.count_eq_zero hdata
  rw [Space.refs, hcount]
  cases hrole : m.role p <;> simp_all [Role.plain, Role.pins]

/-- Overwriting a page that is not part of any page table. -/
theorem write_plain (h : Rep v m x) (hp : (m.role p).plain = true) (words : Nat → Word) :
    Rep v m (x.write p words) := by
  have hne : ∀ r : Role, r.plain = false → m.role p ≠ r := by
    rintro r hr rfl
    rw [hr] at hp
    cases hp
  refine ⟨h.small, h.beyond, h.ledger, h.released, h.ok, ?_, h.slots, ?_, h.log⟩
  · refine h.tables.congr_mem fun q hq => Function.update_of_ne ?_ _ _
    rintro rfl
    rw [hp] at hq
    cases hq
  · exact h.coherent.write h.tables (fun q => h.page_lt)
      (fun e he => absurd he (hne _ rfl)) (fun e d he => absurd he (hne _ rfl))
      (fun d => hne _ rfl)

end Rep

end Labs.Jos
