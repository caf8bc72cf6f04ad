import Labs.Base.Fiber
import Labs.Jos.State
import Mathlib.Data.Fintype.Prod
import Mathlib.Data.Set.Finite.Basic
import Mathlib.Logic.Relation

/-!
# The abstract memory

`Space` says what each physical page is used for and which pages the user half of each address
space maps. It knows nothing of page tables, links or 16-bit counters. `MemAct` lists everything
the kernel may do to it: take a page from the free list or give one back, add a page table or a
directory, insert, restamp or remove a mapping. A mapping is inserted only for a page that was
just taken, or for one that some address space maps already with at least as many rights.
-/

namespace Labs.Jos

open Relation

/-- What a physical page is used for. A `held` page has been taken from the free list by the
kernel entry in progress and has no use yet. -/
inductive Role where
  | reserved
  | free
  | held
  | data
  | dir (i : EnvIx)
  | table (i : EnvIx) (d : Nat)
  | kern (d : Nat)
  deriving DecidableEq

/-- The references to a page that are not mappings: directories and page tables have one. -/
def Role.pins : Role → Nat
  | .reserved => 0
  | .free => 0
  | .held => 0
  | .data => 0
  | .dir _ => 1
  | .table _ _ => 1
  | .kern _ => 1

/-- The number of pages below `UTOP`. -/
def userPages : Nat := 955 * 1024

theorem user_pages_eq : userPages = 977920 := rfl

/-- The abstract memory. `map i n` is the present entry for page number `n` in the address space
of slot `i`, `kmem` holds the words of the kernel's own tables, and `released` lists the pages
given back so far. -/
structure Space where
  role : Nat → Role
  map : EnvIx → Nat → Option Word
  kmem : Nat → Nat → Word
  released : List Nat

theorem finite_user_places : {x : EnvIx × Nat | x.2 < userPages}.Finite := by
  refine Set.Finite.subset (Finset.finite_toSet (Finset.univ ×ˢ Finset.range userPages)) ?_
  intro x hx
  simpa using hx

/-- The places at which a page can be mapped. -/
noncomputable def userPlaces : Finset (EnvIx × Nat) := finite_user_places.toFinset

attribute [irreducible] userPages

namespace Space

variable {m : Space} {i j : EnvIx} {n p q : Nat} {w : Word}

/-- The page that slot `x.1` maps at page number `x.2`. -/
def target (m : Space) (x : EnvIx × Nat) : Option Nat := (m.map x.1 x.2).map pgnum

/-- The number of mappings of page `p`. -/
noncomputable def count (m : Space) (p : Nat) : Nat := fiberCard userPlaces m.target p

/-- The number of references to page `p`. -/
noncomputable def refs (m : Space) (p : Nat) : Nat := m.count p + (m.role p).pins

def setRole (m : Space) (p : Nat) (r : Role) : Space :=
  { m with role := Function.update m.role p r }

def setMap (m : Space) (i : EnvIx) (n : Nat) (entry : Option Word) : Space :=
  { m with map := Function.update m.map i (Function.update (m.map i) n entry) }

/-- Page `p` goes back to the free list. -/
def release (m : Space) (p : Nat) : Space :=
  { m.setRole p .free with released := p :: m.released }

/-- Map the page of the entry `w`. -/
def insert (m : Space) (i : EnvIx) (n : Nat) (w : Word) : Space :=
  (m.setMap i n (some w)).setRole (pgnum w) .data

/-- Remove the entry `w`; its page is released with the last mapping. -/
noncomputable def remove (m : Space) (i : EnvIx) (n : Nat) (w : Word) : Space :=
  if m.count (pgnum w) = 1 then (m.setMap i n none).release (pgnum w) else m.setMap i n none

/-- Remove whatever slot `i` maps at page number `n`. -/
noncomputable def unmap (m : Space) (i : EnvIx) (n : Nat) : Space :=
  match m.map i n with
  | none => m
  | some w => m.remove i n w

@[simp] theorem count_set_role (m : Space) (p q : Nat) (r : Role) :
    (m.setRole p r).count q = m.count q := rfl

@[simp] theorem count_release (m : Space) (p q : Nat) : (m.release p).count q = m.count q := rfl

@[simp] theorem map_set_role (m : Space) (p : Nat) (r : Role) : (m.setRole p r).map = m.map := rfl

@[simp] theorem map_release (m : Space) (p : Nat) : (m.release p).map = m.map := rfl

@[simp] theorem role_set_map (m : Space) (i : EnvIx) (n : Nat) (entry : Option Word) :
    (m.setMap i n entry).role = m.role := rfl

theorem role_set_role (m : Space) (p q : Nat) (r : Role) :
    (m.setRole p r).role q = if q = p then r else m.role q := by
  by_cases h : q = p <;> simp [setRole, h]

theorem role_release (m : Space) (p q : Nat) :
    (m.release p).role q = if q = p then .free else m.role q :=
  role_set_role m p q .free

theorem map_set_map (m : Space) (i j : EnvIx) (n n' : Nat) (entry : Option Word) :
    (m.setMap i n entry).map j n' = if j = i ∧ n' = n then entry else m.map j n' := by
  by_cases hj : j = i
  · subst hj
    by_cases hn : n' = n <;> simp [setMap, hn]
  · simp [setMap, hj]

theorem target_set_map (m : Space) (i : EnvIx) (n : Nat) (entry : Option Word) :
    (m.setMap i n entry).target = Function.update m.target (i, n) (entry.map pgnum) := by
  funext ⟨j, n'⟩
  by_cases h : j = i ∧ n' = n
  · obtain ⟨rfl, rfl⟩ := h
    simp [target, map_set_map]
  · have hne : (j, n') ≠ (i, n) := fun heq => h ⟨congrArg Prod.fst heq, congrArg Prod.snd heq⟩
    rw [Function.update_of_ne hne]
    simp [target, map_set_map, h]

theorem mem_user_places : (i, n) ∈ userPlaces ↔ n < userPages :=
  finite_user_places.mem_toFinset

/-- Changing one entry moves one reference from its old page to its new one. -/
theorem count_set_map (m : Space) (i : EnvIx) (entry : Option Word) (p : Nat)
    (hn : n < userPages) :
    (m.setMap i n entry).count p + (if (m.map i n).map pgnum = some p then 1 else 0) =
      m.count p + if entry.map pgnum = some p then 1 else 0 := by
  rw [count, target_set_map]
  exact fiber_card_update (mem_user_places.2 hn) _

/-- A mapped page has a positive count. -/
theorem count_pos (hn : n < userPages) (h : m.map i n = some w) : 0 < m.count (pgnum w) := by
  refine fiber_card_pos (i := (i, n)) (mem_user_places.2 hn) ?_
  simp [target, h]

/-- A page with a positive count is mapped somewhere. -/
theorem exists_of_count_pos (h : 0 < m.count p) : ∃ i n w, m.map i n = some w ∧ pgnum w = p := by
  obtain ⟨⟨i, n⟩, -, htarget⟩ := exists_of_fiber_card_pos h
  simp only [target, Option.map_eq_some_iff] at htarget
  obtain ⟨w, hw, hp⟩ := htarget
  exact ⟨i, n, w, hw, hp⟩

/-- The abstract memory is consistent: the present entries are user entries for data pages, every
data page is mapped, and no page is mapped more often than `limit` times. -/
structure Ok (limit : Nat) (m : Space) : Prop where
  entry : ∀ i n w, m.map i n = some w → n < userPages ∧ hasFlag w pteP = true ∧
    hasFlag w pteU = true ∧ m.role (pgnum w) = .data
  mapped : ∀ p, m.role p = .data → 0 < m.count p
  bound : ∀ p, m.count p ≤ limit

/-- Only data pages are counted. -/
theorem Ok.count_eq_zero {limit : Nat} (h : m.Ok limit) (hp : m.role p ≠ .data) :
    m.count p = 0 := by
  by_contra hne
  obtain ⟨i, n, w, hw, rfl⟩ := exists_of_count_pos (Nat.pos_of_ne_zero hne)
  exact hp (h.entry i n w hw).2.2.2

/-- Some address space maps the page of `w` with the rights that `w` gives. -/
def Grants (m : Space) (w : Word) : Prop :=
  ∃ i n w', m.map i n = some w' ∧ pgnum w' = pgnum w ∧
    (hasFlag w pteW = true → hasFlag w' pteW = true)

/-- No page is held. -/
def Idle (m : Space) : Prop := ∀ p, m.role p ≠ .held

end Space

open Space

/-- One action on the abstract memory. `spaces` are the address spaces that may be edited, and
`limit` bounds the mappings of a page. -/
inductive MemAct (limit : Nat) (spaces : EnvIx → Prop) : Space → Space → Prop where
  | take {m : Space} {p : Nat} (hfree : m.role p = .free) :
      MemAct limit spaces m (m.setRole p .held)
  | give {m : Space} {p : Nat} (hheld : m.role p = .held) : MemAct limit spaces m (m.release p)
  | addTable {m : Space} {i : EnvIx} {d p : Nat} (hspace : spaces i) (hheld : m.role p = .held) :
      MemAct limit spaces m (m.setRole p (.table i d))
  | addDir {m : Space} {i : EnvIx} {p : Nat} (hheld : m.role p = .held) :
      MemAct limit spaces m (m.setRole p (.dir i))
  | insert {m : Space} {i : EnvIx} {n : Nat} {w : Word} (hspace : spaces i) (hn : n < userPages)
      (hnone : m.map i n = none) (hpresent : hasFlag w pteP = true) (huser : hasFlag w pteU = true)
      (hpage : m.role (pgnum w) = .held ∨
        m.role (pgnum w) = .data ∧ m.Grants w ∧ m.count (pgnum w) < limit) :
      MemAct limit spaces m (m.insert i n w)
  | restamp {m : Space} {i : EnvIx} {n : Nat} {w old : Word} (hspace : spaces i)
      (hsome : m.map i n = some old) (hsame : pgnum old = pgnum w)
      (hpresent : hasFlag w pteP = true) (huser : hasFlag w pteU = true) (hgrants : m.Grants w) :
      MemAct limit spaces m (m.setMap i n (some w))
  | remove {m : Space} {i : EnvIx} {n : Nat} {w : Word} (hspace : spaces i)
      (hsome : m.map i n = some w) : MemAct limit spaces m (m.remove i n w)
  | dropTable {m : Space} {i : EnvIx} {d p : Nat} (hspace : spaces i)
      (htable : m.role p = .table i d) : MemAct limit spaces m (m.release p)
  | dropDir {m : Space} {i : EnvIx} {p : Nat} (hspace : spaces i) (hdir : m.role p = .dir i) :
      MemAct limit spaces m (m.release p)

/-- A sequence of actions on the abstract memory. -/
def MemActs (limit : Nat) (spaces : EnvIx → Prop) : Space → Space → Prop :=
  ReflTransGen (MemAct limit spaces)

section Invariants

variable {limit : Nat} {spaces : EnvIx → Prop} {m m' : Space}

/-- A change of the use of a page that is not in use as data, before or after. -/
theorem Space.Ok.set_role {p : Nat} {r : Role} (h : m.Ok limit) (hold : m.role p ≠ .data)
    (hnew : r ≠ .data) : (m.setRole p r).Ok limit := by
  refine ⟨fun i n w hw => ?_, fun q hq => ?_, h.bound⟩
  · obtain ⟨hn, hpresent, huser, hdata⟩ := h.entry i n w hw
    refine ⟨hn, hpresent, huser, ?_⟩
    rw [role_set_role, if_neg]
    · exact hdata
    · intro heq
      exact hold (heq ▸ hdata)
  · rw [role_set_role] at hq
    split at hq
    · exact absurd hq hnew
    · exact h.mapped q hq

theorem Space.Ok.release {p : Nat} (h : m.Ok limit) (hp : m.role p ≠ .data) :
    (m.release p).Ok limit := by
  have hset := h.set_role (r := .free) hp (by decide)
  exact ⟨hset.entry, hset.mapped, hset.bound⟩

/-- After an insertion the page of the entry has one mapping more. -/
theorem Space.count_insert {i : EnvIx} {n : Nat} {w : Word} (hn : n < userPages)
    (hnone : m.map i n = none) (p : Nat) :
    (m.insert i n w).count p = m.count p + if pgnum w = p then 1 else 0 := by
  have h := count_set_map m i (some w) p hn
  simp only [hnone, Option.map_none, Option.map_some, Option.some.injEq, reduceCtorEq,
    if_false, Nat.add_zero] at h
  exact h

theorem Space.Ok.insert {i : EnvIx} {n : Nat} {w : Word} (hlimit : 1 ≤ limit) (h : m.Ok limit)
    (hn : n < userPages) (hnone : m.map i n = none) (hpresent : hasFlag w pteP = true)
    (huser : hasFlag w pteU = true)
    (hpage : m.role (pgnum w) = .held ∨ m.count (pgnum w) < limit) :
    (m.insert i n w).Ok limit := by
  have hcount := fun p => count_insert (w := w) hn hnone p
  refine ⟨fun j n' w' hw' => ?_, fun p hp => ?_, fun p => ?_⟩
  · rw [Space.insert, map_set_role, map_set_map] at hw'
    rw [Space.insert, role_set_role]
    split at hw'
    · rename_i hat
      cases hw'
      rw [if_pos rfl]
      exact ⟨hat.2 ▸ hn, hpresent, huser, rfl⟩
    · obtain ⟨hn', hpresent', huser', hdata'⟩ := h.entry j n' w' hw'
      refine ⟨hn', hpresent', huser', ?_⟩
      split
      · rfl
      · exact hdata'
  · rw [hcount]
    rw [Space.insert, role_set_role, role_set_map] at hp
    split at hp
    · rename_i hpw
      rw [if_pos hpw.symm]
      omega
    · have := h.mapped p hp
      omega
  · rw [hcount]
    split
    · rename_i hpw
      subst hpw
      rcases hpage with hheld | hlt
      · rw [h.count_eq_zero (by rw [hheld]; decide)]
        exact hlimit
      · exact hlt
    · exact h.bound p

/-- After a removal the page of the entry has one mapping less. -/
theorem Space.count_set_none {i : EnvIx} {n : Nat} {w : Word} (hn : n < userPages)
    (hsome : m.map i n = some w) (p : Nat) :
    (m.setMap i n none).count p + (if pgnum w = p then 1 else 0) = m.count p := by
  have h := count_set_map m i none p hn
  simpa [hsome] using h

theorem Space.Ok.remove {i : EnvIx} {n : Nat} {w : Word} (h : m.Ok limit)
    (hsome : m.map i n = some w) : (m.remove i n w).Ok limit := by
  obtain ⟨hn, -, -, hdata⟩ := h.entry i n w hsome
  have hcount := count_set_none hn hsome
  have hentry : ∀ j n' w', (m.setMap i n none).map j n' = some w' →
      m.map j n' = some w' := by
    intro j n' w' hw'
    rw [map_set_map] at hw'
    split at hw'
    · cases hw'
    · exact hw'
  have hbound : ∀ p, (m.setMap i n none).count p ≤ limit := by
    intro p
    have hp := hcount p
    have hb := h.bound p
    omega
  unfold Space.remove
  split
  · rename_i hlast
    refine ⟨fun j n' w' hw' => ?_, fun p hp => ?_, hbound⟩
    · have hold := h.entry j n' w' (hentry j n' w' hw')
      refine ⟨hold.1, hold.2.1, hold.2.2.1, ?_⟩
      rw [role_release, role_set_map, if_neg]
      · exact hold.2.2.2
      · -- the last mapping of the page was the one removed
        intro heq
        have hpos := count_pos (m := m.setMap i n none) hold.1 hw'
        have hone := hcount (pgnum w)
        rw [if_pos rfl] at hone
        rw [heq] at hpos
        omega
    · rw [role_release, role_set_map] at hp
      split at hp
      · cases hp
      · rename_i hpw
        have hone := hcount p
        rw [if_neg fun heq => hpw heq.symm] at hone
        have := h.mapped p hp
        rw [count_release]
        omega
  · rename_i hmore
    refine ⟨fun j n' w' hw' => h.entry j n' w' (hentry j n' w' hw'), fun p hp => ?_, hbound⟩
    have hpos := h.mapped p hp
    have hone := hcount p
    split at hone
    · rename_i hpw
      subst hpw
      omega
    · omega

theorem Space.count_restamp {i : EnvIx} {n : Nat} {w old : Word} (hn : n < userPages)
    (hsome : m.map i n = some old) (hsame : pgnum old = pgnum w) (p : Nat) :
    (m.setMap i n (some w)).count p = m.count p := by
  have h := count_set_map m i (some w) p hn
  simp only [hsome, Option.map_some, hsame] at h
  omega

theorem Space.Ok.restamp {i : EnvIx} {n : Nat} {w old : Word} (h : m.Ok limit)
    (hsome : m.map i n = some old) (hsame : pgnum old = pgnum w)
    (hpresent : hasFlag w pteP = true) (huser : hasFlag w pteU = true) :
    (m.setMap i n (some w)).Ok limit := by
  obtain ⟨hn, -, -, hdata⟩ := h.entry i n old hsome
  have hcount := count_restamp hn hsome hsame
  refine ⟨fun j n' w' hw' => ?_, fun p hp => ?_, fun p => ?_⟩
  · rw [map_set_map] at hw'
    split at hw'
    · rename_i hat
      cases hw'
      refine ⟨hat.2 ▸ hn, hpresent, huser, ?_⟩
      rw [role_set_map, ← hsame]
      exact hdata
    · exact h.entry j n' w' hw'
  · rw [hcount]
    exact h.mapped p hp
  · rw [hcount]
    exact h.bound p

/-- Every action keeps the memory consistent. -/
theorem MemAct.ok (hlimit : 1 ≤ limit) (ha : MemAct limit spaces m m') (h : m.Ok limit) :
    m'.Ok limit := by
  cases ha with
  | take hfree => exact h.set_role (by rw [hfree]; decide) (by decide)
  | give hheld => exact h.release (by rw [hheld]; decide)
  | addTable _ hheld => exact h.set_role (by rw [hheld]; decide) (by simp)
  | addDir hheld => exact h.set_role (by rw [hheld]; decide) (by simp)
  | insert _ hn hnone hpresent huser hpage =>
      exact h.insert hlimit hn hnone hpresent huser (hpage.imp_right fun hp => hp.2.2)
  | restamp _ hsome hsame hpresent huser _ => exact h.restamp hsome hsame hpresent huser
  | remove _ hsome => exact h.remove hsome
  | dropTable _ htable => exact h.release (by rw [htable]; simp)
  | dropDir _ hdir => exact h.release (by rw [hdir]; simp)

/-- An action leaves alone the kernel's tables and the address spaces it may not edit. -/
theorem MemAct.frame (ha : MemAct limit spaces m m') :
    m'.kmem = m.kmem ∧ ∀ i, ¬ spaces i → m'.map i = m.map i := by
  have hmap : ∀ {i : EnvIx} {n : Nat} {entry : Option Word}, spaces i → ∀ j, ¬ spaces j →
      (m.setMap i n entry).map j = m.map j := by
    intro i n entry hi j hj
    have hne : j ≠ i := fun heq => hj (heq ▸ hi)
    simp [setMap, hne]
  cases ha with
  | insert hspace _ _ _ _ _ => exact ⟨rfl, hmap hspace⟩
  | restamp hspace _ _ _ _ _ => exact ⟨rfl, hmap hspace⟩
  | remove hspace _ =>
      unfold Space.remove
      split
      · exact ⟨rfl, hmap hspace⟩
      · exact ⟨rfl, hmap hspace⟩
  | _ => exact ⟨rfl, fun _ _ => rfl⟩

theorem MemActs.ok (hlimit : 1 ≤ limit) (ha : MemActs limit spaces m m') (h : m.Ok limit) :
    m'.Ok limit := by
  induction ha with
  | refl => exact h
  | tail _ hact ih => exact hact.ok hlimit ih

theorem MemActs.frame (ha : MemActs limit spaces m m') :
    m'.kmem = m.kmem ∧ ∀ i, ¬ spaces i → m'.map i = m.map i := by
  induction ha with
  | refl => exact ⟨rfl, fun _ _ => rfl⟩
  | tail _ hact ih =>
      exact ⟨hact.frame.1.trans ih.1, fun i hi => (hact.frame.2 i hi).trans (ih.2 i hi)⟩

end Invariants

end Labs.Jos
