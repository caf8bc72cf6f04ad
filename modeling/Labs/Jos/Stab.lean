import Labs.Jos.Mmu
import Mathlib.Logic.Basic

/-!
# The binary search of the debugging table

`stab_binsearch` of `kern/kdebug.c`. The functions read a table of stabs through the loads of its
fields, in any monad, so that they run both on a table that is simply there and on one in the
memory of a user. An index is an `int`: a table in memory has fewer than `2 ^ 32 / 12` entries, so
that no sum of two indices overflows. The specification is stated in terms of the entries of one
type within a region.
-/

namespace Labs.Jos.Kdebug

/-- The fields of `struct Stab` that the kernel reads. -/
structure Stab where
  nStrx : Word
  nType : BitVec 8
  nDesc : BitVec 16
  nValue : Word

/-- `N_SO`. -/
def nSo : Int := 0x64

/-- The loads of the fields of the entries of a table. -/
structure Stabs (m : Type → Type) where
  nStrx : Int → m Word
  nType : Int → m (BitVec 8)
  nDesc : Int → m (BitVec 16)
  nValue : Int → m Word

/-- A table that can be read at every index. -/
def Stabs.pure (tab : Int → Stab) : Stabs Id where
  nStrx i := (tab i).nStrx
  nType i := (tab i).nType
  nDesc i := (tab i).nDesc
  nValue i := (tab i).nValue

/-- The variables of `stab_binsearch`. -/
structure Search where
  l : Int
  r : Int
  addr : Word
  regionLeft : Int
  regionRight : Int
  anyMatches : Bool

/-- The variables at the start of the loop. -/
def searchStart (left right : Int) (addr : Word) : Search :=
  ⟨left, right, addr, left, right, false⟩

section Program

variable {m : Type → Type} [Monad m] (stabs : Stabs m) (type : Int)

/-- At most `n` passes of `while (i >= l && stabs[i].n_type != type) i--`. -/
def scanPasses (l : Int) : Nat → Int → m Int
  | 0, i => pure i
  | n + 1, i =>
      if l ≤ i then do
        let t ← stabs.nType i
        if (t.toNat : Int) ≠ type then scanPasses l n (i - 1) else pure i
      else
        pure i

/-- `while (i >= l && stabs[i].n_type != type) i--`. -/
def scan (l i : Int) : m Int := scanPasses stabs type l (i + 1 - l).toNat i

/-- The body of the loop of `stab_binsearch`. -/
def searchPass (s : Search) : m Search := do
  let trueM := (s.l + s.r).tdiv 2
  let i ← scan stabs type s.l trueM
  if i < s.l then
    pure { s with l := trueM + 1 }
  else
    let value ← stabs.nValue i
    if value < s.addr then
      pure { s with anyMatches := true, regionLeft := i, l := trueM + 1 }
    else if value > s.addr then
      pure { s with anyMatches := true, regionRight := i - 1, r := i - 1 }
    else
      pure { s with anyMatches := true, regionLeft := i, l := i, addr := s.addr + 1 }

/-- The loop of `stab_binsearch`, or nothing when it is not over after `n` tests of its
condition. -/
def searchLoop : Nat → Search → m (Option Search)
  | 0, _ => pure none
  | n + 1, s =>
      if s.l ≤ s.r then do
        let s ← searchPass stabs type s
        searchLoop n s
      else
        pure (some s)

/-- The end of `stab_binsearch`: the new `*region_left` and `*region_right`. -/
def searchEnd (s : Search) : m (Int × Int) :=
  if s.anyMatches then do
    -- find rightmost region containing 'addr'
    let l ← scan stabs type (s.regionLeft + 1) s.regionRight
    pure (l, s.regionRight)
  else
    pure (s.regionLeft, s.regionLeft - 1)

/-- `stab_binsearch`, or nothing when its loop makes more than two passes for each entry of the
region. -/
def stabBinsearch (regionLeft regionRight : Int) (addr : Word) : m (Option (Int × Int)) := do
  let s ← searchLoop stabs type (2 * (regionRight + 1 - regionLeft).toNat + 1)
    (searchStart regionLeft regionRight addr)
  match s with
  | none => pure none
  | some s => do
      let region ← searchEnd stabs type s
      pure (some region)

end Program

/-! ## What a pass does -/

section Table

variable (tab : Int → Stab) (type : Int)

/-- The entry is of the type. -/
def IsType (i : Int) : Prop := ((tab i).nType.toNat : Int) = type

instance (i : Int) : Decidable (IsType tab type i) := inferInstanceAs (Decidable (_ = _))

/-- The value of an entry. -/
def val (i : Int) : Nat := (tab i).nValue.toNat

/-- `j` is the last entry of the type in `[l, i]`, or the index below `l` when there is none. -/
structure LastType (l i j : Int) : Prop where
  ge : l - 1 ≤ j
  le : j ≤ i
  isType : l ≤ j → IsType tab type j
  none : ∀ k, j < k → k ≤ i → ¬ IsType tab type k

/-- The midpoint of an interval. -/
def mid (l r : Int) : Int := (l + r).tdiv 2

/-- The passes of the loop: which of its branches a pass takes, and what it does. -/
inductive Pass (s : Search) : Search → Prop
  | missed (hnone : ∀ k, s.l ≤ k → k ≤ mid s.l s.r → ¬ IsType tab type k) :
      Pass s { s with l := mid s.l s.r + 1 }
  | below {j : Int} (hj : s.l ≤ j) (hlast : LastType tab type s.l (mid s.l s.r) j)
      (hlt : val tab j < s.addr.toNat) :
      Pass s { s with anyMatches := true, regionLeft := j, l := mid s.l s.r + 1 }
  | above {j : Int} (hj : s.l ≤ j) (hlast : LastType tab type s.l (mid s.l s.r) j)
      (hgt : s.addr.toNat < val tab j) :
      Pass s { s with anyMatches := true, regionRight := j - 1, r := j - 1 }
  | hit {j : Int} (hj : s.l ≤ j) (hlast : LastType tab type s.l (mid s.l s.r) j)
      (heq : val tab j = s.addr.toNat) :
      Pass s { s with anyMatches := true, regionLeft := j, l := j, addr := s.addr + 1 }

/-- The runs of the loop. -/
inductive Runs : Search → Search → Prop
  | done {s : Search} (h : s.r < s.l) : Runs s s
  | pass {s s' t : Search} (h : s.l ≤ s.r) (hpass : Pass tab type s s') (hrest : Runs s' t) :
      Runs s t

variable {tab type} {l r i j : Int} {s s' t : Search}

/-- The midpoint is inside the interval. -/
theorem mid_bounds (h : l ≤ r) : l ≤ mid l r ∧ mid l r ≤ r := by
  have hsign : Int.sign 2 = 1 := rfl
  unfold mid
  rw [Int.tdiv_eq_ediv, hsign]
  split <;> omega

theorem LastType.unique {j' : Int} (h : LastType tab type l i j) (h' : LastType tab type l i j') :
    j = j' := by
  rcases Int.lt_trichotomy j j' with hlt | heq | hgt
  · exact absurd (h'.isType (by have := h.ge; omega)) (h.none j' hlt h'.le)
  · exact heq
  · exact absurd (h.isType (by have := h'.ge; omega)) (h'.none j hgt h.le)

/-- The last entry of the type moves down over an entry of another type. -/
theorem LastType.of_pred (hi : ¬ IsType tab type i) (h : LastType tab type l (i - 1) j) :
    LastType tab type l i j where
  ge := h.ge
  le := by have := h.le; omega
  isType := h.isType
  none k hjk hki := by
    rcases (show k = i ∨ k ≤ i - 1 by omega) with rfl | hk
    · exact hi
    · exact h.none k hjk hk

theorem scan_passes_succ (n : Nat) :
    Id.run (scanPasses (Stabs.pure tab) type l (n + 1) i) =
      if l ≤ i ∧ ¬ IsType tab type i then
        Id.run (scanPasses (Stabs.pure tab) type l n (i - 1))
      else i := by
  rw [ite_and]
  rfl

theorem scan_passes_last {n : Nat} (hn : n = i + 1 - l) :
    LastType tab type l i (Id.run (scanPasses (Stabs.pure tab) type l n i)) := by
  induction n generalizing i with
  | zero =>
      show LastType tab type l i i
      exact ⟨by omega, Int.le_refl i, fun h => by omega, fun k h h' => by omega⟩
  | succ n ih =>
      rw [scan_passes_succ]
      by_cases htype : IsType tab type i
      · rw [if_neg (fun h => h.2 htype)]
        exact ⟨by omega, Int.le_refl i, fun _ => htype, fun k h h' => by omega⟩
      · rw [if_pos ⟨by omega, htype⟩]
        exact (ih (by omega)).of_pred htype

/-- The scan finds the last entry of the type. -/
theorem scan_last (tab : Int → Stab) (type l i : Int) (h : l ≤ i + 1) :
    LastType tab type l i (Id.run (scan (Stabs.pure tab) type l i)) :=
  scan_passes_last (by omega)

/-- There is nothing to scan above the interval. -/
theorem scan_empty (h : i < l) : Id.run (scan (Stabs.pure tab) type l i) = i := by
  unfold scan
  rw [show (i + 1 - l).toNat = 0 by omega]
  rfl

theorem search_pass_eq (s : Search) {j : Int}
    (hj : Id.run (scan (Stabs.pure tab) type s.l (mid s.l s.r)) = j) :
    Id.run (searchPass (Stabs.pure tab) type s) =
      if j < s.l then { s with l := mid s.l s.r + 1 }
      else if (tab j).nValue < s.addr then
        { s with anyMatches := true, regionLeft := j, l := mid s.l s.r + 1 }
      else if s.addr < (tab j).nValue then
        { s with anyMatches := true, regionRight := j - 1, r := j - 1 }
      else { s with anyMatches := true, regionLeft := j, l := j, addr := s.addr + 1 } := by
  subst hj
  rfl

/-- A pass of the loop takes one of its four branches. -/
theorem search_pass_spec (tab : Int → Stab) (type : Int) (h : s.l ≤ s.r) :
    Pass tab type s (Id.run (searchPass (Stabs.pure tab) type s)) := by
  have hmid := mid_bounds h
  have hlast := scan_last tab type s.l (mid s.l s.r) (by omega)
  rw [search_pass_eq s rfl]
  generalize Id.run (scan (Stabs.pure tab) type s.l (mid s.l s.r)) = j at hlast
  split
  case isTrue hnone => exact .missed fun k hk hk' => hlast.none k (by omega) hk'
  case isFalse hj =>
    have hj : s.l ≤ j := by omega
    split
    case isTrue hlt => exact .below hj hlast hlt
    case isFalse hge =>
      split
      case isTrue hgt => exact .above hj hlast hgt
      case isFalse hle =>
        exact .hit hj hlast (Nat.le_antisymm (Nat.not_lt.mp hle) (Nat.not_lt.mp hge))

theorem search_loop_succ (n : Nat) :
    Id.run (searchLoop (Stabs.pure tab) type (n + 1) s) =
      if s.l ≤ s.r then
        Id.run (searchLoop (Stabs.pure tab) type n (Id.run (searchPass (Stabs.pure tab) type s)))
      else some s :=
  rfl

/-- A loop that is over has run. -/
theorem runs_of_loop {n : Nat}
    (h : Id.run (searchLoop (Stabs.pure tab) type n s) = some t) :
    Runs tab type s t := by
  induction n generalizing s with
  | zero => cases h
  | succ n ih =>
      rw [search_loop_succ] at h
      split at h
      case isTrue hle => exact .pass hle (search_pass_spec tab type hle) (ih h)
      case isFalse hgt =>
        cases h
        exact .done (by omega)

/-- A pass that hits nothing makes the interval smaller, and one that hits the left end is the
only one that does not. -/
theorem Pass.shrinks (hle : s.l ≤ s.r) (h : Pass tab type s s') :
    s'.r - s'.l < s.r - s.l ∨
      (s'.l = s.l ∧ s'.r = s.r ∧ val tab s.l = s.addr.toNat ∧ s'.addr = s.addr + 1 ∧
        LastType tab type s.l (mid s.l s.r) s.l) := by
  have hmid := mid_bounds hle
  cases h with
  | missed _ | below _ _ _ =>
      left
      show s.r - (mid s.l s.r + 1) < s.r - s.l
      omega
  | above hj hlast _ =>
      left
      have := hlast.le
      show (_ - 1) - s.l < s.r - s.l
      omega
  | @hit j hj hlast heq =>
      obtain hlt | rfl := Int.lt_or_eq_of_le hj
      · left
        show s.r - j < s.r - s.l
        omega
      · exact .inr ⟨rfl, rfl, heq, rfl, hlast⟩

/-- A pass that hits the left end again cannot follow, since the address has moved on. -/
theorem Pass.shrinks_twice {s'' : Search} (hle : s.l ≤ s.r) (h : Pass tab type s s')
    (h' : Pass tab type s' s'') : s'.r - s'.l < s.r - s.l ∨ s''.r - s''.l < s.r - s.l := by
  obtain hlt | ⟨hl, hr, hval, haddr, hlast⟩ := h.shrinks hle
  · exact .inl hlt
  obtain hlt | ⟨_, _, hval', _, _⟩ := h'.shrinks (by omega)
  · right
    omega
  · rw [hl, haddr] at hval'
    exact absurd (hval'.symm.trans hval) (by simp; bv_omega)

/-- Two tests of its condition for each entry of the interval, and one more, are enough for the
loop to end. -/
theorem search_loop_some (tab : Int → Stab) (type : Int) {n : Nat}
    (h : 2 * (s.r + 1 - s.l).toNat + 1 ≤ n) :
    ∃ t, Id.run (searchLoop (Stabs.pure tab) type n s) = some t := by
  induction hk : (s.r + 1 - s.l).toNat using Nat.strong_induction_on generalizing s n with
  | _ k ih =>
      obtain ⟨n, rfl⟩ : ∃ n', n = n' + 1 := ⟨n - 1, by omega⟩
      rw [search_loop_succ]
      by_cases hle : s.l ≤ s.r
      case neg => exact ⟨s, if_neg hle⟩
      rw [if_pos hle]
      have hpass := search_pass_spec tab type hle
      generalize Id.run (searchPass (Stabs.pure tab) type s) = s' at hpass
      obtain hlt | ⟨hl, hr, -, -, -⟩ := id (hpass.shrinks hle)
      · exact ih _ (by omega) (by omega) rfl
      · obtain ⟨n, rfl⟩ : ∃ n', n = n' + 1 := ⟨n - 1, by omega⟩
        have hle' : s'.l ≤ s'.r := by omega
        rw [search_loop_succ, if_pos hle']
        have hlt := (hpass.shrinks_twice hle (search_pass_spec tab type hle')).resolve_left
          (by omega)
        exact ih _ (by omega) (by omega) rfl

/-- What every pass keeps holds at the end of the loop. -/
theorem Runs.keeps {I : Search → Prop}
    (hstep : ∀ s s', s.l ≤ s.r → I s → Pass tab type s s' → I s') (h : Runs tab type s t)
    (hs : I s) : I t ∧ t.r < t.l := by
  induction h with
  | done h => exact ⟨hs, h⟩
  | pass hle hpass _ ih => exact ih (hstep _ _ hle hs hpass)

/-- What the loop keeps in any table: the interval stays inside the region, `*region_right` follows
its right end, and `*region_left` stays inside the region. -/
structure Inside (left right : Int) (s : Search) : Prop where
  left_le : left ≤ s.l
  meet : s.l ≤ s.r + 1
  le_right : s.r ≤ right
  regionRight : s.regionRight = s.r
  left_le_regionLeft : left ≤ s.regionLeft
  regionLeft_le : s.anyMatches → s.regionLeft ≤ right
  regionLeft_start : s.anyMatches = false → s.regionLeft = left

theorem Inside.pass {left right : Int} (h : Inside left right s) (hle : s.l ≤ s.r)
    (hpass : Pass tab type s s') : Inside left right s' := by
  have hmid := mid_bounds hle
  have hl := h.left_le
  have hr := h.le_right
  cases hpass with
  | missed _ =>
      exact { h with left_le := by show left ≤ mid s.l s.r + 1; omega
                     meet := by show mid s.l s.r + 1 ≤ s.r + 1; omega }
  | @below j hj hlast _ =>
      have hjm := hlast.le
      exact { h with left_le := by show left ≤ mid s.l s.r + 1; omega
                     meet := by show mid s.l s.r + 1 ≤ s.r + 1; omega
                     left_le_regionLeft := by show left ≤ j; omega
                     regionLeft_le := fun _ => by show j ≤ right; omega
                     regionLeft_start := fun hany => (by cases hany) }
  | @above j hj hlast _ =>
      have hjm := hlast.le
      refine ⟨hl, ?_, ?_, rfl, h.left_le_regionLeft, fun _ => ?_, fun hany => (by cases hany)⟩
      · show s.l ≤ j - 1 + 1
        omega
      · show j - 1 ≤ right
        omega
      · cases hany : s.anyMatches with
        | true => exact h.regionLeft_le hany
        | false =>
            have := h.regionLeft_start hany
            show s.regionLeft ≤ right
            omega
  | @hit j hj hlast _ =>
      have hjm := hlast.le
      exact { h with left_le := by show left ≤ j; omega
                     meet := by show j ≤ s.r + 1; omega
                     left_le_regionLeft := by show left ≤ j; omega
                     regionLeft_le := fun _ => by show j ≤ right; omega
                     regionLeft_start := fun hany => (by cases hany) }

theorem inside_start {left right : Int} (h : left ≤ right + 1) (addr : Word) :
    Inside left right (searchStart left right addr) :=
  ⟨Int.le_refl _, h, Int.le_refl _, rfl, Int.le_refl _, (fun hany => (by cases hany)),
    fun _ => rfl⟩

/-- The end of the search, when an entry has matched. -/
theorem search_end_any (hany : s.anyMatches = true) :
    Id.run (searchEnd (Stabs.pure tab) type s) =
      (Id.run (scan (Stabs.pure tab) type (s.regionLeft + 1) s.regionRight), s.regionRight) := by
  unfold searchEnd
  rw [hany]
  rfl

theorem search_end_none (hany : s.anyMatches = false) :
    Id.run (searchEnd (Stabs.pure tab) type s) = (s.regionLeft, s.regionLeft - 1) := by
  unfold searchEnd
  rw [hany]
  rfl

/-- The search ends on every table, with the end of a run of its loop. -/
theorem stab_binsearch_runs (tab : Int → Stab) (type left right : Int) (addr : Word) :
    ∃ t, Runs tab type (searchStart left right addr) t ∧
      Id.run (stabBinsearch (Stabs.pure tab) type left right addr) =
        some (Id.run (searchEnd (Stabs.pure tab) type t)) := by
  obtain ⟨t, ht⟩ := search_loop_some tab type
    (s := searchStart left right addr) (Nat.le_refl _)
  refine ⟨t, runs_of_loop ht, ?_⟩
  show (match Id.run (searchLoop (Stabs.pure tab) type
      (2 * ((searchStart left right addr).r + 1 - (searchStart left right addr).l).toNat + 1)
      (searchStart left right addr)) with
    | none => none
    | some s => some (Id.run (searchEnd (Stabs.pure tab) type s))) = _
  rw [ht]

end Table

end Labs.Jos.Kdebug
