import Labs.Jos.Stab

/-!
# When the binary search of the debugging table is right

The comment on `stab_binsearch` says what the search returns in a table whose entries of one type
are in order. The search has three phases: a bisection for `addr`; after an exact hit, the
bisection for `addr + 1` that is to find the end of the entry; and a last scan. The second phase
finds the end when no later entry has exactly the value `addr + 1`, the address does not wrap, and
the first phase is wrong only when every entry of the type is above `addr`.
-/

namespace Labs.Jos.Kdebug

section Specification

variable (tab : Int → Stab) (type left right : Int) (addr : Word)

/-- The entries of the type are in strictly increasing order within the region. -/
def Increasing : Prop :=
  ∀ i j, left ≤ i → i < j → j ≤ right → IsType tab type i → IsType tab type j →
    val tab i < val tab j

/-- The last entry of the type within the region whose value is at most `addr`. -/
structure Contains (e : Int) : Prop where
  ge : left ≤ e
  le : e ≤ right
  isType : IsType tab type e
  val_le : val tab e ≤ addr.toNat
  last : ∀ i, e < i → i ≤ right → IsType tab type i → addr.toNat < val tab i

/-- What the comment on the function promises of the new `*region_left` and `*region_right`. -/
structure Meets (region : Int × Int) : Prop where
  /-- The entry that contains `addr`, and the index before the next one of its type. -/
  found : ∀ e, Contains tab type left right addr e →
    region.1 = e ∧ e ≤ region.2 ∧ region.2 ≤ right ∧
      (∀ i, e < i → i ≤ region.2 → ¬ IsType tab type i) ∧
      (region.2 = right ∨ IsType tab type (region.2 + 1))
  /-- Nothing, when every entry of the type is above `addr`. -/
  none : (∀ i, left ≤ i → i ≤ right → IsType tab type i → addr.toNat < val tab i) →
    region.2 < region.1

/-- A bisection for `addr` in an interval comes to an entry that has exactly this value, when the
right end of the interval is the given one. -/
inductive Hits : Int → Int → Int → Int → Prop
  | missed {l r e r' : Int} (hle : l ≤ r)
      (hnone : ∀ k, l ≤ k → k ≤ mid l r → ¬ IsType tab type k)
      (hrest : Hits (mid l r + 1) r e r') : Hits l r e r'
  | low {l r e r' j : Int} (hle : l ≤ r) (hj : l ≤ j) (hlast : LastType tab type l (mid l r) j)
      (hlt : val tab j < addr.toNat) (hrest : Hits (mid l r + 1) r e r') : Hits l r e r'
  | high {l r e r' j : Int} (hle : l ≤ r) (hj : l ≤ j) (hlast : LastType tab type l (mid l r) j)
      (hgt : addr.toNat < val tab j) (hrest : Hits l (j - 1) e r') : Hits l r e r'
  | exact {l r j : Int} (hle : l ≤ r) (hj : l ≤ j) (hlast : LastType tab type l (mid l r) j)
      (heq : val tab j = addr.toNat) : Hits l r j r

/-- After an exact hit at `e`, no later entry up to `r` is mistaken for it: `addr + 1` does not
wrap, and it is not the value of such an entry. The one exception is an entry directly behind `e`
that has the last value of all, where the search of `addr + 2` wraps and comes back to `e`. -/
def HitEnds (e r : Int) : Prop :=
  addr.toNat + 1 < 2 ^ 32 ∧
    ((∀ i, e < i → i ≤ r → IsType tab type i → val tab i ≠ addr.toNat + 1) ∨
      (e + 1 ≤ r ∧ IsType tab type (e + 1) ∧ addr.toNat + 1 = val tab (e + 1) ∧
        val tab (e + 1) = 2 ^ 32 - 1))

/-- When the search does what its comment says: there is no entry of the type, or one of them is at
most `addr` and an exact hit is not taken for another entry. -/
def SearchOk : Prop :=
  (∀ i, left ≤ i → i ≤ right → ¬ IsType tab type i) ∨
    ((∃ i, left ≤ i ∧ i ≤ right ∧ IsType tab type i ∧ val tab i ≤ addr.toNat) ∧
      ∀ e r, Hits tab type addr left right e r → HitEnds tab type addr e r)

end Specification

variable {tab : Int → Stab} {type left right : Int} {addr : Word} {l r e r' j : Int}
  {s s' t : Search}

theorem val_lt (tab : Int → Stab) (i : Int) : val tab i < 2 ^ 32 := (tab i).nValue.isLt

/-- No entry of the type lies in an interval that ends before the last one. -/
theorem LastType.extend {i i' : Int} (h : LastType tab type l i j) (hi : i ≤ i')
    (hnone : ∀ k, i < k → k ≤ i' → ¬ IsType tab type k) : LastType tab type l i' j where
  ge := h.ge
  le := by have := h.le; omega
  isType := h.isType
  none k hk hk' := by
    by_cases hki : k ≤ i
    · exact h.none k hk hki
    · exact hnone k (by omega) hk'

/-- The last entry of an interval is the last one of a longer interval, too. -/
theorem LastType.widen {i l' : Int} (h : LastType tab type l i j) (hj : l ≤ j) (hl : l' ≤ l) :
    LastType tab type l' i j where
  ge := by omega
  le := h.le
  isType _ := h.isType hj
  none := h.none

/-! ## The steps of a bisection -/

section Bisection

variable (hle : l ≤ r)
include hle

theorem hits_missed (hnone : ∀ k, l ≤ k → k ≤ mid l r → ¬ IsType tab type k) :
    Hits tab type addr l r e r' ↔ Hits tab type addr (mid l r + 1) r e r' := by
  refine ⟨fun h => ?_, .missed hle hnone⟩
  cases h with
  | missed _ _ hrest => exact hrest
  | low _ hj hlast _ _ | high _ hj hlast _ _ | exact _ hj hlast _ =>
      exact absurd (hlast.isType hj) (hnone _ hj hlast.le)

variable (hj : l ≤ j) (hlast : LastType tab type l (mid l r) j)
include hj hlast

theorem hits_low (hlt : val tab j < addr.toNat) :
    Hits tab type addr l r e r' ↔ Hits tab type addr (mid l r + 1) r e r' := by
  refine ⟨fun h => ?_, .low hle hj hlast hlt⟩
  cases h with
  | missed _ hnone _ => exact absurd (hlast.isType hj) (hnone _ hj hlast.le)
  | low _ _ _ _ hrest => exact hrest
  | high _ _ hlast' hgt _ =>
      cases hlast.unique hlast'
      omega
  | exact _ _ hlast' heq =>
      cases hlast.unique hlast'
      omega

theorem hits_high (hgt : addr.toNat < val tab j) :
    Hits tab type addr l r e r' ↔ Hits tab type addr l (j - 1) e r' := by
  refine ⟨fun h => ?_, .high hle hj hlast hgt⟩
  cases h with
  | missed _ hnone _ => exact absurd (hlast.isType hj) (hnone _ hj hlast.le)
  | low _ _ hlast' hlt _ =>
      cases hlast.unique hlast'
      omega
  | high _ _ hlast' _ hrest =>
      cases hlast.unique hlast'
      exact hrest
  | exact _ _ hlast' heq =>
      cases hlast.unique hlast'
      omega

theorem hits_exact (heq : val tab j = addr.toNat) :
    Hits tab type addr l r e r' ↔ e = j ∧ r' = r := by
  refine ⟨fun h => ?_, by rintro ⟨rfl, rfl⟩; exact .exact hle hj hlast heq⟩
  cases h with
  | missed _ hnone _ => exact absurd (hlast.isType hj) (hnone _ hj hlast.le)
  | low _ _ hlast' hlt _ =>
      cases hlast.unique hlast'
      omega
  | high _ _ hlast' hgt _ =>
      cases hlast.unique hlast'
      omega
  | exact _ _ hlast' _ => exact ⟨hlast'.unique hlast, rfl⟩

end Bisection

theorem not_hits_empty (h : r < l) : ¬ Hits tab type addr l r e r' := by
  intro hhits
  cases hhits <;> omega

/-! ## The bisection before a hit -/

/-- The bisection for `addr` before a hit. The last fact relates the interval to the whole region:
the bisection of the one comes to a hit exactly when the other's does. -/
structure Before (tab : Int → Stab) (type left right : Int) (addr : Word) (s : Search) : Prop where
  inside : Inside left right s
  sameAddr : s.addr = addr
  low : ∀ i, left ≤ i → i < s.l → IsType tab type i → val tab i < addr.toNat
  high : ∀ i, s.r < i → i ≤ right → IsType tab type i → addr.toNat < val tab i
  next : s.r = right ∨ IsType tab type (s.r + 1)
  regionLeft : ∃ j, LastType tab type left (s.l - 1) j ∧ s.regionLeft = max j left
  matched : s.anyMatches = true → ∃ i, left ≤ i ∧ i ≤ right ∧ IsType tab type i
  unmatched : s.anyMatches = false →
    ∀ i, left ≤ i → i ≤ right → IsType tab type i → s.l ≤ i ∧ i ≤ s.r
  hits : ∀ e r, Hits tab type addr s.l s.r e r ↔ Hits tab type addr left right e r

theorem before_start (h : left ≤ right + 1) :
    Before tab type left right addr (searchStart left right addr) where
  inside := inside_start h addr
  sameAddr := rfl
  low i hi hi' := absurd hi (Int.not_le.mpr hi')
  high i hi hi' := absurd hi (Int.not_lt.mpr hi')
  next := .inl rfl
  regionLeft := by
    refine ⟨left - 1, ⟨Int.le_refl _, Int.le_refl _, fun h => by omega, fun k h h' => ?_⟩, ?_⟩
    · have : k ≤ left - 1 := h'
      omega
    · show left = max (left - 1) left
      omega
  matched h := (by cases h)
  unmatched _ i hi hi' _ := ⟨hi, hi'⟩
  hits _ _ := Iff.rfl

/-- The search right after the first exact hit, at `e`, when the right end of the interval is
`r'`. -/
structure AfterHit (tab : Int → Stab) (type left right : Int) (addr : Word) (e r' : Int)
    (s : Search) : Prop where
  inside : Inside left right s
  anyMatches : s.anyMatches = true
  nextAddr : s.addr = addr + 1
  atLeft : s.l = e
  regionLeft : s.regionLeft = e
  atRight : s.r = r'
  le : e ≤ r'
  isType : IsType tab type e
  val_eq : val tab e = addr.toNat
  next : s.r = right ∨ IsType tab type (s.r + 1)
  hits : ∀ e₁ r₁, Hits tab type addr left right e₁ r₁ ↔ e₁ = e ∧ r₁ = r'

/-- A pass of the bisection goes on with it, or hits. -/
theorem Before.pass (hinc : Increasing tab type left right) (hle : s.l ≤ s.r)
    (h : Before tab type left right addr s) (hpass : Pass tab type s s') :
    Before tab type left right addr s' ∨ ∃ e r', AfterHit tab type left right addr e r' s' := by
  have hinside := h.inside.pass hle hpass
  have hmid := mid_bounds hle
  have hl := h.inside.left_le
  have hr := h.inside.le_right
  have haddr := h.sameAddr
  obtain ⟨j₀, hlast₀, hregion⟩ := h.regionLeft
  cases hpass with
  | missed hnone =>
      refine .inl ⟨hinside, haddr, fun i hi hi' htype => ?_, h.high, h.next, ⟨j₀, ?_, hregion⟩,
        h.matched, fun hany i hi hi' htype => ?_, fun e r => ?_⟩
      · have hi' : i < mid s.l s.r + 1 := hi'
        have hlt : i < s.l := by
          by_contra hge
          exact hnone i (by omega) (by omega) htype
        exact h.low i hi hlt htype
      · exact hlast₀.extend (by show _ ≤ mid s.l s.r + 1 - 1; omega)
          fun k hk hk' => hnone k (by omega) (by have : k ≤ mid s.l s.r + 1 - 1 := hk'; omega)
      · have hin := h.unmatched hany i hi hi' htype
        refine ⟨?_, hin.2⟩
        show mid s.l s.r + 1 ≤ i
        by_contra hlt
        exact hnone i hin.1 (by omega) htype
      · exact (hits_missed hle hnone).symm.trans (h.hits e r)
  | @below j hj hlast hlt =>
      rw [haddr] at hlt
      have hjm := hlast.le
      have htypej := hlast.isType hj
      refine .inl ⟨hinside, haddr, fun i hi hi' htype => ?_, h.high, h.next, ⟨j, ?_, ?_⟩,
        fun _ => ⟨j, by omega, by omega, htypej⟩, (fun hany => (by cases hany)), fun e r => ?_⟩
      · have hi' : i < mid s.l s.r + 1 := hi'
        obtain hij | hij | hij := Int.lt_trichotomy i j
        · have := hinc i j hi hij (by omega) htype htypej
          omega
        · rw [hij]
          exact hlt
        · exact absurd htype (hlast.none i hij (by omega))
      · have hlast := hlast.widen hj hl
        exact ⟨hlast.ge, by show j ≤ mid s.l s.r + 1 - 1; omega, hlast.isType,
          fun k hk hk' => hlast.none k hk (by have : k ≤ mid s.l s.r + 1 - 1 := hk'; omega)⟩
      · show j = max j left
        omega
      · exact (hits_low hle hj hlast hlt).symm.trans (h.hits e r)
  | @above j hj hlast hgt =>
      rw [haddr] at hgt
      have hjm := hlast.le
      have htypej := hlast.isType hj
      refine .inl ⟨hinside, haddr, h.low, fun i hi hi' htype => ?_, .inr ?_, ⟨j₀, hlast₀, hregion⟩,
        fun _ => ⟨j, by omega, by omega, htypej⟩, (fun hany => (by cases hany)), fun e r => ?_⟩
      · have hi : j - 1 < i := hi
        obtain hij | hij := Int.lt_or_eq_of_le (show j ≤ i by omega)
        · have := hinc j i (by omega) hij hi' htypej htype
          omega
        · rw [← hij]
          exact hgt
      · show IsType tab type (j - 1 + 1)
        rw [Int.sub_add_cancel]
        exact htypej
      · exact (hits_high hle hj hlast hgt).symm.trans (h.hits e r)
  | @hit j hj hlast heq =>
      rw [haddr] at heq
      have hjm := hlast.le
      refine .inr ⟨j, s.r, hinside, rfl, by rw [← haddr], rfl, rfl, rfl, by omega, hlast.isType hj,
        heq, h.next, fun e r => ?_⟩
      exact (h.hits e r).symm.trans (hits_exact hle hj hlast heq)

/-- A run of the bisection ends without a hit, or it comes to the first one. -/
theorem Runs.first_hit (hinc : Increasing tab type left right) (hrun : Runs tab type s t)
    (h : Before tab type left right addr s) :
    (Before tab type left right addr t ∧ t.r < t.l) ∨
      ∃ e r' s', AfterHit tab type left right addr e r' s' ∧ Runs tab type s' t := by
  induction hrun with
  | done hend => exact .inl ⟨h, hend⟩
  | pass hle hpass hrest ih =>
      obtain h' | ⟨e, r', h'⟩ := h.pass hinc hle hpass
      · exact ih h'
      · exact .inr ⟨e, r', _, h', hrest⟩

/-! ## The bisection after a hit -/

/-- The search after a hit at the last address of all: the entry is above address 0. -/
structure Wrapped (tab : Int → Stab) (type e : Int) (s : Search) : Prop where
  anyMatches : s.anyMatches = true
  zero : s.addr.toNat = 0
  atLeft : s.l = e
  regionLeft : s.regionLeft = e
  le : e ≤ s.r
  isType : IsType tab type e
  pos : 0 < val tab e
  none : ∀ i, e < i → i ≤ s.r → ¬ IsType tab type i

/-- The search loses the entry whose address is the last one of all. -/
theorem Wrapped.search_end (h : Wrapped tab type e s) (hrun : Runs tab type s t) :
    Id.run (searchEnd (Stabs.pure tab) type t) = (e - 1, e - 1) := by
  have hl := h.atLeft
  have hle := h.le
  have hmid := mid_bounds (show s.l ≤ s.r by omega)
  have hlast : LastType tab type s.l (mid s.l s.r) e :=
    ⟨by omega, by omega, fun _ => h.isType, fun k hk hk' => h.none k hk (by omega)⟩
  cases hrun with
  | done hend => omega
  | pass _ hpass hrest =>
      cases hpass with
      | missed hnone => exact absurd h.isType (hnone e (by omega) hlast.le)
      | below _ hlast' hlt =>
          rw [h.zero] at hlt
          omega
      | hit _ hlast' heq =>
          cases hlast.unique hlast'
          have := h.pos
          have := h.zero
          omega
      | above _ hlast' _ =>
          cases hlast.unique hlast'
          cases hrest with
          | pass hle' _ _ =>
              have hle' : s.l ≤ e - 1 := hle'
              omega
          | done _ =>
              have hempty : e - 1 < s.regionLeft + 1 := by
                rw [h.regionLeft]
                omega
              rw [search_end_any rfl]
              show (Id.run (scan (Stabs.pure tab) type (s.regionLeft + 1) (e - 1)), e - 1) = _
              rw [scan_empty hempty]

/-- The search for the end of the entry `e`, with the address after the one it was hit by. -/
structure Ending (tab : Int → Stab) (type left right : Int) (addr : Word) (e : Int) (s : Search) :
    Prop where
  inside : Inside left right s
  anyMatches : s.anyMatches = true
  nextAddr : s.addr = addr + 1
  ge : e ≤ s.l
  le : e ≤ s.r
  regionLeft : s.regionLeft = e
  none : ∀ i, e < i → i < s.l → ¬ IsType tab type i
  next : s.r = right ∨ IsType tab type (s.r + 1)

/-- The search right after a second exact hit, at `j`. -/
structure SecondHit (tab : Int → Stab) (type left right : Int) (addr : Word) (e j : Int)
    (s : Search) : Prop where
  inside : Inside left right s
  anyMatches : s.anyMatches = true
  nextAddr : s.addr = addr + 1 + 1
  atLeft : s.l = j
  regionLeft : s.regionLeft = j
  gt : e < j
  le : j ≤ s.r
  isType : IsType tab type j
  val_eq : val tab j = addr.toNat + 1

theorem succ_toNat (h : addr.toNat + 1 < 2 ^ 32) : (addr + 1).toNat = addr.toNat + 1 := by
  rw [BitVec.toNat_add]
  exact Nat.mod_eq_of_lt h

/-- A pass of the search for the end goes on with it and keeps the entries that it looks for, or
hits one of them. -/
theorem Ending.pass (hinc : Increasing tab type left right) (htype : IsType tab type e)
    (hval : val tab e = addr.toNat) (haddr : addr.toNat + 1 < 2 ^ 32) (hle : s.l ≤ s.r)
    (h : Ending tab type left right addr e s) (hpass : Pass tab type s s') :
    (Ending tab type left right addr e s' ∧
      ∀ i, e < i → i ≤ s.r → IsType tab type i → val tab i = addr.toNat + 1 → i ≤ s'.r) ∨
    ∃ j, j ≤ s.r ∧ SecondHit tab type left right addr e j s' := by
  have hinside := h.inside.pass hle hpass
  have hmid := mid_bounds hle
  have hl := h.inside.left_le
  have hr := h.inside.le_right
  have hge := h.ge
  have hle' := h.le
  have hleft := h.inside.left_le_regionLeft
  rw [h.regionLeft] at hleft
  have hnext : s.addr.toNat = addr.toNat + 1 := by rw [h.nextAddr, succ_toNat haddr]
  cases hpass with
  | missed hnone =>
      refine .inl ⟨⟨hinside, h.anyMatches, h.nextAddr, ?_, h.le, h.regionLeft,
        fun i hi hi' htypei => ?_, h.next⟩, fun i _ hi _ _ => hi⟩
      · show e ≤ mid s.l s.r + 1
        omega
      · have hi' : i < mid s.l s.r + 1 := hi'
        by_cases hlt : i < s.l
        · exact h.none i hi hlt htypei
        · exact hnone i (by omega) (by omega) htypei
  | @below j hj hlast hlt =>
      have hjm := hlast.le
      -- a later entry is above the address, so this is the entry itself
      obtain rfl : j = e := by
        by_contra hne
        have := hinc e j hleft (by omega) (by omega) htype (hlast.isType hj)
        omega
      refine .inl ⟨⟨hinside, rfl, h.nextAddr, ?_, h.le, rfl, fun i hi hi' => ?_, h.next⟩,
        fun i _ hi _ _ => hi⟩
      · show j ≤ mid s.l s.r + 1
        omega
      · exact hlast.none i hi (by have : i < mid s.l s.r + 1 := hi'; omega)
  | @above j hj hlast hgt =>
      have hjm := hlast.le
      have htypej := hlast.isType hj
      have hne : j ≠ e := by
        rintro rfl
        omega
      refine .inl ⟨⟨hinside, rfl, h.nextAddr, h.ge, ?_, h.regionLeft, h.none, .inr ?_⟩,
        fun i hi hi' htypei hvali => ?_⟩
      · show e ≤ j - 1
        omega
      · show IsType tab type (j - 1 + 1)
        rw [Int.sub_add_cancel]
        exact htypej
      · show i ≤ j - 1
        by_contra hij
        obtain heq | hlt := Int.lt_or_eq_of_le (show j ≤ i by omega)
        · have := hinc j i (by omega) heq (by omega) htypej htypei
          omega
        · rw [← hlt] at hvali
          omega
  | @hit j hj hlast heq =>
      have hjm := hlast.le
      have hne : j ≠ e := by
        rintro rfl
        omega
      exact .inr ⟨j, by omega, hinside, rfl, by rw [← h.nextAddr], rfl, rfl, by omega,
        by show j ≤ s.r; omega, hlast.isType hj, by omega⟩

/-- The right end of the interval never moves up. -/
theorem Pass.right_le (hle : s.l ≤ s.r) (h : Pass tab type s s') : s'.r ≤ s.r := by
  have hmid := mid_bounds hle
  cases h with
  | missed _ | below _ _ _ | hit _ _ _ => exact Int.le_refl _
  | @above j _ hlast _ =>
      have := hlast.le
      show j - 1 ≤ s.r
      omega

/-- A run of the search for the end of `e` ends, and no entry that it looks for was there; or it
comes to a second hit. -/
theorem Runs.second_hit (hinc : Increasing tab type left right) (htype : IsType tab type e)
    (hval : val tab e = addr.toNat) (haddr : addr.toNat + 1 < 2 ^ 32)
    (hrun : Runs tab type s t) (h : Ending tab type left right addr e s) :
    (Ending tab type left right addr e t ∧ t.r < t.l ∧
      ∀ i, e < i → i ≤ s.r → IsType tab type i → val tab i ≠ addr.toNat + 1) ∨
    ∃ j s', j ≤ s.r ∧ SecondHit tab type left right addr e j s' ∧ Runs tab type s' t := by
  induction hrun with
  | @done s hend =>
      refine .inl ⟨h, hend, fun i hi hi' htypei _ => ?_⟩
      exact h.none i hi (by omega) htypei
  | @pass s s' t hle hpass hrest ih =>
      obtain ⟨h', hkeep⟩ | ⟨j, hj, h'⟩ := h.pass hinc htype hval haddr hle hpass
      · obtain ⟨ht, hend, hnone⟩ | ⟨j, s₁, hj, hsecond, hrun⟩ := ih h'
        · refine .inl ⟨ht, hend, fun i hi hi' htypei hvali => ?_⟩
          exact hnone i hi (hkeep i hi hi' htypei hvali) htypei hvali
        · exact .inr ⟨j, s₁, Int.le_trans hj (hpass.right_le hle), hsecond, hrun⟩
      · exact .inr ⟨j, s', hj, h', hrest⟩

/-- The search after a second hit at `j` stays above it. -/
structure Later (tab : Int → Stab) (left right j : Int) (s : Search) : Prop where
  inside : Inside left right s
  anyMatches : s.anyMatches = true
  regionLeft : j ≤ s.regionLeft
  ge : j ≤ s.l
  le : j ≤ s.r
  past : val tab j < s.addr.toNat ∨ j < s.l

theorem Later.pass (hle : s.l ≤ s.r) (h : Later tab left right j s) (hpass : Pass tab type s s') :
    Later tab left right j s' := by
  have hinside := h.inside.pass hle hpass
  have hmid := mid_bounds hle
  have hge := h.ge
  have hle' := h.le
  have hpast := h.past
  cases hpass with
  | missed _ =>
      refine ⟨hinside, h.anyMatches, h.regionLeft, ?_, h.le, .inr ?_⟩
      · show j ≤ mid s.l s.r + 1
        omega
      · show j < mid s.l s.r + 1
        omega
  | @below i hi _ _ =>
      refine ⟨hinside, rfl, ?_, ?_, h.le, .inr ?_⟩
      · show j ≤ i
        omega
      · show j ≤ mid s.l s.r + 1
        omega
      · show j < mid s.l s.r + 1
        omega
  | @above i hi _ hgt =>
      refine ⟨hinside, rfl, h.regionLeft, h.ge, ?_, h.past⟩
      show j ≤ i - 1
      have hne : i ≠ j := by
        rintro rfl
        omega
      omega
  | @hit i hi _ heq =>
      refine ⟨hinside, rfl, ?_, ?_, h.le, .inr ?_⟩
      · show j ≤ i
        omega
      · show j ≤ i
        omega
      · show j < i
        have hne : i ≠ j := by
          rintro rfl
          omega
        omega

/-- A search that stays above an entry does not come back to an earlier one. -/
theorem Later.search_end (h : Later tab left right j s) (hrun : Runs tab type s t) :
    j ≤ (Id.run (searchEnd (Stabs.pure tab) type t)).1 := by
  obtain ⟨ht, _⟩ := hrun.keeps (fun _ _ hle h hpass => h.pass hle hpass) h
  rw [search_end_any ht.anyMatches]
  show j ≤ Id.run (scan (Stabs.pure tab) type (t.regionLeft + 1) t.regionRight)
  have hleft := ht.regionLeft
  have hright := ht.le
  have hsame := ht.inside.regionRight
  by_cases hempty : t.regionRight < t.regionLeft + 1
  · rw [scan_empty hempty]
    omega
  · have := (scan_last tab type (t.regionLeft + 1) t.regionRight (by omega)).ge
    omega

/-! ## The end of the search -/

/-- The last scan comes to the last entry of the type. -/
theorem search_end_last (hany : s.anyMatches = true) (hle : s.regionLeft ≤ s.regionRight)
    (hnone : ∀ i, s.regionLeft < i → i ≤ s.regionRight → ¬ IsType tab type i) :
    Id.run (searchEnd (Stabs.pure tab) type s) = (s.regionLeft, s.regionRight) := by
  have hlast := scan_last tab type (s.regionLeft + 1) s.regionRight (by omega)
  rw [search_end_any hany]
  generalize Id.run (scan (Stabs.pure tab) type (s.regionLeft + 1) s.regionRight) = i at hlast
  have hge := hlast.ge
  obtain rfl : i = s.regionLeft := by
    by_contra hne
    exact hnone i (by omega) hlast.le (hlast.isType (by omega))
  rfl

/-- The region of the claimed form around an entry that contains the address. -/
theorem Contains.meets (h : Contains tab type left right addr e) (hle : e ≤ r) (hr : r ≤ right)
    (hnone : ∀ i, e < i → i ≤ r → ¬ IsType tab type i)
    (hnext : r = right ∨ IsType tab type (r + 1)) : Meets tab type left right addr (e, r) where
  found e' h' := by
    obtain rfl : e = e' := by
      obtain hlt | heq | hgt := Int.lt_trichotomy e e'
      · have := h.last e' hlt h'.le h'.isType
        have := h'.val_le
        omega
      · exact heq
      · have := h'.last e hgt h.le h.isType
        have := h.val_le
        omega
    exact ⟨rfl, hle, hr, hnone, hnext⟩
  none habove := by
    have := habove e h.ge h.le h.isType
    have := h.val_le
    omega

/-- A search without a hit is right exactly when no entry matched at all, or one of them is below
the address. -/
theorem Before.meets_iff (h : Before tab type left right addr t) (hend : t.r < t.l) :
    Meets tab type left right addr (Id.run (searchEnd (Stabs.pure tab) type t)) ↔
      SearchOk tab type left right addr := by
  have hl := h.inside.left_le
  have hr := h.inside.le_right
  have hmeet := h.inside.meet
  have hsame := h.inside.regionRight
  cases hany : t.anyMatches with
  | false =>
      -- every entry of the type would lie in the empty interval
      have hnone : ∀ i, left ≤ i → i ≤ right → ¬ IsType tab type i := fun i hi hi' htype => by
        have := h.unmatched hany i hi hi' htype
        omega
      rw [search_end_none hany]
      refine ⟨fun _ => .inl hnone, fun _ => ⟨fun e he => ?_, fun _ => ?_⟩⟩
      · exact absurd he.isType (hnone e he.ge he.le)
      · show t.regionLeft - 1 < t.regionLeft
        omega
  | true =>
      obtain ⟨j, hlast, hregion⟩ := h.regionLeft
      have hge := hlast.ge
      have hlast_le := hlast.le
      by_cases hj : left ≤ j
      · -- the entry before the end of the bisection contains the address
        have hleft : t.regionLeft = j := by omega
        have hcontains : Contains tab type left right addr j := by
          refine ⟨hj, by omega, hlast.isType hj, ?_, fun i hi hi' htype => ?_⟩
          · exact Nat.le_of_lt (h.low j hj (by omega) (hlast.isType hj))
          · refine h.high i ?_ hi' htype
            by_contra hin
            exact hlast.none i hi (by omega) htype
        rw [search_end_last hany (by omega) fun i hi hi' => hlast.none i (by omega) (by omega),
          hleft, hsame]
        refine ⟨fun _ => .inr ⟨⟨j, hj, by omega, hlast.isType hj, hcontains.val_le⟩,
          fun e r hhits => ?_⟩, fun _ => ?_⟩
        · exact absurd ((h.hits e r).mpr hhits) (not_hits_empty hend)
        · exact hcontains.meets (by omega) hr (fun i hi hi' => hlast.none i hi (by omega)) h.next
      · -- every entry is above the address, and yet the search ends as if the first one were not
        have hleft : t.regionLeft = left := by omega
        have habove : ∀ i, left ≤ i → i ≤ right → IsType tab type i → addr.toNat < val tab i :=
          fun i hi hi' htype => h.high i (by
            by_contra hin
            exact hlast.none i (by omega) (by omega) htype) hi' htype
        refine ⟨fun hmeets => absurd (hmeets.none habove) ?_, fun hok => ?_⟩
        · rw [search_end_any hany, hleft, hsame]
          show ¬ t.r < Id.run (scan (Stabs.pure tab) type (left + 1) t.r)
          by_cases hempty : t.r < left + 1
          · rw [scan_empty hempty]
            omega
          · have := (scan_last tab type (left + 1) t.r (by omega)).le
            omega
        · obtain ⟨i, hi, hi', htype⟩ := h.matched hany
          obtain hnone | ⟨⟨i, hi, hi', htype, hval⟩, _⟩ := hok
          · exact absurd htype (hnone i hi hi')
          · have := habove i hi hi' htype
            omega

/-- The entry of an exact hit contains the address. -/
theorem AfterHit.contains (hinc : Increasing tab type left right)
    (h : AfterHit tab type left right addr e r' s) : Contains tab type left right addr e := by
  have hl := h.inside.left_le
  have hr := h.inside.le_right
  have hle := h.le
  rw [h.atLeft] at hl
  rw [h.atRight] at hr
  refine ⟨hl, by omega, h.isType, Nat.le_of_eq h.val_eq, fun i hi hi' htype => ?_⟩
  have := hinc e i hl hi hi' h.isType htype
  rw [← h.val_eq]
  exact this

/-- After a hit, what remains of the condition is that the hit is not taken for another one. -/
theorem AfterHit.ok_iff (h : AfterHit tab type left right addr e r' s)
    (hcontains : Contains tab type left right addr e) :
    SearchOk tab type left right addr ↔ HitEnds tab type addr e r' := by
  constructor
  · rintro (hnone | ⟨_, hends⟩)
    · exact absurd hcontains.isType (hnone e hcontains.ge hcontains.le)
    · exact hends e r' ((h.hits e r').mpr ⟨rfl, rfl⟩)
  · refine fun hends => .inr ⟨⟨e, hcontains.ge, hcontains.le, hcontains.isType, hcontains.val_le⟩,
      fun e₁ r₁ hhits => ?_⟩
    obtain ⟨rfl, rfl⟩ := (h.hits e₁ r₁).mp hhits
    exact hends

/-- After a second hit, the search is right only by the accident of `HitEnds`. -/
theorem SecondHit.meets_iff {j : Int} (hinc : Increasing tab type left right)
    (hcontains : Contains tab type left right addr e)
    (hval : val tab e = addr.toNat) (hnext : addr.toNat + 1 < 2 ^ 32) (hjr : j ≤ r')
    (hr : r' ≤ right) (h : SecondHit tab type left right addr e j s) (hrun : Runs tab type s t) :
    Meets tab type left right addr (Id.run (searchEnd (Stabs.pure tab) type t)) ↔
      HitEnds tab type addr e r' := by
  have hgt := h.gt
  have hge := hcontains.ge
  have hvalj := h.val_eq
  have hlast := val_lt tab j
  by_cases hwrap : addr.toNat + 1 = 2 ^ 32 - 1
  · -- the second entry has the last value of all
    have hwrapped : Wrapped tab type j s := by
      refine ⟨h.anyMatches, ?_, h.atLeft, h.regionLeft, h.le, h.isType, by omega,
        fun i hi hi' htype => ?_⟩
      · rw [h.nextAddr, BitVec.toNat_add, succ_toNat hnext, hwrap]
        rfl
      · have := hinc j i (by omega) hi (Int.le_trans hi' h.inside.le_right) h.isType htype
        have := val_lt tab i
        omega
    rw [hwrapped.search_end hrun]
    constructor
    · intro hmeets
      obtain ⟨hje, _⟩ := hmeets.found e hcontains
      obtain rfl : j = e + 1 := by
        have : j - 1 = e := hje
        omega
      exact ⟨hnext, .inr ⟨hjr, h.isType, hvalj.symm, by omega⟩⟩
    · rintro ⟨_, hnone | ⟨hr₁, htype₁, _, hval₁⟩⟩
      · exact absurd hvalj (hnone j hgt hjr h.isType)
      · obtain rfl : j = e + 1 := by
          by_contra hne
          have := hinc (e + 1) j (by omega) (by omega) (by omega) htype₁ h.isType
          omega
        rw [Int.add_sub_cancel]
        exact hcontains.meets (Int.le_refl e) hcontains.le (fun i hi hi' => by omega)
          (.inr h.isType)
  · -- the search goes on behind the second entry
    have hlater : Later tab left right j s := by
      refine ⟨h.inside, h.anyMatches, Int.le_of_eq h.regionLeft.symm, Int.le_of_eq h.atLeft.symm,
        h.le, .inl ?_⟩
      rw [h.nextAddr, succ_toNat (by rw [succ_toNat hnext]; omega), succ_toNat hnext]
      omega
    have hfound := hlater.search_end hrun
    constructor
    · intro hmeets
      obtain ⟨hje, _⟩ := hmeets.found e hcontains
      omega
    · rintro ⟨_, hnone | ⟨_, _, hval₁, hval₂⟩⟩
      · exact absurd hvalj (hnone j hgt hjr h.isType)
      · omega

/-- A search with a hit is right exactly when no later entry is mistaken for the one that was
hit. -/
theorem AfterHit.meets_iff (hinc : Increasing tab type left right)
    (h : AfterHit tab type left right addr e r' s) (hrun : Runs tab type s t) :
    Meets tab type left right addr (Id.run (searchEnd (Stabs.pure tab) type t)) ↔
      SearchOk tab type left right addr := by
  have hcontains := h.contains hinc
  have hright := h.inside.le_right
  rw [h.atRight] at hright
  rw [h.ok_iff hcontains]
  by_cases hnext : addr.toNat + 1 < 2 ^ 32
  case neg =>
    -- `addr + 1` is 0, and the entry itself is above it
    have hmax : addr.toNat = 2 ^ 32 - 1 := by
      have := addr.isLt
      omega
    have hwrapped : Wrapped tab type e s := by
      refine ⟨h.anyMatches, ?_, h.atLeft, h.regionLeft, h.atRight ▸ h.le, h.isType, ?_,
        fun i hi hi' htype => ?_⟩
      · rw [h.nextAddr, BitVec.toNat_add, hmax]
        rfl
      · rw [h.val_eq, hmax]
        omega
      · have := hcontains.last i hi (Int.le_trans hi' h.inside.le_right) htype
        have := val_lt tab i
        omega
    rw [hwrapped.search_end hrun]
    refine ⟨fun hmeets => ?_, fun hends => absurd hends.1 hnext⟩
    obtain ⟨hje, _⟩ := hmeets.found e hcontains
    have : e - 1 = e := hje
    omega
  have hending : Ending tab type left right addr e s := by
    refine ⟨h.inside, h.anyMatches, h.nextAddr, Int.le_of_eq h.atLeft.symm, h.atRight ▸ h.le,
      h.regionLeft, fun i hi hi' => ?_, h.next⟩
    rw [h.atLeft] at hi'
    omega
  obtain ⟨ht, hend, hnone⟩ | ⟨j, s', hj, hsecond, hrest⟩ :=
    hrun.second_hit hinc h.isType h.val_eq hnext hending
  · -- the end of the entry is found
    have hsame := ht.inside.regionRight
    have hmeet := ht.inside.meet
    have hle := ht.le
    have hleft := ht.regionLeft
    rw [search_end_last ht.anyMatches (by omega)
      fun i hi hi' => ht.none i (by omega) (by omega), hleft, hsame]
    refine ⟨fun _ => ⟨hnext, .inl (h.atRight ▸ hnone)⟩, fun _ => ?_⟩
    exact hcontains.meets hle ht.inside.le_right (fun i hi hi' => ht.none i hi (by omega)) ht.next
  · exact hsecond.meets_iff hinc hcontains h.val_eq hnext (h.atRight ▸ hj) hright hrest

/-- The search ends on every table. Where the entries of the type are in increasing order, it does
what its comment says exactly under the condition `SearchOk`. -/
theorem stab_binsearch_meets_iff (hinc : Increasing tab type left right) :
    ∃ region, Id.run (stabBinsearch (Stabs.pure tab) type left right addr) = some region ∧
      (Meets tab type left right addr region ↔ SearchOk tab type left right addr) := by
  obtain ⟨t, hrun, hresult⟩ := stab_binsearch_runs tab type left right addr
  refine ⟨_, hresult, ?_⟩
  by_cases hregion : left ≤ right + 1
  · obtain ⟨ht, hend⟩ | ⟨e, r', s', hhit, hrest⟩ := hrun.first_hit hinc (before_start hregion)
    · exact ht.meets_iff hend
    · exact hhit.meets_iff hinc hrest
  · -- the region is empty
    cases hrun with
    | pass hle _ _ =>
        have hle : left ≤ right := hle
        omega
    | done _ =>
        rw [search_end_none rfl]
        refine ⟨fun _ => .inl fun i hi hi' => by omega, fun _ => ⟨fun e he => ?_, fun _ => ?_⟩⟩
        · have := he.ge
          have := he.le
          omega
        · show left - 1 < left
          omega

/-- Source files that are one byte apart. -/
def byteApart (i : Int) : Stab := ⟨0, 0x64, 0, BitVec.ofInt 32 (0x10 + i)⟩

theorem increasing_byte_apart : Increasing byteApart nSo 0 1 := by
  intro i j hi hij hj _ _
  obtain rfl : i = 0 := by omega
  obtain rfl : j = 1 := by omega
  decide

/-- The condition of the last theorem holds of a table with two files. -/
theorem stab_binsearch_meets_byte_apart :
    ∃ region, Id.run (stabBinsearch (Stabs.pure byteApart) nSo 0 1 0x11) = some region ∧
      (Meets byteApart nSo 0 1 0x11 region ↔ SearchOk byteApart nSo 0 1 0x11) :=
  stab_binsearch_meets_iff increasing_byte_apart

/-- The address of the first of the two files is taken for one in the second. -/
theorem stab_binsearch_misses :
    Increasing byteApart nSo 0 1 ∧
      Id.run (stabBinsearch (Stabs.pure byteApart) nSo 0 1 0x10) = some (1, 1) ∧
      ¬ Meets byteApart nSo 0 1 0x10 (1, 1) := by
  refine ⟨increasing_byte_apart, by decide, fun hmeets => ?_⟩
  have hcontains : Contains byteApart nSo 0 1 0x10 0 := by
    refine ⟨by decide, by decide, by decide, by decide, fun i hi hi' _ => ?_⟩
    obtain rfl : i = 1 := by omega
    decide
  exact absurd (hmeets.found 0 hcontains).1 (by decide)

end Labs.Jos.Kdebug
