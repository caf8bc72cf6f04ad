import Labs.Base.Prog
import Labs.Jos.Stab

/-!
# Searching a table that nobody has checked

What `stab_binsearch` returns on any table: nothing, a region inside the old one, or the index below
the old region. The search of a source file ends below the table, at index -1, exactly when the
bisection sinks to an `N_SO` entry at index 0 above the address. A table that is read through loads
with effects is searched like one that is simply there, as long as the loads inside the region
succeed.
-/

namespace Labs.Jos.Kdebug

open Prog

section Table

variable {tab : Int → Stab} {type left right : Int} {a addr : Word} {s s' t : Search} {r : Int}

/-- What a search returns in a region that is not empty. -/
inductive Result (tab : Int → Stab) (type left right : Int) : Int × Int → Prop
  | none : Result tab type left right (left, left - 1)
  | found {l r : Int} (hl : left ≤ l) (hlr : l ≤ r) (hr : r ≤ right) :
      Result tab type left right (l, r)
  /-- The index below the region. -/
  | sunk (htype : IsType tab type left) : Result tab type left right (left - 1, left - 1)

/-- `Inside`, and what an interval without entries says: the search has come down to the left end
of the region. -/
structure Sinking (tab : Int → Stab) (type left right : Int) (s : Search) : Prop where
  inside : Inside left right s
  sunk : left ≤ right → s.r = left - 1 → s.anyMatches = true ∧ IsType tab type left

theorem Sinking.pass (h : Sinking tab type left right s) (hle : s.l ≤ s.r)
    (hpass : Pass tab type s s') : Sinking tab type left right s' := by
  have hl := h.inside.left_le
  refine ⟨h.inside.pass hle hpass, fun hregion hr => ?_⟩
  cases hpass with
  | missed _ => exact absurd hr (by show ¬ s.r = left - 1; omega)
  | below _ _ _ => exact absurd hr (by show ¬ s.r = left - 1; omega)
  | @above j hj hlast _ =>
      change j - 1 = left - 1 at hr
      have hleft : j = left := by omega
      exact ⟨rfl, hleft ▸ hlast.isType hj⟩
  | hit _ _ _ => exact absurd hr (by show ¬ s.r = left - 1; omega)

/-- A search in a region that is not empty. -/
theorem stab_binsearch_result (tab : Int → Stab) (type : Int) (addr : Word) (h : left ≤ right) :
    ∃ region, Id.run (stabBinsearch (Stabs.pure tab) type left right addr) = some region ∧
      Result tab type left right region := by
  obtain ⟨t, hruns, heq⟩ := stab_binsearch_runs tab type left right addr
  refine ⟨_, heq, ?_⟩
  have hstart : Sinking tab type left right (searchStart left right addr) :=
    ⟨inside_start (by omega) addr, fun _ hr => absurd hr (by show ¬ right = left - 1; omega)⟩
  obtain ⟨⟨hinside, hsunk⟩, hend⟩ :=
    hruns.keeps (fun s s' hle hs hpass => hs.pass hle hpass) hstart
  have hl := hinside.left_le
  have hmeet := hinside.meet
  have hr := hinside.le_right
  have hright := hinside.regionRight
  have hleft := hinside.left_le_regionLeft
  cases hany : t.anyMatches with
  | false =>
      rw [search_end_none hany, hinside.regionLeft_start hany]
      exact .none
  | true =>
      rw [search_end_any hany, hright]
      by_cases hempty : t.r < t.regionLeft + 1
      · rw [scan_empty hempty]
        by_cases hbelow : t.r = left - 1
        · rw [hbelow]
          exact .sunk (hsunk h hbelow).2
        · exact .found (by omega) (Int.le_refl _) hr
      · have hlast := scan_last tab type (t.regionLeft + 1) t.r (by omega)
        have hge := hlast.ge
        exact .found (by omega) hlast.le hr

/-! ## Sinking below the table -/

/-- The bisection of `[0, r]` for `addr` sinks: every `N_SO` entry that it comes to, down to one at
index 0, is above `addr`. -/
inductive Sinks (tab : Int → Stab) (addr : Word) : Int → Prop
  | out : Sinks tab addr (-1)
  | down {r m : Int} (hr : 0 ≤ r) (hlast : LastType tab nSo 0 (mid 0 r) m) (hm : 0 ≤ m)
      (hgt : addr.toNat < val tab m) (hrest : Sinks tab addr (m - 1)) : Sinks tab addr r

/-- A search that sinks ends below the table. -/
theorem Sinks.runs (h : Sinks tab addr r) (hruns : Runs tab nSo s t) (hl : s.l = 0) (hr : s.r = r)
    (haddr : s.addr = addr) : t.r = -1 := by
  induction h generalizing s with
  | out =>
      cases hruns with
      | done _ => exact hr
      | pass hle _ _ => exact absurd hle (by omega)
  | @down r m hpos hlast hm hgt _ ih =>
      cases hruns with
      | done hend => exact absurd hend (by omega)
      | pass hle hpass hrest =>
          rw [← hr, ← hl] at hlast
          have hmid := mid_bounds hle
          cases hpass with
          | missed hnone => exact absurd (hlast.isType (by omega)) (hnone m (by omega) hlast.le)
          | below hj hlast' hlt =>
              rw [hlast'.unique hlast, haddr] at hlt
              exact absurd hlt (by omega)
          | above hj hlast' _ =>
              refine ih hrest hl ?_ haddr
              show _ - 1 = m - 1
              rw [hlast'.unique hlast]
          | hit hj hlast' heq =>
              rw [hlast'.unique hlast, haddr] at heq
              exact absurd heq (by omega)

/-- After an exact hit at index 0 the search does not sink any more. -/
theorem not_sinks_after_hit (hruns : Runs tab nSo s t) (hinside : Inside 0 right s)
    (hstart : 1 ≤ s.l ∨ (s.l = 0 ∧ 0 ≤ s.r ∧ val tab 0 + 1 = s.addr.toNat)) : t.r ≠ -1 := by
  have hstep : ∀ s s', s.l ≤ s.r → (Inside 0 right s ∧
      (1 ≤ s.l ∨ (s.l = 0 ∧ 0 ≤ s.r ∧ val tab 0 + 1 = s.addr.toNat))) → Pass tab nSo s s' →
      Inside 0 right s' ∧
        (1 ≤ s'.l ∨ (s'.l = 0 ∧ 0 ≤ s'.r ∧ val tab 0 + 1 = s'.addr.toNat)) := by
    rintro s s' hle ⟨hin, hcase⟩ hpass
    refine ⟨hin.pass hle hpass, ?_⟩
    have hmid := mid_bounds hle
    have hl := hin.left_le
    cases hpass with
    | missed _ =>
        left
        show 1 ≤ mid s.l s.r + 1
        omega
    | below _ _ _ =>
        left
        show 1 ≤ mid s.l s.r + 1
        omega
    | @above j hj hlast hgt =>
        rcases hcase with hone | ⟨hzero, hr, hval⟩
        · exact .inl hone
        · -- the entry at index 0 is below the address now
          have hne : j ≠ 0 := by
            rintro rfl
            omega
          right
          refine ⟨hzero, ?_, hval⟩
          show 0 ≤ j - 1
          omega
    | @hit j hj hlast heq =>
        left
        show 1 ≤ j
        rcases hcase with hone | ⟨hzero, hr, hval⟩
        · omega
        · have hne : j ≠ 0 := by
            rintro rfl
            omega
          omega
  obtain ⟨⟨hinside, hkept⟩, hend⟩ := hruns.keeps hstep ⟨hinside, hstart⟩
  have hmeet := hinside.meet
  omega

/-- A search that ends below the table has sunk. -/
theorem sinks_of_runs (hruns : Runs tab nSo s t) (hinside : Inside 0 right s) (hl : s.l = 0)
    (haddr : s.addr = addr) (hlow : addr.toNat + 1 < 2 ^ 32) (hr : t.r = -1) :
    Sinks tab addr s.r := by
  induction hruns with
  | @done s hend =>
      rw [hr]
      exact .out
  | @pass s s' t hle hpass hrest ih =>
      have hinside' := hinside.pass hle hpass
      have hmid := mid_bounds hle
      rw [hl] at hmid hle
      have hnot : ¬ (1 ≤ s'.l ∨ (s'.l = 0 ∧ 0 ≤ s'.r ∧ val tab 0 + 1 = s'.addr.toNat)) :=
        fun hcase => not_sinks_after_hit hrest hinside' hcase hr
      cases hpass with
      | missed _ => exact absurd (.inl (by show 1 ≤ mid s.l s.r + 1; rw [hl]; omega)) hnot
      | below _ _ _ => exact absurd (.inl (by show 1 ≤ mid s.l s.r + 1; rw [hl]; omega)) hnot
      | @above j hj hlast hgt =>
          rw [hl] at hj hlast
          rw [haddr] at hgt
          exact .down hle hlast hj hgt (ih hinside' hl haddr hr)
      | @hit j hj hlast heq =>
          refine absurd ?_ hnot
          by_cases hzero : j = 0
          · subst hzero
            right
            refine ⟨rfl, hle, ?_⟩
            show val tab 0 + 1 = (s.addr + 1).toNat
            rw [heq, haddr, BitVec.toNat_add]
            exact (Nat.mod_eq_of_lt hlow).symm
          · left
            show 1 ≤ j
            omega

/-! ## The type of the entry that is found -/

/-- What the loop keeps as long as the address, which every exact hit increments, does not wrap
around: `*region_left` is the left end of the region or an entry of the type, and the interval does
not leave it behind. -/
structure Located (tab : Int → Stab) (type left right : Int) (addr : Word) (s : Search) : Prop where
  inside : Inside left right s
  le : s.regionLeft ≤ s.l
  type : s.regionLeft = left ∨ IsType tab type s.regionLeft
  hit : s.regionLeft = s.l → s.regionLeft = left ∨ val tab s.l + 1 = s.addr.toNat
  addr : (s.addr.toNat : Int) ≤ addr.toNat + (s.l - left) ∨
    ((s.addr.toNat : Int) = addr.toNat + (s.l - left) + 1 ∧ val tab s.l + 1 = s.addr.toNat)
  meet : s.regionLeft ≤ s.r ∨ (s.regionLeft = left ∧ s.r = left - 1)

theorem located_start (h : left ≤ right) :
    Located tab type left right addr (searchStart left right addr) where
  inside := inside_start (by omega) addr
  le := Int.le_refl _
  type := .inl rfl
  hit _ := .inl rfl
  addr := .inl (by show (addr.toNat : Int) ≤ addr.toNat + (left - left); omega)
  meet := .inl h

theorem Located.pass (h : Located tab type left right addr s) (hle : s.l ≤ s.r)
    (hbound : (addr.toNat : Int) + (right - left) + 2 < 2 ^ 32) (hpass : Pass tab type s s') :
    Located tab type left right addr s' := by
  have hinside := h.inside.pass hle hpass
  have hmid := mid_bounds hle
  have hr := h.inside.le_right
  have hleft := h.le
  have haddr := h.addr
  cases hpass with
  | missed _ =>
      refine ⟨hinside, ?_, h.type, fun heq => ?_, .inl ?_, h.meet⟩
      · show s.regionLeft ≤ mid s.l s.r + 1
        omega
      · change s.regionLeft = mid s.l s.r + 1 at heq
        omega
      · show (s.addr.toNat : Int) ≤ addr.toNat + (mid s.l s.r + 1 - left)
        omega
  | @below j hj hlast hlt =>
      have hjm := hlast.le
      refine ⟨hinside, ?_, .inr (hlast.isType hj), fun heq => ?_, .inl ?_, .inl ?_⟩
      · show j ≤ mid s.l s.r + 1
        omega
      · change j = mid s.l s.r + 1 at heq
        omega
      · show (s.addr.toNat : Int) ≤ addr.toNat + (mid s.l s.r + 1 - left)
        omega
      · show j ≤ s.r
        omega
  | @above j hj hlast hgt =>
      have hll := h.inside.left_le
      refine ⟨hinside, h.le, h.type, h.hit, h.addr, ?_⟩
      show s.regionLeft ≤ j - 1 ∨ (s.regionLeft = left ∧ j - 1 = left - 1)
      by_cases heq : s.regionLeft = j
      · -- an entry that has been hit is below the address now
        have hjl : j = s.l := by omega
        rcases h.hit (heq.trans hjl) with hstart | hval
        · exact .inr ⟨hstart, by omega⟩
        · rw [← hjl] at hval
          omega
      · exact .inl (by omega)
  | @hit j hj hlast heq =>
      have hjm := hlast.le
      have hadd : (s.addr + 1).toNat = s.addr.toNat + 1 := by
        have hone : (1 : Word).toNat = 1 := rfl
        rw [BitVec.toNat_add, hone]
        omega
      -- the last hit was at an earlier entry
      have hmoved : (s.addr.toNat : Int) ≤ addr.toNat + (j - left) := by
        rcases haddr with hle' | ⟨heq', hval⟩
        · omega
        · have hne : j ≠ s.l := by
            intro hjl
            rw [hjl, ← hval] at heq
            omega
          omega
      refine ⟨hinside, Int.le_refl _, .inr (hlast.isType hj), fun _ => .inr ?_, ?_, .inl ?_⟩
      · show val tab j + 1 = (s.addr + 1).toNat
        rw [hadd, heq]
      · show ((s.addr + 1).toNat : Int) ≤ addr.toNat + (j - left) ∨
          (((s.addr + 1).toNat : Int) = addr.toNat + (j - left) + 1 ∧
            val tab j + 1 = (s.addr + 1).toNat)
        rw [hadd, heq]
        omega
      · show j ≤ s.r
        omega

/-- The index that a search returns is that of an entry of the type, unless it is the left end of
the region or the index below. -/
theorem stab_binsearch_type (h : left ≤ right)
    (hbound : (addr.toNat : Int) + (right - left) + 2 < 2 ^ 32) {region : Int × Int}
    (hregion : Id.run (stabBinsearch (Stabs.pure tab) type left right addr) = some region) :
    region.1 = left ∨ region.1 = left - 1 ∨ IsType tab type region.1 := by
  obtain ⟨t, hruns, heq⟩ := stab_binsearch_runs tab type left right addr
  rw [heq] at hregion
  cases hregion
  obtain ⟨hlocated, hend⟩ := hruns.keeps
    (fun s s' hle hs hpass => hs.pass hle hbound hpass) (located_start h)
  cases hany : t.anyMatches with
  | false =>
      rw [search_end_none hany, hlocated.inside.regionLeft_start hany]
      exact .inl rfl
  | true =>
      rw [search_end_any hany, hlocated.inside.regionRight]
      have hmeet := hlocated.meet
      by_cases hempty : t.r < t.regionLeft + 1
      · rw [scan_empty hempty]
        show t.r = left ∨ t.r = left - 1 ∨ IsType tab type t.r
        rcases hmeet with hle | ⟨-, hsunk⟩
        · rw [show t.r = t.regionLeft by omega]
          exact hlocated.type.imp_right .inr
        · exact .inr (.inl hsunk)
      · have hlast := scan_last tab type (t.regionLeft + 1) t.r (by omega)
        generalize Id.run (scan (Stabs.pure tab) type (t.regionLeft + 1) t.r) = j at hlast
        show j = left ∨ j = left - 1 ∨ IsType tab type j
        by_cases hfound : t.regionLeft + 1 ≤ j
        · exact .inr (.inr (hlast.isType hfound))
        · have hge := hlast.ge
          rw [show j = t.regionLeft by omega]
          exact hlocated.type.imp_right .inr

/-- The search of a source file ends below the table exactly when it sinks. -/
theorem file_search_sinks_iff {n : Int} (hn : 0 < n) (hlow : addr.toNat + 1 < 2 ^ 32)
    {region : Int × Int}
    (hregion : Id.run (stabBinsearch (Stabs.pure tab) nSo 0 (n - 1) addr) = some region) :
    region.1 = -1 ↔ Sinks tab addr (n - 1) := by
  obtain ⟨t, hruns, heq⟩ := stab_binsearch_runs tab nSo 0 (n - 1) addr
  rw [heq] at hregion
  cases hregion
  have hstart : Sinking tab nSo 0 (n - 1) (searchStart 0 (n - 1) addr) :=
    ⟨inside_start (by omega) addr, fun _ hr => absurd hr (by show ¬ n - 1 = 0 - 1; omega)⟩
  obtain ⟨⟨hinside, hsunk⟩, hend⟩ :=
    hruns.keeps (fun s s' hle hs hpass => hs.pass hle hpass) hstart
  have hleft := hinside.left_le_regionLeft
  have hright : -1 ≤ t.r := by
    have := hinside.left_le
    have := hinside.meet
    omega
  constructor
  · intro hout
    have hr : t.r = -1 := by
      cases hany : t.anyMatches with
      | false =>
          rw [search_end_none hany, hinside.regionLeft_start hany] at hout
          exact absurd hout (by decide)
      | true =>
          rw [search_end_any hany, hinside.regionRight] at hout
          by_cases hempty : t.r < t.regionLeft + 1
          · rw [scan_empty hempty] at hout
            exact hout
          · have hlast := scan_last tab nSo (t.regionLeft + 1) t.r (by omega)
            have hge := hlast.ge
            change Id.run (scan (Stabs.pure tab) nSo (t.regionLeft + 1) t.r) = -1 at hout
            omega
    exact sinks_of_runs hruns (inside_start (by omega) addr) rfl rfl hlow hr
  · intro hsinks
    have hr := hsinks.runs hruns rfl rfl rfl
    obtain ⟨hany, -⟩ := hsunk (by omega) (by omega)
    rw [search_end_any hany, hinside.regionRight, scan_empty (by omega)]
    exact hr

end Table

/-! ## Tables that are read through loads -/

section Loads

variable {σ ε : Type} {stabs : Stabs (Prog σ ε)} {tab : Int → Stab} {type lo hi l r i : Int}
  {w : σ} {s : Search}

/-- In state `w` the loads of the entries from `lo` to before `hi` yield those of a table, and
change nothing. -/
structure Serves (stabs : Stabs (Prog σ ε)) (tab : Int → Stab) (lo hi : Int) (w : σ) : Prop where
  nStrx : ∀ i, lo ≤ i → i < hi → stabs.nStrx i w = .ret (tab i).nStrx w
  nType : ∀ i, lo ≤ i → i < hi → stabs.nType i w = .ret (tab i).nType w
  nDesc : ∀ i, lo ≤ i → i < hi → stabs.nDesc i w = .ret (tab i).nDesc w
  nValue : ∀ i, lo ≤ i → i < hi → stabs.nValue i w = .ret (tab i).nValue w

namespace Serves

theorem scan_passes (h : Serves stabs tab lo hi w) (hl : lo ≤ l) (n : Nat) (i : Int)
    (hi' : i < hi) :
    scanPasses stabs type l n i w = .ret (Id.run (scanPasses (Stabs.pure tab) type l n i)) w := by
  induction n generalizing i with
  | zero => rfl
  | succ n ih =>
      rw [scan_passes_succ, scanPasses]
      by_cases hle : l ≤ i
      · rw [if_pos hle, bind_of_ret (h.nType i (by omega) hi')]
        by_cases htype : IsType tab type i
        · rw [if_neg (show ¬ ((tab i).nType.toNat : Int) ≠ type from not_not_intro htype),
            if_neg fun hand => hand.2 htype]
          rfl
        · rw [if_pos (show ((tab i).nType.toNat : Int) ≠ type from htype), if_pos ⟨hle, htype⟩]
          exact ih (i - 1) (by omega)
      · rw [if_neg hle, if_neg fun hand => hle hand.1]
        rfl

theorem scan (h : Serves stabs tab lo hi w) (type : Int) (hl : lo ≤ l) (hi' : i < hi) :
    scan stabs type l i w = .ret (Id.run (Kdebug.scan (Stabs.pure tab) type l i)) w :=
  h.scan_passes hl _ i hi'

theorem search_pass (h : Serves stabs tab lo hi w) (hl : lo ≤ s.l) (hle : s.l ≤ s.r)
    (hr : s.r < hi) :
    searchPass stabs type s w = .ret (Id.run (searchPass (Stabs.pure tab) type s)) w := by
  have hmid := mid_bounds hle
  have hlast := scan_last tab type s.l (mid s.l s.r) (by omega)
  have hscan := h.scan type hl (i := mid s.l s.r) (by omega)
  rw [search_pass_eq s rfl]
  show (Kdebug.scan stabs type s.l (mid s.l s.r) >>= _) w = _
  rw [bind_of_ret hscan]
  generalize Id.run (Kdebug.scan (Stabs.pure tab) type s.l (mid s.l s.r)) = j at hlast
  by_cases hj : j < s.l
  · rw [if_pos hj, if_pos hj]
    rfl
  · have hjm := hlast.le
    rw [if_neg hj, if_neg hj, bind_of_ret (h.nValue j (by omega) (by omega))]
    split
    · rfl
    · split
      · rfl
      · rfl

theorem search_loop (h : Serves stabs tab lo hi w) (type : Int) (hinside : Inside lo (hi - 1) s) (n : Nat) :
    searchLoop stabs type n s w = .ret (Id.run (searchLoop (Stabs.pure tab) type n s)) w := by
  induction n generalizing s with
  | zero => rfl
  | succ n ih =>
      rw [search_loop_succ, searchLoop]
      have hl := hinside.left_le
      have hr := hinside.le_right
      by_cases hle : s.l ≤ s.r
      · rw [if_pos hle, if_pos hle, bind_of_ret (h.search_pass hl hle (by omega))]
        exact ih (hinside.pass hle (search_pass_spec tab type hle))
      · rw [if_neg hle, if_neg hle]
        rfl

theorem search_end (h : Serves stabs tab lo hi w) (hinside : Inside lo (hi - 1) s) :
    searchEnd stabs type s w = .ret (Id.run (searchEnd (Stabs.pure tab) type s)) w := by
  have hleft := hinside.left_le_regionLeft
  have hr := hinside.le_right
  cases hany : s.anyMatches with
  | false =>
      rw [search_end_none hany, searchEnd, hany]
      rfl
  | true =>
      have hright := hinside.regionRight
      have hscan := h.scan type (l := s.regionLeft + 1) (i := s.regionRight) (by omega)
        (by omega)
      rw [search_end_any hany, searchEnd, hany, if_pos rfl, bind_of_ret hscan]
      rfl

/-- A search of a table whose loads succeed finds what a search of the table itself finds. -/
theorem stab_binsearch (h : Serves stabs tab l (r + 1) w) (type : Int) (hle : l ≤ r)
    (addr : Word) :
    stabBinsearch stabs type l r addr w =
      .ret (Id.run (stabBinsearch (Stabs.pure tab) type l r addr)) w := by
  have hstart : Inside l (r + 1 - 1) (searchStart l r addr) := by
    rw [show r + 1 - 1 = r by omega]
    exact inside_start (by omega) addr
  have hloop := h.search_loop type hstart (2 * (r + 1 - l).toNat + 1)
  obtain ⟨t', hsome⟩ := search_loop_some tab type (s := searchStart l r addr)
    (Nat.le_refl _)
  have hinside : Inside l (r + 1 - 1) t' :=
    ((runs_of_loop hsome).keeps (fun s s' hle hs hpass => hs.pass hle hpass) hstart).1
  change Id.run (searchLoop (Stabs.pure tab) type (2 * (r + 1 - l).toNat + 1)
    (searchStart l r addr)) = some t' at hsome
  have hpure : Id.run (stabBinsearch (Stabs.pure tab) type l r addr) =
      some (Id.run (Kdebug.searchEnd (Stabs.pure tab) type t')) := by
    rw [stabBinsearch, Id.run_bind, hsome]
    rfl
  rw [hpure, stabBinsearch, bind_of_ret hloop, hsome]
  show (Kdebug.searchEnd stabs type t' >>= _) w = _
  rw [bind_of_ret (h.search_end hinside)]
  rfl

end Serves

/-- A search in an empty region reads nothing. -/
theorem stab_binsearch_empty (h : r < l) (addr : Word) (w : σ) :
    stabBinsearch stabs type l r addr w = .ret (some (l, l - 1)) w := by
  have hloop : searchLoop stabs type (2 * (r + 1 - l).toNat + 1) (searchStart l r addr) w =
      .ret (some (searchStart l r addr)) w := by
    rw [searchLoop, if_neg (show ¬ (searchStart l r addr).l ≤ (searchStart l r addr).r from
      Int.not_le.2 h)]
    rfl
  rw [stabBinsearch, bind_of_ret hloop]
  rfl

/-- A search whose first load fails does not go on. -/
theorem stab_binsearch_exit {e : ε} {w' : σ} (hle : l ≤ r)
    (hload : stabs.nType (mid l r) w = .exit e w') (addr : Word) :
    stabBinsearch stabs type l r addr w = .exit e w' := by
  have hmid := mid_bounds hle
  have hscan : scan stabs type l (mid l r) w = .exit e w' := by
    unfold scan
    obtain ⟨n, hn⟩ : ∃ n, (mid l r + 1 - l).toNat = n + 1 := ⟨(mid l r - l).toNat, by omega⟩
    rw [hn, scanPasses, if_pos hmid.1]
    exact bind_of_exit hload
  have hpass : searchPass stabs type (searchStart l r addr) w = .exit e w' := by
    show (scan stabs type l (mid l r) >>= _) w = _
    exact bind_of_exit hscan
  have hloop : searchLoop stabs type (2 * (r + 1 - l).toNat + 1) (searchStart l r addr) w =
      .exit e w' := by
    rw [searchLoop, if_pos (show (searchStart l r addr).l ≤ (searchStart l r addr).r from hle)]
    exact bind_of_exit hpass
  exact bind_of_exit hloop

end Loads

end Labs.Jos.Kdebug
