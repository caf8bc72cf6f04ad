import Mathlib.Algebra.Group.Nat.Defs
import Mathlib.Logic.Basic

/-!
# Copying in a memory whose addresses wrap around

`move` is the copy of a block that reads all of it before it writes. A copy loop moves unit after
unit, upwards or downwards, and later units read what earlier ones have left. `window` is the memory
in the middle of such a loop: a part of the block has been copied and the rest is as before. A loop
whose units do not read what it has already written ends in the block move, whatever its unit.
-/

namespace Labs.Copy

variable {w : Nat} {β : Type}

/-- The `n` elements from `s` on are copied to `d`, all at once. -/
def move (m : BitVec w → β) (d s : BitVec w) (n : Nat) : BitVec w → β := fun x =>
  if (x - d).toNat < n then m (s + (x - d)) else m x

/-- Of the elements from `s` on, those with index `lo` to `hi` have been copied to `d`. -/
def window (m : BitVec w → β) (d s : BitVec w) (lo hi : Nat) : BitVec w → β := fun x =>
  if lo ≤ (x - d).toNat ∧ (x - d).toNat < hi then m (s + (x - d)) else m x

/-- Copy `c` units of `u` elements, one after the other, with rising addresses. -/
def up (u : Nat) : Nat → BitVec w → BitVec w → (BitVec w → β) → BitVec w → β
  | 0, _, _, m => m
  | c + 1, d, s, m => up u c (d + BitVec.ofNat w u) (s + BitVec.ofNat w u) (move m d s u)

/-- Copy `c` units of `u` elements, one after the other, with falling addresses. -/
def down (u : Nat) : Nat → BitVec w → BitVec w → (BitVec w → β) → BitVec w → β
  | 0, _, _, m => m
  | c + 1, d, s, m => down u c (d - BitVec.ofNat w u) (s - BitVec.ofNat w u) (move m d s u)

variable {m : BitVec w → β} {d s x : BitVec w} {n lo hi c u o : Nat}

theorem window_zero : window m d s 0 n = move m d s n := by
  funext x
  simp [window, move]

theorem window_empty : window m d s n n = m := by
  funext x
  exact if_neg (by omega)

/-- An address is found back at its index. -/
theorem add_index : d + BitVec.ofNat w (x - d).toNat = x := by
  rw [BitVec.ofNat_toNat, BitVec.setWidth_eq, BitVec.add_comm, BitVec.sub_add_cancel]

/-- A copied element. -/
theorem move_add {i : Nat} (hi : i < n) (hn : n ≤ 2 ^ w) :
    move m d s n (d + BitVec.ofNat w i) = m (s + BitVec.ofNat w i) := by
  have hoff : d + BitVec.ofNat w i - d = BitVec.ofNat w i := by
    rw [BitVec.add_comm, BitVec.add_sub_cancel]
  have hval : (BitVec.ofNat w i).toNat = i := by
    rw [BitVec.toNat_ofNat]
    exact Nat.mod_eq_of_lt (by omega)
  rw [move, hoff, hval, if_pos hi]

/-- The elements that are not copied to are kept. -/
theorem move_of_not (hx : ∀ i < n, x ≠ d + BitVec.ofNat w i) : move m d s n x = m x := by
  exact if_neg fun hlt => hx _ hlt add_index.symm

/-- The index of an address within a block that starts later. -/
theorem index_add (ho : o ≤ 2 ^ w) : (x - (d + BitVec.ofNat w o)).toNat =
    if o ≤ (x - d).toNat then (x - d).toNat - o else (x - d).toNat + 2 ^ w - o := by
  have hlt := (x - d).isLt
  rw [← BitVec.sub_sub, BitVec.toNat_sub, BitVec.toNat_ofNat]
  split
  case isTrue hle =>
    have hsmall : o % 2 ^ w = o := Nat.mod_eq_of_lt (by omega)
    rw [hsmall, show 2 ^ w - o + (x - d).toNat = (x - d).toNat - o + 2 ^ w by omega,
      Nat.add_mod_right, Nat.mod_eq_of_lt (by omega)]
  case isFalse hgt =>
    by_cases hfull : o = 2 ^ w
    · rw [hfull, Nat.mod_self, Nat.sub_zero, Nat.add_sub_cancel, Nat.add_mod_left,
        Nat.mod_eq_of_lt hlt]
    · rw [Nat.mod_eq_of_lt (show o < 2 ^ w by omega), Nat.mod_eq_of_lt (by omega)]
      omega

/-- Moving one more unit widens the window, if the unit reads nothing that has been written. -/
theorem move_window {lo' hi' : Nat} (hfit : o + u ≤ 2 ^ w)
    (hsep : ∀ k j, lo ≤ k → k < hi → o ≤ j → j < o + u →
      d + BitVec.ofNat w k ≠ s + BitVec.ofNat w j)
    (hext : ∀ k, lo' ≤ k ∧ k < hi' ↔ (lo ≤ k ∧ k < hi) ∨ (o ≤ k ∧ k < o + u)) :
    move (window m d s lo hi) (d + BitVec.ofNat w o) (s + BitVec.ofNat w o) u =
      window m d s lo' hi' := by
  funext x
  have hindex := index_add (x := x) (d := d) (show o ≤ 2 ^ w by omega)
  have hlt := (x - d).isLt
  have hsource : s + BitVec.ofNat w o + (x - (d + BitVec.ofNat w o)) = s + (x - d) := by
    rw [← BitVec.sub_sub, BitVec.add_assoc, BitVec.add_comm (BitVec.ofNat w o),
      BitVec.sub_add_cancel]
  rw [move, hindex, hsource]
  -- an element of the unit, or one that this move leaves alone
  by_cases hunit : o ≤ (x - d).toNat ∧ (x - d).toNat < o + u
  · rw [if_pos hunit.1, if_pos (by omega)]
    have hread : ¬ (lo ≤ (s + (x - d) - d).toNat ∧ (s + (x - d) - d).toNat < hi) := by
      rintro ⟨hlo, hhi⟩
      refine hsep _ _ hlo hhi hunit.1 hunit.2 ?_
      rw [add_index, BitVec.ofNat_toNat, BitVec.setWidth_eq]
    rw [window, if_neg hread, window, if_pos ((hext _).2 (.inr hunit))]
  · have hout : ¬ (if o ≤ (x - d).toNat then (x - d).toNat - o
        else (x - d).toNat + 2 ^ w - o) < u := by
      split <;> omega
    rw [if_neg hout, window, window]
    refine if_congr ?_ rfl rfl
    rw [hext, or_iff_left hunit]

/-- A loop upwards copies the block, if no element is written before it is read. -/
theorem up_eq_move (hfit : c * u ≤ 2 ^ w)
    (hsep : ∀ k j, k < j → j < c * u → d + BitVec.ofNat w k ≠ s + BitVec.ofNat w j) :
    up u c d s m = move m d s (c * u) := by
  -- with `c'` units to go, the first `o` elements have been copied
  have hloop : ∀ c' o, o + c' * u = c * u →
      up u c' (d + BitVec.ofNat w o) (s + BitVec.ofNat w o) (window m d s 0 o) =
        window m d s 0 (c * u) := by
    intro c'
    induction c' with
    | zero =>
        intro o ho
        rw [← ho, Nat.zero_mul, Nat.add_zero]
        rfl
    | succ c' ih =>
        intro o ho
        rw [Nat.succ_mul] at ho
        have hstep : move (window m d s 0 o) (d + BitVec.ofNat w o) (s + BitVec.ofNat w o) u =
            window m d s 0 (o + u) :=
          move_window (by omega) (fun k j _ hk hj hj' => hsep k j (by omega) (by omega))
            fun k => by omega
        rw [up, hstep, BitVec.add_assoc, BitVec.add_assoc, ← BitVec.ofNat_add]
        exact ih (o + u) (by omega)
  have hwhole := hloop c 0 (Nat.zero_add _)
  rw [window_empty, window_zero, BitVec.add_zero, BitVec.add_zero] at hwhole
  exact hwhole

/-- A loop downwards from the last unit copies the block, if no element is written before it is
read. -/
theorem down_eq_move (hfit : c * u ≤ 2 ^ w)
    (hsep : ∀ k j, j < k → k < c * u → d + BitVec.ofNat w k ≠ s + BitVec.ofNat w j) :
    down u c (d + BitVec.ofNat w (c * u) - BitVec.ofNat w u)
      (s + BitVec.ofNat w (c * u) - BitVec.ofNat w u) m = move m d s (c * u) := by
  -- with `c'` units to go, the elements behind them have been copied
  have hloop : ∀ c', c' * u ≤ c * u →
      down u c' (d + BitVec.ofNat w (c' * u) - BitVec.ofNat w u)
        (s + BitVec.ofNat w (c' * u) - BitVec.ofNat w u) (window m d s (c' * u) (c * u)) =
        window m d s 0 (c * u) := by
    intro c'
    induction c' with
    | zero =>
        intro _
        rw [Nat.zero_mul]
        rfl
    | succ c' ih =>
        intro hle
        rw [Nat.succ_mul] at hle ⊢
        have hlast : ∀ p : BitVec w, p + BitVec.ofNat w (c' * u + u) - BitVec.ofNat w u =
            p + BitVec.ofNat w (c' * u) := by
          intro p
          rw [BitVec.ofNat_add, ← BitVec.add_assoc, BitVec.add_sub_cancel]
        have hstep : move (window m d s (c' * u + u) (c * u)) (d + BitVec.ofNat w (c' * u))
            (s + BitVec.ofNat w (c' * u)) u = window m d s (c' * u) (c * u) :=
          move_window (by omega) (fun k j hk hk' _ hj => hsep k j (by omega) (by omega))
            fun k => by omega
        rw [hlast, hlast, down, hstep]
        exact ih (by omega)
  have hwhole := hloop c (Nat.le_refl _)
  rw [window_empty, window_zero] at hwhole
  exact hwhole

end Labs.Copy
