import Mathlib.Data.Nat.ModEq
import Mathlib.Tactic.Ring

/-!
# Sums with an end-around carry

Adding with an end-around carry computes a sum modulo `m`, where zero and `m` are told apart: the
result is zero only if nothing was added. `Alike` says that two numbers have the same such sum, and
`norm` is the sum itself. Texts are summed with two weights in turn, as when their bytes are taken
two at a time.
-/

namespace Labs.OnesSum

variable {m a b c d lo hi : Nat} {xs ys : List Nat}

/-- The same sum modulo `m`, zero told apart. -/
def Alike (m a b : Nat) : Prop := a ≡ b [MOD m] ∧ (a = 0 ↔ b = 0)

theorem Alike.refl (m a : Nat) : Alike m a a := ⟨rfl, Iff.rfl⟩

theorem Alike.symm (h : Alike m a b) : Alike m b a := ⟨h.1.symm, h.2.symm⟩

theorem Alike.trans (hab : Alike m a b) (hbc : Alike m b c) : Alike m a c :=
  ⟨hab.1.trans hbc.1, hab.2.trans hbc.2⟩

theorem Alike.add (hab : Alike m a b) (hcd : Alike m c d) : Alike m (a + c) (b + d) :=
  ⟨hab.1.add hcd.1, by have := hab.2; have := hcd.2; omega⟩

theorem Alike.mul_left (hab : Alike m a b) (c : Nat) : Alike m (c * a) (c * b) := by
  refine ⟨hab.1.mul_left c, ?_⟩
  rw [Nat.mul_eq_zero, Nat.mul_eq_zero, hab.2]

/-- The part above the carry is added back. -/
theorem alike_fold (m u : Nat) : Alike m u (u / (m + 1) + u % (m + 1)) := by
  have hdiv := Nat.div_add_mod u (m + 1)
  refine ⟨?_, ?_⟩
  · have hmod : m * (u / (m + 1)) + (u / (m + 1) + u % (m + 1)) ≡
        u / (m + 1) + u % (m + 1) [MOD m] := by
      unfold Nat.ModEq
      rw [Nat.mul_add_mod]
    have heq : m * (u / (m + 1)) + (u / (m + 1) + u % (m + 1)) = u := by
      rw [← Nat.add_assoc, ← Nat.succ_mul]
      exact hdiv
    rwa [heq] at hmod
  · constructor
    · intro hu
      rw [hu, Nat.zero_div, Nat.zero_mod]
    · intro hsum
      obtain ⟨hq, hr⟩ := Nat.add_eq_zero_iff.1 hsum
      rw [← hdiv, hq, hr, Nat.mul_zero]

/-- Numbers up to `m` are alike only if they are equal. -/
theorem eq_of_alike (ha : a ≤ m) (hb : b ≤ m) (h : Alike m a b) : a = b := by
  obtain ⟨hmod, hzero⟩ := h
  unfold Nat.ModEq at hmod
  have hself : ∀ n, n ≤ m → n % m = if n = m then 0 else n := by
    intro n hn
    split
    case isTrue heq => rw [heq, Nat.mod_self]
    case isFalse hne => exact Nat.mod_eq_of_lt (by omega)
  rw [hself a ha, hself b hb] at hmod
  split at hmod <;> split at hmod <;> omega

/-- The sum up to `m` that is alike. -/
def norm (m n : Nat) : Nat := if n = 0 then 0 else (n - 1) % m + 1

theorem norm_le (hm : 0 < m) (n : Nat) : norm m n ≤ m := by
  have := Nat.mod_lt (n - 1) hm
  unfold norm
  split <;> omega

theorem alike_norm (m n : Nat) : Alike m n (norm m n) := by
  unfold norm
  split
  case isTrue hzero =>
    rw [hzero]
    exact .refl m 0
  case isFalse hpos =>
    refine ⟨?_, by omega⟩
    have hmod : n - 1 + 1 ≡ (n - 1) % m + 1 [MOD m] := (Nat.mod_modEq (n - 1) m).symm.add_right 1
    rwa [Nat.sub_add_cancel (by omega)] at hmod

/-- A number up to `m` that is alike is the sum. -/
theorem eq_norm (hm : 0 < m) (ha : a ≤ m) (h : Alike m a b) : a = norm m b :=
  eq_of_alike ha (norm_le hm b) (h.trans (alike_norm m b))

/-- What is added to make the sum zero. -/
theorem norm_add_complement (hm : 0 < m) (n : Nat) : norm m (n + (m - norm m n)) = m := by
  have hle := norm_le hm n
  refine (eq_norm hm (Nat.le_refl m) ?_).symm
  have hadd := (alike_norm m n).add (.refl m (m - norm m n))
  rw [Nat.add_sub_cancel' hle] at hadd
  exact hadd.symm

theorem norm_eq_top (hm : 0 < m) (n : Nat) : norm m n = m ↔ n ≠ 0 ∧ m ∣ n := by
  obtain ⟨hmod, hzero⟩ := alike_norm m n
  rw [← Nat.modEq_zero_iff_dvd]
  constructor
  · intro htop
    rw [htop] at hmod hzero
    refine ⟨by omega, hmod.trans ?_⟩
    unfold Nat.ModEq
    rw [Nat.mod_self, Nat.zero_mod]
  · rintro ⟨hne, hdvd⟩
    refine (eq_norm hm (Nat.le_refl m) ⟨?_, by omega⟩).symm
    refine Nat.ModEq.trans ?_ hdvd.symm
    unfold Nat.ModEq
    rw [Nat.mod_self, Nat.zero_mod]

/-! ## Texts -/

/-- The sum of a text, with the weights `lo` and `hi` in turn. -/
def weigh (lo hi : Nat) : List Nat → Nat
  | [] => 0
  | x :: xs => lo * x + weigh hi lo xs

@[simp] theorem weigh_nil (lo hi : Nat) : weigh lo hi [] = 0 := rfl

theorem weigh_cons (lo hi x : Nat) (xs : List Nat) :
    weigh lo hi (x :: xs) = lo * x + weigh hi lo xs := rfl

theorem weigh_append (lo hi : Nat) (xs ys : List Nat) : weigh lo hi (xs ++ ys) =
    weigh lo hi xs + if xs.length % 2 = 0 then weigh lo hi ys else weigh hi lo ys := by
  induction xs generalizing lo hi with
  | nil => simp
  | cons x xs ih =>
      rw [List.cons_append, weigh_cons, weigh_cons, ih, Nat.add_assoc, List.length_cons]
      rcases Nat.mod_two_eq_zero_or_one xs.length with heven | hodd
      · have hnext : ¬ (xs.length + 1) % 2 = 0 := by omega
        rw [if_pos heven, if_neg hnext]
      · have hthis : ¬ xs.length % 2 = 0 := by omega
        have hnext : (xs.length + 1) % 2 = 0 := by omega
        rw [if_neg hthis, if_pos hnext]

theorem mul_weigh (k lo hi : Nat) (xs : List Nat) :
    k * weigh lo hi xs = weigh (k * lo) (k * hi) xs := by
  induction xs generalizing lo hi with
  | nil => rfl
  | cons x xs ih =>
      rw [weigh_cons, weigh_cons, Nat.mul_add, ih, Nat.mul_assoc]

/-- Weights may be replaced by others that are alike. -/
theorem alike_weigh (hab : Alike m a b) (hcd : Alike m c d) (xs : List Nat) :
    Alike m (weigh a c xs) (weigh b d xs) := by
  induction xs generalizing a b c d with
  | nil => exact .refl m 0
  | cons x xs ih =>
      refine Alike.add ⟨hab.1.mul_right x, ?_⟩ (ih hcd hab)
      rw [Nat.mul_eq_zero, Nat.mul_eq_zero, hab.2]

/-- When the product of the weights is one more than `m`, multiplying exchanges them. -/
theorem alike_swap (hm : hi * hi = m + 1) (xs : List Nat) :
    Alike m (hi * weigh 1 hi xs) (weigh hi 1 xs) := by
  rw [mul_weigh, Nat.mul_one, hm]
  refine alike_weigh (.refl m hi) ?_ xs
  refine ⟨?_, by omega⟩
  unfold Nat.ModEq
  rw [Nat.add_mod_left]

theorem alike_square (hm : hi * hi = m + 1) (n : Nat) : Alike m (hi * hi * n) n := by
  rw [hm]
  refine ⟨?_, ?_⟩
  · unfold Nat.ModEq
    rw [Nat.succ_mul, Nat.mul_add_mod]
  · rw [Nat.mul_eq_zero]
    omega

theorem alike_swap_back (hm : hi * hi = m + 1) (xs : List Nat) :
    Alike m (hi * weigh hi 1 xs) (weigh 1 hi xs) := by
  rw [mul_weigh, Nat.mul_one, hm]
  refine alike_weigh ?_ (.refl m hi) xs
  refine ⟨?_, by omega⟩
  unfold Nat.ModEq
  rw [Nat.add_mod_left]

/-- Only a text of zeros weighs nothing. -/
theorem weigh_eq_zero (hlo : 0 < lo) (hhi : 0 < hi) : weigh lo hi xs = 0 ↔ ∀ x ∈ xs, x = 0 := by
  induction xs generalizing lo hi with
  | nil => simp
  | cons x xs ih =>
      rw [weigh_cons, Nat.add_eq_zero_iff, Nat.mul_eq_zero, ih hhi hlo, List.forall_mem_cons]
      refine and_congr_left fun _ => ?_
      omega

end Labs.OnesSum
