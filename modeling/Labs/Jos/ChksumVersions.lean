import Labs.Jos.ChksumSpec

/-!
# The versions of the checksum agree

The second and the third version read the text as the processor does, from an address that may be
odd. They return what the first version returns.
-/

namespace Labs.Jos.Chksum

open OnesSum

/-! ## Reading words -/

theorem quad_eq (x y z w : Byte) : quad x y z w = pair z w ++ pair x y := by
  unfold quad pair
  rw [BitVec.append_assoc]
  rfl

theorem quad_to_nat (x y z w : Byte) :
    (quad x y z w).toNat = (pair x y).toNat + 65536 * (pair z w).toNat := by
  have hor := Nat.shiftLeft_add_eq_or_of_lt (i := 16) (pair x y).isLt (pair z w).toNat
  rw [Nat.shiftLeft_eq] at hor
  rw [quad_eq, BitVec.toNat_append, Nat.shiftLeft_eq, ← hor]
  omega

/-- Two pairs count as much as the four bytes together. -/
theorem alike_quad (x y z w : Byte) (rest : List Byte) :
    Alike 65535 ((quad x y z w).toNat + total rest) (total (x :: y :: z :: w :: rest)) := by
  have hword : Alike 65535 (65536 * (pair z w).toNat) (pair z w).toNat := by
    have hsquare := @alike_square 65535 256 (by omega) (pair z w).toNat
    rwa [show 256 * 256 = 65536 from rfl] at hsquare
  have heq : total (x :: y :: z :: w :: rest) =
      (pair x y).toNat + (pair z w).toNat + total rest := by
    rw [pair_to_nat, pair_to_nat, total, total, nats_cons, nats_cons, nats_cons, nats_cons,
      weigh_cons, weigh_cons, weigh_cons, weigh_cons]
    omega
  rw [heq, quad_to_nat]
  exact ((Alike.refl _ _).add hword).add (.refl _ _)

theorem alike_add_carry (sum x : Word) :
    Alike 65535 (addCarry sum x).toNat (sum.toNat + x.toNat) := by
  have hs := sum.isLt
  have hx := x.isLt
  have hsum : (sum + x).toNat = (sum.toNat + x.toNat) % 2 ^ 32 := BitVec.toNat_add sum x
  unfold addCarry
  split
  case isTrue hcarry =>
    rw [BitVec.lt_def] at hcarry
    have hval : (sum + x + 1).toNat + 65537 * 65535 = sum.toNat + x.toNat := by
      have hone : (1 : Word).toNat = 1 := rfl
      rw [BitVec.toNat_add, hone]
      omega
    refine ⟨?_, by omega⟩
    rw [← hval]
    unfold Nat.ModEq
    rw [Nat.add_mul_mod_self_right]
  case isFalse hnot =>
    rw [BitVec.lt_def] at hnot
    have hval : (sum + x).toNat = sum.toNat + x.toNat := by omega
    rw [hval]
    exact .refl _ _

/-! ## The parts -/

theorem first_byte_spec (odd : Bool) (data : List Byte) :
    (firstByte odd data).1.toNat % 256 = 0 ∧
      (firstByte odd data).1.toNat + total (firstByte odd data).2 =
        (if odd then weigh 256 1 (nats data) else total data) ∧
      (firstByte odd data).2.length ≤ data.length := by
  cases data with
  | nil => cases odd <;> exact ⟨rfl, rfl, Nat.le_refl _⟩
  | cons x rest =>
      have hx := x.isLt
      cases odd with
      | false => exact ⟨rfl, Nat.zero_add _, Nat.le_refl _⟩
      | true =>
          have hval : (x.setWidth 16 <<< 8 : Half).toNat = 256 * x.toNat := by
            rw [BitVec.toNat_shiftLeft, BitVec.toNat_setWidth, Nat.shiftLeft_eq]
            omega
          refine ⟨?_, ?_, Nat.le_succ _⟩
          · change (x.setWidth 16 <<< 8 : Half).toNat % 256 = 0
            rw [hval]
            omega
          · change (x.setWidth 16 <<< 8 : Half).toNat + total rest = weigh 256 1 (nats (x :: rest))
            rw [hval]
            rfl

theorem last_byte_spec {t : Half} {rest : List Byte} (ht : t.toNat % 256 = 0)
    (hrest : rest.length ≤ 1) : (lastByte t rest).toNat = t.toNat + total rest := by
  match rest with
  | [] => exact (Nat.add_zero _).symm
  | [x] =>
      have hx := x.isLt
      have hlt := t.isLt
      have hup : (t >>> 8).toNat = t.toNat / 256 := by
        rw [BitVec.toNat_ushiftRight, Nat.shiftRight_eq_div_pow]
      have hxw : (x.setWidth 16).toNat = x.toNat := by
        rw [BitVec.toNat_setWidth]
        omega
      have htotal : total [x] = x.toNat := by
        rw [total, nats_cons, nats_nil, weigh_cons, weigh_nil]
        omega
      change ((t &&& 0xFF00) ||| x.setWidth 16).toNat = _
      rw [and_upper (k := 8) t _ (by decide), or_shift_to_nat _ _ (by omega) (by omega), hup, hxw,
        htotal]
      omega
  | x :: y :: rest => simp at hrest

theorem pair_loop_spec (data : List Byte) (sum : Word)
    (hroom : sum.toNat + data.length / 2 * 65535 < 4294967296) :
    (pairLoop data sum).1.length ≤ 1 ∧
      (pairLoop data sum).2.toNat + total (pairLoop data sum).1 = sum.toNat + total data ∧
      (pairLoop data sum).2.toNat ≤ sum.toNat + data.length / 2 * 65535 ∧
      data.length % 2 = (pairLoop data sum).1.length := by
  fun_induction pairLoop data sum with
  | case1 x y rest sum ih =>
      have hx := x.isLt
      have hy := y.isLt
      have hlen : (x :: y :: rest).length = rest.length + 2 := by
        rw [List.length_cons, List.length_cons]
      rw [hlen] at hroom ⊢
      have hnext : (sum + (pair x y).setWidth 32).toNat =
          sum.toNat + (x.toNat + 256 * y.toNat) := by
        rw [BitVec.toNat_add, BitVec.toNat_setWidth, pair_to_nat]
        omega
      rw [hnext] at ih
      obtain ⟨hone, hsum, hle, hpar⟩ := ih (by omega)
      refine ⟨hone, ?_, by omega, by omega⟩
      rw [hsum, total, total, nats_cons, nats_cons, weigh_cons, weigh_cons]
      omega
  | case2 rest sum hnot =>
      clear hroom
      match rest with
      | [] => exact ⟨Nat.zero_le 1, rfl, Nat.le_add_right _ _, rfl⟩
      | [x] => exact ⟨Nat.le_refl 1, rfl, Nat.le_add_right _ _, rfl⟩
      | x :: y :: rest => exact absurd rfl (hnot x y rest)

theorem quad_loop_spec (data : List Byte) (sum : Word) :
    (quadLoop data sum).1.length ≤ 7 ∧
      Alike 65535 ((quadLoop data sum).2.toNat + total (quadLoop data sum).1)
        (sum.toNat + total data) := by
  fun_induction quadLoop data sum with
  | case1 x₀ x₁ x₂ x₃ y₀ y₁ y₂ y₃ rest sum ih =>
      obtain ⟨hlen, hsum⟩ := ih
      refine ⟨hlen, hsum.trans ?_⟩
      have hping := alike_add_carry sum (quad x₀ x₁ x₂ x₃)
      have hpong := alike_add_carry (addCarry sum (quad x₀ x₁ x₂ x₃)) (quad y₀ y₁ y₂ y₃)
      have hboth := (hpong.trans (hping.add (.refl _ _))).add (.refl 65535 (total rest))
      refine hboth.trans ?_
      rw [Nat.add_assoc, Nat.add_assoc]
      refine (Alike.refl _ _).add ?_
      refine ((Alike.refl _ _).add (alike_quad y₀ y₁ y₂ y₃ rest)).trans ?_
      exact alike_quad x₀ x₁ x₂ x₃ (y₀ :: y₁ :: y₂ :: y₃ :: rest)
  | case2 rest sum hnot =>
      refine ⟨?_, .refl _ _⟩
      match rest with
      | [] | [_] | [_, _] | [_, _, _] | [_, _, _, _] | [_, _, _, _, _] | [_, _, _, _, _, _]
      | [_, _, _, _, _, _, _] => simp
      | x₀ :: x₁ :: x₂ :: x₃ :: y₀ :: y₁ :: y₂ :: y₃ :: rest =>
          exact absurd rfl (hnot x₀ x₁ x₂ x₃ y₀ y₁ y₂ y₃ rest)

theorem first_pair_spec (ps : Word) (data : List Byte) :
    (firstPair ps data).2.toNat + total (firstPair ps data).1 = total data := by
  match data with
  | [] | [_] => exact Nat.zero_add _
  | x :: y :: rest =>
      by_cases hps : ps &&& 3 ≠ 0
      · have hpair := (pair x y).isLt
        rw [firstPair, if_pos hps, BitVec.toNat_setWidth, Nat.mod_eq_of_lt (by omega),
          pair_to_nat, total, total, nats_cons, nats_cons, weigh_cons, weigh_cons]
        dsimp only
        omega
      · rw [firstPair, if_neg hps]
        exact Nat.zero_add _

/-- What the end returns: the bytes are exchanged once more when the text is at an odd address. -/
theorem finish_spec (odd : Bool) {t : Half} {sum : Word} {data : List Byte}
    (hroom : sum.toNat + t.toNat < 4294967296)
    (hsum : Alike 65535 (sum.toNat + t.toNat)
      (if odd then weigh 256 1 (nats data) else total data)) :
    (finish odd t sum).toNat = norm 65535 (total data) := by
  have hadd : (sum + t.setWidth 32).toNat = sum.toNat + t.toNat := by
    have := t.isLt
    rw [BitVec.toNat_add, BitVec.toNat_setWidth]
    omega
  have hfold := fold_fold_to_nat (sum + t.setWidth 32)
  have hle := norm_le (m := 65535) (by omega) (sum.toNat + t.toNat)
  rw [hadd] at hfold
  have hsmall : (fold (fold (sum + t.setWidth 32))).toNat ≤ 65535 := by omega
  have halike := (alike_norm 65535 (sum.toNat + t.toNat)).symm.trans hsum
  rw [← hfold] at halike
  unfold finish
  dsimp only
  rw [BitVec.toNat_setWidth]
  cases odd with
  | false =>
      rw [if_neg (by decide), Nat.mod_eq_of_lt (by omega)]
      exact eq_norm (by omega) hsmall halike
  | true =>
      have hswap := swap_bytes_le hsmall
      rw [if_pos rfl, Nat.mod_eq_of_lt (by omega)]
      refine eq_norm (by omega) hswap ?_
      refine (alike_swap_bytes hsmall).symm.trans ((halike.mul_left 256).trans ?_)
      exact alike_swap_back (by omega) (nats data)

/-! ## The versions -/

/-- The second version works for a text of up to 0x20000 bytes. -/
theorem standard_chksum2_eq (dataptr : Word) {data : List Byte} (hlen : data.length ≤ 131072) :
    (lwipStandardChksum2 dataptr data).toNat = norm 65535 (total data) := by
  obtain ⟨odd, hodd⟩ : ∃ odd : Bool, odd = decide (dataptr &&& 1 ≠ 0) := ⟨_, rfl⟩
  obtain ⟨hlow, hfirst, hle⟩ := first_byte_spec odd data
  obtain ⟨hone, hsum, hroom, hpar⟩ := pair_loop_spec (firstByte odd data).2 0 (by
    have hzero : (0 : Word).toNat = 0 := rfl
    omega)
  have hlast := last_byte_spec hlow hone
  have hzero : (0 : Word).toNat = 0 := rfl
  have hcode : lwipStandardChksum2 dataptr data =
      finish odd (lastByte (firstByte odd data).1 (pairLoop (firstByte odd data).2 0).1)
        (pairLoop (firstByte odd data).2 0).2 := by
    rw [hodd]
    rfl
  have hall : (pairLoop (firstByte odd data).2 0).2.toNat +
      (lastByte (firstByte odd data).1 (pairLoop (firstByte odd data).2 0).1).toNat =
      if odd then weigh 256 1 (nats data) else total data := by
    omega
  rw [hcode]
  refine finish_spec odd ?_ ?_
  · have hlt := (lastByte (firstByte odd data).1 (pairLoop (firstByte odd data).2 0).1).isLt
    omega
  · rw [hall]
    exact .refl _ _

/-- The third version works for a text of any length. -/
theorem standard_chksum3_eq (dataptr : Word) (data : List Byte) :
    (lwipStandardChksum3 dataptr data).toNat = norm 65535 (total data) := by
  obtain ⟨odd, hodd⟩ : ∃ odd : Bool, odd = decide (dataptr &&& 1 ≠ 0) := ⟨_, rfl⟩
  obtain ⟨hlow, hfirst, -⟩ := first_byte_spec odd data
  obtain ⟨a, ha⟩ : ∃ a : Word, a = if odd ∧ data ≠ [] then dataptr + 1 else dataptr := ⟨_, rfl⟩
  have hpair := first_pair_spec a (firstByte odd data).2
  obtain ⟨h₁, hpl⟩ : ∃ r, r = firstPair a (firstByte odd data).2 := ⟨_, rfl⟩
  rw [← hpl] at hpair
  obtain ⟨hseven, hquad⟩ := quad_loop_spec h₁.1 h₁.2
  obtain ⟨r, hr⟩ : ∃ r, r = quadLoop h₁.1 h₁.2 := ⟨_, rfl⟩
  rw [← hr] at hseven hquad
  have hfold : (fold r.2).toNat ≤ 131070 := by
    have := r.2.isLt
    rw [fold_to_nat]
    omega
  obtain ⟨hone, hsum, hroom, -⟩ := pair_loop_spec r.1 (fold r.2) (by omega)
  have hlast := last_byte_spec hlow hone
  have hcode : lwipStandardChksum3 dataptr data =
      finish odd (lastByte (firstByte odd data).1 (pairLoop r.1 (fold r.2)).1)
        (pairLoop r.1 (fold r.2)).2 := by
    rw [hr, hpl, ha, hodd]
    simp only [decide_eq_true_eq]
    rfl
  rw [hcode]
  refine finish_spec odd ?_ ?_
  · have hlt := (lastByte (firstByte odd data).1 (pairLoop r.1 (fold r.2)).1).isLt
    omega
  · have hval : (pairLoop r.1 (fold r.2)).2.toNat +
        (lastByte (firstByte odd data).1 (pairLoop r.1 (fold r.2)).1).toNat =
        (firstByte odd data).1.toNat + ((fold r.2).toNat + total r.1) := by
      omega
    rw [hval, ← hfirst]
    refine (Alike.refl _ _).add ?_
    refine ((alike_fold_word r.2).symm.add (.refl _ _)).trans ?_
    rwa [hpair] at hquad

/-- At any address the second version returns what the third returns, for a text as long as its
comment allows, and what the first returns, for a text as long as the first can be given. -/
theorem chksum_versions_agree (dataptr : Word) (data : List Byte) (hlen : data.length ≤ 0x20000) :
    lwipStandardChksum2 dataptr data = lwipStandardChksum3 dataptr data ∧
      (data.length < 0x10000 → lwipStandardChksum2 dataptr data = lwipStandardChksum data) := by
  have htwo := standard_chksum2_eq dataptr hlen
  refine ⟨BitVec.eq_of_toNat_eq ?_, fun hshort => BitVec.eq_of_toNat_eq ?_⟩
  · rw [htwo, standard_chksum3_eq]
  · rw [htwo, standard_chksum_eq hshort]

theorem chksum_versions_agree_odd :
    lwipStandardChksum2 0x1001 [0x45, 0x00, 0x1c] = lwipStandardChksum3 0x1001 [0x45, 0x00, 0x1c] ∧
      ([0x45, 0x00, 0x1c].length < 0x10000 →
        lwipStandardChksum2 0x1001 [0x45, 0x00, 0x1c] = lwipStandardChksum [0x45, 0x00, 0x1c]) :=
  chksum_versions_agree 0x1001 [0x45, 0x00, 0x1c] (by simp)

end Labs.Jos.Chksum
