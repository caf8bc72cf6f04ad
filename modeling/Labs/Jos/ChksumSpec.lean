import Labs.Jos.Chksum

/-!
# What the checksums are

Each version of `lwip_standard_chksum` returns the sum of its text with an end-around carry, and
the sum of a chain is that of the text that its buffers hold together.
-/

namespace Labs.Jos.Chksum

open OnesSum

/-- The bytes as numbers. -/
def nats (data : List Byte) : List Nat := data.map BitVec.toNat

@[simp] theorem nats_nil : nats [] = [] := rfl

@[simp] theorem nats_cons (x : Byte) (data : List Byte) :
    nats (x :: data) = x.toNat :: nats data := rfl

@[simp] theorem nats_append (data rest : List Byte) :
    nats (data ++ rest) = nats data ++ nats rest :=
  List.map_append

@[simp] theorem nats_length (data : List Byte) : (nats data).length = data.length :=
  List.length_map _

/-- The sum of a text, lower byte first. -/
def total (data : List Byte) : Nat := weigh 1 256 (nats data)

/-! ## Words -/

theorem fold_to_nat (u : Word) : (fold u).toNat = u.toNat / 65536 + u.toNat % 65536 := by
  have hlow : (u &&& 0x0000FFFF).toNat = u.toNat % 65536 := by
    rw [BitVec.toNat_and, show (0x0000FFFF : Word).toNat = 2 ^ 16 - 1 from rfl,
      Nat.and_two_pow_sub_one_eq_mod]
  have hlt := u.isLt
  rw [fold, BitVec.toNat_add, hlow, BitVec.toNat_ushiftRight, Nat.shiftRight_eq_div_pow]
  omega

theorem alike_fold_word (u : Word) : Alike 65535 u.toNat (fold u).toNat := by
  rw [fold_to_nat]
  exact alike_fold 65535 u.toNat

theorem fold_le {u : Word} (hu : u.toNat ≤ 131070) : (fold u).toNat ≤ 65535 := by
  rw [fold_to_nat]
  omega

/-- Folding twice is enough. -/
theorem fold_fold_to_nat (u : Word) : (fold (fold u)).toNat = norm 65535 u.toNat := by
  have hfirst : (fold u).toNat ≤ 131070 := by
    have := u.isLt
    rw [fold_to_nat]
    omega
  refine eq_norm (by omega) (fold_le hfirst) ?_
  exact ((alike_fold_word u).trans (alike_fold_word (fold u))).symm

/-- Two halves side by side. -/
theorem or_shift_to_nat {w : Nat} (a b : BitVec w) (ha : a.toNat * 256 < 2 ^ w)
    (hb : b.toNat < 256) : ((a <<< 8) ||| b).toNat = a.toNat * 256 + b.toNat := by
  have hor := Nat.shiftLeft_add_eq_or_of_lt (i := 8) hb a.toNat
  rw [BitVec.toNat_or, BitVec.toNat_shiftLeft, Nat.shiftLeft_eq, Nat.mod_eq_of_lt (by omega)]
  rw [Nat.shiftLeft_eq] at hor
  omega

theorem pair_to_nat (x y : Byte) : (pair x y).toNat = x.toNat + 256 * y.toNat := by
  have hor := Nat.shiftLeft_add_eq_or_of_lt (i := 8) x.isLt y.toNat
  rw [Nat.shiftLeft_eq] at hor
  rw [pair, BitVec.toNat_append, Nat.shiftLeft_eq, ← hor]
  omega

theorem swap_bytes_to_nat {w : Word} (hw : w.toNat ≤ 65535) :
    (swapBytes w).toNat = w.toNat % 256 * 256 + w.toNat / 256 := by
  have hlow : (w &&& 0xFF).toNat = w.toNat % 256 := by
    rw [BitVec.toNat_and, show (0xFF : Word).toNat = 2 ^ 8 - 1 from rfl,
      Nat.and_two_pow_sub_one_eq_mod]
  have hhigh : ((w &&& 0xFF00) >>> 8).toNat = w.toNat / 256 := by
    rw [BitVec.ushiftRight_and_distrib, BitVec.toNat_and,
      show ((0xFF00 : Word) >>> 8).toNat = 2 ^ 8 - 1 from rfl, Nat.and_two_pow_sub_one_eq_mod,
      BitVec.toNat_ushiftRight, Nat.shiftRight_eq_div_pow]
    omega
  rw [swapBytes, or_shift_to_nat _ _ (by omega) (by omega), hlow, hhigh]

theorem htons_to_nat (n : Half) : (htons n).toNat = n.toNat % 256 * 256 + n.toNat / 256 := by
  have hlow : (n &&& 0xFF).toNat = n.toNat % 256 := by
    rw [BitVec.toNat_and, show (0xFF : Half).toNat = 2 ^ 8 - 1 from rfl,
      Nat.and_two_pow_sub_one_eq_mod]
  have hhigh : ((n &&& 0xFF00) >>> 8).toNat = n.toNat / 256 := by
    have := n.isLt
    rw [BitVec.ushiftRight_and_distrib, BitVec.toNat_and,
      show ((0xFF00 : Half) >>> 8).toNat = 2 ^ 8 - 1 from rfl, Nat.and_two_pow_sub_one_eq_mod,
      BitVec.toNat_ushiftRight, Nat.shiftRight_eq_div_pow]
    omega
  have := n.isLt
  rw [htons, or_shift_to_nat _ _ (by omega) (by omega), hlow, hhigh]

/-- Exchanging the bytes multiplies by 256. -/
theorem alike_swap_nat (n : Nat) :
    Alike 65535 (256 * n) (n % 256 * 256 + n / 256) := by
  have hfold := alike_fold 65535 (256 * n)
  have heq : 256 * n / 65536 + 256 * n % 65536 = n % 256 * 256 + n / 256 := by omega
  rwa [heq] at hfold

theorem alike_swap_bytes {w : Word} (hw : w.toNat ≤ 65535) :
    Alike 65535 (256 * w.toNat) (swapBytes w).toNat := by
  rw [swap_bytes_to_nat hw]
  exact alike_swap_nat w.toNat

theorem swap_bytes_le {w : Word} (hw : w.toNat ≤ 65535) : (swapBytes w).toNat ≤ 65535 := by
  rw [swap_bytes_to_nat hw]
  omega

/-- A mask of the upper bits clears the lower ones. -/
theorem and_upper {w k : Nat} (x m : BitVec w) (hm : ∀ i : Fin w, m[i] = decide (k ≤ i.val)) :
    x &&& m = (x >>> k) <<< k := by
  ext i hi
  have hbit : m[i] = decide (k ≤ i) := hm ⟨i, hi⟩
  rw [BitVec.getElem_and, BitVec.getElem_shiftLeft, hbit]
  by_cases hlow : i < k
  · simp [hlow]
  · have hback : k + (i - k) = i := by omega
    simp [hlow, Nat.le_of_not_lt hlow, hback, hi]

theorem high_half_to_nat (u : Word) : (u &&& 0xFFFF0000).toNat = u.toNat / 65536 * 65536 := by
  have hlt := u.isLt
  rw [and_upper (k := 16) u _ (by decide), BitVec.toNat_shiftLeft, BitVec.toNat_ushiftRight,
    Nat.shiftRight_eq_div_pow, Nat.shiftLeft_eq]
  omega

/-! ## The first version -/

theorem byte_pair_to_nat (x y : Byte) :
    ((x.setWidth 16 <<< 8) ||| y.setWidth 16 : Half).toNat = 256 * x.toNat + y.toNat := by
  have hx := x.isLt
  have hy := y.isLt
  have hxw : (x.setWidth 16).toNat = x.toNat := by
    rw [BitVec.toNat_setWidth]
    omega
  have hyw : (y.setWidth 16).toNat = y.toNat := by
    rw [BitVec.toNat_setWidth]
    omega
  rw [or_shift_to_nat _ _ (by omega) (by omega), hxw, hyw, Nat.mul_comm]

theorem standard_loop_spec (data : List Byte) (acc : Word)
    (hroom : acc.toNat + data.length / 2 * 65535 < 4294967296) :
    (standardLoop data acc).1.length ≤ 1 ∧
      (standardLoop data acc).2.toNat + weigh 256 1 (nats (standardLoop data acc).1) =
        acc.toNat + weigh 256 1 (nats data) ∧
      (standardLoop data acc).2.toNat ≤ acc.toNat + data.length / 2 * 65535 := by
  fun_induction standardLoop data acc with
  | case1 x y rest acc ih =>
      have hx := x.isLt
      have hy := y.isLt
      have hhalf : (x :: y :: rest).length / 2 = rest.length / 2 + 1 := by
        rw [List.length_cons, List.length_cons]
        omega
      rw [hhalf] at hroom ⊢
      have hnext : (acc + ((x.setWidth 16 <<< 8) ||| y.setWidth 16 : Half).setWidth 32).toNat =
          acc.toNat + (256 * x.toNat + y.toNat) := by
        rw [BitVec.toNat_add, BitVec.toNat_setWidth, byte_pair_to_nat]
        omega
      rw [hnext] at ih
      obtain ⟨hlen, hsum, hle⟩ := ih (by omega)
      refine ⟨hlen, ?_, by omega⟩
      rw [hsum, nats_cons, nats_cons, weigh_cons, weigh_cons]
      omega
  | case2 rest acc hnot =>
      refine ⟨?_, rfl, Nat.le_add_right _ _⟩
      clear hroom
      match rest with
      | [] => exact Nat.zero_le 1
      | [x] => exact Nat.le_refl 1
      | x :: y :: rest => exact absurd rfl (hnot x y rest)

theorem last_byte_to_nat (x : Byte) :
    ((x.setWidth 16 <<< 8 : Half).setWidth 32 : Word).toNat = 256 * x.toNat := by
  have hx := x.isLt
  rw [BitVec.toNat_setWidth, BitVec.toNat_shiftLeft, BitVec.toNat_setWidth, Nat.shiftLeft_eq]
  omega

theorem add_rest_to_nat {acc : Word} {rest : List Byte} (hrest : rest.length ≤ 1)
    (hroom : acc.toNat + 65535 < 4294967296) :
    (addRest acc rest).toNat = acc.toNat + weigh 256 1 (nats rest) := by
  match rest with
  | [] => rfl
  | [x] =>
      have hx := x.isLt
      rw [addRest, BitVec.toNat_add, last_byte_to_nat, nats_cons, nats_nil, weigh_cons, weigh_nil]
      omega
  | x :: y :: rest => simp at hrest

/-- The first version computes the sum of the text, lower byte first. -/
theorem standard_chksum_eq {data : List Byte} (hlen : data.length < 65536) :
    (lwipStandardChksum data).toNat = norm 65535 (total data) := by
  obtain ⟨hrest, hsum, hle⟩ := standard_loop_spec data 0 (by simp; omega)
  obtain ⟨acc, hacc⟩ : ∃ acc, acc = addRest (standardLoop data 0).2 (standardLoop data 0).1 :=
    ⟨_, rfl⟩
  have htotal : acc.toNat = weigh 256 1 (nats data) := by
    have hzero : (0 : Word).toNat = 0 := rfl
    rw [hzero] at hsum hle
    rw [hacc, add_rest_to_nat hrest (by omega), hsum, Nat.zero_add]
  -- the carry
  have hfold : ((if fold acc &&& 0xFFFF0000 ≠ 0 then fold (fold acc) else fold acc) : Word).toNat =
      norm 65535 acc.toNat := by
    have hmask : fold acc &&& 0xFFFF0000 ≠ 0 ↔ 65536 ≤ (fold acc).toNat := by
      rw [Ne, ← BitVec.toNat_inj, high_half_to_nat]
      have hzero : (0 : Word).toNat = 0 := rfl
      omega
    by_cases hbig : 65536 ≤ (fold acc).toNat
    · rw [if_pos (hmask.2 hbig)]
      exact fold_fold_to_nat acc
    · rw [if_neg fun hne => hbig (hmask.1 hne)]
      exact eq_norm (by omega) (by omega) (alike_fold_word acc).symm
  have hcode : lwipStandardChksum data =
      htons ((if fold acc &&& 0xFFFF0000 ≠ 0 then fold (fold acc) else fold acc).setWidth 16) := by
    rw [hacc]
    rfl
  have hnorm := norm_le (m := 65535) (by omega) acc.toNat
  have hlow : norm 65535 acc.toNat % 2 ^ 16 = norm 65535 acc.toNat := by
    generalize norm 65535 acc.toNat = n at hnorm
    omega
  rw [hcode, htons_to_nat, BitVec.toNat_setWidth, hfold, hlow]
  refine eq_norm (by omega) ?_ ?_
  · generalize norm 65535 acc.toNat = n at hnorm
    omega
  · refine (alike_swap_nat _).symm.trans ?_
    refine ((alike_norm 65535 acc.toNat).symm.mul_left 256).trans ?_
    rw [htotal]
    exact alike_swap_back (by decide) (nats data)

/-! ## Chains -/

theorem total_append_even {data : List Byte} (heven : data.length % 2 = 0) (rest : List Byte) :
    total (data ++ rest) = total data + total rest := by
  unfold total
  rw [nats_append, weigh_append, nats_length, if_pos heven]

/-- The sum of what has been read of a chain: after an odd number of bytes they are exchanged. -/
def partialSum (data : List Byte) : Nat :=
  if data.length % 2 = 0 then weigh 1 256 (nats data) else weigh 256 1 (nats data)

/-- What one buffer adds to the sum, before the bytes are exchanged. -/
theorem partial_sum_append (data q : List Byte) :
    Alike 65535 (partialSum data + total q)
      (if q.length % 2 = 0 then partialSum (data ++ q) else 256 * partialSum (data ++ q)) := by
  unfold partialSum total
  rw [List.length_append, nats_append, weigh_append, weigh_append, nats_length]
  rcases Nat.mod_two_eq_zero_or_one data.length with hd | hd <;>
    rcases Nat.mod_two_eq_zero_or_one q.length with hq | hq
  · rw [if_pos hd, if_pos hq, if_pos (by omega), if_pos hd]
    exact .refl _ _
  · rw [if_pos hd, if_neg (by omega), if_neg (by omega), if_pos hd, Nat.mul_add]
    exact (alike_swap_back (by decide) (nats data)).symm.add
      (alike_swap_back (by decide) (nats q)).symm
  · rw [if_neg (by omega), if_pos hq, if_neg (by omega), if_neg (by omega)]
    exact .refl _ _
  · rw [if_neg (by omega), if_neg (by omega), if_pos (by omega), if_neg (by omega), Nat.mul_add]
    exact (alike_swap (by decide) (nats data)).symm.add
      (alike_swap_back (by decide) (nats q)).symm

/-- The state of the loop over a chain when `data` has been read. -/
structure Chained (data : List Byte) (acc : Word) (swapped : Bool) : Prop where
  le : acc.toNat ≤ 65535
  alike : Alike 65535 acc.toNat (partialSum data)
  swapped : swapped = decide (data.length % 2 = 1)

theorem Chained.step {data q : List Byte} {acc : Word} {swapped : Bool}
    (hc : Chained data acc swapped) (hq : q.length < 65536) :
    let acc' := fold (acc + (lwipStandardChksum q).setWidth 32)
    if q.length % 2 ≠ 0 then Chained (data ++ q) (swapBytes acc') (!swapped)
    else Chained (data ++ q) acc' swapped := by
  have hsum := standard_chksum_eq hq
  have hle := norm_le (m := 65535) (by omega) (total q)
  have hadd : (acc + (lwipStandardChksum q).setWidth 32).toNat =
      acc.toNat + norm 65535 (total q) := by
    have := hc.le
    rw [BitVec.toNat_add, BitVec.toNat_setWidth, hsum]
    omega
  have hfold := fold_le (u := acc + (lwipStandardChksum q).setWidth 32)
    (by have := hc.le; omega)
  have halike : Alike 65535 (fold (acc + (lwipStandardChksum q).setWidth 32)).toNat
      (partialSum data + total q) := by
    refine (alike_fold_word _).symm.trans ?_
    rw [hadd]
    exact hc.alike.add (alike_norm 65535 (total q)).symm
  have hnext := halike.trans (partial_sum_append data q)
  have hlen : (data ++ q).length = data.length + q.length := List.length_append
  dsimp only
  split
  case isTrue hodd =>
    rw [if_neg hodd] at hnext
    refine ⟨swap_bytes_le hfold, ?_, ?_⟩
    · refine (alike_swap_bytes hfold).symm.trans ((hnext.mul_left 256).trans ?_)
      rw [← Nat.mul_assoc]
      exact alike_square (by decide) _
    · rw [hc.swapped, hlen, ← decide_not]
      exact decide_eq_decide.2 (by omega)
  case isFalse heven =>
    rw [if_pos (by omega)] at hnext
    refine ⟨hfold, hnext, ?_⟩
    rw [hc.swapped, hlen]
    exact decide_eq_decide.2 (by omega)

theorem chain_loop_spec (p : List (List Byte)) {data : List Byte} {acc : Word} {swapped : Bool}
    (hc : Chained data acc swapped) (hp : ∀ q ∈ p, q.length < 65536) :
    Chained (data ++ p.flatten) (chainLoop p acc swapped).1 (chainLoop p acc swapped).2 := by
  induction p generalizing data acc swapped with
  | nil =>
      rw [List.flatten_nil, List.append_nil]
      exact hc
  | cons q p ih =>
      obtain ⟨hq, hp⟩ := List.forall_mem_cons.1 hp
      have hstep := hc.step hq
      dsimp only at hstep
      rw [List.flatten_cons, ← List.append_assoc, chainLoop]
      by_cases hodd : q.length % 2 ≠ 0
      · rw [if_pos hodd] at hstep ⊢
        exact ih hstep hp
      · rw [if_neg hodd] at hstep ⊢
        exact ih hstep hp

/-- The sum of a chain is that of the text that it holds. -/
theorem chain_sum_eq {p : List (List Byte)} (hp : ∀ q ∈ p, q.length < 65536) :
    (chainSum p).toNat = norm 65535 (total p.flatten) := by
  have hstart : Chained [] 0 false := ⟨by decide, .refl _ _, rfl⟩
  have hend := chain_loop_spec p hstart hp
  rw [List.nil_append] at hend
  have hswapped := hend.swapped
  have halike := hend.alike
  unfold partialSum at halike
  unfold chainSum
  dsimp only
  rcases Nat.mod_two_eq_zero_or_one p.flatten.length with heven | hodd
  · have hfalse : (chainLoop p 0 false).2 = false := by
      rw [hswapped, decide_eq_false_iff_not]
      omega
    rw [hfalse, if_neg (by decide)]
    rw [if_pos heven] at halike
    exact eq_norm (by omega) hend.le halike
  · have htrue : (chainLoop p 0 false).2 = true := by
      rw [hswapped, decide_eq_true_eq]
      exact hodd
    rw [htrue, if_pos rfl]
    rw [if_neg (by omega)] at halike
    refine eq_norm (by omega) (swap_bytes_le hend.le) ?_
    refine (alike_swap_bytes hend.le).symm.trans ((halike.mul_left 256).trans ?_)
    exact alike_swap_back (by decide) (nats p.flatten)

theorem not_to_nat (n : Half) : (~~~n).toNat = 65535 - n.toNat := by
  rw [BitVec.toNat_not]

theorem inet_chksum_eq {data : List Byte} (hlen : data.length < 65536) :
    (inetChksum data).toNat = 65535 - norm 65535 (total data) := by
  rw [inetChksum, not_to_nat, standard_chksum_eq hlen]

theorem inet_chksum_pbuf_eq {p : List (List Byte)} (hp : ∀ q ∈ p, q.length < 65536) :
    (inetChksumPbuf p).toNat = 65535 - norm 65535 (total p.flatten) := by
  have hle := norm_le (m := 65535) (by omega) (total p.flatten)
  rw [inetChksumPbuf, not_to_nat, BitVec.toNat_setWidth, chain_sum_eq hp]
  omega

/-- The checksum of a chain is that of the text that it holds, however the text is cut into
buffers. -/
theorem inet_chksum_pbuf_flatten (p : List (List Byte)) (hlen : p.flatten.length < 65536) :
    inetChksumPbuf p = inetChksum p.flatten := by
  have hp : ∀ q ∈ p, q.length < 65536 := by
    intro q hq
    have hle := (List.sublist_flatten_of_mem hq).length_le
    omega
  refine BitVec.eq_of_toNat_eq ?_
  rw [inet_chksum_pbuf_eq hp, inet_chksum_eq hlen]

theorem inet_chksum_pbuf_flatten_odd :
    inetChksumPbuf [[0x45], [0x00, 0x1c, 0xa6], [0xf2]] =
      inetChksum [0x45, 0x00, 0x1c, 0xa6, 0xf2] :=
  inet_chksum_pbuf_flatten [[0x45], [0x00, 0x1c, 0xa6], [0xf2]] (by simp)

/-! ## The pseudo header -/

/-- The sum of the pseudo header. -/
def pseudoSum (src dest : Word) (proto : Byte) (protoLen : Half) : Nat :=
  src.toNat % 65536 + src.toNat / 65536 + (dest.toNat % 65536 + dest.toNat / 65536) +
    (proto.toNat * 256 + (htons protoLen).toNat)

theorem inet_chksum_pseudo_eq {p : List (List Byte)} (hp : ∀ q ∈ p, q.length < 65536)
    (src dest : Word) (proto : Byte) (protoLen : Half) :
    (inetChksumPseudo p src dest proto protoLen).toNat =
      65535 - norm 65535 (total p.flatten + pseudoSum src dest proto protoLen) := by
  have hlow : ∀ w : Word, (w &&& 0xFFFF).toNat = w.toNat % 65536 := by
    intro w
    rw [BitVec.toNat_and, show (0xFFFF : Word).toNat = 2 ^ 16 - 1 from rfl,
      Nat.and_two_pow_sub_one_eq_mod]
  have hhigh : ∀ w : Word, ((w >>> 16) &&& 0xFFFF).toNat = w.toNat / 65536 := by
    intro w
    have := w.isLt
    rw [hlow, BitVec.toNat_ushiftRight, Nat.shiftRight_eq_div_pow]
    omega
  have hproto : (htons (proto.setWidth 16)).toNat = proto.toNat * 256 := by
    have := proto.isLt
    rw [htons_to_nat, BitVec.toNat_setWidth]
    omega
  have hchain := chain_sum_eq hp
  have hle := norm_le (m := 65535) (by omega) (total p.flatten)
  have hnorm : norm 65535 (norm 65535 (total p.flatten) + pseudoSum src dest proto protoLen) =
      norm 65535 (total p.flatten + pseudoSum src dest proto protoLen) := by
    refine eq_norm (by omega) (norm_le (by omega) _) ?_
    refine (alike_norm 65535 _).symm.trans ?_
    exact (alike_norm 65535 (total p.flatten)).symm.add (.refl _ _)
  have hwords := And.intro src.isLt dest.isLt
  have hsmall := And.intro proto.isLt (htons protoLen).isLt
  -- seven halves do not overflow
  have hadd : ∀ (a b : Word) (k : Nat), a.toNat ≤ k * 65535 → k ≤ 6 → b.toNat ≤ 65535 →
      (a + b).toNat = a.toNat + b.toNat := by
    intro a b k ha hk hb
    refine BitVec.toNat_add_of_lt ?_
    omega
  have h₁ := hadd (chainSum p) (src &&& 0xFFFF) 1 (by omega) (by omega) (by rw [hlow]; omega)
  have h₂ := hadd _ ((src >>> 16) &&& 0xFFFF) 2 (by rw [h₁, hlow]; omega) (by omega)
    (by rw [hhigh]; omega)
  have h₃ := hadd _ (dest &&& 0xFFFF) 3 (by rw [h₂, h₁, hlow, hhigh]; omega) (by omega)
    (by rw [hlow]; omega)
  have h₄ := hadd _ ((dest >>> 16) &&& 0xFFFF) 4 (by rw [h₃, h₂, h₁, hlow, hhigh, hlow]; omega)
    (by omega) (by rw [hhigh]; omega)
  have hprotoW : ((htons (proto.setWidth 16)).setWidth 32 : Word).toNat = proto.toNat * 256 := by
    rw [BitVec.toNat_setWidth, hproto]
    omega
  have hlenW : ((htons protoLen).setWidth 32 : Word).toNat = (htons protoLen).toNat := by
    rw [BitVec.toNat_setWidth]
    omega
  have h₅ := hadd _ ((htons (proto.setWidth 16)).setWidth 32) 5
    (by rw [h₄, h₃, h₂, h₁, hlow, hhigh, hlow, hhigh]; omega) (by omega) (by rw [hprotoW]; omega)
  have h₆ := hadd _ ((htons protoLen).setWidth 32) 6
    (by rw [h₅, h₄, h₃, h₂, h₁, hlow, hhigh, hlow, hhigh, hprotoW]; omega) (by omega)
    (by rw [hlenW]; omega)
  have hsum := h₆
  rw [h₅, h₄, h₃, h₂, h₁, hlow, hhigh, hlow, hhigh, hprotoW, hlenW, hchain] at hsum
  have hshape : norm 65535 (total p.flatten) + src.toNat % 65536 + src.toNat / 65536 +
      dest.toNat % 65536 + dest.toNat / 65536 + proto.toNat * 256 + (htons protoLen).toNat =
      norm 65535 (total p.flatten) + pseudoSum src dest proto protoLen := by
    unfold pseudoSum
    omega
  rw [hshape] at hsum
  have hfinal := norm_le (m := 65535) (by omega)
    (total p.flatten + pseudoSum src dest proto protoLen)
  unfold inetChksumPseudo
  dsimp only
  rw [not_to_nat, BitVec.toNat_setWidth, fold_fold_to_nat, hsum, hnorm, Nat.mod_eq_of_lt (by omega)]

end Labs.Jos.Chksum
