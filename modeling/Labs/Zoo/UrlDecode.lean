import Labs.Zoo.Zookd

/-!
# Decoding escapes

`url_decode_n` decodes a string into an array of `dstlen` bytes. An escape is a percent sign with
two bytes behind it, whatever they are. The string that is decoded ends at its terminator, but an
escape can stand for a zero as well, which is decoded like any other byte.
-/

namespace Labs.Zoo.UrlDecode

open Prog CArray Zookd

/-- What a string stands for: escapes, plus signs and bytes that stand for themselves. -/
inductive Decodes : List UInt8 → List UInt8 → Prop where
  | nil : Decodes [] []
  | escape {x y : UInt8} {s d : List UInt8} (hrest : Decodes s d) :
      Decodes (byte '%' :: x :: y :: s) (UInt8.ofInt (Http.strtol16 [x, y]) :: d)
  | plus {s d : List UInt8} (hrest : Decodes s d) : Decodes (byte '+' :: s) (byte ' ' :: d)
  | plain {c : UInt8} {s d : List UInt8} (hplus : c ≠ byte '+')
      (hpercent : c = byte '%' → s.length < 2) (hrest : Decodes s d) : Decodes (c :: s) (c :: d)

/-- The decoded bytes with their terminator, or as many of them as leave room for it. -/
def written (dstlen : Nat) (d : List UInt8) : List UInt8 :=
  if d.length + 1 ≤ dstlen then d ++ [0] else d.take (dstlen - 1) ++ [0]

/-- The array `src` ends behind its first `n` bytes. -/
def cutOff (m : Arrays Arr) (src : Arr) (n : Nat) : Arrays Arr :=
  Function.update m src ((m src).take n)

variable {s d : List UInt8} {c : UInt8} {dstlen : Nat}

/-! ## The decoding of a string -/

theorem escape_eq_none (h : c = byte '%' → s.length < 2) : escape (c :: s) = none := by
  cases s with
  | nil => rfl
  | cons x s =>
      cases s with
      | nil => rfl
      | cons y s =>
          refine if_neg fun hpercent => ?_
          have hshort := h hpercent
          rw [List.length_cons, List.length_cons] at hshort
          omega

theorem short_of_escape (h : escape (c :: s) = none) (hpercent : c = byte '%') : s.length < 2 := by
  cases s with
  | nil => exact Nat.zero_lt_two
  | cons x s =>
      cases s with
      | nil => exact Nat.one_lt_two
      | cons y s =>
          rw [escape, if_pos hpercent] at h
          cases h

/-- A byte that starts no escape stands for itself or for a space. -/
theorem decodes_cons (hescape : escape (c :: s) = none) (h : Decodes s d) :
    Decodes (c :: s) (Http.plusDecode c :: d) := by
  unfold Http.plusDecode
  by_cases hplus : c = byte '+'
  · subst hplus
    rw [if_pos rfl]
    exact .plus h
  · rw [if_neg hplus]
    exact .plain hplus (short_of_escape hescape) h

theorem decodes_url_decode (s : List UInt8) : Decodes s (Http.urlDecode s) := by
  induction hlen : s.length using Nat.strong_induction_on generalizing s with
  | _ n ih =>
      cases s with
      | nil => exact .nil
      | cons c s =>
          cases hescape : escape (c :: s) with
          | none =>
              rw [url_decode_cons hescape]
              refine decodes_cons hescape (ih s.length ?_ s rfl)
              rw [← hlen, List.length_cons]
              omega
          | some found =>
              obtain ⟨x, y⟩ := found
              obtain ⟨rest, hs⟩ := escape_eq_some hescape
              rw [hs, Http.urlDecode, if_pos rfl]
              refine .escape (ih rest.length ?_ rest rfl)
              rw [← hlen, hs]
              simp only [List.length_cons]
              omega

/-- A string has one decoding. -/
theorem decodes_iff : Decodes s d ↔ d = Http.urlDecode s := by
  constructor
  · intro h
    induction h with
    | nil => rfl
    | escape hrest ih => rw [Http.urlDecode, if_pos rfl, ih]
    | plus hrest ih =>
        rw [url_decode_cons (escape_eq_none fun h => absurd h (by decide)), ih]
        rfl
    | plain hplus hpercent hrest ih =>
        rw [url_decode_cons (escape_eq_none hpercent), ih, Http.plusDecode, if_neg hplus]
  · intro h
    rw [h]
    exact decodes_url_decode s

/-! ## What is written -/

theorem written_eq (hpos : 1 ≤ dstlen) : written dstlen d = d.take (dstlen - 1) ++ [0] := by
  unfold written
  split
  case isTrue hfit => rw [List.take_of_length_le (by omega)]
  case isFalse => rfl

theorem length_written_le (hpos : 1 ≤ dstlen) : (written dstlen d).length ≤ dstlen := by
  rw [written_eq hpos, List.length_append, List.length_take, List.length_singleton]
  omega

section Call

variable {dst src : Arr} {p : Nat} {m : Arrays Arr}

/-- `url_decode_n` returns, and leaves the other bytes of its array and the other arrays alone. -/
theorem url_decode_n_returns (hne : src ≠ dst) (hpos : 1 ≤ dstlen) (hword : dstlen ≠ 2 ^ 32 - 1)
    (hroom : dstlen ≤ (m dst).length) (hstr : HoldsString (m src) p s) :
    urlDecodeN dst dstlen src p m = .ret () (Function.update m dst
      (overwrite (m dst) 0 (written dstlen (Http.urlDecode s)))) := by
  have hrun : wp (urlDecodeN dst dstlen src p) (fun _ m' => m' = Function.update m dst
      (overwrite (m dst) 0 (written dstlen (Http.urlDecode s)))) (fun _ _ => False) m := by
    refine url_decode_loop_exact hne rfl hpos hroom hword hstr ?_
    rw [written_eq hpos, Nat.sub_zero]
  obtain ⟨_, m', hret, rfl⟩ := ret_of_wp hrun
  exact hret

/-- The string is held as well when the array ends behind its terminator. -/
theorem holds_string_cut_off (hstr : HoldsString (m src) p s) :
    HoldsString (cutOff m src (p + s.length + 1) src) p s := by
  obtain ⟨hzero, rest, hdrop⟩ := hstr
  refine ⟨hzero, [], ?_⟩
  have hcount : p + s.length + 1 - p = s.length + 1 := by omega
  have hsplit : s ++ 0 :: rest = (s ++ [0]) ++ rest := by simp
  have hlen : (s ++ [0]).length = s.length + 1 := by simp
  rw [cutOff, Function.update_self, List.drop_take, hcount, hdrop, hsplit, ← hlen, List.take_left]

/-- For every string and every `dstlen`, `url_decode_n` returns and has written the decoding with
its terminator, or as much of it as leaves room for the terminator, to the first `dstlen` bytes of
its array, and nothing else. It does the same when the source ends behind its terminator. -/
theorem url_decode_n_writes (dst src : Arr) (hne : src ≠ dst) (dstlen p : Nat) (hpos : 1 ≤ dstlen)
    (hword : dstlen ≠ 2 ^ 32 - 1) (s : List UInt8) (m : Arrays Arr)
    (hroom : dstlen ≤ (m dst).length) (hstr : HoldsString (m src) p s) :
    ∃ d, (∀ d', Decodes s d' ↔ d' = d) ∧ (written dstlen d).length ≤ dstlen ∧
      ∀ m₀, m₀ = m ∨ m₀ = cutOff m src (p + s.length + 1) → urlDecodeN dst dstlen src p m₀ =
        .ret () (Function.update m₀ dst (overwrite (m dst) 0 (written dstlen d))) := by
  refine ⟨Http.urlDecode s, fun _ => decodes_iff, length_written_le hpos, fun m₀ hm₀ => ?_⟩
  have hsame : m₀ dst = m dst ∧ HoldsString (m₀ src) p s := by
    cases hm₀ with
    | inl hwhole => rw [hwhole]; exact ⟨rfl, hstr⟩
    | inr hcut =>
        rw [hcut]
        exact ⟨Function.update_of_ne (Ne.symm hne) _ _, holds_string_cut_off hstr⟩
  rw [← hsame.1] at hroom ⊢
  exact url_decode_n_returns hne hpos hword hroom hsame.2

/-- A string with an escape at its end that stands for itself, and bytes behind it. -/
def shortSource : Arrays Arr := fun _ => ascii "a+%41%4" ++ [0, 37, 37]

theorem url_decode_n_writes_short : ∃ d, (∀ d', Decodes (ascii "a+%41%4") d' ↔ d' = d) ∧
    (written 4 d).length ≤ 4 ∧
    ∀ m₀, m₀ = shortSource ∨ m₀ = cutOff shortSource .header (0 + (ascii "a+%41%4").length + 1) →
      urlDecodeN .value 4 .header 0 m₀ =
        .ret () (Function.update m₀ .value (overwrite (shortSource .value) 0 (written 4 d))) :=
  url_decode_n_writes .value .header (by decide) 4 0 (by decide) (by decide) (ascii "a+%41%4")
    shortSource (by decide) (holds_string_start (by decide))

end Call

end Labs.Zoo.UrlDecode
