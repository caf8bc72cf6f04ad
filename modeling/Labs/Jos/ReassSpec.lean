import Labs.Jos.IpFrag

/-!
# The fragments of one datagram

The queue of the fragments of one datagram against the library of pieces. A datagram is cut at
places that rise; the fragments have its key and say where they belong. What
`ip_reass_chain_frag_into_datagram_and_validate` does with the fragments is what the library does
with their numbers.
-/

namespace Labs.Jos.IpFrag

open Chksum Pieces

/-- The fragments of a datagram: `pkt i` has the bytes of the text from `b i` to `b (i + 1)`. -/
structure Cut where
  text : List Byte
  n : Nat
  b : Nat → Nat
  pkt : Nat → Packet
  two : 2 ≤ n
  mono : Monotone b
  rises : ∀ i < n, b i < b (i + 1)
  zero : b 0 = 0
  last : b n = text.length
  fits : text.length + IP_HLEN < 65536
  hl : ∀ i < n, iphHl (pkt i).hdr * 4 = BitVec.ofNat 16 IP_HLEN
  offset : ∀ i < n, offsetOf (pkt i).hdr = BitVec.ofNat 16 (b i)
  length : ∀ i < n, lengthOf (pkt i).hdr = BitVec.ofNat 16 (b (i + 1) - b i)
  mf : ∀ i < n, htons (pkt i).hdr.offset &&& IP_MF = 0 ↔ i + 1 = n
  key : ∀ i < n, addressesAndIdMatch (pkt i).hdr (pkt 0).hdr = true
  payload : ∀ i < n, (pkt i).payload = piece b text i

variable {c : Cut} {i j : Nat} {l : List Nat}

namespace Cut

/-- The fragment in the queue. -/
def frag (c : Cut) (i : Nat) : Frag := fragOf (c.pkt i)

theorem b_lt (c : Cut) (hi : i ≤ c.n) : c.b i < 65536 := by
  have hle := c.mono hi
  have hlast := c.last
  have hfits := c.fits
  omega

theorem b_lt_b (c : Cut) (hij : i < j) (hj : j ≤ c.n) : c.b i < c.b j :=
  Nat.lt_of_lt_of_le (c.rises i (by omega)) (c.mono hij)

theorem start_eq (c : Cut) (hi : i < c.n) : (c.frag i).start.toNat = c.b i := by
  have hlt := c.b_lt (Nat.le_of_lt hi)
  rw [show (c.frag i).start = offsetOf (c.pkt i).hdr from rfl, c.offset i hi, BitVec.toNat_ofNat]
  exact Nat.mod_eq_of_lt hlt

theorem stop_eq (c : Cut) (hi : i < c.n) : (c.frag i).stop.toNat = c.b (i + 1) := by
  have hlt := c.b_lt (Nat.succ_le_of_lt hi)
  have hrise := c.rises i hi
  rw [show (c.frag i).stop = offsetOf (c.pkt i).hdr + lengthOf (c.pkt i).hdr from rfl,
    c.offset i hi, c.length i hi, ← BitVec.ofNat_add, BitVec.toNat_ofNat,
    Nat.add_sub_cancel' (Nat.le_of_lt hrise)]
  exact Nat.mod_eq_of_lt hlt

theorem start_lt_start (c : Cut) (hi : i < c.n) (hj : j < c.n) :
    (c.frag i).start < (c.frag j).start ↔ i < j := by
  rw [BitVec.lt_def, c.start_eq hi, c.start_eq hj]
  constructor
  · intro hlt
    by_contra hno
    have hle := c.mono (Nat.le_of_not_lt hno)
    omega
  · exact fun hlt => c.b_lt_b hlt (Nat.le_of_lt hj)

theorem start_eq_start (c : Cut) (hi : i < c.n) (hj : j < c.n) :
    (c.frag i).start = (c.frag j).start ↔ i = j := by
  constructor
  · intro heq
    have hij := (c.start_lt_start hi hj).not.1 (by rw [heq]; exact BitVec.lt_irrefl _)
    have hji := (c.start_lt_start hj hi).not.1 (by rw [heq]; exact BitVec.lt_irrefl _)
    omega
  · exact fun heq => by rw [heq]

theorem start_lt_stop (c : Cut) (hi : i < c.n) (hj : j < c.n) :
    (c.frag i).start < (c.frag j).stop ↔ i ≤ j := by
  rw [BitVec.lt_def, c.start_eq hi, c.stop_eq hj]
  constructor
  · intro hlt
    by_contra hno
    have hle := c.mono (show j + 1 ≤ i by omega)
    omega
  · exact fun hle => c.b_lt_b (Nat.lt_succ_of_le hle) hj

theorem stop_eq_start (c : Cut) (hi : i < c.n) (hj : j < c.n) :
    (c.frag i).stop = (c.frag j).start ↔ j = i + 1 := by
  rw [← BitVec.toNat_inj, c.stop_eq hi, c.start_eq hj]
  constructor
  · intro heq
    rcases Nat.lt_trichotomy j (i + 1) with hlt | rfl | hgt
    · have := c.b_lt_b hlt hi
      omega
    · rfl
    · have := c.b_lt_b hgt (Nat.le_of_lt hj)
      omega
  · exact fun heq => by rw [heq]

end Cut

/-! ## The place of a fragment -/

/-- What the loop of `place` finds out about gaps, in terms of the numbers of the fragments. -/
def noGap : Option Nat → List Nat → Nat → Bool
  | prev, [], j => prev.all (· + 1 == j)
  | prev, q :: rest, j =>
      if j < q then true else prev.all (· + 1 == q) && noGap (some q) rest j

/-- The result of `place`, in terms of the numbers of the fragments. -/
def placeOf (c : Cut) (l : List Nat) (j : Nat) (valid : Bool) : Option Placed :=
  if j ∈ l then none
  else some ⟨(put j l).map c.frag, valid, (above j l).map c.frag⟩

theorem put_cons_lt {q : Nat} (h : q < j) : put j (q :: l) = q :: put j l := by
  have hnot : ¬ j < q := Nat.not_lt_of_gt h
  simp [put, below, above, h, hnot]

theorem above_cons_lt {q : Nat} (h : q < j) : above j (q :: l) = above j l := by
  have hnot : ¬ j < q := Nat.not_lt_of_gt h
  simp [above, hnot]

/-- Everything is above a number that is smaller than the first. -/
theorem put_below {q : Nat} (h : j < q) (hsorted : (q :: l).Pairwise (· < ·)) :
    put j (q :: l) = j :: q :: l ∧ above j (q :: l) = q :: l ∧ below j (q :: l) = [] := by
  have hall : ∀ x ∈ q :: l, j < x := by
    intro x hx
    rcases List.mem_cons.1 hx with rfl | hx
    · exact h
    · exact Nat.lt_trans h (List.rel_of_pairwise_cons hsorted hx)
  have habove : above j (q :: l) = q :: l :=
    List.filter_eq_self.2 fun x hx => decide_eq_true (hall x hx)
  have hbelow : below j (q :: l) = [] :=
    List.filter_eq_nil_iff.2 fun x hx => by
      have := hall x hx
      simp only [decide_eq_true_eq]
      omega
  rw [put, habove, hbelow]
  exact ⟨rfl, rfl, rfl⟩

theorem place_cons (new : Frag) (prev : Option Frag) (q : Frag) (rest : List Frag)
    (valid : Bool) : place new prev (q :: rest) valid =
      if new.start < q.start then
        if prev.any fun prev => new.start < prev.stop || new.stop > q.start then .ok none
        else .ok (some ⟨new :: q :: rest, valid, q :: rest⟩)
      else if new.start = q.start then .ok none
      else if new.start < q.stop then .ok none
      else place new (some q) rest (valid && prev.all fun prev => prev.stop == q.start) >>=
        fun r => pure (r.map fun x => { x with chain := q :: x.chain }) := by
  cases prev <;> rfl

theorem place_frags (c : Cut) (hj : j < c.n) (prev : Option Nat) (valid : Bool)
    (hprev : ∀ x ∈ prev, x < j ∧ x < c.n ∧ ∀ y ∈ l, x < y) (hsorted : l.Pairwise (· < ·))
    (hlt : ∀ x ∈ l, x < c.n) :
    place (c.frag j) (prev.map c.frag) (l.map c.frag) valid =
      .ok (placeOf c l j (valid && noGap prev l j)) := by
  induction l generalizing prev valid with
  | nil =>
      cases prev with
      | none => simp [place, placeOf, noGap, put, below, above]
      | some x =>
          obtain ⟨hxj, hxn, -⟩ := hprev x rfl
          have hle : (c.frag x).stop ≤ (c.frag j).start := by
            rw [BitVec.le_def, c.stop_eq hxn, c.start_eq hj]
            exact c.mono hxj
          have hjoin : ((c.frag x).stop == (c.frag j).start) = (x + 1 == j) := by
            rw [Bool.eq_iff_iff, beq_iff_eq, beq_iff_eq, c.stop_eq_start hxn hj]
            exact eq_comm
          simp only [Option.map_some, List.map_nil, place]
          rw [if_pos hle, hjoin]
          simp [placeOf, noGap, put, below, above]
  | cons q rest ih =>
      have hqn := hlt q List.mem_cons_self
      have hjoin : ((prev.map c.frag).all fun f => f.stop == (c.frag q).start) =
          prev.all (· + 1 == q) := by
        cases prev with
        | none => rfl
        | some x =>
            obtain ⟨-, hxn, -⟩ := hprev x rfl
            rw [Option.map_some, Option.all_some, Option.all_some, Bool.eq_iff_iff, beq_iff_eq,
              beq_iff_eq, c.stop_eq_start hxn hqn]
            exact eq_comm
      rw [List.map_cons, place_cons, hjoin]
      rcases Nat.lt_trichotomy j q with hjq | rfl | hqj
      · have hnone : ((prev.map c.frag).any fun f =>
            (c.frag j).start < f.stop || (c.frag j).stop > (c.frag q).start) = false := by
          cases prev with
          | none => rfl
          | some x =>
              obtain ⟨hxj, hxn, -⟩ := hprev x rfl
              have h₁ : ¬ (c.frag j).start < (c.frag x).stop := by
                rw [c.start_lt_stop hj hxn]
                omega
              have h₂ : ¬ (c.frag q).start < (c.frag j).stop := by
                rw [c.start_lt_stop hqn hj]
                omega
              simp [h₁, h₂]
        obtain ⟨hput, habove, -⟩ := put_below hjq hsorted
        have hnot : j ∉ q :: rest := by
          intro hmem
          rcases List.mem_cons.1 hmem with rfl | hmem
          · exact Nat.lt_irrefl _ hjq
          · exact Nat.lt_asymm hjq (List.rel_of_pairwise_cons hsorted hmem)
        rw [if_pos ((c.start_lt_start hj hqn).2 hjq), hnone, placeOf, if_neg hnot, hput, habove,
          noGap, if_pos hjq, Bool.and_true]
        rfl
      · rw [if_neg (BitVec.lt_irrefl _), if_pos rfl, placeOf, if_pos List.mem_cons_self]
      · rw [if_neg fun hlt => Nat.lt_asymm hqj ((c.start_lt_start hj hqn).1 hlt),
          if_neg fun heq => Nat.ne_of_gt hqj ((c.start_eq_start hj hqn).1 heq),
          if_neg fun hlt => Nat.not_le_of_lt hqj ((c.start_lt_stop hj hqn).1 hlt),
          show some (c.frag q) = (some q).map c.frag from rfl,
          ih (some q) _ (fun x hx => ?_) hsorted.of_cons fun x hx => hlt x (List.mem_cons_of_mem _ hx)]
        · rw [noGap, if_neg (Nat.not_lt_of_gt hqj), Bool.and_assoc]
          have hmem : j ∈ q :: rest ↔ j ∈ rest := by
            rw [List.mem_cons]
            exact ⟨fun h => h.resolve_left (Nat.ne_of_gt hqj), .inr⟩
          unfold placeOf
          by_cases hin : j ∈ rest
          · rw [if_pos hin, if_pos (hmem.2 hin)]
            rfl
          · rw [if_neg hin, if_neg (hmem.not.2 hin), put_cons_lt hqj, above_cons_lt hqj]
            rfl
        · cases hx
          exact ⟨hqj, hqn, fun y hy => List.rel_of_pairwise_cons hsorted hy⟩

/-! ## The validation -/

theorem below_cons_lt {q : Nat} (h : q < j) : below j (q :: l) = q :: below j l := by
  simp [below, h]

/-- The loop has found no gap if the pieces below are without gaps, and if there are none above also
none in front of the new one. -/
theorem no_gap_iff (prev : Option Nat) (hsorted : l.Pairwise (· < ·)) (hnot : j ∉ l) :
    noGap prev l j = true ↔
      (prev.toList ++ below j l).IsChain (fun x y => y = x + 1) ∧
        (above j l = [] → ∀ x ∈ (prev.toList ++ below j l).getLast?, x + 1 = j) := by
  induction l generalizing prev with
  | nil => cases prev <;> simp [noGap, below, above]
  | cons q rest ih =>
      rcases Nat.lt_or_gt_of_ne (fun heq => hnot (heq ▸ List.mem_cons_self) : j ≠ q) with hjq | hqj
      · obtain ⟨-, habove, hbelow⟩ := put_below hjq hsorted
        rw [noGap, if_pos hjq, habove, hbelow]
        cases prev <;> simp
      · rw [noGap, if_neg (Nat.not_lt_of_gt hqj), Bool.and_eq_true,
          ih (some q) hsorted.of_cons fun hmem => hnot (List.mem_cons_of_mem _ hmem),
          below_cons_lt hqj, above_cons_lt hqj, Option.toList_some, List.singleton_append]
        cases prev with
        | none => simp
        | some x =>
            rw [Option.all_some, beq_iff_eq, Option.toList_some, List.singleton_append,
              List.isChain_cons_cons, List.getLast?_cons_cons, and_assoc, eq_comm]

theorem follow_frags (c : Cut) (hi : i < c.n) (hlt : ∀ x ∈ l, x < c.n) :
    ((follow (c.frag i) (l.map c.frag)).1 = true ↔ (i :: l).IsChain (fun x y => y = x + 1)) ∧
      ((i :: l).IsChain (fun x y => y = x + 1) → (follow (c.frag i) (l.map c.frag)).2 =
        c.frag ((i :: l).getLast (List.cons_ne_nil _ _))) := by
  induction l generalizing i with
  | nil => simp [follow]
  | cons q rest ih =>
      have hq := hlt q List.mem_cons_self
      obtain ⟨hvalid, hlast⟩ := ih hq fun x hx => hlt x (List.mem_cons_of_mem _ hx)
      rw [List.map_cons, follow, List.isChain_cons_cons]
      by_cases hnext : q = i + 1
      · rw [if_pos ((c.stop_eq_start hi hq).2 hnext), List.getLast_cons (List.cons_ne_nil _ _)]
        exact ⟨⟨fun h => ⟨hnext, hvalid.1 h⟩, fun h => hvalid.2 h.2⟩, fun h => hlast h.2⟩
      · rw [if_neg fun heq => hnext ((c.stop_eq_start hi hq).1 heq)]
        exact ⟨⟨fun h => absurd h (by simp), fun h => absurd h.1 hnext⟩, fun h => absurd h.1 hnext⟩

/-- What the validation looks at says that the text seems complete. -/
theorem complete_of_checks {n : Nat} (hj : j < n) (hsorted : l.Pairwise (· < ·))
    (hlt : ∀ x ∈ l, x < n) (hnot : j ∉ l) :
    complete n l j = true ↔ n - 1 ∈ put j l ∧ noGap none l j = true ∧ (put j l).head? = some 0 ∧
      (j :: above j l).IsChain (fun x y => y = x + 1) := by
  rw [complete_iff hj, no_gap_iff none hsorted hnot, Option.toList_none, List.nil_append]
  constructor
  · intro h
    obtain ⟨a, hgap, hbelow, habove⟩ := h
    have hle := hgap.le
    have hput : put j l = List.range a ++ List.range' j (n - j) := by
      rw [put, hbelow, habove, show n - j = n - 1 - j + 1 by omega, List.range'_succ]
    refine ⟨?_, ⟨?_, fun hnone x hx => ?_⟩, ?_, ?_⟩
    · rw [hput, List.mem_append, List.mem_range'_1]
      exact .inr (by omega)
    · rw [hbelow]
      refine (chain_iff_range ?_).2 (by rw [List.length_range])
      cases a with
      | zero => exact .inr rfl
      | succ a => exact .inl (by rw [List.range_eq_range', List.range'_succ]; rfl)
    · rw [habove, List.range'_eq_nil_iff] at hnone
      have haj := hgap.last (by omega)
      rw [hbelow, List.getLast?_range] at hx
      split at hx
      case isTrue => cases hx
      case isFalse hpos =>
        have hx' := Option.mem_some.1 hx
        omega
    · rw [hput]
      rcases Nat.eq_zero_or_pos a with hzero | hpos
      · rw [hzero, List.range_zero, List.nil_append, hgap.first hzero,
          show n - 0 = n - 1 + 1 by omega, List.range'_succ]
        rfl
      · rw [show a = a - 1 + 1 by omega, List.range_eq_range', List.range'_succ]
        rfl
    · exact (chain_iff_range' (k := n - 1 - j)).2 habove |>.1
  · intro h
    obtain ⟨hlast, ⟨hchain, hend⟩, hhead, hchain'⟩ := h
    have hbelow : below j l = List.range (below j l).length := by
      refine (chain_iff_range ?_).1 hchain
      cases hl : below j l with
      | nil => exact .inr rfl
      | cons x rest =>
          rw [put, hl] at hhead
          exact .inl hhead
    have habove := (chain_iff_range' (k := (above j l).length)).1 ⟨hchain', rfl⟩
    have hlen : (above j l).length = n - 1 - j := by
      have hle : (above j l).length ≤ n - 1 - j := by
        rcases Nat.eq_zero_or_pos (above j l).length with hzero | hpos
        · omega
        · have hmem : j + (above j l).length ∈ above j l := by
            rw [habove, List.mem_range'_1, List.length_range']
            omega
          have := hlt _ (mem_above.1 hmem).1
          omega
      by_contra hne
      have hin : n - 1 ∈ above j l := by
        refine mem_above.2 ⟨((mem_put.1 hlast).resolve_left (by omega)).1, by omega⟩
      rw [habove, List.mem_range'_1] at hin
      omega
    rw [hlen] at habove
    have hpos : (below j l).length = 0 → j = 0 := by
      intro hzero
      rw [put, List.length_eq_zero_iff.1 hzero] at hhead
      exact Option.some.inj hhead
    refine ⟨(below j l).length, ⟨?_, hj, hpos, fun hjn => ?_⟩, hbelow, habove⟩
    · rcases Nat.eq_zero_or_pos (below j l).length with hzero | hne
      · omega
      · exact below_range hbelow hne
    · rcases Nat.eq_zero_or_pos (below j l).length with hzero | hne
      · rw [hzero, hpos hzero]
      · have hnone : above j l = [] := by
          rw [habove, show n - 1 - j = 0 by omega]
          rfl
        have hx := hend hnone ((below j l).length - 1) (by
          rw [hbelow, List.getLast?_range, List.length_range, if_neg (by omega)]
          rfl)
        omega

/-! ## The queue of the datagram -/

/-- The entry `r` has the fragments with the numbers `l`. -/
structure Held (c : Cut) (l : List Nat) (r : ReassData) : Prop where
  chain : r.p = l.map c.frag
  flag : r.lastfrag = decide (c.n - 1 ∈ l)
  len : c.n - 1 ∈ l → r.datagramLen = BitVec.ofNat 16 c.text.length
  hdr : ∃ i ∈ l, r.iphdr = (c.pkt i).hdr ∧ (0 ∈ l → i = 0)

/-- The entry `r` is about to take the fragment `j`: its flag and its header already know of it. -/
structure Ready (c : Cut) (l : List Nat) (j : Nat) (r : ReassData) : Prop where
  chain : r.p = l.map c.frag
  flag : r.lastfrag = decide (c.n - 1 ∈ j :: l)
  len : c.n - 1 ∈ j :: l → r.datagramLen = BitVec.ofNat 16 c.text.length
  hdr : ∃ i ∈ j :: l, r.iphdr = (c.pkt i).hdr ∧ (0 ∈ j :: l → i = 0)

variable {r : ReassData}

theorem mem_put_cons {x : Nat} : x ∈ put j l ↔ x ∈ j :: l := by
  rw [mem_put, List.mem_cons]
  by_cases hx : x = j <;> simp [hx]

/-- A fragment that was there already changes nothing. -/
theorem Ready.held_of_mem (h : Ready c l j r) (hmem : j ∈ l) : Held c l r := by
  have hsame : ∀ x, x ∈ j :: l ↔ x ∈ l := fun x =>
    ⟨fun hx => (List.mem_cons.1 hx).elim (fun heq => heq ▸ hmem) id, List.mem_cons_of_mem _⟩
  obtain ⟨i, hi, hhdr, hfirst⟩ := h.hdr
  exact ⟨h.chain, by rw [h.flag]; exact decide_eq_decide.2 (hsame _),
    fun hlast => h.len ((hsame _).2 hlast),
    i, (hsame i).1 hi, hhdr, fun hzero => hfirst ((hsame 0).2 hzero)⟩

theorem Ready.held (h : Ready c l j r) : Held c (put j l) { r with p := (put j l).map c.frag } := by
  obtain ⟨i, hi, hhdr, hfirst⟩ := h.hdr
  refine ⟨rfl, ?_, fun hlast => h.len (mem_put_cons.1 hlast), i, mem_put_cons.2 hi, hhdr,
    fun hzero => hfirst (mem_put_cons.1 hzero)⟩
  rw [show ({ r with p := (put j l).map c.frag } : ReassData).lastfrag = r.lastfrag from rfl, h.flag]
  exact decide_eq_decide.2 mem_put_cons.symm

/-- The fragments of a text that seems complete end with the last one. -/
theorem Cut.last_stop (c : Cut) (hj : j < c.n) (h : (j :: above j l).IsChain fun x y => y = x + 1)
    (hlt : ∀ x ∈ l, x < c.n) (hlast : c.n - 1 ∈ put j l) :
    (c.frag ((j :: above j l).getLast (List.cons_ne_nil _ _))).stop =
      BitVec.ofNat 16 c.text.length := by
  have habove := (chain_iff_range' (k := (above j l).length)).1 ⟨h, rfl⟩
  have hall : j :: above j l = List.range' j ((above j l).length + 1) := by
    rw [List.range'_succ, ← habove]
  have hxn : (j :: above j l).getLast (List.cons_ne_nil _ _) = c.n - 1 := by
    have hmem := List.getLast_mem (List.cons_ne_nil j (above j l))
    have hin : c.n - 1 ∈ j :: above j l := by
      rcases mem_put.1 hlast with heq | ⟨hl, hne⟩
      · exact heq ▸ List.mem_cons_self
      · exact List.mem_cons_of_mem _ (mem_above.2 ⟨hl, by omega⟩)
    have hxlt : (j :: above j l).getLast (List.cons_ne_nil _ _) < c.n := by
      rcases List.mem_cons.1 hmem with heq | hin
      · rw [heq]
        exact hj
      · exact hlt _ (mem_above.1 hin).1
    have hx : (j :: above j l).getLast (List.cons_ne_nil _ _) = j + (above j l).length := by
      rw [List.getLast_congr _ (by simp) hall, List.getLast_range']
      omega
    rw [hall, List.mem_range'_1] at hin
    omega
  have hn := c.two
  refine BitVec.eq_of_toNat_eq ?_
  have hfits := c.fits
  rw [hxn, c.stop_eq (by omega), show c.n - 1 + 1 = c.n by omega, c.last, BitVec.toNat_ofNat,
    Nat.mod_eq_of_lt (by omega)]

/-- The queue does not start with the first fragment. -/
theorem head_frags (c : Cut) (hj : j < c.n) (hlt : ∀ x ∈ l, x < c.n) :
    ((put j l).map c.frag).head?.all (·.start ≠ 0) = true ↔ ¬ (put j l).head? = some 0 := by
  have hn := c.two
  cases hput : put j l with
  | nil =>
      have hmem : j ∈ put j l := mem_put.2 (.inl rfl)
      rw [hput] at hmem
      cases hmem
  | cons x rest =>
      have hx : x < c.n := by
        have hmem : x ∈ put j l := hput ▸ List.mem_cons_self
        rcases mem_put.1 hmem with rfl | ⟨hl, -⟩
        · exact hj
        · exact hlt x hl
      have hzero : (c.frag 0).start = 0 := by
        refine BitVec.eq_of_toNat_eq ?_
        rw [c.start_eq (by omega), c.zero]
        rfl
      rw [List.map_cons, List.head?_cons, List.head?_cons, Option.all_some, decide_eq_true_eq,
        Option.some.injEq, ← hzero, ne_eq, c.start_eq_start hx (by omega)]

/-- The validation accepts the queue exactly if the text seems complete. -/
theorem validate_cut (hj : j < c.n) (hkept : Kept c.n l) (hmem : j ∉ l)
    (hheld : Held c (put j l) r) :
    validate r (c.frag j) (noGap none l j) ((above j l).map c.frag) = .ok (complete c.n l j) := by
  have hchecks := complete_of_checks hj hkept.sorted hkept.lt hmem
  obtain ⟨hfollow, hend⟩ := follow_frags c hj fun x hx => hkept.lt x (mem_above.1 hx).1
  have hhead := head_frags c hj hkept.lt
  rw [← hheld.chain] at hhead
  unfold validate
  by_cases hlast : c.n - 1 ∈ put j l
  · rw [if_neg (by rw [not_not, hheld.flag]; exact decide_eq_true hlast)]
    by_cases hgap : noGap none l j = true
    · rw [if_neg (not_not.2 hgap)]
      by_cases hzero : (put j l).head? = some 0
      · rw [if_neg (hhead.not.2 (not_not.2 hzero))]
        by_cases hchain : (j :: above j l).IsChain fun x y => y = x + 1
        · -- the first and the last fragment are two
          have hlen : r.p.length ≠ 1 := by
            rw [hheld.chain, List.length_map]
            intro hone
            obtain ⟨x, hx⟩ := List.length_eq_one_iff.1 hone
            rw [hx] at hlast hzero
            have hx0 : x = 0 := Option.some.inj hzero
            have := List.mem_singleton.1 hlast
            have := c.two
            omega
          dsimp only
          rw [hfollow.2 hchain, if_neg (not_not.2 rfl), if_neg hlen, hend hchain,
            c.last_stop hj hchain hkept.lt hlast, hheld.len hlast, if_neg (not_not.2 rfl),
            hchecks.2 ⟨hlast, hgap, hzero, hchain⟩]
        · dsimp only
          rw [if_pos (hfollow.not.2 hchain), Bool.eq_false_iff.2 fun h => hchain (hchecks.1 h).2.2.2]
      · rw [if_pos (hhead.2 hzero), Bool.eq_false_iff.2 fun h => hzero (hchecks.1 h).2.2.1]
    · rw [if_pos hgap, Bool.eq_false_iff.2 fun h => hgap (hchecks.1 h).2.1]
  · rw [if_pos (by rw [hheld.flag]; exact fun h => hlast (of_decide_eq_true h)),
      Bool.eq_false_iff.2 fun h => hlast (hchecks.1 h).1]

/-- What happens to the queue when a fragment of the datagram arrives. -/
theorem chain_frag_cut (hj : j < c.n) (hkept : Kept c.n l) (h : Ready c l j r) :
    chainFrag r (c.frag j) = .ok (if j ∈ l then none
      else some ({ r with p := (put j l).map c.frag }, complete c.n l j)) := by
  have hplace := place_frags c hj none true (fun x hx => (by cases hx)) hkept.sorted hkept.lt
  rw [Option.map_none, Bool.true_and, ← h.chain] at hplace
  unfold chainFrag
  rw [hplace]
  unfold placeOf
  by_cases hmem : j ∈ l
  · rw [if_pos hmem, if_pos hmem]
    rfl
  · rw [if_neg hmem, if_neg hmem]
    change (validate { r with p := (put j l).map c.frag } (c.frag j) (noGap none l j)
      ((above j l).map c.frag) >>= fun valid => pure _) = _
    rw [validate_cut hj hkept hmem h.held]
    rfl

end Labs.Jos.IpFrag
