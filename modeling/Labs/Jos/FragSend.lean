import Labs.Jos.ReassRun

/-!
# Fragments are put together again

What `ip_frag` sends is a datagram that is cut into fragments, so that what `ip_reass` makes of the
fragments is known for every order of arrival. With at most three fragments it is always the datagram
that was sent; with more it is, unless a fragment arrives that ends a gap.
-/

namespace Labs.Jos.IpFrag

open Chksum Pieces

variable {p : Packet} {mtu : Half} {i : Nat}

theorem htons_htons (n : Half) : htons (htons n) = n := by
  have hlt := n.isLt
  refine BitVec.eq_of_toNat_eq ?_
  rw [htons_to_nat, htons_to_nat]
  omega

/-! ## Copying from a chain -/

theorem bytes_length (h : IpHdr) : h.bytes.length = IP_HLEN := rfl

theorem set_chksum_bytes (h : IpHdr) : h.setChksum.bytes = ipChksumSet h.bytes := rfl

/-- The checksum of a header that is made passes the check of the receiver. -/
theorem set_chksum_checks (h : IpHdr) : inetChksum h.setChksum.bytes = 0 := by
  have hchecks := ip_chksum_set_checks (Nat.le_of_eq (bytes_length h).symm)
  rwa [← set_chksum_bytes, ← bytes_length h.setChksum, List.take_length] at hchecks

/-! ## The fragments -/

/-- A datagram as `ip_output_if` hands it to `ip_frag`: it is larger than the interface takes, and its
header has no options and a checksum. The fragments of the interface fit in the static buffer, and
those in front of the last one fill it. -/
structure Sendable (p : Packet) (mtu : Half) : Prop where
  eight : 28 ≤ mtu.toNat
  buffer : mtu.toNat ≤ IP_FRAG_MAX_MTU
  filled : 8 ∣ mtu.toNat - IP_HLEN
  large : mtu.toNat < p.payload.length + IP_HLEN
  fits : p.payload.length + IP_HLEN < 65536
  hl : iphHl p.hdr * 4 = BitVec.ofNat 16 IP_HLEN
  len : p.hdr.len = htons (BitVec.ofNat 16 p.payload.length + BitVec.ofNat 16 IP_HLEN)
  offset : p.hdr.offset = 0
  chksum : p.hdr.setChksum = p.hdr

/-- The units of eight bytes in a fragment. -/
def units (mtu : Half) : Nat := (mtu.toNat - 20) / 8

/-- The number of fragments. The last one may use all of the room. -/
def fragCount (p : Packet) (mtu : Half) : Nat :=
  (p.payload.length - (mtu.toNat - 20) + (units mtu * 8 - 1)) / (units mtu * 8) + 1

/-- Where the fragment `i` begins. -/
def cutAt (p : Packet) (mtu : Half) (i : Nat) : Nat :=
  if i < fragCount p mtu then i * (units mtu * 8) else p.payload.length

/-- The offset field of the fragment `i`. -/
def offsetField (p : Packet) (mtu : Half) (i : Nat) : Half :=
  if i + 1 = fragCount p mtu then BitVec.ofNat 16 (i * units mtu)
  else BitVec.ofNat 16 (i * units mtu) ||| IP_MF

/-- The fragment `i`. -/
def fragPkt (p : Packet) (mtu : Half) (i : Nat) : Packet where
  hdr := ({ p.hdr with
    offset := htons (offsetField p mtu i)
    len := htons (BitVec.ofNat 16 (cutAt p mtu (i + 1) - cutAt p mtu i) +
      BitVec.ofNat 16 IP_HLEN) } : IpHdr).setChksum
  first := piece (cutAt p mtu) p.payload i
  more := []

namespace Sendable

theorem units_pos (h : Sendable p mtu) : 0 < units mtu := by
  have := h.eight
  unfold units
  omega

theorem units_le (mtu : Half) : units mtu * 8 ≤ mtu.toNat - 20 := by
  unfold units
  omega

/-- The last fragment has something left to carry, and no more than fits. -/
theorem count_spec (h : Sendable p mtu) :
    2 ≤ fragCount p mtu ∧ (fragCount p mtu - 1) * (units mtu * 8) < p.payload.length ∧
      p.payload.length ≤ (fragCount p mtu - 1) * (units mtu * 8) + (mtu.toNat - 20) ∧
      ∀ i, i + 1 < fragCount p mtu → i * (units mtu * 8) + (mtu.toNat - 20) < p.payload.length := by
  have hpos := h.units_pos
  have hle := units_le mtu
  have height := h.eight
  have hlarge := h.large
  unfold IP_HLEN at hlarge
  obtain ⟨c, hc⟩ : ∃ c, c = units mtu * 8 := ⟨_, rfl⟩
  obtain ⟨d, hd⟩ : ∃ d, d = p.payload.length - (mtu.toNat - 20) := ⟨_, rfl⟩
  have hcount : fragCount p mtu = (d + (c - 1)) / c + 1 := by rw [fragCount, ← hc, ← hd]
  rw [← hc] at hle ⊢
  have hcpos : 0 < c := by omega
  have hmod := Nat.mod_add_div (d + (c - 1)) c
  have hlt := Nat.mod_lt (d + (c - 1)) hcpos
  rw [hcount, Nat.add_sub_cancel]
  have hmul : (d + (c - 1)) / c * c = c * ((d + (c - 1)) / c) := Nat.mul_comm _ _
  have hone : 1 ≤ (d + (c - 1)) / c := (Nat.one_le_div_iff hcpos).2 (by omega)
  refine ⟨by omega, by omega, by omega, fun i hi => ?_⟩
  have hstep : (i + 1) * c ≤ (d + (c - 1)) / c * c := Nat.mul_le_mul_right c (by omega)
  rw [Nat.succ_mul] at hstep
  omega

theorem cut_at_lt (h : Sendable p mtu) (hi : i < fragCount p mtu) :
    cutAt p mtu i < p.payload.length := by
  obtain ⟨-, hlast, -, -⟩ := h.count_spec
  rw [cutAt, if_pos hi]
  exact Nat.lt_of_le_of_lt (Nat.mul_le_mul_right _ (by omega)) hlast

theorem cut_at_count (p : Packet) (mtu : Half) : cutAt p mtu (fragCount p mtu) = p.payload.length := by
  rw [cutAt, if_neg (Nat.lt_irrefl _)]

theorem cut_at_rises (h : Sendable p mtu) (hi : i < fragCount p mtu) :
    cutAt p mtu i < cutAt p mtu (i + 1) := by
  have hpos := h.units_pos
  by_cases hlast : i + 1 < fragCount p mtu
  · rw [cutAt, if_pos hi, cutAt, if_pos hlast, Nat.succ_mul]
    omega
  · rw [show i + 1 = fragCount p mtu by omega, cut_at_count]
    exact h.cut_at_lt hi

theorem cut_at_monotone (h : Sendable p mtu) : Monotone (cutAt p mtu) := by
  refine monotone_nat_of_le_succ fun i => ?_
  by_cases hi : i < fragCount p mtu
  · exact Nat.le_of_lt (h.cut_at_rises hi)
  · rw [cutAt, if_neg hi, cutAt, if_neg (by omega)]

/-- The offset in units fits into its field. -/
theorem offset_lt (h : Sendable p mtu) (hi : i < fragCount p mtu) : i * units mtu < 8192 := by
  have hlt := h.cut_at_lt hi
  have hfits := h.fits
  rw [cutAt, if_pos hi, ← Nat.mul_assoc] at hlt
  omega

/-! ## The loop -/

theorem to_nat_room (h : Sendable p mtu) :
    (mtu - BitVec.ofNat 16 IP_HLEN).toNat = mtu.toNat - 20 := by
  have height := h.eight
  rw [BitVec.toNat_sub_of_le (by
    rw [BitVec.le_def, show (BitVec.ofNat 16 IP_HLEN).toNat = 20 from rfl]
    omega)]
  rfl

/-- The loop asks for the last fragment. -/
theorem last_iff (h : Sendable p mtu) (hi : i < fragCount p mtu) :
    BitVec.ofNat 16 (p.payload.length - cutAt p mtu i) ≤ mtu - BitVec.ofNat 16 IP_HLEN ↔
      i + 1 = fragCount p mtu := by
  obtain ⟨-, -, hfit, hmore⟩ := h.count_spec
  have hfits := h.fits
  rw [BitVec.le_def, h.to_nat_room, BitVec.toNat_ofNat, Nat.mod_eq_of_lt (by omega), cutAt, if_pos hi]
  constructor
  · intro hle
    by_contra hne
    have := hmore i (by omega)
    omega
  · intro heq
    rw [← heq, Nat.add_sub_cancel] at hfit
    omega

/-- The offset field that a round stores. -/
theorem field_eq (h : Sendable p mtu) (hi : i < fragCount p mtu) :
    (if decide (BitVec.ofNat 16 (p.payload.length - cutAt p mtu i) ≤
        mtu - BitVec.ofNat 16 IP_HLEN) = true then
      0 ||| (IP_OFFMASK &&& BitVec.ofNat 16 (i * units mtu))
      else 0 ||| (IP_OFFMASK &&& BitVec.ofNat 16 (i * units mtu)) ||| IP_MF) =
      offsetField p mtu i := by
  have hmask : IP_OFFMASK &&& BitVec.ofNat 16 (i * units mtu) = BitVec.ofNat 16 (i * units mtu) := by
    have hlt := h.offset_lt hi
    refine BitVec.eq_of_toNat_eq ?_
    rw [BitVec.and_comm, BitVec.toNat_and, show IP_OFFMASK.toNat = 2 ^ 13 - 1 from rfl,
      Nat.and_two_pow_sub_one_eq_mod, BitVec.toNat_ofNat]
    omega
  unfold offsetField
  rw [hmask, show (0 : Half) ||| BitVec.ofNat 16 (i * units mtu) = _ from BitVec.zero_or]
  by_cases hlast : i + 1 = fragCount p mtu
  · rw [if_pos (decide_eq_true ((h.last_iff hi).2 hlast)), if_pos hlast]
  · rw [if_neg (by rw [decide_eq_true_eq]; exact fun hle => hlast ((h.last_iff hi).1 hle)),
      if_neg hlast]

end Sendable

theorem offset_field_mask (h : Sendable p mtu) (hi : i < fragCount p mtu) :
    offsetField p mtu i &&& IP_OFFMASK = BitVec.ofNat 16 (i * units mtu) ∧
      (offsetField p mtu i &&& IP_MF = 0 ↔ i + 1 = fragCount p mtu) := by
  have hlt := h.offset_lt hi
  unfold offsetField
  generalize i * units mtu = x at hlt ⊢
  have hmask : BitVec.ofNat 16 x &&& IP_OFFMASK = BitVec.ofNat 16 x := by
    refine BitVec.eq_of_toNat_eq ?_
    rw [BitVec.toNat_and, show IP_OFFMASK.toNat = 2 ^ 13 - 1 from rfl,
      Nat.and_two_pow_sub_one_eq_mod, BitVec.toNat_ofNat]
    omega
  have hclear : BitVec.ofNat 16 x &&& IP_MF = 0 := by
    have hbit : (BitVec.ofNat 16 x).getLsbD 13 = false := by
      rw [BitVec.getLsbD_ofNat, Nat.testBit_lt_two_pow hlt, Bool.and_false]
    rw [show IP_MF = BitVec.twoPow 16 13 from rfl, BitVec.and_twoPow, hbit]
    rfl
  by_cases hlast : i + 1 = fragCount p mtu
  · rw [if_pos hlast]
    exact ⟨hmask, iff_of_true hclear hlast⟩
  · rw [if_neg hlast, BitVec.and_or_distrib_right, BitVec.and_or_distrib_right, hmask, hclear]
    refine ⟨?_, iff_of_false (by decide) hlast⟩
    rw [show IP_MF &&& IP_OFFMASK = 0#16 by decide, BitVec.or_zero]

/-- The fragments that `ip_frag` sends. -/
def sentCut (p : Packet) (mtu : Half) (h : Sendable p mtu) : Cut where
  text := p.payload
  n := fragCount p mtu
  b := cutAt p mtu
  pkt := fragPkt p mtu
  two := h.count_spec.1
  mono := h.cut_at_monotone
  rises := fun _ => h.cut_at_rises
  zero := by
    have := h.count_spec.1
    rw [cutAt, if_pos (by omega), Nat.zero_mul]
  last := Sendable.cut_at_count p mtu
  fits := h.fits
  hl := fun _ _ => h.hl
  offset := fun i hi => by
    rw [show offsetOf (fragPkt p mtu i).hdr = (htons (htons (offsetField p mtu i)) &&& IP_OFFMASK) * 8
      from rfl, htons_htons, (offset_field_mask h hi).1, cutAt, if_pos hi, ← Nat.mul_assoc]
    exact (BitVec.ofNat_mul _ _).symm
  length := fun i _ => by
    rw [show lengthOf (fragPkt p mtu i).hdr =
      htons (htons (BitVec.ofNat 16 (cutAt p mtu (i + 1) - cutAt p mtu i) +
        BitVec.ofNat 16 IP_HLEN)) - iphHl p.hdr * 4 from rfl, htons_htons, h.hl]
    exact BitVec.add_sub_cancel _ _
  mf := fun i hi => by
    rw [show (fragPkt p mtu i).hdr.offset = htons (offsetField p mtu i) from rfl, htons_htons,
      (offset_field_mask h hi).2]
  key := fun _ _ => match_iff.2 ⟨rfl, rfl, rfl⟩
  payload := fun _ _ => by
    rw [Packet.payload, fragPkt, List.flatten_nil, List.append_nil]

/-! ## The round trip -/

/-- The bytes of what is made of fragments. -/
theorem Cut.datagram_payload (c : Cut) {made : List Nat} (h : ∀ x ∈ made, x < c.n) :
    (c.datagram made).payload = made.flatMap (piece c.b c.text) := by
  have hfrag : ∀ x < c.n, (c.frag x).first ++ (c.frag x).more.flatten = piece c.b c.text x :=
    fun x hx => c.payload x hx
  have hrest : ∀ rest : List Nat, (∀ x ∈ rest, x < c.n) →
      ((rest.map c.frag).flatMap fun r => r.first :: r.more).flatten =
        rest.flatMap (piece c.b c.text) := by
    intro rest hlt
    induction rest with
    | nil => rfl
    | cons x rest ih =>
        rw [List.map_cons, List.flatMap_cons, List.flatten_append, List.flatten_cons,
          hfrag x (hlt x List.mem_cons_self), ih fun y hy => hlt y (List.mem_cons_of_mem _ hy),
          List.flatMap_cons]
  cases made with
  | nil => rfl
  | cons x rest =>
      rw [List.flatMap_cons, ← hfrag x (h x List.mem_cons_self),
        ← hrest rest fun y hy => h y (List.mem_cons_of_mem _ hy), List.append_assoc,
        ← List.flatten_append]
      rfl

/-- The header of what is made of fragments is made anew. -/
theorem Cut.datagram_checks (c : Cut) (made : List Nat) :
    inetChksum (c.datagram made).hdr.bytes = 0 := by
  unfold Cut.datagram joinFrags
  dsimp only
  cases made.map c.frag <;> exact set_chksum_checks _

theorem Cut.datagram_len (c : Cut) (made : List Nat) : (c.datagram made).hdr.len =
    htons (BitVec.ofNat 16 c.text.length + BitVec.ofNat 16 IP_HLEN) := by
  unfold Cut.datagram joinFrags
  dsimp only
  cases made.map c.frag <;> rfl

/-- A datagram with a gap is not the one that was sent. -/
theorem Cut.datagram_eq_iff (c : Cut) {a j : Nat} (h : Gapped c.n a j) :
    (c.datagram (List.range a ++ List.range' j (c.n - j))).payload = c.text ↔ a = j := by
  have hj := h.lt
  have hle := h.le
  have hmem : ∀ x ∈ List.range a ++ List.range' j (c.n - j), x < c.n := by
    intro x hx
    rw [List.mem_append, List.mem_range, List.mem_range'_1] at hx
    omega
  rw [c.datagram_payload hmem, flatMap_gapped c.mono c.zero (Nat.le_of_eq c.last.symm)
    (Nat.le_of_lt hj)]
  constructor
  · intro heq
    by_contra hne
    have hlen := congrArg List.length heq
    have hlt := c.b_lt_b (show a < j by omega) (Nat.le_of_lt hj)
    have hend := c.b_lt_b hj (Nat.le_refl _)
    rw [List.length_append, List.length_take, List.length_drop, Nat.min_eq_left] at hlen
    · have := c.last
      omega
    · have := c.last
      omega
  · intro heq
    rw [heq, List.take_append_drop]

theorem Arrivals.lt {c : Cut} {order : List Nat} {ticks : Nat} {evs : List Event}
    (h : Arrivals c order ticks evs) : ∀ j ∈ order, j < c.n := by
  induction h with
  | nil => exact fun _ hj => absurd hj List.not_mem_nil
  | own hj _ ih => exact fun i hi => (List.mem_cons.1 hi).elim (fun heq => heq ▸ hj) (ih i)
  | other _ _ ih => exact ih
  | tick _ ih => exact ih

/-- A datagram of four fragments of eight bytes. -/
def fourFrags : Packet where
  hdr := (⟨htons 0x4500, htons 52, 7, 0, htons 0x4011, 0, 0x0100000a, 0x0200000a⟩ : IpHdr).setChksum
  first := (List.range 32).map (BitVec.ofNat 8)
  more := []

theorem four_frags_sendable : Sendable fourFrags 28 :=
  ⟨by decide, by decide, by decide, by decide, by decide, by decide, by decide, by decide,
    by decide +kernel⟩

/-- The last fragment overtakes those in the middle, and then the third one ends a gap: a datagram is
made without the second one. -/
theorem four_frags_run : ∃ s' outs,
    Run ⟨[], 0⟩ ([0, 3, 2].map fun i => .frag (fragPkt fourFrags 28 i)) s' outs ∧
      outs.map Packet.payload = [fourFrags.payload.take 8 ++ fourFrags.payload.drop 16] :=
  ⟨_, _, .frag ⟨by decide, .inl (by decide)⟩ rfl (.frag ⟨by decide, .inl (by decide)⟩ rfl
    (.frag ⟨by decide, .inl (by decide)⟩ rfl (.nil _))), rfl⟩

theorem four_frags_arrivals : Arrivals (sentCut fourFrags 28 four_frags_sendable) [0, 3, 2] 0
    ([0, 3, 2].map fun i => .frag (fragPkt fourFrags 28 i)) :=
  .own (by decide) (.own (by decide) (.own (by decide) .nil))

/-- Whatever the order in which fragments arrive, each datagram that is made consists of the text up
to some fragment and from some fragment on, and its header has the length of the whole text. -/
theorem ip_reass_assembles (c : Cut) (s s' : State) (evs : List Event) (outs : List Packet)
    (order : List Nat) (ticks : Nat) (hrun : Run s evs s' outs)
    (harrivals : Arrivals c order ticks evs) (hticks : ticks ≤ IP_REASS_MAXAGE)
    (hfresh : ∀ r ∈ s.datagrams, addressesAndIdMatch r.iphdr (c.pkt 0).hdr = false) :
    (c.ours outs).map Packet.payload =
        (assemble c.n order []).2.map (List.flatMap (piece c.b c.text)) ∧
      ∀ q ∈ c.ours outs, htons q.hdr.len = BitVec.ofNat 16 (c.text.length + IP_HLEN) ∧
        inetChksum q.hdr.bytes = 0 ∧
        ∃ a j, Gapped c.n a j ∧ q.payload = c.text.take (c.b a) ++ c.text.drop (c.b j) ∧
          (q.payload = c.text ↔ a = j) := by
  have hkept : Kept c.n [] := Kept.nil (Nat.lt_of_lt_of_le (by decide) c.two)
  have hqueued : Queued c [] ticks s := .inl ⟨filter_eq_nil_of_forall hfresh, rfl⟩
  have horder := harrivals.lt
  obtain ⟨houts, -⟩ := run_assembles hrun harrivals hkept hticks hqueued
  have hmem : ∀ a j, Gapped c.n a j → ∀ x ∈ List.range a ++ List.range' j (c.n - j), x < c.n := by
    intro a j hgap x hx
    have hle := hgap.le
    have hlt := hgap.lt
    rw [List.mem_append, List.mem_range, List.mem_range'_1] at hx
    omega
  rw [houts]
  refine ⟨?_, fun q hq => ?_⟩
  · rw [List.map_map]
    refine List.map_congr_left fun made hmade => ?_
    obtain ⟨a, j, hgap, rfl⟩ := assemble_gapped horder hkept hmade
    exact c.datagram_payload (hmem a j hgap)
  · obtain ⟨made, hmade, rfl⟩ := List.mem_map.1 hq
    obtain ⟨a, j, hgap, rfl⟩ := assemble_gapped horder hkept hmade
    refine ⟨?_, c.datagram_checks _, a, j, hgap, ?_, c.datagram_eq_iff hgap⟩
    · rw [c.datagram_len, htons_htons, BitVec.ofNat_add]
    · rw [c.datagram_payload (hmem a j hgap), flatMap_gapped c.mono c.zero
        (Nat.le_of_eq c.last.symm) (Nat.le_of_lt hgap.lt)]

/-- The run of four fragments. -/
theorem ip_reass_assembles_four : ∃ outs : List Packet,
    outs.map Packet.payload = [fourFrags.payload.take 8 ++ fourFrags.payload.drop 16] ∧
      ((sentCut fourFrags 28 four_frags_sendable).ours outs).map Packet.payload =
        (assemble 4 [0, 3, 2] []).2.map (List.flatMap (piece (cutAt fourFrags 28) fourFrags.payload)) := by
  obtain ⟨s', outs, hrun, houts⟩ := four_frags_run
  exact ⟨outs, houts, (ip_reass_assembles (sentCut fourFrags 28 four_frags_sendable) ⟨[], 0⟩ s' _ outs
    [0, 3, 2] 0 hrun four_frags_arrivals (by decide) fun r hr => absurd hr List.not_mem_nil).1⟩

end Labs.Jos.IpFrag
