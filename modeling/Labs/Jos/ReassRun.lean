import Labs.Jos.ReassSpec

/-!
# Runs of the reassembly

Fragments of a datagram arrive in any order and more than once, between fragments of other datagrams
and ticks of the timer. As long as there is room for all of them, `ip_reass` makes of them what the
library makes of their numbers.
-/

namespace Labs.Jos.IpFrag

open Chksum Pieces

variable {c : Cut} {i j : Nat} {l : List Nat} {r : ReassData} {s s' : State} {p q : Packet}

/-! ## Keys -/

theorem match_iff {a b : IpHdr} :
    addressesAndIdMatch a b = true ↔ a.src = b.src ∧ a.dest = b.dest ∧ a.id = b.id := by
  rw [addressesAndIdMatch, Bool.and_eq_true, Bool.and_eq_true, beq_iff_eq, beq_iff_eq, beq_iff_eq,
    and_assoc]

theorem match_comm (a b : IpHdr) : addressesAndIdMatch a b = addressesAndIdMatch b a := by
  rw [Bool.eq_iff_iff, match_iff, match_iff]
  exact ⟨fun h => ⟨h.1.symm, h.2.1.symm, h.2.2.symm⟩, fun h => ⟨h.1.symm, h.2.1.symm, h.2.2.symm⟩⟩

/-- Headers with the same key match the same headers. -/
theorem match_congr {a b : IpHdr} (h : addressesAndIdMatch a b = true) (d : IpHdr) :
    addressesAndIdMatch a d = addressesAndIdMatch b d := by
  obtain ⟨hsrc, hdest, hid⟩ := match_iff.1 h
  rw [addressesAndIdMatch, hsrc, hdest, hid]
  rfl

/-! ## The entry before the fragment is put in -/

theorem offset_field_eq_zero (h : IpHdr) : htons h.offset &&& IP_OFFMASK = 0 ↔ offsetOf h = 0 := by
  unfold offsetOf
  generalize hx : htons h.offset &&& IP_OFFMASK = x
  have hlt : x.toNat < 8192 := by
    rw [← hx, BitVec.toNat_and]
    exact Nat.lt_of_le_of_lt Nat.and_le_right (by decide)
  rw [← BitVec.toNat_inj, ← BitVec.toNat_inj, BitVec.toNat_mul, show (8 : Half).toNat = 8 from rfl,
    show (0 : Half).toNat = 0 from rfl]
  omega

theorem Cut.first_iff (c : Cut) (hi : i < c.n) :
    htons (c.pkt i).hdr.offset &&& IP_OFFMASK = 0 ↔ i = 0 := by
  have hn := c.two
  have hstart : ∀ k < c.n, offsetOf (c.pkt k).hdr = (c.frag k).start := fun _ _ => rfl
  have hzero : (c.frag 0).start = 0 := by
    refine BitVec.eq_of_toNat_eq ?_
    rw [c.start_eq (by omega), c.zero]
    rfl
  rw [offset_field_eq_zero, hstart i hi, ← hzero, c.start_eq_start hi (by omega)]

theorem mark_last_p (h : IpHdr) (r : ReassData) : (markLast h r).p = r.p := by
  unfold markLast
  split <;> rfl

theorem mark_last_iphdr (h : IpHdr) (r : ReassData) : (markLast h r).iphdr = r.iphdr := by
  unfold markLast
  split <;> rfl

theorem mark_last_timer (h : IpHdr) (r : ReassData) : (markLast h r).timer = r.timer := by
  unfold markLast
  split <;> rfl

/-- The length that the last fragment gives. -/
theorem Cut.last_len (c : Cut) (hj : j + 1 = c.n) :
    offsetOf (c.pkt j).hdr + lengthOf (c.pkt j).hdr = BitVec.ofNat 16 c.text.length := by
  have hfits := c.fits
  refine BitVec.eq_of_toNat_eq ?_
  rw [show offsetOf (c.pkt j).hdr + lengthOf (c.pkt j).hdr = (c.frag j).stop from rfl,
    c.stop_eq (by omega), hj, c.last, BitVec.toNat_ofNat, Nat.mod_eq_of_lt (by omega)]

/-- An entry takes the flag and the length of a fragment. -/
theorem Ready.of_mark (hj : j < c.n) (hchain : r.p = l.map c.frag)
    (hflag : r.lastfrag = decide (c.n - 1 ∈ l))
    (hlen : c.n - 1 ∈ l → r.datagramLen = BitVec.ofNat 16 c.text.length)
    (hhdr : ∃ i ∈ j :: l, r.iphdr = (c.pkt i).hdr ∧ (0 ∈ j :: l → i = 0)) :
    Ready c l j (markLast (c.pkt j).hdr r) := by
  refine ⟨by rw [mark_last_p]; exact hchain, ?_, ?_, by rw [mark_last_iphdr]; exact hhdr⟩
  · unfold markLast
    by_cases hlast : j + 1 = c.n
    · rw [if_pos ((c.mf j hj).2 hlast)]
      exact (decide_eq_true (List.mem_cons.2 (.inl (by omega)))).symm
    · rw [if_neg fun h => hlast ((c.mf j hj).1 h), hflag]
      refine decide_eq_decide.2 ?_
      rw [List.mem_cons]
      exact ⟨.inr, fun h => h.resolve_left (by omega)⟩
  · unfold markLast
    by_cases hlast : j + 1 = c.n
    · rw [if_pos ((c.mf j hj).2 hlast)]
      exact fun _ => c.last_len hlast
    · rw [if_neg fun h => hlast ((c.mf j hj).1 h)]
      exact fun hmem => hlen ((List.mem_cons.1 hmem).resolve_left (by omega))

theorem Held.ready (h : Held c l r) (hkept : Kept c.n l) (hj : j < c.n) :
    Ready c l j (markLast (c.pkt j).hdr (copyHdr (c.pkt j).hdr r)) := by
  obtain ⟨i, hi, hhdr, hfirst⟩ := h.hdr
  have hcond : htons (c.pkt j).hdr.offset &&& IP_OFFMASK = 0 ∧
      htons r.iphdr.offset &&& IP_OFFMASK ≠ 0 ↔ j = 0 ∧ ¬ i = 0 := by
    rw [c.first_iff hj, hhdr, ne_eq, c.first_iff (hkept.lt i hi)]
  unfold copyHdr
  by_cases hcopy : j = 0 ∧ ¬ i = 0
  · rw [if_pos (hcond.2 hcopy)]
    exact .of_mark hj h.chain h.flag h.len ⟨j, List.mem_cons_self, rfl, fun _ => hcopy.1⟩
  · rw [if_neg (hcond.not.2 hcopy)]
    refine .of_mark hj h.chain h.flag h.len ⟨i, List.mem_cons_of_mem _ hi, hhdr, fun hzero => ?_⟩
    rcases List.mem_cons.1 hzero with hj0 | hl
    · by_contra hne
      exact hcopy ⟨hj0.symm, hne⟩
    · exact hfirst hl

/-- A new entry. -/
theorem ready_new (hj : j < c.n) :
    Ready c [] j (markLast (c.pkt j).hdr ⟨[], (c.pkt j).hdr, 0, false, IP_REASS_MAXAGE⟩) :=
  .of_mark hj rfl (by simp) (fun h => absurd h List.not_mem_nil)
    ⟨j, List.mem_cons_self, rfl, fun h => (List.mem_singleton.1 h).symm⟩

/-! ## Where a fragment goes -/

/-- There is room for a packet in the queue. -/
structure Room (s : State) (p : Packet) : Prop where
  pbufs : s.pbufcount + pbufClen p ≤ IP_REASS_MAX_PBUFS
  entry : s.datagrams.length < MEMP_NUM_REASSDATA ∨
    ∃ r ∈ s.datagrams, addressesAndIdMatch r.iphdr p.hdr = true

/-- The entry `r` for the packet `p`, with those in front of it and behind it: it is there, or it is
new. -/
inductive Goes (s : State) (p : Packet) : List ReassData → ReassData → List ReassData → Prop where
  | old {pre post : List ReassData} {r : ReassData} (hsplit : s.datagrams = pre ++ r :: post)
      (hpre : ∀ x ∈ pre, addressesAndIdMatch x.iphdr p.hdr = false)
      (hkey : addressesAndIdMatch r.iphdr p.hdr = true) : Goes s p pre (copyHdr p.hdr r) post
  | new (hnone : ∀ x ∈ s.datagrams, addressesAndIdMatch x.iphdr p.hdr = false) :
      Goes s p [] ⟨[], p.hdr, 0, false, IP_REASS_MAXAGE⟩ s.datagrams

theorem find_split {α : Type} {xs : List α} {f : α → Bool} {i : Nat}
    (hfind : xs.findIdx? f = some i) (g : α → α) :
    ∃ pre a post, xs = pre ++ a :: post ∧ i = pre.length ∧ (∀ x ∈ pre, f x = false) ∧ f a = true ∧
      xs.modify i g = pre ++ g a :: post := by
  obtain ⟨hi, ha, hbefore⟩ := List.findIdx?_eq_some_iff_getElem.1 hfind
  have hlen : (xs.take i).length = i := by
    rw [List.length_take]
    omega
  refine ⟨xs.take i, xs[i], xs.drop (i + 1), ?_, hlen.symm, fun x hx => ?_, ha, ?_⟩
  · rw [List.getElem_cons_drop, List.take_append_drop]
  · obtain ⟨k, hk, rfl⟩ := List.getElem_of_mem hx
    rw [hlen] at hk
    rw [List.getElem_take]
    exact Bool.eq_false_iff.2 (hbefore k hk)
  · rw [List.modify_eq_take_cons_drop hi]

/-- With room for it a fragment goes to an entry. -/
theorem ip_reass_goes (hhl : iphHl p.hdr * 4 = BitVec.ofNat 16 IP_HLEN) (hroom : Room s p) :
    ∃ pre r post, Goes s p pre r post ∧
      ipReass s p = addFrag ⟨pre ++ r :: post, s.pbufcount⟩ pre.length p := by
  have hmake : makeRoom s p.hdr (pbufClen p) = .ok (s, true) := by
    unfold makeRoom
    rw [if_pos hroom.pbufs]
    rfl
  have hreass : ∀ {s' : State} {i : Nat}, findDatagram s p.hdr (pbufClen p) = .ok (s', some i) →
      ipReass s p = addFrag s' i p := by
    intro s' i hfind
    unfold ipReass
    rw [if_neg (not_not.2 hhl), hmake]
    change (findDatagram s p.hdr (pbufClen p) >>= _) = _
    rw [hfind]
    rfl
  cases hfind : s.datagrams.findIdx? fun r => addressesAndIdMatch r.iphdr p.hdr with
  | none =>
      have hnone : ∀ x ∈ s.datagrams, addressesAndIdMatch x.iphdr p.hdr = false :=
        List.findIdx?_eq_none_iff.1 hfind
      have hlen := hroom.entry.resolve_right fun ⟨x, hx, hkey⟩ => by
        rw [hnone x hx] at hkey
        cases hkey
      refine ⟨[], _, _, .new hnone, hreass ?_⟩
      unfold findDatagram enqueueNewDatagram
      rw [hfind, if_pos hlen]
      rfl
  | some i =>
      obtain ⟨pre, r, post, hsplit, rfl, hpre, hkey, hmodify⟩ := find_split hfind (copyHdr p.hdr)
      refine ⟨pre, _, post, .old hsplit hpre hkey, hreass ?_⟩
      unfold findDatagram
      rw [hfind, ← hmodify]
      rfl

/-! ## One packet -/

theorem add_frag_split (pre post : List ReassData) (r : ReassData) (n : Nat) (p : Packet) :
    addFrag ⟨pre ++ r :: post, n⟩ pre.length p =
      chainFrag (markLast p.hdr r) (fragOf p) >>= fun x => match x with
        | none => pure (⟨pre ++ markLast p.hdr r :: post, n + pbufClen p - pbufClen p⟩, none)
        | some (ipr, false) => pure (⟨pre ++ ipr :: post, n + pbufClen p⟩, none)
        | some (ipr, true) =>
            pure (⟨pre ++ post, n + pbufClen p - pbufClen (joinFrags ipr)⟩, some (joinFrags ipr)) := by
  have hget : (pre ++ r :: post)[pre.length]? = some r := by
    rw [List.getElem?_append_right (Nat.le_refl _), Nat.sub_self]
    rfl
  have hset : ∀ r', (pre ++ r :: post).set pre.length r' = pre ++ r' :: post := by
    intro r'
    rw [List.set_append_right _ _ (Nat.le_refl _), Nat.sub_self]
    rfl
  have herase : (pre ++ r :: post).eraseIdx pre.length = pre ++ post := by
    rw [List.eraseIdx_append_of_length_le (Nat.le_refl _), Nat.sub_self]
    rfl
  unfold addFrag
  rw [hget]
  refine bind_congr fun x => ?_
  match x with
  | none => exact congrArg (fun rs => pure (State.mk rs _, none)) (hset _)
  | some (ipr, false) => exact congrArg (fun rs => pure (State.mk rs _, none)) (hset _)
  | some (ipr, true) => exact congrArg (fun rs => pure (State.mk rs _, some _)) herase

/-- The entry belongs to the datagram. -/
def Cut.own (c : Cut) (r : ReassData) : Bool := addressesAndIdMatch r.iphdr (c.pkt 0).hdr

/-- The fragments `l` of the datagram are in the queue, in an entry whose timer is at least `t`. -/
def Queued (c : Cut) (l : List Nat) (t : Nat) (s : State) : Prop :=
  s.datagrams.filter c.own = [] ∧ l = [] ∨
    ∃ r, s.datagrams.filter c.own = [r] ∧ Held c l r ∧ t ≤ r.timer

/-- The datagram that is made of the fragments `made`. -/
def Cut.datagram (c : Cut) (made : List Nat) : Packet :=
  joinFrags ⟨made.map c.frag, (c.pkt 0).hdr, BitVec.ofNat 16 c.text.length, true, 0⟩

theorem Held.own (h : Held c l r) (hkept : Kept c.n l) : c.own r = true := by
  obtain ⟨i, hi, hhdr, -⟩ := h.hdr
  rw [Cut.own, hhdr]
  exact c.key i (hkept.lt i hi)

theorem filter_eq_nil_of_forall {α : Type} {p : α → Bool} {l : List α} (h : ∀ x ∈ l, p x = false) :
    l.filter p = [] :=
  List.filter_eq_nil_iff.2 fun x hx => Bool.eq_false_iff.1 (h x hx)

/-- Where a fragment of the datagram goes. -/
theorem Queued.goes {t : Nat} (h : Queued c l t s) (hkept : Kept c.n l) (hj : j < c.n)
    (ht : t ≤ IP_REASS_MAXAGE) {pre post : List ReassData} (hgoes : Goes s (c.pkt j) pre r post) :
    Ready c l j (markLast (c.pkt j).hdr r) ∧ t ≤ r.timer ∧ pre.filter c.own = [] ∧
      post.filter c.own = [] := by
  have hown : ∀ x : ReassData, addressesAndIdMatch x.iphdr (c.pkt j).hdr = c.own x := by
    intro x
    rw [Cut.own, match_comm x.iphdr (c.pkt 0).hdr, ← match_congr (c.key j hj), match_comm]
  cases hgoes with
  | new hnone =>
      have hnil := filter_eq_nil_of_forall fun x hx => (hown x).symm.trans (hnone x hx)
      rcases h with ⟨-, rfl⟩ | ⟨r, hone, -⟩
      · exact ⟨ready_new hj, ht, rfl, hnil⟩
      · rw [hnil] at hone
        cases hone
  | @old _ _ r₀ hsplit hpre hkey =>
      rw [hown] at hkey
      have hnil := filter_eq_nil_of_forall fun x hx => (hown x).symm.trans (hpre x hx)
      have hfilter : s.datagrams.filter c.own = r₀ :: post.filter c.own := by
        rw [hsplit, List.filter_append, hnil, List.nil_append, List.filter_cons_of_pos hkey]
      rw [Queued, hfilter] at h
      rcases h with ⟨hno, -⟩ | ⟨r, hone, hheld, htimer⟩
      · cases hno
      · obtain ⟨rfl, hpost⟩ := List.cons.inj hone
        refine ⟨hheld.ready hkept hj, ?_, hnil, hpost⟩
        unfold copyHdr
        split <;> exact htimer

/-- A complete datagram does not depend on the rest of its entry. -/
theorem Ready.join (h : Ready c l j r) (hzero : 0 ∈ j :: l) (hlast : c.n - 1 ∈ j :: l)
    (made : List Nat) : joinFrags { r with p := made.map c.frag } = c.datagram made := by
  obtain ⟨i, -, hhdr, hfirst⟩ := h.hdr
  unfold Cut.datagram joinFrags
  rw [hhdr, hfirst hzero, h.len hlast]

/-- A fragment of the datagram arrives. -/
theorem ip_reass_own {t : Nat} (h : Queued c l t s) (hkept : Kept c.n l) (hj : j < c.n)
    (ht : t ≤ IP_REASS_MAXAGE) (hroom : Room s (c.pkt j)) :
    ∃ s', ipReass s (c.pkt j) = .ok (s', (arrive c.n l j).2.map c.datagram) ∧
      Queued c (arrive c.n l j).1 t s' := by
  obtain ⟨pre, r, post, hgoes, hreass⟩ := ip_reass_goes (c.hl j hj) hroom
  obtain ⟨hready, htimer, hpre, hpost⟩ := h.goes hkept hj ht hgoes
  rw [hreass, add_frag_split, show fragOf (c.pkt j) = c.frag j from rfl,
    chain_frag_cut hj hkept hready]
  have hone : ∀ r', c.own r' = true → (pre ++ r' :: post).filter c.own = [r'] := by
    intro r' hr'
    rw [List.filter_append, hpre, List.nil_append, List.filter_cons_of_pos hr', hpost]
  have htimer' : t ≤ (markLast (c.pkt j).hdr r).timer := by
    rw [mark_last_timer]
    exact htimer
  unfold arrive
  by_cases hmem : j ∈ l
  · rw [if_pos hmem, if_pos hmem]
    have hheld := hready.held_of_mem hmem
    exact ⟨_, rfl, .inr ⟨_, hone _ (hheld.own hkept), hheld, htimer'⟩⟩
  · rw [if_neg hmem, if_neg hmem]
    by_cases hcomplete : complete c.n l j = true
    · obtain ⟨hlast, -, hhead, -⟩ :=
        (complete_of_checks hj hkept.sorted hkept.lt hmem).1 hcomplete
      have hjoin := hready.join (mem_put_cons.1 (List.mem_of_head? hhead)) (mem_put_cons.1 hlast)
        (put j l)
      rw [if_pos hcomplete, hcomplete]
      refine ⟨_, congrArg (fun q => Except.ok (_, some q)) hjoin, .inl ⟨?_, rfl⟩⟩
      rw [List.filter_append, hpre, hpost]
      rfl
    · have hkept' := arrive_kept hj hkept
      rw [arrive, if_neg hmem, if_neg hcomplete] at hkept'
      rw [if_neg hcomplete, Bool.eq_false_iff.2 hcomplete]
      exact ⟨_, rfl, .inr ⟨_, hone _ (hready.held.own hkept'), hready.held, htimer'⟩⟩

/-! ## Other packets and the timer -/

theorem chain_frag_iphdr {new : Frag} {r' : ReassData} {valid : Bool}
    (h : chainFrag r new = .ok (some (r', valid))) : r'.iphdr = r.iphdr ∧ r'.timer = r.timer := by
  unfold chainFrag at h
  cases hplace : place new none r.p true with
  | error e =>
      rw [hplace] at h
      cases h
  | ok x =>
      rw [hplace] at h
      cases x with
      | none => cases h
      | some placed =>
          cases hvalid : validate { r with p := placed.chain } new placed.valid placed.next with
          | error e =>
              change (validate { r with p := placed.chain } new placed.valid placed.next >>= _) = _ at h
              rw [hvalid] at h
              cases h
          | ok b =>
              change (validate { r with p := placed.chain } new placed.valid placed.next >>= _) = _ at h
              rw [hvalid] at h
              cases h
              exact ⟨rfl, rfl⟩

theorem join_frags_key (r : ReassData) (h : IpHdr) :
    addressesAndIdMatch (joinFrags r).hdr h = addressesAndIdMatch r.iphdr h := by
  unfold joinFrags
  split <;> rfl

/-- A packet with another key leaves the queue of the datagram alone. -/
theorem ip_reass_other {t : Nat} {out : Option Packet} (h : Queued c l t s)
    (hkey : addressesAndIdMatch p.hdr (c.pkt 0).hdr = false) (hroom : Room s p)
    (hret : ipReass s p = .ok (s', out)) :
    Queued c l t s' ∧ ∀ q ∈ out, addressesAndIdMatch q.hdr (c.pkt 0).hdr = false := by
  by_cases hhl : iphHl p.hdr * 4 = BitVec.ofNat 16 IP_HLEN
  · obtain ⟨pre, r, post, hgoes, hreass⟩ := ip_reass_goes hhl hroom
    have hnot : ∀ x : ReassData, addressesAndIdMatch x.iphdr p.hdr = true → c.own x = false := by
      intro x hx
      rw [Cut.own, match_congr hx]
      exact hkey
    have hr : addressesAndIdMatch r.iphdr p.hdr = true ∧
        s.datagrams.filter c.own = (pre ++ post).filter c.own := by
      cases hgoes with
      | new hnone => exact ⟨match_iff.2 ⟨rfl, rfl, rfl⟩, by rw [List.nil_append]⟩
      | @old _ _ r₀ hsplit hpre hkey' =>
          refine ⟨?_, ?_⟩
          · unfold copyHdr
            split
            · exact match_iff.2 ⟨rfl, rfl, rfl⟩
            · exact hkey'
          · rw [hsplit, List.filter_append,
              List.filter_cons_of_neg (Bool.eq_false_iff.1 (hnot _ hkey')),
              List.filter_append]
    have hsame : ∀ x : ReassData, x.iphdr = r.iphdr → ∀ n,
        Queued c l t ⟨pre ++ x :: post, n⟩ := by
      intro x hx n
      have hx' : c.own x = false := hnot x (by rw [hx]; exact hr.1)
      rw [Queued, List.filter_append, List.filter_cons_of_neg (Bool.eq_false_iff.1 hx'),
        ← List.filter_append, ← hr.2]
      exact h
    rw [hreass, add_frag_split] at hret
    cases hchain : chainFrag (markLast p.hdr r) (fragOf p) with
    | error e =>
        rw [hchain] at hret
        cases hret
    | ok x =>
        rw [hchain] at hret
        match x with
        | none =>
            cases hret
            exact ⟨hsame _ (mark_last_iphdr _ _) _, fun q hq => (by cases hq)⟩
        | some (r', false) =>
            cases hret
            refine ⟨hsame _ ((chain_frag_iphdr hchain).1.trans (mark_last_iphdr _ _)) _,
              fun q hq => (by cases hq)⟩
        | some (r', true) =>
            cases hret
            refine ⟨?_, fun q hq => ?_⟩
            · rw [Queued, ← hr.2]
              exact h
            · cases hq
              rw [join_frags_key, (chain_frag_iphdr hchain).1, mark_last_iphdr, match_congr hr.1]
              exact hkey
  · unfold ipReass at hret
    rw [if_pos hhl] at hret
    cases hret
    exact ⟨h, fun q hq => (by cases hq)⟩

/-- The timer of the datagram runs. -/
theorem ip_reass_tmr_queued {t : Nat} (h : Queued c l (t + 1) s) : Queued c l t (ipReassTmr s) := by
  have hloop : ∀ rs : List ReassData, (∀ r ∈ rs.filter c.own, 0 < r.timer) →
      (tmrLoop rs).1.filter c.own = (rs.filter c.own).map fun r => { r with timer := r.timer - 1 } := by
    intro rs
    induction rs with
    | nil => exact fun _ => rfl
    | cons r rest ih =>
        intro hpos
        have hown : c.own { r with timer := r.timer - 1 } = c.own r := rfl
        rw [tmrLoop]
        by_cases hr : c.own r = true
        · rw [List.filter_cons_of_pos hr] at hpos ⊢
          dsimp only
          rw [if_pos (hpos r List.mem_cons_self), List.filter_cons_of_pos (hown.trans hr),
            ih fun x hx => hpos x (List.mem_cons_of_mem _ hx)]
          rfl
        · rw [List.filter_cons_of_neg hr] at hpos ⊢
          dsimp only
          split
          · rw [List.filter_cons_of_neg (by rw [hown]; exact hr)]
            exact ih hpos
          · exact ih hpos
  rcases h with ⟨hnil, rfl⟩ | ⟨r, hone, hheld, htimer⟩
  · refine .inl ⟨?_, rfl⟩
    rw [show (ipReassTmr s).datagrams = (tmrLoop s.datagrams).1 from rfl, hloop _ (by simp [hnil]),
      hnil]
    rfl
  · have hpos : ∀ x ∈ s.datagrams.filter c.own, 0 < x.timer := by
      intro x hx
      rw [hone, List.mem_singleton] at hx
      rw [hx]
      omega
    refine .inr ⟨{ r with timer := r.timer - 1 }, ?_, ⟨hheld.chain, hheld.flag, hheld.len, hheld.hdr⟩,
      Nat.le_sub_of_add_le htimer⟩
    rw [show (ipReassTmr s).datagrams = (tmrLoop s.datagrams).1 from rfl, hloop _ hpos, hone]
    rfl

/-! ## Runs -/

/-- What happens to the reassembly: a packet arrives, or the timer goes off. -/
inductive Event where
  | frag (p : Packet)
  | tick

/-- A run in which there is room for all packets, and the datagrams that are made. -/
inductive Run : State → List Event → State → List Packet → Prop where
  | nil (s : State) : Run s [] s []
  | frag {s s' t : State} {p : Packet} {out : Option Packet} {evs : List Event} {outs : List Packet}
      (hroom : Room s p) (hret : ipReass s p = .ok (s', out)) (hrest : Run s' evs t outs) :
      Run s (.frag p :: evs) t (out.toList ++ outs)
  | tick {s t : State} {evs : List Event} {outs : List Packet}
      (hrest : Run (ipReassTmr s) evs t outs) : Run s (.tick :: evs) t outs

/-- The fragments of the datagram arrive in the given order, between packets with other keys and the
given number of ticks. -/
inductive Arrivals (c : Cut) : List Nat → Nat → List Event → Prop where
  | nil : Arrivals c [] 0 []
  | own {order : List Nat} {ticks : Nat} {evs : List Event} {j : Nat} (hj : j < c.n)
      (hrest : Arrivals c order ticks evs) : Arrivals c (j :: order) ticks (.frag (c.pkt j) :: evs)
  | other {order : List Nat} {ticks : Nat} {evs : List Event} {p : Packet}
      (hkey : addressesAndIdMatch p.hdr (c.pkt 0).hdr = false)
      (hrest : Arrivals c order ticks evs) : Arrivals c order ticks (.frag p :: evs)
  | tick {order : List Nat} {ticks : Nat} {evs : List Event}
      (hrest : Arrivals c order ticks evs) : Arrivals c order (ticks + 1) (.tick :: evs)

/-- The packets with the key of the datagram. -/
def Cut.ours (c : Cut) (outs : List Packet) : List Packet :=
  outs.filter fun q => addressesAndIdMatch q.hdr (c.pkt 0).hdr

theorem Cut.datagram_key (c : Cut) (made : List Nat) :
    addressesAndIdMatch (c.datagram made).hdr (c.pkt 0).hdr = true := by
  rw [Cut.datagram, join_frags_key]
  exact match_iff.2 ⟨rfl, rfl, rfl⟩

/-- What is made of the fragments of a datagram is what the library makes of their numbers. -/
theorem run_assembles {order : List Nat} {ticks : Nat} {evs : List Event} {outs : List Packet}
    (hrun : Run s evs s' outs) (harrivals : Arrivals c order ticks evs) (hkept : Kept c.n l)
    (hticks : ticks ≤ IP_REASS_MAXAGE) (h : Queued c l ticks s) :
    c.ours outs = (assemble c.n order l).2.map c.datagram ∧
      Queued c (assemble c.n order l).1 0 s' := by
  induction harrivals generalizing s l outs with
  | nil =>
      cases hrun
      exact ⟨rfl, h⟩
  | @own order ticks evs j hj _ ih =>
      cases hrun with
      | @frag _ s₁ _ _ out _ outs hroom hret hrest =>
          obtain ⟨s₂, hret', hqueued⟩ := ip_reass_own h hkept hj hticks hroom
          rw [hret] at hret'
          cases hret'
          obtain ⟨hrest', hend⟩ := ih hrest (arrive_kept hj hkept) hticks hqueued
          rw [assemble_cons, List.map_append, ← hrest']
          refine ⟨?_, hend⟩
          rw [Cut.ours, List.filter_append]
          congr 1
          cases (arrive c.n l j).2 with
          | none => rfl
          | some made =>
              rw [Option.map_some, Option.toList_some, Option.toList_some, List.map_singleton]
              exact List.filter_cons_of_pos (c.datagram_key made)
  | @other order ticks evs p hkey _ ih =>
      cases hrun with
      | @frag _ s₁ _ _ out _ outs hroom hret hrest =>
          obtain ⟨hqueued, hout⟩ := ip_reass_other h hkey hroom hret
          obtain ⟨hrest', hend⟩ := ih hrest hkept hticks hqueued
          refine ⟨?_, hend⟩
          rw [← hrest', Cut.ours, List.filter_append, Cut.ours]
          rw [filter_eq_nil_of_forall fun q hq => hout q (Option.mem_toList.1 hq), List.nil_append]
  | @tick order ticks evs _ ih =>
      cases hrun with
      | tick hrest => exact ih hrest hkept (Nat.le_of_succ_le hticks) (ip_reass_tmr_queued h)

end Labs.Jos.IpFrag
