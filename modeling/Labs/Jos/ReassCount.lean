import Labs.Jos.ReassRoom

/-!
# The books of the reassembly

What holds of the queue whatever packets arrive: the count of buffers is right and within its bound,
no two datagrams have one key, the fragments of a datagram are sorted, and the list is ordered by
age. Of the assertions on the queue only one can fail.
-/

namespace Labs.Jos.IpFrag

open Chksum

variable {s s' : State} {p : Packet} {r : ReassData} {rs : List ReassData} {h : IpHdr}

/-! ## An entry with a fragment in hand -/

/-- The state when a packet has found its entry `r`, which may be new. -/
structure Open (pre : List ReassData) (r : ReassData) (post : List ReassData) (n : Nat) : Prop where
  count : n = clens (pre ++ r :: post)
  pool : (pre ++ r :: post).length ≤ MEMP_NUM_REASSDATA
  keys : (pre ++ r :: post).Pairwise fun a b => addressesAndIdMatch a.iphdr b.iphdr = false
  ages : (pre ++ r :: post).Pairwise fun a b => b.timer ≤ a.timer
  chained : ∀ x ∈ pre ++ post, Chained x
  sorted : r.p.Pairwise fun a b => a.start < b.start
  timer : r.timer ≤ IP_REASS_MAXAGE

theorem pairwise_replace {α : Type} {R : α → α → Prop} {pre post : List α} {a b : α}
    (hl : ∀ x, R x a → R x b) (hr : ∀ x, R a x → R b x) (h : (pre ++ a :: post).Pairwise R) :
    (pre ++ b :: post).Pairwise R := by
  rw [List.pairwise_append, List.pairwise_cons] at h ⊢
  obtain ⟨hpre, ⟨ha, hpost⟩, hcross⟩ := h
  refine ⟨hpre, ⟨fun x hx => hr x (ha x hx), hpost⟩, fun x hx y hy => ?_⟩
  rcases List.mem_cons.1 hy with rfl | hy
  · exact hl x (hcross x hx a List.mem_cons_self)
  · exact hcross x hx y (List.mem_cons_of_mem _ hy)

theorem Sound.open (hs : Sound s) {pre post : List ReassData}
    (heq : s.datagrams = pre ++ r :: post) (hkey : addressesAndIdMatch r.iphdr h = true) :
    Open pre (copyHdr h r) post s.pbufcount := by
  have hr := hs.chained r (heq ▸ List.mem_append_right _ List.mem_cons_self)
  have hsame : (copyHdr h r).p = r.p ∧ (copyHdr h r).timer = r.timer ∧
      addressesAndIdMatch r.iphdr (copyHdr h r).iphdr = true := by
    unfold copyHdr
    split
    · exact ⟨rfl, rfl, hkey⟩
    · exact ⟨rfl, rfl, match_iff.2 ⟨rfl, rfl, rfl⟩⟩
  obtain ⟨hp, htimer, hmatch⟩ := hsame
  refine ⟨?_, ?_, ?_, ?_, fun x hx => hs.chained x ?_, ?_, ?_⟩
  · rw [hs.count, heq, clens, clens, List.map_append, List.map_append, List.map_cons, List.map_cons,
      ReassData.clen, ReassData.clen, hp]
  · have hpool := hs.pool
    rw [heq, List.length_append] at hpool
    rw [List.length_append]
    exact hpool
  · refine pairwise_replace (fun x hx => ?_) (fun x hx => ?_) (heq ▸ hs.keys)
    · rw [match_comm, ← match_congr hmatch, match_comm]
      exact hx
    · rw [← match_congr hmatch]
      exact hx
  · refine pairwise_replace (fun x hx => ?_) (fun x hx => ?_) (heq ▸ hs.ages)
    · rw [htimer]
      exact hx
    · rw [htimer]
      exact hx
  · rw [heq]
    rcases List.mem_append.1 hx with hx | hx
    · exact List.mem_append_left _ hx
    · exact List.mem_append_right _ (List.mem_cons_of_mem _ hx)
  · rw [hp]
    exact hr.sorted
  · rw [htimer]
    exact hr.timer

/-- A new entry is opened at the front. -/
theorem Sound.open_new (hs : Sound s) (hlen : s.datagrams.length < MEMP_NUM_REASSDATA)
    (hnone : ∀ x ∈ s.datagrams, addressesAndIdMatch x.iphdr h = false) :
    Open [] ⟨[], h, 0, false, IP_REASS_MAXAGE⟩ s.datagrams s.pbufcount := by
  refine ⟨?_, hlen, ?_, ?_, hs.chained, .nil, Nat.le_refl _⟩
  · rw [hs.count]
    exact (Nat.zero_add _).symm
  · refine List.pairwise_cons.2 ⟨fun x hx => ?_, hs.keys⟩
    rw [match_comm]
    exact hnone x hx
  · exact List.pairwise_cons.2 ⟨fun x hx => (hs.chained x hx).timer, hs.ages⟩

/-- A new entry is made without a failure, or not at all. -/
theorem Sound.enqueue (hs : Sound s) {clen : Nat} (hclen : 0 < clen)
    (hnone : ∀ x ∈ s.datagrams, addressesAndIdMatch x.iphdr h = false) :
    (∃ s', enqueueNewDatagram h clen s = .ok (s', false) ∧ Sound s') ∨
      ∃ rest n, enqueueNewDatagram h clen s =
          .ok (⟨⟨[], h, 0, false, IP_REASS_MAXAGE⟩ :: rest, n⟩, true) ∧
        Open [] ⟨[], h, 0, false, IP_REASS_MAXAGE⟩ rest n ∧ n ≤ s.pbufcount := by
  unfold enqueueNewDatagram
  by_cases hlen : s.datagrams.length < MEMP_NUM_REASSDATA
  · rw [if_pos hlen]
    exact .inr ⟨_, _, rfl, hs.open_new hlen hnone, Nat.le_refl _⟩
  · have hfree : ¬ Blocked h clen s.datagrams := by
      intro ⟨pre, r, post, heq, hkey, _⟩
      rw [hnone r (heq ▸ List.mem_append_right _ List.mem_cons_self)] at hkey
      cases hkey
    obtain ⟨rs, rest, heq, -, hok⟩ := (hs.remove_oldest (h := h) hclen).2 hfree
    have hs' := hs.take heq
    have hcount := hs.count
    rw [heq, clens_append] at hcount
    rw [if_neg hlen, hok]
    by_cases hroom : clen ≤ clens rest ∧ rs.length < MEMP_NUM_REASSDATA
    · refine .inr ⟨rs, clens rs, if_pos hroom, hs'.open_new hroom.2 fun x hx => ?_, ?_⟩
      · exact hnone x (heq ▸ List.mem_append_left _ hx)
      · exact hcount ▸ Nat.le_add_right _ _
    · exact .inl ⟨_, if_neg hroom, hs'⟩

/-- An entry is found, or there is none. -/
theorem Sound.find (hs : Sound s) {clen : Nat} (hclen : 0 < clen) :
    (∃ s', findDatagram s h clen = .ok (s', none) ∧ Sound s') ∨
      ∃ pre r post n, findDatagram s h clen = .ok (⟨pre ++ r :: post, n⟩, some pre.length) ∧
        Open pre r post n ∧ n ≤ s.pbufcount := by
  unfold findDatagram
  cases hfind : s.datagrams.findIdx? fun r => addressesAndIdMatch r.iphdr h with
  | some k =>
      obtain ⟨pre, r, post, hsplit, rfl, -, hkey, hmodify⟩ := find_split hfind (copyHdr h)
      dsimp only
      rw [hmodify]
      exact .inr ⟨pre, _, post, _, rfl, hs.open hsplit hkey, Nat.le_refl _⟩
  | none =>
      dsimp only
      rcases hs.enqueue hclen (List.findIdx?_eq_none_iff.1 hfind) with
        ⟨s', hmade, hs'⟩ | ⟨rest, n, hmade, ho, hle⟩
      · rw [hmade]
        exact .inl ⟨s', rfl, hs'⟩
      · rw [hmade]
        exact .inr ⟨[], _, rest, n, rfl, ho, hle⟩

/-! ## The place of a fragment -/

/-- A fragment that does not begin before the end of the one in front of the chain is put in its
place, or it is thrown away because of others. -/
theorem place_spec {new : Frag} {chain : List Frag} {prev : Option Frag} {valid : Bool}
    (hprev : ∀ f ∈ prev, f.stop ≤ new.start) (hsorted : chain.Pairwise fun a b => a.start < b.start) :
    ∃ placed, place new prev chain valid = .ok placed ∧ (placed = none → chain ≠ []) ∧
      ∀ x ∈ placed, x.chain.Perm (new :: chain) ∧ x.chain.Pairwise fun a b => a.start < b.start := by
  induction chain generalizing prev valid with
  | nil =>
      have hone : [new].Perm [new] ∧ [new].Pairwise fun a b => a.start < b.start :=
        ⟨.refl _, List.pairwise_singleton _ _⟩
      cases prev with
      | none =>
          refine ⟨some _, rfl, fun h => (by cases h), fun x hx => ?_⟩
          cases hx
          exact hone
      | some f =>
          refine ⟨some _, if_pos (hprev f rfl), fun h => (by cases h), fun x hx => ?_⟩
          cases hx
          exact hone
  | cons q rest ih =>
      obtain ⟨hq, hrest⟩ := List.pairwise_cons.1 hsorted
      have hthrown : ∀ x ∈ (none : Option Placed), x.chain.Perm (new :: q :: rest) ∧
          x.chain.Pairwise fun a b => a.start < b.start := fun x hx => by cases hx
      rw [place_cons]
      by_cases hbefore : new.start < q.start
      · rw [if_pos hbefore]
        split
        · exact ⟨none, rfl, fun _ => List.cons_ne_nil _ _, hthrown⟩
        · refine ⟨some _, rfl, fun h => (by cases h), fun x hx => ?_⟩
          cases hx
          refine ⟨.refl _, List.pairwise_cons.2 ⟨fun y hy => ?_, hsorted⟩⟩
          rcases List.mem_cons.1 hy with rfl | hy
          · exact hbefore
          · exact BitVec.lt_trans hbefore (hq y hy)
      · rw [if_neg hbefore]
        by_cases hsame : new.start = q.start
        · rw [if_pos hsame]
          exact ⟨none, rfl, fun _ => List.cons_ne_nil _ _, hthrown⟩
        · rw [if_neg hsame]
          by_cases hover : new.start < q.stop
          · rw [if_pos hover]
            exact ⟨none, rfl, fun _ => List.cons_ne_nil _ _, hthrown⟩
          · have hbehind : q.start < new.start := by
              have hne : ¬ new.start.toNat = q.start.toNat := fun heq =>
                hsame (BitVec.eq_of_toNat_eq heq)
              rw [BitVec.lt_def] at hbefore ⊢
              omega
            have hnext : ∀ f ∈ some q, f.stop ≤ new.start := by
              intro f hf
              cases hf
              exact BitVec.not_lt.1 hover
            obtain ⟨placed, hplaced, -, hchain⟩ : ∃ placed, place new (some q) rest
                (valid && prev.all fun prev => prev.stop == q.start) = .ok placed ∧ _ ∧ _ :=
              ih hnext hrest
            rw [if_neg hover, hplaced]
            refine ⟨_, rfl, fun _ => List.cons_ne_nil _ _, fun x hx => ?_⟩
            obtain ⟨y, hy, rfl⟩ := Option.map_eq_some_iff.1 hx
            obtain ⟨hperm, hsorted'⟩ := hchain y hy
            refine ⟨(hperm.cons q).trans (.swap _ _ _),
              List.pairwise_cons.2 ⟨fun z hz => ?_, hsorted'⟩⟩
            rcases List.mem_cons.1 (hperm.mem_iff.1 hz) with rfl | hz
            · exact hbehind
            · exact hq z hz

/-- The assertions about a complete datagram. -/
def Incomplete (e : String) : Prop :=
  e = "sanity check" ∨ e = "validate_datagram:datagram end!=datagram len"

theorem validate_fails {new : Frag} {valid : Bool} {next : List Frag} {e : String}
    (hret : validate r new valid next = .error e) : Incomplete e := by
  unfold validate at hret
  split at hret
  · cases hret
  · split at hret
    · cases hret
    · split at hret
      · cases hret
      · dsimp only at hret
        split at hret
        · cases hret
        · split at hret
          · cases hret
            exact .inl rfl
          · split at hret
            · cases hret
              exact .inr rfl
            · cases hret

/-- A fragment is put in the queue of its datagram, or thrown away. -/
theorem chain_frag_spec (new : Frag) (hsorted : r.p.Pairwise fun a b => a.start < b.start)
    (htimer : r.timer ≤ IP_REASS_MAXAGE) :
    (∃ e, chainFrag r new = .error e ∧ Incomplete e) ∨ chainFrag r new = .ok none ∧ r.p ≠ [] ∨
      ∃ r' valid, chainFrag r new = .ok (some (r', valid)) ∧ r'.iphdr = r.iphdr ∧
        r'.timer = r.timer ∧ Chained r' ∧ r'.clen = r.clen + new.clen := by
  obtain ⟨placed, hplaced, hthrown, hchain⟩ : ∃ placed, place new none r.p true = .ok placed ∧ _ ∧ _ :=
    place_spec (fun f hf => by cases hf) hsorted
  unfold chainFrag
  rw [hplaced]
  cases placed with
  | none => exact .inr (.inl ⟨rfl, hthrown rfl⟩)
  | some x =>
      obtain ⟨hperm, hsorted'⟩ := hchain x rfl
      cases hvalid : validate { r with p := x.chain } new x.valid x.next with
      | error e =>
          refine .inl ⟨e, ?_, validate_fails hvalid⟩
          change (validate { r with p := x.chain } new x.valid x.next >>= _) = _
          rw [hvalid]
          rfl
      | ok b =>
          refine .inr (.inr ⟨{ r with p := x.chain }, b, ?_, rfl, rfl,
            ⟨fun hnil => ?_, hsorted', htimer⟩, ?_⟩)
          · change (validate { r with p := x.chain } new x.valid x.next >>= _) = _
            rw [hvalid]
            rfl
          · rw [show x.chain = [] from hnil] at hperm
            exact List.cons_ne_nil _ _ hperm.symm.eq_nil
          · rw [ReassData.clen, (hperm.map Frag.clen).sum_nat, List.map_cons, List.sum_cons,
              Nat.add_comm]
            rfl

/-! ## One step -/

theorem clens_split (pre post : List ReassData) (r : ReassData) :
    clens (pre ++ r :: post) = clens (pre ++ post) + r.clen := by
  rw [clens_append, clens_append, show r :: post = [r] ++ post from rfl, clens_append, clens_singleton]
  omega

theorem join_frags_clen (hne : r.p ≠ []) : pbufClen (joinFrags r) = r.clen := by
  have hrest : ∀ fs : List Frag,
      (fs.flatMap fun f => f.first :: f.more).length = (fs.map Frag.clen).sum := by
    intro fs
    induction fs with
    | nil => rfl
    | cons f fs ih =>
        rw [List.flatMap_cons, List.length_append, ih, List.map_cons, List.sum_cons]
        rfl
  unfold joinFrags ReassData.clen
  cases hp : r.p with
  | nil => exact absurd hp hne
  | cons f fs =>
      rw [pbufClen, List.length_append, hrest, List.map_cons, List.sum_cons, Frag.clen]
      omega

/-- The entry goes back into the queue. -/
theorem Open.close {pre post : List ReassData} {r' : ReassData} {n : Nat} (ho : Open pre r post n)
    (hhdr : r'.iphdr = r.iphdr) (htimer : r'.timer = r.timer) (hchained : Chained r')
    (hmax : clens (pre ++ r' :: post) ≤ IP_REASS_MAX_PBUFS) :
    Sound ⟨pre ++ r' :: post, clens (pre ++ r' :: post)⟩ := by
  refine ⟨rfl, hmax, ?_, ?_, ?_, fun x hx => ?_⟩
  · have hpool := ho.pool
    rw [List.length_append] at hpool ⊢
    exact hpool
  · refine pairwise_replace (fun x hx => ?_) (fun x hx => ?_) ho.keys
    · rw [hhdr]
      exact hx
    · rw [hhdr]
      exact hx
  · refine pairwise_replace (fun x hx => ?_) (fun x hx => ?_) ho.ages
    · rw [htimer]
      exact hx
    · rw [htimer]
      exact hx
  · rcases List.mem_append.1 hx with hx | hx
    · exact ho.chained x (List.mem_append_left _ hx)
    · rcases List.mem_cons.1 hx with rfl | hx
      · exact hchained
      · exact ho.chained x (List.mem_append_right _ hx)

/-- The entry leaves the queue. -/
theorem Open.dequeue {pre post : List ReassData} {n : Nat} (ho : Open pre r post n)
    (hmax : n ≤ IP_REASS_MAX_PBUFS) : Sound ⟨pre ++ post, clens (pre ++ post)⟩ := by
  have hsub : (pre ++ post).Sublist (pre ++ r :: post) :=
    (List.Sublist.refl pre).append (List.sublist_cons_self r post)
  have hcount := ho.count
  rw [clens_split] at hcount
  exact ⟨rfl, Nat.le_trans (hcount ▸ Nat.le_add_right _ _) hmax, hsub.length_le.trans ho.pool,
    ho.keys.sublist hsub, ho.ages.sublist hsub, ho.chained⟩

/-- A packet in its entry. -/
theorem Open.add_frag {pre post : List ReassData} {n : Nat} (ho : Open pre r post n)
    (hmax : n + pbufClen p ≤ IP_REASS_MAX_PBUFS) :
    (∃ e, addFrag ⟨pre ++ r :: post, n⟩ pre.length p = .error e ∧ Incomplete e) ∨
      ∃ s' out, addFrag ⟨pre ++ r :: post, n⟩ pre.length p = .ok (s', out) ∧ Sound s' := by
  have hsorted : (markLast p.hdr r).p.Pairwise fun a b => a.start < b.start := by
    rw [mark_last_p]
    exact ho.sorted
  have htimer : (markLast p.hdr r).timer ≤ IP_REASS_MAXAGE := by
    rw [mark_last_timer]
    exact ho.timer
  have hclen : (markLast p.hdr r).clen = r.clen := by
    rw [ReassData.clen, mark_last_p]
    rfl
  have hnew : (fragOf p).clen = pbufClen p := rfl
  have hcount := ho.count
  rw [clens_split] at hcount
  rw [add_frag_split]
  rcases chain_frag_spec (fragOf p) hsorted htimer with
    ⟨e, hchain, he⟩ | ⟨hchain, hne⟩ | ⟨r', valid, hchain, hhdr, htimer', hchained, hclen'⟩
  · rw [hchain]
    exact .inl ⟨e, rfl, he⟩
  · have hsame : clens (pre ++ markLast p.hdr r :: post) = n := by
      rw [clens_split, hclen, hcount]
    rw [hchain]
    refine .inr ⟨_, _, rfl, ?_⟩
    rw [Nat.add_sub_cancel, ← hsame]
    exact ho.close (mark_last_iphdr _ _) (mark_last_timer _ _) ⟨hne, hsorted, htimer⟩ (by omega)
  · rw [hchain]
    refine .inr ?_
    cases valid with
    | false =>
        have hsame : clens (pre ++ r' :: post) = n + pbufClen p := by
          rw [clens_split, hclen', hclen, hcount, hnew, Nat.add_assoc]
        refine ⟨_, _, rfl, ?_⟩
        rw [← hsame]
        exact ho.close (hhdr.trans (mark_last_iphdr _ _)) (htimer'.trans (mark_last_timer _ _)) hchained
          (by omega)
    | true =>
        have hsame : n + pbufClen p - pbufClen (joinFrags r') = clens (pre ++ post) := by
          rw [join_frags_clen hchained.ne, hclen', hclen, hnew]
          omega
        refine ⟨_, _, rfl, ?_⟩
        rw [hsame]
        exact ho.dequeue (by omega)

/-- With this packet in hand the removal of old datagrams fails. -/
def Overflows (s : State) (p : Packet) : Prop :=
  iphHl p.hdr * 4 = BitVec.ofNat 16 IP_HLEN ∧ IP_REASS_MAX_PBUFS < s.pbufcount + pbufClen p ∧
    Blocked p.hdr (pbufClen p) s.datagrams

/-- A packet keeps the books right if no assertion fails. -/
theorem Sound.reass (hs : Sound s) (p : Packet) :
    Overflows s p ∧ ipReass s p = .error "prev != ipr" ∨
      ¬ Overflows s p ∧ ((∃ e, ipReass s p = .error e ∧ Incomplete e) ∨
        ∃ s' out, ipReass s p = .ok (s', out) ∧ Sound s') := by
  have hclen : 0 < pbufClen p := Nat.succ_pos _
  unfold ipReass
  by_cases hhl : iphHl p.hdr * 4 = BitVec.ofNat 16 IP_HLEN
  · rw [if_neg (not_not.2 hhl)]
    rcases hs.make_room (h := p.hdr) hclen with ⟨hover, hmake⟩ | ⟨hover, s₁, room, hmake, hs₁, hroom⟩
    · rw [hmake]
      exact .inl ⟨⟨hhl, hover⟩, rfl⟩
    · refine .inr ⟨fun hc => hover hc.2, ?_⟩
      rw [hmake]
      cases room with
      | false => exact .inr ⟨_, _, rfl, hs₁⟩
      | true =>
          have hfits := hroom rfl
          change (∃ e, (findDatagram s₁ p.hdr (pbufClen p) >>= _) = _ ∧ _) ∨
            ∃ s' out, (findDatagram s₁ p.hdr (pbufClen p) >>= _) = _ ∧ _
          rcases hs₁.find (h := p.hdr) hclen with ⟨s₂, hfind, hs₂⟩ | ⟨pre, r, post, n, hfind, ho, hle⟩
          · rw [hfind]
            exact .inr ⟨_, _, rfl, hs₂⟩
          · rw [hfind]
            exact ho.add_frag (by omega)
  · rw [if_pos hhl]
    exact .inr ⟨fun hc => hhl hc.1, .inr ⟨_, _, rfl, hs⟩⟩

/-! ## The timer -/

theorem mem_tmr_loop {x : ReassData} (hx : x ∈ (tmrLoop rs).1) :
    ∃ r ∈ rs, 0 < r.timer ∧ x = { r with timer := r.timer - 1 } := by
  induction rs with
  | nil => exact absurd hx List.not_mem_nil
  | cons r rest ih =>
      rw [tmrLoop] at hx
      dsimp only at hx
      split at hx
      · rename_i hpos
        rcases List.mem_cons.1 hx with rfl | hx
        · exact ⟨r, List.mem_cons_self, hpos, rfl⟩
        · obtain ⟨y, hy, hy'⟩ := ih hx
          exact ⟨y, List.mem_cons_of_mem _ hy, hy'⟩
      · obtain ⟨y, hy, hy'⟩ := ih hx
        exact ⟨y, List.mem_cons_of_mem _ hy, hy'⟩

theorem tmr_loop_length (rs : List ReassData) : (tmrLoop rs).1.length ≤ rs.length := by
  induction rs with
  | nil => exact Nat.le_refl _
  | cons r rest ih =>
      rw [tmrLoop]
      dsimp only
      split
      · exact Nat.succ_le_succ ih
      · exact Nat.le_succ_of_le ih

theorem tmr_loop_clens (rs : List ReassData) : clens (tmrLoop rs).1 + (tmrLoop rs).2 = clens rs := by
  induction rs with
  | nil => rfl
  | cons r rest ih =>
      have hcons : ∀ (x : ReassData) (xs : List ReassData), clens (x :: xs) = x.clen + clens xs :=
        fun _ _ => rfl
      rw [tmrLoop]
      dsimp only
      split
      · rw [hcons, hcons, ← ih, ← Nat.add_assoc]
        rfl
      · rw [hcons, ← ih]
        dsimp only
        omega

/-- What holds of all pairs still holds of those that are left. -/
theorem tmr_loop_pairwise {R : ReassData → ReassData → Prop}
    (hR : ∀ a b, R a b → R { a with timer := a.timer - 1 } { b with timer := b.timer - 1 })
    (hrs : rs.Pairwise R) : (tmrLoop rs).1.Pairwise R := by
  induction rs with
  | nil => exact .nil
  | cons r rest ih =>
      obtain ⟨hr, hrest⟩ := List.pairwise_cons.1 hrs
      rw [tmrLoop]
      dsimp only
      split
      · refine List.pairwise_cons.2 ⟨fun x hx => ?_, ih hrest⟩
        obtain ⟨y, hy, -, rfl⟩ := mem_tmr_loop hx
        exact hR _ _ (hr y hy)
      · exact ih hrest

/-- The timer keeps the books right. -/
theorem Sound.tmr (hs : Sound s) : Sound (ipReassTmr s) := by
  have hclens := tmr_loop_clens s.datagrams
  have hcount : s.pbufcount - (tmrLoop s.datagrams).2 = clens (tmrLoop s.datagrams).1 := by
    rw [hs.count, ← hclens, Nat.add_sub_cancel]
  refine ⟨hcount, Nat.le_trans (Nat.sub_le _ _) hs.max, (tmr_loop_length _).trans hs.pool,
    tmr_loop_pairwise (fun _ _ h => h) hs.keys,
    tmr_loop_pairwise (fun _ _ h => Nat.sub_le_sub_right h 1) hs.ages, fun x hx => ?_⟩
  obtain ⟨y, hy, -, rfl⟩ := mem_tmr_loop hx
  have h := hs.chained y hy
  exact ⟨h.ne, h.sorted, Nat.le_trans (Nat.sub_le _ _) h.timer⟩

/-! ## Runs -/

/-- The states that are reached from the empty queue, whatever arrives. -/
inductive Reach : State → Prop where
  | start : Reach ⟨[], 0⟩
  | packet {s s' : State} {p : Packet} {out : Option Packet} (hreach : Reach s)
      (hret : ipReass s p = .ok (s', out)) : Reach s'
  | tick {s : State} (hreach : Reach s) : Reach (ipReassTmr s)

theorem Reach.sound (hreach : Reach s) : Sound s := by
  induction hreach with
  | start => exact sound_init
  | @packet s s' p out _ hret ih =>
      rcases ih.reass p with ⟨-, hfail⟩ | ⟨-, ⟨e, hfail, -⟩ | ⟨s₁, out', hok, hs₁⟩⟩
      · rw [hret] at hfail
        cases hfail
      · rw [hret] at hfail
        cases hfail
      · rw [hret] at hok
        cases hok
        exact hs₁
  | tick _ ih => exact ih.tmr

/-- After enough ticks without packets nothing is left. -/
theorem Sound.emptied (hs : Sound s) {n : Nat} (htimer : ∀ r ∈ s.datagrams, r.timer ≤ n) :
    ipReassTmr^[n + 1] s = ⟨[], 0⟩ := by
  induction n generalizing s with
  | zero =>
      have hnil : (tmrLoop s.datagrams).1 = [] := by
        refine List.eq_nil_iff_forall_not_mem.2 fun x hx => ?_
        obtain ⟨r, hr, hpos, -⟩ := mem_tmr_loop hx
        exact absurd (htimer r hr) (Nat.not_le_of_lt hpos)
      have hcount := hs.tmr.count
      rw [show (ipReassTmr s).datagrams = [] from hnil] at hcount
      change ipReassTmr s = _
      rw [show ipReassTmr s = ⟨(ipReassTmr s).datagrams, (ipReassTmr s).pbufcount⟩ from rfl, hcount]
      exact congrArg (State.mk · _) hnil
  | succ n ih =>
      rw [Function.iterate_succ_apply]
      refine ih hs.tmr fun x hx => ?_
      obtain ⟨r, hr, -, rfl⟩ := mem_tmr_loop hx
      exact Nat.sub_le_of_le_add (htimer r hr)

/-- Whatever packets and ticks come, the books are right, and after four ticks in a row the queue is
empty. -/
theorem ip_reass_sound (hreach : Reach s) :
    Sound s ∧ ipReassTmr^[IP_REASS_MAXAGE + 1] s = ⟨[], 0⟩ :=
  ⟨hreach.sound, hreach.sound.emptied fun r hr => (hreach.sound.chained r hr).timer⟩

/-- A packet of five buffers with more fragments behind it. -/
def fiveBuffers (id offset : Half) : Packet :=
  ⟨⟨htons 0x4500, htons 60, id, htons (IP_MF ||| offset), htons 0x4011, 0, 0x0100000a, 0x0200000a⟩,
    List.replicate 8 0, List.replicate 4 (List.replicate 8 0)⟩

/-- A queue that is full: fragments of two datagrams. -/
def fullQueue : State :=
  ⟨[⟨[⟨0, 40, List.replicate 8 0, List.replicate 4 (List.replicate 8 0)⟩], (fiveBuffers 2 0).hdr, 0,
      false, IP_REASS_MAXAGE⟩,
    ⟨[⟨0, 40, List.replicate 8 0, List.replicate 4 (List.replicate 8 0)⟩], (fiveBuffers 1 0).hdr, 0,
      false, IP_REASS_MAXAGE⟩], 10⟩

theorem full_queue_reach : Reach fullQueue :=
  .packet (.packet .start (rfl : ipReass _ (fiveBuffers 1 0) = .ok (_, none)))
    (rfl : ipReass _ (fiveBuffers 2 0) = .ok (fullQueue, none))

theorem ip_reass_sound_full :
    Sound fullQueue ∧ ipReassTmr^[IP_REASS_MAXAGE + 1] fullQueue = ⟨[], 0⟩ :=
  ip_reass_sound full_queue_reach

/-! ## What fails -/

/-- Of the assertions on the queue only one can fail: with a packet in hand whose entry comes behind
another one and in front of too few buffers. -/
theorem ip_reass_fails (hreach : Reach s) (p : Packet) :
    (ipReass s p = .error "prev != ipr" ↔ iphHl p.hdr * 4 = BitVec.ofNat 16 IP_HLEN ∧
      IP_REASS_MAX_PBUFS < s.pbufcount + pbufClen p ∧
      Blocked p.hdr (pbufClen p) s.datagrams) ∧
    ∀ e, ipReass s p = .error e → e = "prev != ipr" ∨ Incomplete e := by
  have hnot : ∀ {e : String}, Incomplete e → e ≠ "prev != ipr" := by
    intro e he
    rcases he with rfl | rfl <;> decide
  rcases hreach.sound.reass p with ⟨hover, hret⟩ | ⟨hover, ⟨e, hret, he⟩ | ⟨s', out, hret, -⟩⟩
  · refine ⟨⟨fun _ => hover, fun _ => hret⟩, fun e he => .inl ?_⟩
    rw [hret] at he
    exact (Except.error.inj he).symm
  · refine ⟨⟨fun hfail => ?_, fun hc => absurd hc hover⟩, fun e' he' => .inr ?_⟩
    · rw [hret] at hfail
      exact absurd (Except.error.inj hfail) (hnot he)
    · rw [hret] at he'
      exact Except.error.inj he' ▸ he
  · rw [hret]
    exact ⟨⟨fun hfail => (by cases hfail), fun hc => absurd hc hover⟩, fun e he => (by cases he)⟩

/-- The next fragment of the older datagram is in the way of itself. -/
theorem ip_reass_fails_full : ipReass fullQueue (fiveBuffers 1 5) = .error "prev != ipr" :=
  (ip_reass_fails full_queue_reach (fiveBuffers 1 5)).1.2 ⟨by decide, by decide,
    [_], _, [], rfl, by decide, List.cons_ne_nil _ _, by decide⟩

/-- In a full queue the oldest datagrams are given up, never the one of the packet and never more than
it takes, and then the packet arrives in the queue that is left if there is room in it. -/
theorem ip_reass_gives_up (hreach : Reach s) (p : Packet)
    (hhl : iphHl p.hdr * 4 = BitVec.ofNat 16 IP_HLEN)
    (hfull : IP_REASS_MAX_PBUFS < s.pbufcount + pbufClen p)
    (hfree : ¬ Blocked p.hdr (pbufClen p) s.datagrams) :
    ∃ rs rest, s.datagrams = rs ++ rest ∧ GivenUp p.hdr (pbufClen p) rs rest ∧
      ipReass s p =
        if clens rs + pbufClen p ≤ IP_REASS_MAX_PBUFS then ipReass ⟨rs, clens rs⟩ p
        else .ok (⟨rs, clens rs⟩, none) := by
  have hs := hreach.sound
  have hclen : 0 < pbufClen p := Nat.succ_pos _
  obtain ⟨rs, rest, heq, hgiven, hok⟩ := (hs.remove_oldest (h := p.hdr) hclen).2 hfree
  have hcount := hs.count
  rw [heq, clens_append] at hcount
  refine ⟨rs, rest, heq, hgiven, ?_⟩
  have hmake : makeRoom s p.hdr (pbufClen p) =
      .ok (⟨rs, clens rs⟩, decide (clens rest ≠ 0 ∧ clens rs + pbufClen p ≤ IP_REASS_MAX_PBUFS)) := by
    unfold makeRoom
    rw [if_neg (Nat.not_le_of_lt hfull)]
    rw [hok]
    rfl
  by_cases hroom : clens rs + pbufClen p ≤ IP_REASS_MAX_PBUFS
  · have hmake' : makeRoom ⟨rs, clens rs⟩ p.hdr (pbufClen p) = .ok (⟨rs, clens rs⟩, true) :=
      if_pos hroom
    rw [decide_eq_true ⟨by omega, hroom⟩] at hmake
    rw [if_pos hroom]
    unfold ipReass
    rw [if_neg (not_not.2 hhl), if_neg (not_not.2 hhl), hmake, hmake']
  · rw [decide_eq_false fun hc => hroom hc.2] at hmake
    rw [if_neg hroom]
    unfold ipReass
    rw [if_neg (not_not.2 hhl), hmake]
    rfl

/-- The next fragment of the newer datagram puts the older one out. -/
theorem ip_reass_gives_up_full : ∃ rs rest, fullQueue.datagrams = rs ++ rest ∧
    GivenUp (fiveBuffers 2 5).hdr 5 rs rest ∧
      ipReass fullQueue (fiveBuffers 2 5) =
        if clens rs + 5 ≤ IP_REASS_MAX_PBUFS then ipReass ⟨rs, clens rs⟩ (fiveBuffers 2 5)
        else .ok (⟨rs, clens rs⟩, none) := by
  refine ip_reass_gives_up full_queue_reach (fiveBuffers 2 5) (by decide) (by decide) ?_
  intro ⟨pre, r, post, heq, hkey, hpre, _⟩
  match pre with
  | [] => exact hpre rfl
  | [x] =>
      rw [← (List.cons.inj (List.cons.inj heq).2).1] at hkey
      exact absurd hkey (by decide)
  | x :: y :: pre =>
      have hnil := (List.cons.inj (List.cons.inj heq).2).2
      cases pre <;> cases hnil

end Labs.Jos.IpFrag
