import Labs.Jos.ReassRun

/-!
# Making room for fragments

The search for the oldest datagram gives the entry behind the last one as its predecessor, so that
it can free only the last one. In a list that is ordered by age the oldest datagram is the last one
that the fragment does not belong to: the removal goes on from the end of the list until enough
buffers are free, or until it comes to the entry of the fragment.
-/

namespace Labs.Jos.IpFrag

open Chksum

variable {s s' : State} {r : ReassData} {rs : List ReassData} {h : IpHdr}

/-! ## The invariant -/

/-- The buffers of some datagrams. -/
def clens (rs : List ReassData) : Nat := (rs.map ReassData.clen).sum

/-- The queue of a datagram. -/
structure Chained (r : ReassData) : Prop where
  ne : r.p ≠ []
  sorted : r.p.Pairwise fun a b => a.start < b.start
  timer : r.timer ≤ IP_REASS_MAXAGE

/-- What holds between packets. -/
structure Sound (s : State) : Prop where
  count : s.pbufcount = clens s.datagrams
  max : s.pbufcount ≤ IP_REASS_MAX_PBUFS
  pool : s.datagrams.length ≤ MEMP_NUM_REASSDATA
  keys : s.datagrams.Pairwise fun a b => addressesAndIdMatch a.iphdr b.iphdr = false
  ages : s.datagrams.Pairwise fun a b => b.timer ≤ a.timer
  chained : ∀ r ∈ s.datagrams, Chained r

theorem sound_init : Sound ⟨[], 0⟩ :=
  ⟨rfl, Nat.zero_le _, Nat.zero_le _, .nil, .nil, fun _ hr => absurd hr List.not_mem_nil⟩

theorem clens_append (rs rs' : List ReassData) : clens (rs ++ rs') = clens rs + clens rs' := by
  rw [clens, List.map_append, List.sum_append]
  rfl

theorem clens_singleton (r : ReassData) : clens [r] = r.clen := Nat.add_zero _

/-- The last datagrams may be taken away. -/
theorem Sound.take (hs : Sound s) {rest : List ReassData} (heq : s.datagrams = rs ++ rest) :
    Sound ⟨rs, clens rs⟩ := by
  have hcount := hs.count
  have hmax := hs.max
  have hpool := hs.pool
  have hkeys := hs.keys
  have hages := hs.ages
  rw [heq] at hpool hkeys hages
  rw [heq, clens_append] at hcount
  rw [List.length_append] at hpool
  exact ⟨rfl, Nat.le_trans (by dsimp only; omega) hmax, Nat.le_trans (Nat.le_add_right _ _) hpool,
    (List.pairwise_append.1 hkeys).1, (List.pairwise_append.1 hages).1,
    fun r hr => hs.chained r (heq ▸ List.mem_append_left _ hr)⟩

/-! ## The oldest datagram -/

/-- The position and the timer of the last datagram with another key, from position `i` on. -/
def lastOther (h : IpHdr) : List ReassData → Nat → Option (Nat × Nat)
  | [], _ => none
  | r :: rest, i =>
      (lastOther h rest (i + 1)).or
        (if addressesAndIdMatch r.iphdr h then none else some (i, r.timer))

theorem last_other_append (rs : List ReassData) (r : ReassData) (i : Nat) :
    lastOther h (rs ++ [r]) i =
      if addressesAndIdMatch r.iphdr h then lastOther h rs i
      else some (i + rs.length, r.timer) := by
  induction rs generalizing i with
  | nil =>
      simp only [List.nil_append, lastOther, Option.none_or, List.length_nil, Nat.add_zero]
  | cons x rest ih =>
      rw [List.cons_append, lastOther, ih, lastOther]
      split
      · rfl
      · rw [Option.some_or, List.length_cons, Nat.add_right_comm, Nat.add_assoc]

/-- The number of datagrams with another key. -/
def others (h : IpHdr) (rs : List ReassData) : Nat :=
  rs.countP fun r => !addressesAndIdMatch r.iphdr h

/-- The search in a list that is ordered by age. -/
theorem scan_eq (i : Nat) (sc : Scan) (hages : rs.Pairwise fun a b => b.timer ≤ a.timer)
    (hsc : ∀ x ∈ sc.oldest, ∀ r ∈ rs, r.timer ≤ x.2) :
    scan h rs i sc =
      ⟨(lastOther h rs i).or sc.oldest,
        if 2 ≤ rs.length then some (i + rs.length - 2) else sc.prev, sc.others + others h rs⟩ := by
  induction rs generalizing i sc with
  | nil => rfl
  | cons r rest ih =>
      obtain ⟨hfirst, hrest⟩ := List.pairwise_cons.1 hages
      have hprev : ∀ prev : Option Nat,
          (if 2 ≤ rest.length then some (i + 1 + rest.length - 2)
            else if rest = [] then prev else some i) =
          if 2 ≤ (r :: rest).length then some (i + (r :: rest).length - 2) else prev := by
        intro prev
        match rest with
        | [] => rfl
        | [_] => rfl
        | _ :: _ :: rest =>
            simp only [List.length_cons]
            rw [if_pos (by omega), if_pos (by omega)]
            congr 1
            omega
      have hstep : ∀ sc : Scan, (∀ x ∈ sc.oldest, ∀ y ∈ rest, y.timer ≤ x.2) →
          scan h rest (i + 1) (if rest = [] then sc else { sc with prev := some i }) =
            ⟨(lastOther h rest (i + 1)).or sc.oldest,
              if 2 ≤ (r :: rest).length then some (i + (r :: rest).length - 2) else sc.prev,
              sc.others + others h rest⟩ := by
        intro sc hsc
        rw [← hprev]
        by_cases hnil : rest = []
        · rw [if_pos hnil, if_pos hnil]
          exact ih _ _ hrest hsc
        · rw [if_neg hnil, if_neg hnil]
          exact ih _ { sc with prev := some i } hrest hsc
      rw [scan, lastOther, Option.or_assoc]
      by_cases hkey : addressesAndIdMatch r.iphdr h = true
      · have hothers : others h (r :: rest) = others h rest :=
          List.countP_cons_of_neg (by rw [hkey]; decide)
        rw [if_pos hkey, if_pos hkey, Option.none_or, hothers]
        exact hstep sc fun x hx y hy => hsc x hx y (List.mem_cons_of_mem _ hy)
      · have hothers : others h (r :: rest) = others h rest + 1 :=
          List.countP_cons_of_pos (by rw [Bool.eq_false_iff.2 hkey]; rfl)
        have hnew := hstep ⟨some (i, r.timer), sc.prev, sc.others + 1⟩ fun x hx y hy => by
          cases hx
          exact hfirst y hy
        rw [if_neg hkey, if_neg hkey, Option.some_or, hothers, Nat.add_comm (others h rest),
          ← Nat.add_assoc, ← hnew]
        obtain ⟨oldest, prev, n⟩ := sc
        cases oldest with
        | none => rfl
        | some x =>
            dsimp only
            rw [if_pos (hsc x rfl r List.mem_cons_self)]

/-! ## Making room -/

/-- With a fragment that has the header `h` in hand, the removal of old datagrams comes to the entry of
that fragment before `needed` buffers are free, and there is an entry in front of it. -/
def Blocked (h : IpHdr) (needed : Nat) (rs : List ReassData) : Prop :=
  ∃ pre r post, rs = pre ++ r :: post ∧ addressesAndIdMatch r.iphdr h = true ∧ pre ≠ [] ∧
    clens post < needed

/-- The datagrams `rest` behind `rs` are given up for `needed` buffers. -/
structure GivenUp (h : IpHdr) (needed : Nat) (rs rest : List ReassData) : Prop where
  other : ∀ r ∈ rest, addressesAndIdMatch r.iphdr h = false
  enough : needed ≤ clens rest ∨ ∀ r ∈ rs, addressesAndIdMatch r.iphdr h = true
  least : ∀ z rest', rest = z :: rest' → clens rest' < needed

theorem free_last (rs : List ReassData) (z : ReassData) :
    freeCompleteDatagram ⟨rs ++ [z], clens (rs ++ [z])⟩ rs.length
      (if 2 ≤ (rs ++ [z]).length then some (0 + (rs ++ [z]).length - 2) else none) =
      .ok (⟨rs, clens rs⟩, z.clen) := by
  have hget : (rs ++ [z])[rs.length]? = some z := List.getElem?_concat_length
  have herase : (rs ++ [z]).eraseIdx rs.length = rs := by
    rw [List.eraseIdx_append_of_length_le (Nat.le_refl _), Nat.sub_self]
    exact List.append_nil _
  have hcount : clens (rs ++ [z]) = clens rs + z.clen := by
    rw [clens_append, clens_singleton]
  have hlen : (rs ++ [z]).length = rs.length + 1 := List.length_append
  have hfreed : ¬ clens rs + z.clen < z.clen := by omega
  unfold freeCompleteDatagram
  rw [hget, herase, hcount, hlen, Option.map_some, Option.getD_some]
  dsimp only
  rw [if_neg hfreed, Nat.add_sub_cancel]
  cases rs with
  | nil => rfl
  | cons x rs =>
      have hprev : 0 + ((x :: rs).length + 1) - 2 = rs.length := by
        rw [List.length_cons]
        omega
      have hne : ¬ some rs.length = some (x :: rs).length := by
        rw [Option.some.injEq, List.length_cons]
        omega
      have htwo : 2 ≤ (x :: rs).length + 1 := Nat.succ_le_succ (Nat.le_add_left _ _)
      rw [hprev, if_pos htwo, if_neg hne, Option.any_some, List.length_cons,
        bne_self_eq_false, if_neg Bool.false_ne_true, if_neg fun h => Option.some_ne_none _ h.2]

theorem blocked_concat {z : ReassData} {needed : Nat} (hz : addressesAndIdMatch z.iphdr h = false) :
    Blocked h needed (rs ++ [z]) ↔ Blocked h (needed - z.clen) rs := by
  constructor
  · intro ⟨pre, r, post, heq, hkey, hpre, hlt⟩
    obtain rfl | ⟨post, y, rfl⟩ := List.eq_nil_or_concat post
    · obtain ⟨-, hr⟩ := List.append_inj' heq rfl
      rw [← (List.cons.inj hr).1, hz] at hkey
      cases hkey
    · rw [List.concat_eq_append, ← List.cons_append, ← List.append_assoc] at heq
      obtain ⟨hrs, hy⟩ := List.append_inj' heq rfl
      rw [List.concat_eq_append, clens_append, ← hy, clens_singleton] at hlt
      exact ⟨pre, r, post, hrs, hkey, hpre, by omega⟩
  · intro ⟨pre, r, post, heq, hkey, hpre, hlt⟩
    refine ⟨pre, r, post ++ [z], by rw [heq, List.append_assoc, List.cons_append], hkey, hpre, ?_⟩
    rw [clens_append, clens_singleton]
    omega

/-- At most one datagram has a key. -/
theorem others_of_match {pre post : List ReassData}
    (hkeys : (pre ++ r :: post).Pairwise fun a b => addressesAndIdMatch a.iphdr b.iphdr = false)
    (hkey : addressesAndIdMatch r.iphdr h = true) :
    ∀ x ∈ pre ++ post, addressesAndIdMatch x.iphdr h = false := by
  intro x hx
  obtain ⟨-, hpost, hpre⟩ := List.pairwise_append.1 hkeys
  rw [match_comm, ← match_congr hkey]
  rcases List.mem_append.1 hx with hx | hx
  · rw [match_comm]
    exact hpre x hx r List.mem_cons_self
  · exact (List.pairwise_cons.1 hpost).1 x hx

/-- A round of the removal. -/
theorem remove_oldest_round {needed freed fuel n i t : Nat} {prev : Option Nat} {s : State}
    (hscan : scan h s.datagrams 0 ⟨none, none, 0⟩ = ⟨some (i, t), prev, n⟩) :
    removeOldestLoop h needed (fuel + 1) s freed =
      freeCompleteDatagram s i prev >>= fun x =>
        if freed + x.2 < needed ∧ 1 < n then removeOldestLoop h needed fuel x.1 (freed + x.2)
        else .ok (x.1, freed + x.2) := by
  rw [removeOldestLoop, hscan]
  dsimp only
  cases freeCompleteDatagram s i prev <;> rfl

/-- No other datagram is there. -/
theorem remove_oldest_none {needed freed fuel n : Nat} {prev : Option Nat} {s : State}
    (hscan : scan h s.datagrams 0 ⟨none, none, 0⟩ = ⟨none, prev, n⟩) (hn : n ≤ 1) :
    removeOldestLoop h needed (fuel + 1) s freed = .ok (s, freed) := by
  rw [removeOldestLoop, hscan]
  exact if_neg fun hc => Nat.not_lt_of_le hn hc.2

/-- With the entry of the fragment behind the oldest other one, the assertion fails. -/
theorem remove_oldest_fails {needed freed fuel : Nat} {y z : ReassData}
    (hages : (rs ++ [y] ++ [z]).Pairwise fun a b => b.timer ≤ a.timer)
    (hy : addressesAndIdMatch y.iphdr h = false) (hz : addressesAndIdMatch z.iphdr h = true) (n : Nat) :
    removeOldestLoop h needed (fuel + 1) ⟨rs ++ [y] ++ [z], n⟩ freed = .error "prev != ipr" := by
  have hscan := scan_eq (h := h) 0 ⟨none, none, 0⟩ hages fun x hx => by cases hx
  have hlen : (rs ++ [y] ++ [z]).length = rs.length + 2 := by
    rw [List.length_append, List.length_append]
    rfl
  rw [last_other_append, if_pos hz, last_other_append, hy, if_neg Bool.false_ne_true, Option.some_or,
    hlen, if_pos (Nat.le_add_left _ _), ← Nat.add_assoc, Nat.add_sub_cancel] at hscan
  rw [remove_oldest_round hscan, freeCompleteDatagram, if_pos rfl]
  rfl

/-- The last datagram is given up. -/
theorem remove_oldest_last {needed freed fuel : Nat} {z : ReassData}
    (hages : (rs ++ [z]).Pairwise fun a b => b.timer ≤ a.timer)
    (hz : addressesAndIdMatch z.iphdr h = false) :
    removeOldestLoop h needed (fuel + 1) ⟨rs ++ [z], clens (rs ++ [z])⟩ freed =
      if freed + z.clen < needed ∧ 0 < others h rs then
        removeOldestLoop h needed fuel ⟨rs, clens rs⟩ (freed + z.clen)
      else .ok (⟨rs, clens rs⟩, freed + z.clen) := by
  have hscan := scan_eq (h := h) 0 ⟨none, none, 0⟩ hages fun x hx => by cases hx
  have hothers : others h (rs ++ [z]) = others h rs + 1 := by
    rw [others, List.countP_append, List.countP_singleton, hz]
    rfl
  have hfree := free_last rs z
  rw [last_other_append, hz, if_neg Bool.false_ne_true, Option.some_or, hothers] at hscan
  rw [remove_oldest_round hscan, Nat.zero_add]
  dsimp only
  rw [hfree, Nat.zero_add]
  change (if freed + z.clen < needed ∧ 1 < others h rs + 1 then _ else _) = _
  simp only [Nat.lt_add_left_iff_pos]

theorem GivenUp.concat {needed freed : Nat} {z : ReassData} {rest : List ReassData}
    (hgiven : GivenUp h (needed - (freed + z.clen)) rs rest)
    (hz : addressesAndIdMatch z.iphdr h = false) (hfreed : freed < needed) :
    GivenUp h (needed - freed) rs (rest ++ [z]) := by
  refine ⟨fun r hr => ?_, hgiven.enough.imp_left fun henough => ?_, fun y rest' heq => ?_⟩
  · rcases List.mem_append.1 hr with hr | hr
    · exact hgiven.other r hr
    · exact List.mem_singleton.1 hr ▸ hz
  · rw [clens_append, clens_singleton]
    omega
  · cases rest with
    | nil =>
        rw [← (List.cons.inj heq).2]
        exact Nat.sub_pos_of_lt hfreed
    | cons x rest =>
        have hlt := hgiven.least x rest rfl
        rw [List.cons_append] at heq
        rw [← (List.cons.inj heq).2, clens_append, clens_singleton]
        omega

/-- The removal of old datagrams in a list that is ordered by age. -/
theorem remove_oldest_loop {needed freed fuel : Nat} (rs : List ReassData)
    (hkeys : rs.Pairwise fun a b => addressesAndIdMatch a.iphdr b.iphdr = false)
    (hages : rs.Pairwise fun a b => b.timer ≤ a.timer) (hfuel : rs.length < fuel)
    (hfreed : freed < needed) :
    (Blocked h (needed - freed) rs →
      removeOldestLoop h needed fuel ⟨rs, clens rs⟩ freed = .error "prev != ipr") ∧
    (¬ Blocked h (needed - freed) rs →
      ∃ rs' rest, rs = rs' ++ rest ∧ GivenUp h (needed - freed) rs' rest ∧
        removeOldestLoop h needed fuel ⟨rs, clens rs⟩ freed =
          .ok (⟨rs', clens rs'⟩, freed + clens rest)) := by
  induction rs using List.reverseRecOn generalizing fuel freed with
  | nil =>
      obtain ⟨fuel, rfl⟩ : ∃ n, fuel = n + 1 := ⟨fuel - 1, by omega⟩
      refine ⟨fun ⟨pre, _, _, heq, _⟩ => ?_, fun _ => ⟨[], [], rfl, ⟨?_, .inr ?_, ?_⟩, ?_⟩⟩
      · cases pre <;> cases heq
      · exact fun _ hr => absurd hr List.not_mem_nil
      · exact fun _ hr => absurd hr List.not_mem_nil
      · exact fun _ _ heq => by cases heq
      · exact remove_oldest_none rfl (Nat.zero_le 1)
  | append_singleton rs z ih =>
      obtain ⟨fuel, rfl⟩ : ∃ n, fuel = n + 1 := ⟨fuel - 1, by omega⟩
      by_cases hz : addressesAndIdMatch z.iphdr h = true
      · have hothers := others_of_match hkeys hz
        obtain rfl | ⟨rs, y, rfl⟩ := List.eq_nil_or_concat rs
        · have hnot : ¬ Blocked h (needed - freed) [z] := by
            intro ⟨pre, r, post, heq, _, hpre, _⟩
            cases pre with
            | nil => exact hpre rfl
            | cons x pre =>
                have hnil := (List.cons.inj heq).2
                cases pre <;> cases hnil
          refine ⟨fun hb => absurd hb hnot, fun _ => ⟨[z], [], rfl, ⟨?_, .inr ?_, ?_⟩, ?_⟩⟩
          · exact fun _ hr => absurd hr List.not_mem_nil
          · exact fun r hr => List.mem_singleton.1 hr ▸ hz
          · exact fun _ _ heq => by cases heq
          · have hscan := scan_eq (h := h) 0 ⟨none, none, 0⟩ hages fun x hx => by cases hx
            rw [List.nil_append, lastOther, if_pos hz] at hscan
            refine remove_oldest_none hscan ?_
            rw [others, List.countP_cons_of_neg (by rw [hz]; decide)]
            exact Nat.zero_le 1
        · rw [List.concat_eq_append] at hages hothers ⊢
          refine ⟨fun _ => remove_oldest_fails hages (hothers y ?_) hz _, fun hnot => absurd ?_ hnot⟩
          · exact List.mem_append_left _ (List.mem_append_right _ List.mem_cons_self)
          · exact ⟨_, z, [], rfl, hz, List.concat_ne_nil _ _, Nat.sub_pos_of_lt hfreed⟩
      · replace hz := Bool.eq_false_iff.2 hz
        rw [remove_oldest_last hages hz, blocked_concat hz, Nat.sub_sub]
        rw [List.length_append, List.length_singleton] at hfuel
        by_cases hmore : freed + z.clen < needed ∧ 0 < others h rs
        · rw [if_pos hmore]
          obtain ⟨hblocked, hfree⟩ := ih (List.pairwise_append.1 hkeys).1
            (List.pairwise_append.1 hages).1 (Nat.lt_of_succ_lt_succ hfuel) hmore.1
          refine ⟨hblocked, fun hnot => ?_⟩
          obtain ⟨rs', rest, rfl, hgiven, hloop⟩ := hfree hnot
          refine ⟨rs', rest ++ [z], (List.append_assoc _ _ _), hgiven.concat hz hfreed, ?_⟩
          rw [hloop, clens_append, clens_singleton]
          congr 2
          omega
        · rw [if_neg hmore]
          have hnot : ¬ Blocked h (needed - (freed + z.clen)) rs := by
            intro ⟨pre, r, post, heq, hkey, hpre, hlt⟩
            obtain ⟨x, hx⟩ := List.exists_mem_of_ne_nil pre hpre
            refine hmore ⟨by omega, List.countP_pos_iff.2 ⟨x, ?_, ?_⟩⟩
            · exact heq ▸ List.mem_append_left _ hx
            · rw [others_of_match (heq ▸ (List.pairwise_append.1 hkeys).1) hkey x
                (List.mem_append_left _ hx)]
              rfl
          refine ⟨fun hb => absurd hb hnot, fun _ => ⟨rs, [z], rfl, ⟨?_, ?_, ?_⟩, ?_⟩⟩
          · exact fun r hr => List.mem_singleton.1 hr ▸ hz
          · rw [clens_singleton]
            by_cases hlt : freed + z.clen < needed
            · refine .inr fun r hr => ?_
              by_contra hne
              exact hmore ⟨hlt, List.countP_pos_iff.2 ⟨r, hr, by rw [Bool.eq_false_iff.2 hne]; rfl⟩⟩
            · exact .inl (by omega)
          · intro _ rest heq
            rw [← (List.cons.inj heq).2]
            exact Nat.sub_pos_of_lt hfreed
          · rw [clens_singleton]

/-- `ip_reass_remove_oldest_datagram` between packets. -/
theorem Sound.remove_oldest (hs : Sound s) {needed : Nat} (hneeded : 0 < needed) :
    (Blocked h needed s.datagrams → removeOldestDatagram h needed s = .error "prev != ipr") ∧
    (¬ Blocked h needed s.datagrams →
      ∃ rs rest, s.datagrams = rs ++ rest ∧ GivenUp h needed rs rest ∧
        removeOldestDatagram h needed s = .ok (⟨rs, clens rs⟩, clens rest)) := by
  have hstate : s = ⟨s.datagrams, clens s.datagrams⟩ := by
    rw [← hs.count]
  obtain ⟨hblocked, hfree⟩ := remove_oldest_loop (h := h) s.datagrams hs.keys hs.ages
    (Nat.lt_succ_self _) hneeded
  rw [← hstate, Nat.sub_zero] at hblocked hfree
  refine ⟨hblocked, fun hnot => ?_⟩
  obtain ⟨rs, rest, heq, hgiven, hloop⟩ := hfree hnot
  rw [Nat.zero_add] at hloop
  exact ⟨rs, rest, heq, hgiven, hloop⟩

/-- Making room fails exactly if the entry of the packet is in the way. -/
theorem Sound.make_room (hs : Sound s) {clen : Nat} (hclen : 0 < clen) :
    (IP_REASS_MAX_PBUFS < s.pbufcount + clen ∧ Blocked h clen s.datagrams) ∧
        makeRoom s h clen = .error "prev != ipr" ∨
      ¬ (IP_REASS_MAX_PBUFS < s.pbufcount + clen ∧ Blocked h clen s.datagrams) ∧
        ∃ s' room, makeRoom s h clen = .ok (s', room) ∧ Sound s' ∧
          (room = true → s'.pbufcount + clen ≤ IP_REASS_MAX_PBUFS) := by
  unfold makeRoom
  by_cases hfits : s.pbufcount + clen ≤ IP_REASS_MAX_PBUFS
  · exact .inr ⟨fun hc => Nat.not_lt_of_le hfits hc.1, s, true, if_pos hfits, hs, fun _ => hfits⟩
  · rw [if_neg hfits]
    obtain ⟨hblocked, hfree⟩ := hs.remove_oldest (h := h) hclen
    by_cases hb : Blocked h clen s.datagrams
    · rw [hblocked hb]
      exact .inl ⟨⟨Nat.lt_of_not_le hfits, hb⟩, rfl⟩
    · obtain ⟨rs, rest, heq, -, hok⟩ := hfree hb
      rw [hok]
      exact .inr ⟨fun hc => hb hc.2, _, _, rfl, hs.take heq, fun hroom => (of_decide_eq_true hroom).2⟩

end Labs.Jos.IpFrag
