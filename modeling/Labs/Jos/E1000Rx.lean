import Labs.Jos.E1000Tx

/-!
# The receive ring of the network card

The card stores incoming packets in the descriptors from `RDH` on and stops when `RDH == RDT`.
`e1000_receive` takes the packet of the descriptor after `RDT`, clears its `DD` bit and advances
`RDT`, which gives the descriptor back. As for the transmit ring, the driver is modelled
statement by statement, and two histories record the packets the card delivered and the packets
that successful calls returned.
-/

namespace Labs.Jos

open Prog

/-- `RX_BUF_SIZE`. -/
def rxBufSize : Nat := 2048

/-- `e1000_rx_init`: every descriptor but the last is the card's. -/
def e1000RxInit (dev : E1000) : E1000 := { dev with rxQueue := fun _ => {}, rdt := 127 }

/-- The packet in descriptor `i` of the receive ring. -/
def E1000.rxPacket (dev : E1000) (i : Nat) : Packet :=
  (List.range (dev.rxQueue i).length.toNat).map (dev.rxBuf i)

/-- Where the driver stands in a call of `e1000_receive`. -/
inductive RxPoint where
  /-- Out of the function, which returned `r`. -/
  | returned (r : Int)
  /-- At the test of the `DD` bit of descriptor `next`. -/
  | check (next : Nat) (size : Word)
  /-- At the test of the length. -/
  | size (next : Nat) (size : Word)
  /-- At the `memmove` of `length` bytes. -/
  | copy (next : Nat) (length : Nat)
  /-- At `status &= ~E1000_RXD_STAT_DD`, with the bytes `pkt` in the caller's buffer. -/
  | clear (next : Nat) (pkt : Packet)
  /-- At the store to `RDT`. -/
  | advance (next : Nat) (pkt : Packet)

/-- The driver and the card. -/
structure RxSystem where
  dev : E1000
  rdh : Nat
  point : RxPoint
  delivered : List Packet
  received : List Packet

namespace RxSystem

/-- The driver and the card after `e1000_rx_init`. -/
def boot (dev : E1000) : RxSystem where
  dev := e1000RxInit dev
  rdh := 0
  point := .returned 0
  delivered := []
  received := []

/-- `e1000_receive` is called with a buffer of `size` bytes and reads `RDT`. -/
def call (s : RxSystem) (size : Word) : RxSystem :=
  { s with point := .check ((s.dev.rdt.toNat + 1) % nrxdesc) size }

/-- The driver executes its next statement. -/
def next (s : RxSystem) : RxSystem :=
  match s.point with
  | .returned _ => s
  | .check next size =>
      if (s.dev.rxQueue next).status &&& rxdStatDd = 0 then
        { s with point := .returned (-eRxEmpty) }
      else { s with point := .size next size }
  | .size next size =>
      let length := (s.dev.rxQueue next).length.toNat
      if size.toInt < length then { s with point := .returned (-ePktTooLarge) }
      else { s with point := .copy next length }
  | .copy next length =>
      { s with point := .clear next ((List.range length).map (s.dev.rxBuf next)) }
  | .clear next pkt =>
      { s with
        dev := s.dev.setRx next fun d => { d with status := d.status &&& ~~~rxdStatDd }
        point := .advance next pkt }
  | .advance next pkt =>
      { s with
        dev := { s.dev with rdt := BitVec.ofNat 32 next }
        point := .returned pkt.length
        received := s.received ++ [pkt] }

/-- The card stores the packet `pkt` in the descriptor at `RDH` and advances `RDH`: the buffer
becomes `buf` and the status `status`. -/
def deliver (s : RxSystem) (pkt : Packet) (buf : Nat → Byte) (status : Byte) : RxSystem :=
  { s with
    dev :=
      { s.dev.setRx s.rdh fun _ => ⟨BitVec.ofNat 16 pkt.length, status⟩ with
        rxBuf := Function.update s.dev.rxBuf s.rdh buf }
    rdh := (s.rdh + 1) % nrxdesc
    delivered := s.delivered ++ [pkt] }

end RxSystem

/-- A delivery of the card, which waits while `RDH == RDT`. A packet fits into one buffer. -/
inductive RxDeliver : RxSystem → RxSystem → Prop where
  | deliver {s : RxSystem} {pkt : Packet} {buf : Nat → Byte} {status : Byte}
      (hbusy : s.rdh ≠ s.dev.rdt.toNat) (hfits : pkt.length ≤ rxBufSize)
      (hbuf : (List.range pkt.length).map buf = pkt) (hdone : status &&& rxdStatDd ≠ 0) :
      RxDeliver s (s.deliver pkt buf status)

/-- One step of the driver or of the card. -/
inductive RxStep : RxSystem → RxSystem → Prop where
  | call {s : RxSystem} {r : Int} (size : Word) (hrest : s.point = .returned r) :
      RxStep s (s.call size)
  | next {s : RxSystem} : RxStep s s.next
  | deliver {s t : RxSystem} (hdeliver : RxDeliver s t) : RxStep s t

/-- The states reached by the driver and the card. -/
def RxReach : RxSystem → RxSystem → Prop := Relation.ReflTransGen RxStep

/-- The states reached in the course of one call of `e1000_receive`. -/
inductive RxCall (s : RxSystem) : RxSystem → Prop where
  | call {r : Int} (size : Word) (hrest : s.point = .returned r) : RxCall s (s.call size)
  | next {t : RxSystem} (hcall : RxCall s t) : RxCall s t.next
  | deliver {t u : RxSystem} (hcall : RxCall s t) (hdeliver : RxDeliver t u) : RxCall s u

namespace RxSystem

/-- What the ring is for: successful calls return the delivered packets once each and in order,
and every packet delivered but not yet received is in its descriptor with its own bytes. -/
structure Correct (s : RxSystem) : Prop where
  order : s.received = s.delivered.take s.received.length
  intact : ∀ j pkt, s.delivered[s.received.length + j]? = some pkt →
    s.dev.rxPacket ((s.dev.rdt.toNat + 1 + j) % nrxdesc) = pkt
  apart : ∀ t, RxDeliver s t → ∀ j, s.received.length + j < s.delivered.length →
    (s.dev.rdt.toNat + 1 + j) % nrxdesc ≠ s.rdh

/-! ## The invariant -/

/-- What the driver knows at each statement. -/
def Known (s : RxSystem) : RxPoint → Prop
  | .returned _ => True
  | .check next _ => next = s.received.length % 128
  | .size next _ => next = s.received.length % 128 ∧ s.received.length < s.delivered.length
  | .copy next length =>
      next = s.received.length % 128 ∧ s.received.length < s.delivered.length ∧
        length = (s.dev.rxQueue next).length.toNat
  | .clear next pkt =>
      next = s.received.length % 128 ∧ s.delivered[s.received.length]? = some pkt
  | .advance next pkt =>
      next = s.received.length % 128 ∧ s.delivered[s.received.length]? = some pkt ∧
        (s.dev.rxQueue next).status &&& rxdStatDd = 0

/-- The indices count the delivered and the received packets, the packets between them lie in
their slots, and the other slots are marked empty. -/
structure Inv (s : RxSystem) : Prop where
  tail : s.dev.rdt.toNat = (s.received.length + 127) % 128
  head : s.rdh = s.delivered.length % 128
  order : s.received = s.delivered.take s.received.length
  room : s.delivered.length < s.received.length + 128
  ring : RingHolds 128 (fun i pkt => s.dev.rxPacket i = pkt) s.delivered s.received.length
  empty : ∀ j, s.delivered.length ≤ j → j < s.received.length + 128 →
    (s.dev.rxQueue (j % 128)).status &&& rxdStatDd = 0
  known : s.Known s.point

variable {s : RxSystem}

theorem Inv.received_le (h : s.Inv) : s.received.length ≤ s.delivered.length := by
  have horder := congrArg List.length h.order
  rw [List.length_take] at horder
  omega

theorem inv_boot (dev : E1000) : (boot dev).Inv where
  tail := rfl
  head := rfl
  order := rfl
  room := Nat.zero_lt_succ _
  ring := RingHolds.nil
  empty := by
    intro j _ _
    exact BitVec.zero_and
  known := trivial

/-- The driver reads the descriptors without changing them. -/
theorem Inv.read {p : RxPoint} (h : s.Inv) (hknown : s.Known p) : Inv { s with point := p } where
  tail := h.tail
  head := h.head
  order := h.order
  room := h.room
  ring := h.ring
  empty := h.empty
  known := by
    cases p <;> exact hknown

/-- Every statement of the driver keeps the invariant. -/
theorem Inv.next (h : s.Inv) : s.next.Inv := by
  have hknown := h.known
  have hle := h.received_le
  have hlap := h.room
  unfold RxSystem.next
  cases hpoint : s.point with
  | returned r => exact h
  | check next size =>
      rw [hpoint] at hknown
      dsimp only
      split
      · exact h.read trivial
      · rename_i hdone
        -- an empty ring has no mark at the next slot
        have hlt : s.received.length < s.delivered.length := by
          by_contra hge
          rw [show next = _ from hknown] at hdone
          exact hdone (h.empty _ (by omega) (by omega))
        exact h.read ⟨hknown, hlt⟩
  | size next size =>
      rw [hpoint] at hknown
      dsimp only
      split
      · exact h.read trivial
      · exact h.read ⟨hknown.1, hknown.2, rfl⟩
  | copy next length =>
      rw [hpoint] at hknown
      obtain ⟨hnext, hlt, hlength⟩ := hknown
      have hitem := List.getElem?_eq_getElem hlt
      have hpacket : s.dev.rxPacket next = s.delivered[s.received.length] := by
        rw [hnext]
        exact h.ring _ _ le_rfl hitem
      refine h.read ⟨hnext, ?_⟩
      rw [hitem, hlength]
      exact congrArg some hpacket.symm
  | clear next pkt =>
      rw [hpoint] at hknown
      obtain ⟨hnext, hpkt⟩ := hknown
      have hlt : s.received.length < s.delivered.length := (List.getElem?_eq_some_iff.1 hpkt).1
      have hclear : ∀ d : RxDesc, d.status &&& ~~~rxdStatDd &&& rxdStatDd = 0 := by
        intro d
        rw [BitVec.and_assoc, BitVec.and_comm (~~~rxdStatDd), BitVec.and_not_self]
        exact BitVec.and_zero
      dsimp only
      exact
        { tail := h.tail
          head := h.head
          order := h.order
          room := h.room
          ring := by
            intro j item hj hitem
            refine Eq.trans ?_ (h.ring j item hj hitem)
            by_cases hslot : j % 128 = next
            · simp [E1000.rxPacket, E1000.setRx, hslot]
            · simp [E1000.rxPacket, E1000.setRx, hslot]
          empty := by
            intro j hlo hhi
            dsimp only at hlo hhi
            have hne : j % 128 ≠ next := by omega
            simp only [E1000.setRx, Function.update_of_ne hne]
            exact h.empty j hlo hhi
          known := by
            refine ⟨hnext, hpkt, ?_⟩
            simp only [E1000.setRx, Function.update_self]
            exact hclear _ }
  | advance next pkt =>
      rw [hpoint] at hknown
      obtain ⟨hnext, hpkt, hclear⟩ := hknown
      have hlt : s.received.length < s.delivered.length := (List.getElem?_eq_some_iff.1 hpkt).1
      have hlength : (s.received ++ [pkt]).length = s.received.length + 1 := by simp
      dsimp only
      exact
        { tail := by
            rw [hlength, BitVec.toNat_ofNat]
            omega
          head := h.head
          order := by
            rw [hlength, List.take_add_one, hpkt, ← h.order]
            rfl
          room := by
            rw [hlength]
            show s.delivered.length < s.received.length + 1 + 128
            omega
          ring := by
            rw [hlength]
            exact h.ring.pop (by omega) fun _ _ _ hitem => hitem
          empty := by
            intro j hlo hhi
            rw [hlength] at hhi
            rcases Nat.lt_or_ge j (s.received.length + 128) with hold | hnew
            · exact h.empty j hlo hold
            · have hslot : j % 128 = next := by omega
              rw [hslot]
              exact hclear
          known := trivial }

/-- The card keeps the invariant. -/
theorem Inv.deliver {t : RxSystem} (h : s.Inv) (hstep : RxDeliver s t) : t.Inv := by
  obtain ⟨hbusy, hfits, hbuf, hdone⟩ := hstep
  rename_i pkt buf status
  have hle := h.received_le
  have hlap := h.room
  have hhead := h.head
  rw [h.tail, hhead] at hbusy
  have hroom : s.delivered.length + 1 < s.received.length + 128 := by omega
  have hother : ∀ i, i ≠ s.rdh →
      (s.deliver pkt buf status).dev.rxQueue i = s.dev.rxQueue i ∧
        (s.deliver pkt buf status).dev.rxPacket i = s.dev.rxPacket i := by
    intro i hi
    simp [RxSystem.deliver, E1000.rxPacket, E1000.setRx, hi]
  have hhere : (s.deliver pkt buf status).dev.rxPacket s.rdh = pkt := by
    have hsmall : pkt.length % 2 ^ 16 = pkt.length :=
      Nat.mod_eq_of_lt (by unfold rxBufSize at hfits; omega)
    simp only [RxSystem.deliver, E1000.rxPacket, E1000.setRx, Function.update_self,
      BitVec.toNat_ofNat, hsmall]
    exact hbuf
  have hlength : (s.deliver pkt buf status).delivered.length = s.delivered.length + 1 := by
    simp [RxSystem.deliver]
  have hnext : s.received.length < s.delivered.length → s.received.length % 128 ≠ s.rdh := by
    intro hlt
    rw [hhead]
    exact ring_slot_ne hlt (by omega)
  exact
    { tail := h.tail
      head := by
        rw [hlength]
        show (s.rdh + 1) % nrxdesc = _
        unfold nrxdesc
        omega
      order := by
        show s.received = (s.delivered ++ [pkt]).take s.received.length
        rw [List.take_append_of_le_length hle]
        exact h.order
      room := by
        rw [hlength]
        exact hroom
      ring := by
        have hkept := h.ring.edit_next hlap fun i item hi hitem =>
          (hother i (by rwa [hhead])).2.trans hitem
        refine hkept.push ?_
        rw [← hhead]
        exact hhere
      empty := by
        intro j hlo hhi
        rw [hlength] at hlo
        have hne : j % 128 ≠ s.rdh := by
          rw [hhead]
          exact Ne.symm (ring_slot_ne hlo (by simp only [RxSystem.deliver] at hhi; omega))
        rw [(hother _ hne).1]
        exact h.empty j (by omega) hhi
      known := by
        have hknown := h.known
        have hitem : ∀ item, s.delivered[s.received.length]? = some item →
            (s.delivered ++ [pkt])[s.received.length]? = some item := by
          intro item hitem
          rw [List.getElem?_append_left (List.getElem?_eq_some_iff.1 hitem).1]
          exact hitem
        show (s.deliver pkt buf status).Known s.point
        cases hpoint : s.point with
        | returned r => trivial
        | check next size =>
            rw [hpoint] at hknown
            exact hknown
        | size next size =>
            rw [hpoint] at hknown
            exact ⟨hknown.1, by rw [hlength]; exact Nat.lt_succ_of_lt hknown.2⟩
        | copy next length =>
            rw [hpoint] at hknown
            obtain ⟨hslot, hlt, hlen⟩ := hknown
            refine ⟨hslot, by rw [hlength]; exact Nat.lt_succ_of_lt hlt, ?_⟩
            rw [(hother next (by rw [hslot]; exact hnext hlt)).1]
            exact hlen
        | clear next item =>
            rw [hpoint] at hknown
            exact ⟨hknown.1, hitem _ hknown.2⟩
        | advance next item =>
            rw [hpoint] at hknown
            obtain ⟨hslot, hpkt, hclear⟩ := hknown
            refine ⟨hslot, hitem _ hpkt, ?_⟩
            have hlt := (List.getElem?_eq_some_iff.1 hpkt).1
            rw [(hother next (by rw [hslot]; exact hnext hlt)).1]
            exact hclear }

/-- Every step keeps the invariant. -/
theorem Inv.step {t : RxSystem} (h : s.Inv) (hstep : RxStep s t) : t.Inv := by
  cases hstep with
  | call size _ =>
      have htail := h.tail
      refine h.read ?_
      show (s.dev.rdt.toNat + 1) % nrxdesc = _
      unfold nrxdesc
      omega
  | next => exact h.next
  | deliver hdeliver => exact h.deliver hdeliver

/-- The invariant gives the purpose of the ring. -/
theorem Inv.correct (h : s.Inv) : s.Correct := by
  have htail := h.tail
  have hhead := h.head
  have hlap := h.room
  have hslot : ∀ j, (s.dev.rdt.toNat + 1 + j) % nrxdesc = (s.received.length + j) % 128 := by
    intro j
    unfold nrxdesc
    omega
  refine ⟨h.order, fun j pkt hpkt => ?_, fun t _ j hj => ?_⟩
  · rw [hslot]
    exact h.ring _ pkt (Nat.le_add_right _ _) hpkt
  · rw [hslot, hhead]
    exact ring_slot_ne hj (by omega)

/-- The card does not look at the driver. -/
theorem deliver_point {t : RxSystem} (p : RxPoint) (hstep : RxDeliver s t) :
    RxDeliver { s with point := p } { t with point := p } := by
  obtain ⟨hbusy, hfits, hbuf, hdone⟩ := hstep
  exact RxDeliver.deliver hbusy hfits hbuf hdone

/-- The points at which a call has not changed anything yet, and the returns of an error. -/
def Clean : RxPoint → Prop
  | .returned r => r < 0
  | .advance _ _ => False
  | _ => True

/-- A call that has not changed anything leaves only the deliveries made in its course. -/
theorem call_clean {t : RxSystem} (hcall : RxCall s t) (hclean : Clean t.point) :
    Relation.ReflTransGen RxDeliver { s with point := t.point } t := by
  induction hcall with
  | call size hrest => exact Relation.ReflTransGen.refl
  | deliver hcall hstep ih =>
      obtain ⟨hbusy, hfits, hbuf, hdone⟩ := hstep
      exact (ih hclean).tail (RxDeliver.deliver hbusy hfits hbuf hdone)
  | @next t hcall ih =>
      have hpoint : ∀ p, Clean t.point →
          Relation.ReflTransGen RxDeliver { s with point := p } { t with point := p } := by
        intro p hold
        exact (ih hold).lift (fun u : RxSystem => { u with point := p })
          fun _ _ hstep => deliver_point p hstep
      revert hclean
      unfold RxSystem.next
      cases hp : t.point with
      | returned r =>
          rw [hp] at ih
          show Clean t.point → Relation.ReflTransGen RxDeliver { s with point := t.point } t
          rw [hp]
          exact ih
      | check next size =>
          rw [hp] at hpoint
          dsimp only
          split
          · exact fun _ => hpoint _ trivial
          · exact fun _ => hpoint _ trivial
      | size next size =>
          rw [hp] at hpoint
          dsimp only
          split
          · exact fun _ => hpoint _ trivial
          · exact fun _ => hpoint _ trivial
      | copy next length =>
          rw [hp] at hpoint
          exact fun _ => hpoint _ trivial
      | clear next pkt => exact False.elim
      | advance next pkt =>
          intro hclean
          have hneg : ((List.length pkt : Nat) : Int) < 0 := hclean
          omega

/-! ## Whole calls -/

/-- A whole call of `e1000_receive` during which the card takes no step. -/
def receive (s : RxSystem) (size : Word) : RxSystem :=
  (s.call size).next.next.next.next.next

section Whole

variable {size : Word}

/-- There is no packet. -/
theorem receive_empty
    (hempty : (s.dev.rxQueue ((s.dev.rdt.toNat + 1) % nrxdesc)).status &&& rxdStatDd = 0) :
    s.receive size = { s with point := .returned (-eRxEmpty) } := by
  have hcheck : (s.call size).next = { s with point := .returned (-eRxEmpty) } := if_pos hempty
  rw [receive, hcheck]
  rfl

/-- The packet does not fit into the caller's buffer. -/
theorem receive_too_large
    (hdone : ¬ (s.dev.rxQueue ((s.dev.rdt.toNat + 1) % nrxdesc)).status &&& rxdStatDd = 0)
    (hlarge : size.toInt < (s.dev.rxQueue ((s.dev.rdt.toNat + 1) % nrxdesc)).length.toNat) :
    s.receive size = { s with point := .returned (-ePktTooLarge) } := by
  have hcheck : (s.call size).next =
      { s with point := .size ((s.dev.rdt.toNat + 1) % nrxdesc) size } := if_neg hdone
  have hsize : (s.call size).next.next = { s with point := .returned (-ePktTooLarge) } := by
    rw [hcheck]
    exact if_pos hlarge
  rw [receive, hsize]
  rfl

/-- Otherwise the packet is returned. -/
theorem receive_packet
    (hdone : ¬ (s.dev.rxQueue ((s.dev.rdt.toNat + 1) % nrxdesc)).status &&& rxdStatDd = 0)
    (hfits : ¬ size.toInt < (s.dev.rxQueue ((s.dev.rdt.toNat + 1) % nrxdesc)).length.toNat) :
    s.receive size =
      { s with
        dev :=
          { s.dev.setRx ((s.dev.rdt.toNat + 1) % nrxdesc) fun d =>
              { d with status := d.status &&& ~~~rxdStatDd } with
            rdt := BitVec.ofNat 32 ((s.dev.rdt.toNat + 1) % nrxdesc) }
        point := .returned (s.dev.rxQueue ((s.dev.rdt.toNat + 1) % nrxdesc)).length.toNat
        received := s.received ++ [s.dev.rxPacket ((s.dev.rdt.toNat + 1) % nrxdesc)] } := by
  have hcheck : (s.call size).next =
      { s with point := .size ((s.dev.rdt.toNat + 1) % nrxdesc) size } := if_neg hdone
  have hsize : (s.call size).next.next =
      { s with
        point := .copy ((s.dev.rdt.toNat + 1) % nrxdesc)
          (s.dev.rxQueue ((s.dev.rdt.toNat + 1) % nrxdesc)).length.toNat } := by
    rw [hcheck]
    exact if_neg hfits
  rw [receive, hsize]
  simp only [next, List.length_map, List.length_range]
  rfl

end Whole

end RxSystem

/-- Storing bytes does not concern the network card. -/
theorem store_bytes_e1000 (k : CpuId) (bytes : List Byte) (va : Word) (s : Kernel) :
    wp (storeBytes k bytes va) (fun _ s' => s'.e1000 = s.e1000) (fun _ _ => True) s := by
  induction bytes generalizing va s with
  | nil => rfl
  | cons b rest ih =>
      have hbyte : wp (storeByte k va b) (fun _ s' => s'.e1000 = s.e1000) (fun _ _ => True) s := by
        simp only [storeByte, wp_bind, wp_get]
        cases walk s.mem (s.cpus k).cr3 (pgnum va) with
        | none => exact kernel_page_fault_leaves k va s
        | some x =>
            rw [wp_ite]
            exact ⟨fun _ => rfl, fun _ => kernel_page_fault_leaves k va s⟩
      simp only [storeBytes, wp_bind]
      refine wp_mono_ret hbyte fun _ t ht => wp_mono_ret (ih (va + 1) t) fun _ u hu => ?_
      exact hu.trans ht

/-- A call of `e1000_receive` that returns changes the card as the whole call does. -/
theorem e1000_receive_spec (k : CpuId) (buf size : Word) (s : Kernel) :
    wp (e1000Receive k buf size)
      (fun r s' => ∀ t : RxSystem, t.dev = s.e1000 →
        (t.receive size).dev = s'.e1000 ∧ (t.receive size).point = .returned r)
      (fun _ _ => True) s := by
  simp only [e1000Receive, wp_bind, wp_gets, wp_ite]
  refine ⟨fun hempty t ht => ?_, fun hdone => ⟨fun hlarge t ht => ?_, fun hfits => ?_⟩⟩
  · rw [← ht] at hempty
    rw [RxSystem.receive_empty hempty]
    exact ⟨ht, rfl⟩
  · rw [← ht] at hdone hlarge
    rw [RxSystem.receive_too_large hdone hlarge]
    exact ⟨ht, rfl⟩
  · refine wp_mono_ret (store_bytes_e1000 k _ buf s) fun _ u hu => ?_
    simp only [modifyE1000, wp_modify, wp_pure]
    intro t ht
    rw [← ht] at hdone hfits hu ⊢
    rw [RxSystem.receive_packet hdone hfits, hu]
    exact ⟨rfl, rfl⟩

/-! ## Runs -/

/-- In every run of the driver and the card the ring does what it is for, and a call that
returns `-E_RX_EMPTY` or `-E_PKT_TOO_LARGE` changes nothing: what its course leaves behind are
the deliveries the card made meanwhile. -/
theorem rx_ring_correct (dev : E1000) (s : RxSystem) (hrun : RxReach (.boot dev) s) :
    s.Correct ∧ ∀ t r, RxCall s t → t.point = .returned r →
      r = -eRxEmpty ∨ r = -ePktTooLarge →
      Relation.ReflTransGen RxDeliver { s with point := t.point } t := by
  have hinv : s.Inv := by
    induction hrun with
    | refl => exact RxSystem.inv_boot dev
    | tail _ hstep ih => exact ih.step hstep
  refine ⟨hinv.correct, fun t r hcall hreturn herror => RxSystem.call_clean hcall ?_⟩
  rw [hreturn]
  rcases herror with hempty | hlarge
  · rw [hempty]
    exact Int.negSucc_lt_zero 17
  · rw [hlarge]
    exact Int.negSucc_lt_zero 16

/-- A delivered packet is received; a second call finds the ring empty and changes nothing. -/
theorem rx_ring_correct_one_packet :
    let s := ((RxSystem.boot {}).deliver [7] (fun _ => 7) 1).receive 10
    s.received = [[7]] ∧ s.Correct ∧
      Relation.ReflTransGen RxDeliver { s with point := (s.receive 10).point } (s.receive 10) := by
  intro s
  have hdeliver : RxReach (.boot {}) ((RxSystem.boot {}).deliver [7] (fun _ => 7) 1) :=
    Relation.ReflTransGen.single
      (.deliver (.deliver (by decide) (by decide) (by decide) (by decide)))
  have hcall := hdeliver.tail (.call 10 (by rfl))
  have hreach : RxReach (.boot {}) s :=
    ((((hcall.tail .next).tail .next).tail .next).tail .next).tail .next
  have hagain : RxCall s (s.receive 10) :=
    (((((RxCall.call 10 (by rfl)).next).next).next).next).next
  have hempty : (s.receive 10).point = .returned (-eRxEmpty) :=
    congrArg RxSystem.point (RxSystem.receive_empty (by decide))
  obtain ⟨hcorrect, herror⟩ := rx_ring_correct {} s hreach
  exact ⟨by decide, hcorrect, herror _ _ hagain hempty (.inl rfl)⟩

end Labs.Jos
