import Labs.Base.Ring
import Labs.Jos.Syscall
import Mathlib.Logic.Relation

/-!
# The transmit ring of the network card

`e1000_transmit` and the card share a ring of descriptors. The driver fills the descriptor at
`TDT` and advances `TDT`; the card sends the descriptors from `TDH` up to but not including
`TDT`. The driver is modelled statement by statement, so that the card may take a step between
any two accesses of the driver. Two histories record the packets the driver accepted and the
packets the card sent.
-/

namespace Labs.Jos

open Prog

/-- The bytes of a packet. -/
abbrev Packet := List Byte

/-- `e1000_tx_init`: no descriptor is in use. -/
def e1000TxInit (dev : E1000) : E1000 := { dev with txQueue := fun _ => {}, tdt := 0 }

/-- The packet that descriptor `i` of the transmit ring describes. -/
def E1000.txPacket (dev : E1000) (i : Nat) : Packet :=
  (List.range (dev.txQueue i).length.toNat).map (dev.txBuf i)

/-- Where the driver stands in a call of `e1000_transmit` for the packet `pkt` with the value
`tail` it read from `TDT`. -/
inductive TxPoint where
  /-- Out of the function, which returned `r`. -/
  | returned (r : Int)
  /-- At the tests of the size and of the `RS` and `DD` bits. -/
  | check (tail : Nat) (pkt : Packet)
  /-- At `status &= ~E1000_TXD_STAT_DD`. -/
  | clear (tail : Nat) (pkt : Packet)
  /-- At the `memmove`. -/
  | copy (tail : Nat) (pkt : Packet)
  /-- At `length = size`. -/
  | size (tail : Nat) (pkt : Packet)
  /-- At `cmd |= E1000_TXD_CMD_RS | E1000_TXD_CMD_EOP`. -/
  | mark (tail : Nat) (pkt : Packet)
  /-- At the store to `TDT`. -/
  | advance (tail : Nat) (pkt : Packet)

/-- The driver and the card. -/
structure TxSystem where
  dev : E1000
  tdh : Nat
  point : TxPoint
  accepted : List Packet
  sent : List Packet

namespace TxSystem

/-- The driver and the card after `e1000_tx_init`. -/
def boot (dev : E1000) : TxSystem where
  dev := e1000TxInit dev
  tdh := 0
  point := .returned 0
  accepted := []
  sent := []

/-- `e1000_transmit` is called for `pkt` and reads `TDT`. -/
def call (s : TxSystem) (pkt : Packet) : TxSystem :=
  { s with point := .check s.dev.tdt.toNat pkt }

/-- The driver executes its next statement. -/
def next (s : TxSystem) : TxSystem :=
  match s.point with
  | .returned _ => s
  | .check tail pkt =>
      let desc := s.dev.txQueue tail
      if ethPktSize.toNat < pkt.length then { s with point := .returned (-ePktTooLarge) }
      else if desc.cmd &&& txdCmdRs ≠ 0 ∧ desc.status &&& txdStatDd = 0 then
        { s with point := .returned (-eTxFull) }
      else { s with point := .clear tail pkt }
  | .clear tail pkt =>
      { s with
        dev := s.dev.setTx tail fun d => { d with status := d.status &&& ~~~txdStatDd }
        point := .copy tail pkt }
  | .copy tail pkt =>
      { s with
        dev :=
          { s.dev with
            txBuf := Function.update s.dev.txBuf tail (fillBuf (s.dev.txBuf tail) pkt) }
        point := .size tail pkt }
  | .size tail pkt =>
      { s with
        dev := s.dev.setTx tail fun d => { d with length := BitVec.ofNat 16 pkt.length }
        point := .mark tail pkt }
  | .mark tail pkt =>
      { s with
        dev := s.dev.setTx tail fun d => { d with cmd := d.cmd ||| txdCmdRs ||| txdCmdEop }
        point := .advance tail pkt }
  | .advance tail pkt =>
      { s with
        dev := { s.dev with tdt := BitVec.ofNat 32 ((tail + 1) % ntxdesc) }
        point := .returned 0
        accepted := s.accepted ++ [pkt] }

/-- The card sends the packet at `TDH`, reports it if `RS` is set, and advances `TDH`. -/
def send (s : TxSystem) : TxSystem :=
  { s with
    dev := s.dev.setTx s.tdh fun d =>
      if d.cmd &&& txdCmdRs ≠ 0 then { d with status := d.status ||| txdStatDd } else d
    tdh := (s.tdh + 1) % ntxdesc
    sent := s.sent ++ [s.dev.txPacket s.tdh] }

end TxSystem

/-- One step of the driver or of the card, which is idle while `TDH == TDT`. -/
inductive TxStep : TxSystem → TxSystem → Prop where
  | call {s : TxSystem} {r : Int} (pkt : Packet) (hrest : s.point = .returned r) :
      TxStep s (s.call pkt)
  | next {s : TxSystem} : TxStep s s.next
  | send {s : TxSystem} (hbusy : s.tdh ≠ s.dev.tdt.toNat) : TxStep s s.send

/-- The states reached by the driver and the card. -/
def TxReach : TxSystem → TxSystem → Prop := Relation.ReflTransGen TxStep

namespace TxSystem

/-- What the ring is for: the card sends the accepted packets once each and in order, every
accepted packet it has not sent is ahead of it with its own bytes, and it is not idle while
there is one. -/
structure Correct (s : TxSystem) : Prop where
  order : s.sent = s.accepted.take s.sent.length
  ahead : ∀ j pkt, s.accepted[s.sent.length + j]? = some pkt →
    j < (s.dev.tdt.toNat + ntxdesc - s.tdh) % ntxdesc ∧
      s.dev.txPacket ((s.tdh + j) % ntxdesc) = pkt
  busy : s.tdh = s.dev.tdt.toNat → s.sent = s.accepted

/-- When the driver is about to advance `TDT`, doing so does not make it equal to `TDH`. -/
def Room (s : TxSystem) : Prop :=
  ∀ tail pkt, s.point = .advance tail pkt → (s.dev.tdt.toNat + 1) % ntxdesc ≠ s.tdh

/-- A step of a run in which the driver finds room whenever it advances `TDT`. -/
inductive RoomStep : TxSystem → TxSystem → Prop where
  | call {s : TxSystem} {r : Int} (pkt : Packet) (hrest : s.point = .returned r) :
      RoomStep s (s.call pkt)
  | next {s : TxSystem} (hroom : s.Room) : RoomStep s s.next
  | send {s : TxSystem} (hbusy : s.tdh ≠ s.dev.tdt.toNat) : RoomStep s s.send

/-! ## The invariant -/

/-- What the driver knows at each statement. -/
def Known (s : TxSystem) : TxPoint → Prop
  | .returned _ => True
  | .check tail _ => tail = s.dev.tdt.toNat
  | .clear tail pkt => tail = s.dev.tdt.toNat ∧ pkt.length ≤ 1518
  | .copy tail pkt => tail = s.dev.tdt.toNat ∧ pkt.length ≤ 1518
  | .size tail pkt =>
      tail = s.dev.tdt.toNat ∧ pkt.length ≤ 1518 ∧
        (List.range pkt.length).map (s.dev.txBuf tail) = pkt
  | .mark tail pkt => tail = s.dev.tdt.toNat ∧ s.dev.txPacket tail = pkt
  | .advance tail pkt => tail = s.dev.tdt.toNat ∧ s.dev.txPacket tail = pkt

/-- The indices count the accepted and the sent packets, and the packets between them lie in
their slots. -/
structure Inv (s : TxSystem) : Prop where
  tail : s.dev.tdt.toNat = s.accepted.length % 64
  head : s.tdh = s.sent.length % 64
  order : s.sent = s.accepted.take s.sent.length
  room : s.accepted.length < s.sent.length + 64
  ring : RingHolds 64 (fun i pkt => s.dev.txPacket i = pkt) s.accepted s.sent.length
  known : s.Known s.point

variable {s : TxSystem}

theorem Inv.sent_le (h : s.Inv) : s.sent.length ≤ s.accepted.length := by
  have horder := congrArg List.length h.order
  rw [List.length_take] at horder
  omega

end TxSystem

/-- Changing descriptor `i` without its length keeps every packet of the ring. -/
theorem tx_packet_set_tx {dev : E1000} {f : TxDesc → TxDesc} {i : Nat}
    (hlength : (f (dev.txQueue i)).length = (dev.txQueue i).length) (j : Nat) :
    (dev.setTx i f).txPacket j = dev.txPacket j := by
  by_cases hij : j = i
  · subst hij
    simp [E1000.txPacket, E1000.setTx, hlength]
  · simp [E1000.txPacket, E1000.setTx, hij]

/-- Changing descriptor `i` keeps the packets of the others. -/
theorem tx_packet_set_tx_ne {dev : E1000} {f : TxDesc → TxDesc} {i j : Nat} (hij : j ≠ i) :
    (dev.setTx i f).txPacket j = dev.txPacket j := by
  simp [E1000.txPacket, E1000.setTx, hij]

/-- The buffer starts with the bytes it was filled with. -/
theorem map_fill_buf (buf : Nat → Byte) (bytes : List Byte) :
    (List.range bytes.length).map (fillBuf buf bytes) = bytes := by
  apply List.ext_getElem
  · simp
  · intro i hi hi'
    simp [fillBuf, hi']

namespace TxSystem

variable {s : TxSystem}

theorem inv_boot (dev : E1000) : (boot dev).Inv where
  tail := rfl
  head := rfl
  order := rfl
  room := Nat.zero_lt_succ _
  ring := RingHolds.nil
  known := trivial

/-- A statement of the driver that changes only the descriptor and the buffer at `TDT` keeps the
invariant. -/
theorem Inv.edit {dev : E1000} {p : TxPoint} (h : s.Inv) (htdt : dev.tdt = s.dev.tdt)
    (hkeep : ∀ i, i ≠ s.dev.tdt.toNat → dev.txPacket i = s.dev.txPacket i)
    (hknown : Known { s with dev := dev, point := p } p) :
    Inv { s with dev := dev, point := p } where
  tail := by
    rw [htdt]
    exact h.tail
  head := h.head
  order := h.order
  room := h.room
  ring := by
    refine h.ring.edit_next h.room fun i item hi hitem => ?_
    rw [← h.tail] at hi
    exact (hkeep i hi).trans hitem
  known := hknown

/-- Every statement of the driver keeps the invariant while there is room. -/
theorem Inv.next (h : s.Inv) (hroom : s.Room) : s.next.Inv := by
  have hknown := h.known
  unfold TxSystem.next
  cases hpoint : s.point with
  | returned r => exact h
  | check tail pkt =>
      rw [hpoint] at hknown
      have hsame : ∀ p : TxPoint, Known { s with point := p } p → Inv { s with point := p } :=
        fun p hp => h.edit rfl (fun _ _ => rfl) hp
      dsimp only
      split
      · exact hsame _ trivial
      · split
        · exact hsame _ trivial
        · rename_i hsize _
          have hlength : pkt.length ≤ 1518 := Nat.le_of_not_lt hsize
          exact hsame _ ⟨hknown, hlength⟩
  | clear tail pkt =>
      rw [hpoint] at hknown
      exact h.edit rfl (fun i _ => tx_packet_set_tx (by rfl) i) hknown
  | copy tail pkt =>
      rw [hpoint] at hknown
      obtain ⟨htail, hlength⟩ := hknown
      refine h.edit rfl (fun i hi => ?_) ⟨htail, hlength, ?_⟩
      · rw [← htail] at hi
        simp [E1000.txPacket, hi]
      · show (List.range pkt.length).map (Function.update s.dev.txBuf tail _ tail) = pkt
        rw [Function.update_self]
        exact map_fill_buf _ pkt
  | size tail pkt =>
      rw [hpoint] at hknown
      obtain ⟨htail, hlength, hbytes⟩ := hknown
      refine h.edit rfl (fun i hi => ?_) ⟨htail, ?_⟩
      · exact tx_packet_set_tx_ne (by rwa [htail])
      · have hfits : pkt.length % 2 ^ 16 = pkt.length := Nat.mod_eq_of_lt (by omega)
        simp only [E1000.txPacket, E1000.setTx, Function.update_self, BitVec.toNat_ofNat, hfits]
        exact hbytes
  | mark tail pkt =>
      rw [hpoint] at hknown
      have hmark : ∀ i, E1000.txPacket (s.dev.setTx tail fun d =>
          { d with cmd := d.cmd ||| txdCmdRs ||| txdCmdEop }) i = s.dev.txPacket i :=
        tx_packet_set_tx (by rfl)
      exact h.edit rfl (fun i _ => hmark i) ⟨hknown.1, (hmark tail).trans hknown.2⟩
  | advance tail pkt =>
      rw [hpoint] at hknown
      obtain ⟨htail, hpacket⟩ := hknown
      have hfree := hroom tail pkt hpoint
      have hle := h.sent_le
      have hold := h.tail
      have hlap := h.room
      rw [h.head, hold] at hfree
      have hmod : (tail + 1) % ntxdesc % 2 ^ 32 = (tail + 1) % 64 :=
        Nat.mod_eq_of_lt (by unfold ntxdesc; omega)
      exact
        { tail := by
            simp only [BitVec.toNat_ofNat, hmod, List.length_append, List.length_singleton]
            omega
          head := h.head
          order := by
            show s.sent = (s.accepted ++ [pkt]).take s.sent.length
            rw [List.take_append_of_le_length hle]
            exact h.order
          room := by
            simp only [List.length_append, List.length_singleton]
            unfold ntxdesc at hfree
            omega
          ring := by
            refine RingHolds.push h.ring ?_
            rw [← hold, ← htail]
            exact hpacket
          known := trivial }

/-- The card keeps the invariant. -/
theorem Inv.send (h : s.Inv) (hbusy : s.tdh ≠ s.dev.tdt.toNat) : s.send.Inv := by
  have hlap := h.room
  have hlt : s.sent.length < s.accepted.length := by
    have hle := h.sent_le
    rw [h.tail, h.head] at hbusy
    rcases Nat.lt_or_eq_of_le hle with hlt | heq
    · exact hlt
    · exact absurd (by rw [heq]) hbusy
  have hpacket : s.dev.txPacket s.tdh = s.accepted[s.sent.length] := by
    rw [h.head]
    exact h.ring _ _ le_rfl (List.getElem?_eq_getElem hlt)
  have hkeep : ∀ i, s.send.dev.txPacket i = s.dev.txPacket i := by
    refine tx_packet_set_tx ?_
    split <;> rfl
  have hlength : s.send.sent.length = s.sent.length + 1 := by simp [TxSystem.send]
  exact
    { tail := h.tail
      head := by
        rw [hlength]
        show (s.tdh + 1) % ntxdesc = _
        rw [h.head]
        unfold ntxdesc
        omega
      order := by
        rw [hlength, List.take_add_one]
        show s.sent ++ [s.dev.txPacket s.tdh] = s.accepted.take _ ++ s.accepted[_]?.toList
        rw [← h.order, hpacket, List.getElem?_eq_getElem hlt]
        rfl
      room := by
        rw [hlength]
        show s.accepted.length < _
        omega
      ring := by
        rw [hlength]
        exact h.ring.pop (by omega) fun i item _ hitem => (hkeep i).trans hitem
      known := by
        have hknown := h.known
        show s.send.Known s.point
        cases hpoint : s.point with
        | mark tail pkt =>
            rw [hpoint] at hknown
            exact ⟨hknown.1, (hkeep tail).trans hknown.2⟩
        | advance tail pkt =>
            rw [hpoint] at hknown
            exact ⟨hknown.1, (hkeep tail).trans hknown.2⟩
        | _ =>
            rw [hpoint] at hknown
            exact hknown }

/-- Every step of a run in which the driver finds room keeps the invariant. -/
theorem Inv.step {t : TxSystem} (h : s.Inv) (hstep : RoomStep s t) : t.Inv := by
  cases hstep with
  | call pkt _ => exact h.edit rfl (fun _ _ => rfl) rfl
  | next hroom => exact h.next hroom
  | send hbusy => exact h.send hbusy

/-- The invariant gives the purpose of the ring. -/
theorem Inv.correct (h : s.Inv) : s.Correct := by
  have htail := h.tail
  have hhead := h.head
  have hlap := h.room
  have hle := h.sent_le
  refine ⟨h.order, fun j pkt hpkt => ?_, fun hidle => ?_⟩
  · have hj : s.sent.length + j < s.accepted.length := (List.getElem?_eq_some_iff.1 hpkt).1
    have hslot : (s.tdh + j) % 64 = (s.sent.length + j) % 64 := by omega
    refine ⟨?_, ?_⟩
    · unfold ntxdesc
      omega
    · unfold ntxdesc
      rw [hslot]
      exact h.ring _ pkt (Nat.le_add_right _ _) hpkt
  · have hall : s.accepted.length ≤ s.sent.length := by omega
    rw [h.order, List.take_of_length_le hall]

end TxSystem

/-! ## Whole calls -/

namespace TxSystem

variable {s : TxSystem}

/-- A whole call of `e1000_transmit` during which the card takes no step. -/
def transmit (s : TxSystem) (pkt : Packet) : TxSystem :=
  (s.call pkt).next.next.next.next.next.next

/-- A call of `e1000_transmit` is a run of the driver. -/
theorem transmit_reach {r : Int} (hrest : s.point = .returned r) (pkt : Packet) :
    TxReach s (s.transmit pkt) := by
  have hcall : TxReach s (s.call pkt) := Relation.ReflTransGen.single (.call pkt hrest)
  exact (((((hcall.tail .next).tail .next).tail .next).tail .next).tail .next).tail .next

/-- A packet is refused if it is too long. -/
theorem transmit_too_large {pkt : Packet} (hsize : 1518 < pkt.length) :
    s.transmit pkt = { s with point := .returned (-ePktTooLarge) } := by
  have hcheck : (s.call pkt).next = { s with point := .returned (-ePktTooLarge) } := if_pos hsize
  rw [transmit, hcheck]
  rfl

/-- A packet is refused if the descriptor at `TDT` waits for the card. -/
theorem transmit_full {pkt : Packet} (hsize : pkt.length ≤ 1518)
    (hfull : (s.dev.txQueue s.dev.tdt.toNat).cmd &&& txdCmdRs ≠ 0 ∧
      (s.dev.txQueue s.dev.tdt.toNat).status &&& txdStatDd = 0) :
    s.transmit pkt = { s with point := .returned (-eTxFull) } := by
  have hcheck : (s.call pkt).next = { s with point := .returned (-eTxFull) } :=
    (if_neg (Nat.not_lt.2 hsize)).trans (if_pos hfull)
  rw [transmit, hcheck]
  rfl

/-- Otherwise the packet is accepted. -/
theorem transmit_accept {pkt : Packet} (hsize : pkt.length ≤ 1518)
    (hfree : ¬ ((s.dev.txQueue s.dev.tdt.toNat).cmd &&& txdCmdRs ≠ 0 ∧
      (s.dev.txQueue s.dev.tdt.toNat).status &&& txdStatDd = 0)) :
    s.transmit pkt =
      { s with
        dev :=
          { s.dev with
            txQueue := Function.update s.dev.txQueue s.dev.tdt.toNat
              { length := BitVec.ofNat 16 pkt.length
                cmd := (s.dev.txQueue s.dev.tdt.toNat).cmd ||| txdCmdRs ||| txdCmdEop
                status := (s.dev.txQueue s.dev.tdt.toNat).status &&& ~~~txdStatDd }
            txBuf := Function.update s.dev.txBuf s.dev.tdt.toNat
              (fillBuf (s.dev.txBuf s.dev.tdt.toNat) pkt)
            tdt := BitVec.ofNat 32 ((s.dev.tdt.toNat + 1) % ntxdesc) }
        point := .returned 0
        accepted := s.accepted ++ [pkt] } := by
  have hcheck : (s.call pkt).next = { s with point := .clear s.dev.tdt.toNat pkt } :=
    (if_neg (Nat.not_lt.2 hsize)).trans (if_neg hfree)
  rw [transmit, hcheck]
  simp only [next, E1000.setTx, Function.update_self, Function.update_idem]

/-- The ring after `n` calls for packets of one byte, before the card takes its first step. -/
def fill : Nat → TxSystem
  | 0 => boot {}
  | n + 1 => (fill n).transmit [0]

/-- The first lap: no descriptor has been used before, so all 64 are accepted. -/
theorem fill_spec {n : Nat} (hn : n ≤ 64) :
    TxReach (boot {}) (fill n) ∧ (∃ r, (fill n).point = .returned r) ∧
      (fill n).dev.tdt.toNat = n % 64 ∧ (fill n).tdh = 0 ∧ (fill n).sent = [] ∧
      (fill n).accepted.length = n ∧
      ∀ i, n ≤ i → ((fill n).dev.txQueue i).cmd = 0 := by
  induction n with
  | zero => exact ⟨.refl, ⟨0, rfl⟩, rfl, rfl, rfl, rfl, fun _ _ => rfl⟩
  | succ n ih =>
      obtain ⟨hreach, ⟨r, hrest⟩, htdt, htdh, hsent, haccepted, hunused⟩ := ih (by omega)
      have htail : (fill n).dev.tdt.toNat = n := by omega
      have hfree : ¬ (((fill n).dev.txQueue (fill n).dev.tdt.toNat).cmd &&& txdCmdRs ≠ 0 ∧
          ((fill n).dev.txQueue (fill n).dev.tdt.toNat).status &&& txdStatDd = 0) := by
        rw [hunused _ (by omega)]
        simp
      have hstep : fill (n + 1) = _ := @transmit_accept (fill n) [0] (by decide) hfree
      refine ⟨hreach.trans (transmit_reach hrest _), ?_⟩
      rw [hstep]
      refine ⟨⟨0, rfl⟩, ?_, htdh, hsent, ?_, ?_⟩
      · rw [htail, BitVec.toNat_ofNat, ntxdesc]
        omega
      · simp [haccepted]
      · intro i hi
        have hne : i ≠ (fill n).dev.tdt.toNat := by omega
        simp only [Function.update_of_ne hne]
        exact hunused i (by omega)

end TxSystem

/-! ## The system call's view -/

/-- A program whatever it does. -/
theorem wp_any {σ ε α : Type} (x : Prog σ ε α) (s : σ) :
    wp x (fun _ _ => True) (fun _ _ => True) s := by
  unfold wp
  cases x s <;> trivial

/-- A page fault in kernel mode does not return to the faulting instruction. -/
theorem kernel_page_fault_leaves {α : Type} {Q : α → Kernel → Prop} (k : CpuId) (va : Word)
    (s : Kernel) : wp (kernelPageFault k va : Kern α) Q (fun _ _ => True) s := by
  unfold kernelPageFault
  rw [wp_ite]
  refine ⟨fun _ => trivial, fun _ => ?_⟩
  simp only [wp_bind, wp_exit]
  refine wp_mono_ret (wp_any _ s) fun _ t _ => wp_mono_ret (wp_any _ t) fun _ u _ => ?_
  exact wp_mono_ret (wp_any _ u) fun _ w _ => wp_any _ w

/-- Loading bytes does not concern the network card. -/
theorem load_bytes_e1000 (k : CpuId) (n : Nat) (va : Word) (s : Kernel) :
    wp (loadBytes k n va) (fun bytes s' => bytes.length = n ∧ s'.e1000 = s.e1000)
      (fun _ _ => True) s := by
  induction n generalizing va s with
  | zero => exact ⟨rfl, rfl⟩
  | succ n ih =>
      have hbyte : wp (loadByte k va) (fun _ s' => s'.e1000 = s.e1000) (fun _ _ => True) s := by
        simp only [loadByte, wp_bind, wp_get]
        cases walk s.mem (s.cpus k).cr3 (pgnum va) with
        | none => exact kernel_page_fault_leaves k va s
        | some x => rfl
      simp only [loadBytes, wp_bind, wp_pure]
      refine wp_mono_ret hbyte fun b t ht => wp_mono_ret (ih (va + 1) t) fun rest u hu => ?_
      exact ⟨congrArg Nat.succ hu.1, hu.2.trans ht⟩

/-- A call of `e1000_transmit` that returns is a call for the bytes it loaded. -/
theorem e1000_transmit_spec (k : CpuId) (buf size : Word) (s : Kernel) :
    wp (e1000Transmit k buf size)
      (fun r s' => ∃ pkt : Packet, pkt.length = size.toNat ∧ ∀ t : TxSystem, t.dev = s.e1000 →
        (t.transmit pkt).dev = s'.e1000 ∧ (t.transmit pkt).point = .returned r)
      (fun _ _ => True) s := by
  simp only [e1000Transmit, wp_bind, wp_gets, wp_ite]
  refine ⟨fun hlong => ?_, fun hshort => ⟨fun hfull => ?_, fun hfree => ?_⟩⟩
  · refine ⟨List.replicate size.toNat 0, List.length_replicate, fun t ht => ?_⟩
    have hsize : 1518 < (List.replicate size.toNat (0 : Byte)).length := by
      rw [List.length_replicate]
      exact hlong
    rw [TxSystem.transmit_too_large hsize]
    exact ⟨ht, rfl⟩
  · have hsize : (List.replicate size.toNat (0 : Byte)).length ≤ 1518 := by
      rw [List.length_replicate]
      exact Nat.le_of_not_lt hshort
    refine ⟨List.replicate size.toNat 0, List.length_replicate, fun t ht => ?_⟩
    rw [TxSystem.transmit_full hsize (by rw [ht]; exact hfull)]
    exact ⟨ht, rfl⟩
  · simp only [modifyE1000, wp_modify, wp_pure]
    refine wp_mono_ret (load_bytes_e1000 k size.toNat buf _) fun pkt u hu => ?_
    have hsize : pkt.length ≤ 1518 := by
      rw [hu.1]
      exact Nat.le_of_not_lt hshort
    refine ⟨pkt, hu.1, fun t ht => ?_⟩
    rw [TxSystem.transmit_accept hsize (by rw [ht]; exact hfree)]
    have hwidth : BitVec.ofNat 16 pkt.length = size.setWidth 16 := by
      rw [hu.1]
      apply BitVec.eq_of_toNat_eq
      simp
    simp only [hwidth, ht, hu.2, E1000.setTx, Function.update_self, Function.update_idem]
    exact ⟨trivial, trivial⟩

/-! ## Runs -/

/-- In every run of the driver and the card in which `e1000_transmit` never advances `TDT` onto
`TDH`, the ring does what it is for. -/
theorem tx_ring_correct (dev : E1000) (s : TxSystem)
    (hrun : Relation.ReflTransGen TxSystem.RoomStep (.boot dev) s) : s.Correct := by
  have hinv : s.Inv := by
    induction hrun with
    | refl => exact TxSystem.inv_boot dev
    | tail _ hstep ih => exact ih.step hstep
  exact hinv.correct

/-- One packet is accepted and sent. -/
theorem tx_ring_correct_one_packet :
    (((TxSystem.boot {}).transmit [1, 2, 3]).send).sent = [[1, 2, 3]] ∧
      ((TxSystem.boot {}).transmit [1, 2, 3]).send.Correct := by
  refine ⟨by decide, tx_ring_correct {} _ ?_⟩
  have hnext : ∀ t : TxSystem, (t.dev.tdt.toNat + 1) % ntxdesc ≠ t.tdh → t.RoomStep t.next :=
    fun t hroom => .next fun _ _ _ => hroom
  refine Relation.ReflTransGen.tail ?_ (.send (by decide))
  have hcall := Relation.ReflTransGen.single (TxSystem.RoomStep.call (s := .boot {}) [1, 2, 3] rfl)
  have h₁ := hcall.tail (hnext _ (by decide))
  have h₂ := h₁.tail (hnext _ (by decide))
  have h₃ := h₂.tail (hnext _ (by decide))
  have h₄ := h₃.tail (hnext _ (by decide))
  have h₅ := h₄.tail (hnext _ (by decide))
  exact h₅.tail (hnext _ (by decide))

/-- 64 packets fill the ring, `TDT` is back at `TDH`, and the card is idle with all of them
unsent. -/
theorem tx_ring_full_idle :
    TxReach (.boot {}) (.fill 64) ∧ (TxSystem.fill 64).tdh = (TxSystem.fill 64).dev.tdt.toNat ∧
      (TxSystem.fill 64).sent = [] ∧ (TxSystem.fill 64).accepted.length = 64 ∧
      ¬ (TxSystem.fill 64).Correct := by
  obtain ⟨hreach, -, htdt, htdh, hsent, haccepted, -⟩ := TxSystem.fill_spec (le_refl 64)
  have hidle : (TxSystem.fill 64).tdh = (TxSystem.fill 64).dev.tdt.toNat := by rw [htdh, htdt]
  refine ⟨hreach, hidle, hsent, haccepted, fun hcorrect => ?_⟩
  have hall := congrArg List.length (hcorrect.busy hidle)
  rw [hsent, haccepted] at hall
  cases hall

end Labs.Jos
