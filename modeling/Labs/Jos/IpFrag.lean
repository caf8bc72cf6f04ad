import Labs.Base.Pieces
import Labs.Jos.Headers

/-!
# Fragments of IP datagrams

`net/lwip/core/ipv4/ip_frag.c`: `ip_frag` sends a datagram in fragments, and `ip_reass` keeps the
fragments that arrive until a datagram is complete. A fragment in the queue has a helper laid over
its IP header, which chains it to the next one; the queue is here the list of its fragments. A
failed assertion stops the program with its message.
-/

namespace Labs.Jos.IpFrag

open Chksum

/-! ## Packets -/

/-- `struct ip_hdr`. The fields are in network byte order. -/
structure IpHdr where
  vHlTos : Half
  len : Half
  id : Half
  offset : Half
  ttlProto : Half
  chksum : Half
  src : Word
  dest : Word
  deriving DecidableEq

def IP_MF : Half := 0x2000
def IP_OFFMASK : Half := 0x1fff

/-- The bytes of a header in memory. -/
def IpHdr.bytes (h : IpHdr) : List Byte :=
  [h.vHlTos, h.len, h.id, h.offset, h.ttlProto, h.chksum, h.src.setWidth 16,
    (h.src >>> 16).setWidth 16, h.dest.setWidth 16, (h.dest >>> 16).setWidth 16].flatMap halfBytes

/-- `IPH_HL`. -/
def iphHl (h : IpHdr) : Half := (htons h.vHlTos >>> 8) &&& 0x0f

/-- The offset of a fragment, in bytes. -/
def offsetOf (h : IpHdr) : Half := (htons h.offset &&& IP_OFFMASK) * 8

/-- The length of a fragment without its header. -/
def lengthOf (h : IpHdr) : Half := htons h.len - iphHl h * 4

/-- `IPH_CHKSUM_SET` to zero and then to the checksum. -/
def IpHdr.setChksum (h : IpHdr) : IpHdr :=
  let h := { h with chksum := 0 }
  { h with chksum := inetChksum h.bytes }

/-- A chain of buffers that begins with an IP header: the header, the rest of the first buffer, and
the other buffers. -/
structure Packet where
  hdr : IpHdr
  first : List Byte
  more : List (List Byte)
  deriving DecidableEq

def pbufClen (p : Packet) : Nat := p.more.length + 1

/-- What is behind the header. -/
def Packet.payload (p : Packet) : List Byte := p.first ++ p.more.flatten

/-! ## The queue -/

/-- A fragment in the queue: the helper, and the buffers that it is laid over. -/
structure Frag where
  start : Half
  stop : Half
  first : List Byte
  more : List (List Byte)
  deriving DecidableEq

def Frag.clen (f : Frag) : Nat := f.more.length + 1

/-- `struct ip_reassdata`. -/
structure ReassData where
  p : List Frag
  iphdr : IpHdr
  datagramLen : Half
  lastfrag : Bool
  timer : Nat
  deriving DecidableEq

/-- `reassdatagrams` and `ip_reass_pbufcount`. -/
structure State where
  datagrams : List ReassData
  pbufcount : Nat
  deriving DecidableEq

def IP_REASS_MAXAGE : Nat := 3
def IP_REASS_MAX_PBUFS : Nat := 10
def MEMP_NUM_REASSDATA : Nat := 5

/-- `IP_ADDRESSES_AND_ID_MATCH`. -/
def addressesAndIdMatch (a b : IpHdr) : Bool := a.src == b.src && a.dest == b.dest && a.id == b.id

/-- The buffers of a datagram. -/
def ReassData.clen (r : ReassData) : Nat := (r.p.map Frag.clen).sum

/-- `ip_reass_free_complete_datagram` for the datagram at position `i`, where `prev` is the position
in front of it: the number of buffers that were freed. The message to the sender is left out. -/
def freeCompleteDatagram (s : State) (i : Nat) (prev : Option Nat) :
    Except String (State × Nat) :=
  if prev = some i then .error "prev != ipr"
  else if prev.any (· + 1 != i) then .error "prev->next == ipr"
  else if i ≠ 0 ∧ prev = none then .error "sanity check linked list"
  else
    let freed := ((s.datagrams[i]?).map ReassData.clen).getD 0
    if s.pbufcount < freed then .error "ip_reass_pbufcount >= clen"
    else .ok (⟨s.datagrams.eraseIdx i, s.pbufcount - freed⟩, freed)

/-- What the search for the oldest datagram has found. -/
structure Scan where
  oldest : Option (Nat × Nat)
  prev : Option Nat
  others : Nat

/-- The search for the oldest datagram to which `fraghdr` does not belong, from position `i` on: its
position and timer. Ties go to the later one. -/
def scan (fraghdr : IpHdr) : List ReassData → Nat → Scan → Scan
  | [], _, sc => sc
  | r :: rest, i, sc =>
      let sc :=
        if addressesAndIdMatch r.iphdr fraghdr then sc
        else
          { sc with
            others := sc.others + 1
            oldest := match sc.oldest with
              | none => some (i, r.timer)
              | some (j, timer) => if r.timer ≤ timer then some (i, r.timer) else some (j, timer) }
      scan fraghdr rest (i + 1) (if rest = [] then sc else { sc with prev := some i })

/-- The loop of `ip_reass_remove_oldest_datagram`. Each round but the last removes a datagram. -/
def removeOldestLoop (fraghdr : IpHdr) (pbufsNeeded : Nat) :
    Nat → State → Nat → Except String (State × Nat)
  | 0, s, freed => .ok (s, freed)
  | fuel + 1, s, freed => do
      let sc := scan fraghdr s.datagrams 0 ⟨none, none, 0⟩
      let (s, freed) ← match sc.oldest with
        | none => pure (s, freed)
        | some (i, _) => do
            let (s, current) ← freeCompleteDatagram s i sc.prev
            pure (s, freed + current)
      if freed < pbufsNeeded ∧ 1 < sc.others then removeOldestLoop fraghdr pbufsNeeded fuel s freed
      else pure (s, freed)

/-- `ip_reass_remove_oldest_datagram`. -/
def removeOldestDatagram (fraghdr : IpHdr) (pbufsNeeded : Nat) (s : State) :
    Except String (State × Nat) :=
  removeOldestLoop fraghdr pbufsNeeded (s.datagrams.length + 1) s 0

/-- A new `struct ip_reassdata` at the front of the list. -/
def pushDatagram (fraghdr : IpHdr) (s : State) : State :=
  { s with datagrams := ⟨[], fraghdr, 0, false, IP_REASS_MAXAGE⟩ :: s.datagrams }

/-- `ip_reass_enqueue_new_datagram`. All entries of the pool that are in use are in the list. -/
def enqueueNewDatagram (fraghdr : IpHdr) (clen : Nat) (s : State) :
    Except String (State × Bool) := do
  if s.datagrams.length < MEMP_NUM_REASSDATA then pure (pushDatagram fraghdr s, true)
  else
    let (s, freed) ← removeOldestDatagram fraghdr clen s
    if clen ≤ freed ∧ s.datagrams.length < MEMP_NUM_REASSDATA then
      pure (pushDatagram fraghdr s, true)
    else pure (s, false)

/-! ## The chain of fragments -/

/-- A chain with a new fragment in it: whether no gap has been found in front of it, and the fragments
behind it. -/
structure Placed where
  chain : List Frag
  valid : Bool
  next : List Frag

/-- The loop that finds the place of a new fragment. There is none for a fragment that overlaps, or
that is there already. -/
def place (new : Frag) : Option Frag → List Frag → Bool → Except String (Option Placed)
  | none, [], valid => .ok (some ⟨[new], valid, []⟩)
  | some prev, [], valid =>
      if prev.stop ≤ new.start then .ok (some ⟨[new], valid && prev.stop == new.start, []⟩)
      else .error "check fragments don't overlap"
  | prev, q :: rest, valid =>
      if new.start < q.start then
        if prev.any fun prev => new.start < prev.stop || new.stop > q.start then .ok none
        else .ok (some ⟨new :: q :: rest, valid, q :: rest⟩)
      else if new.start = q.start then .ok none
      else if new.start < q.stop then .ok none
      else do
        let placed ← place new (some q) rest (valid && prev.all fun prev => prev.stop == q.start)
        pure (placed.map fun x => { x with chain := q :: x.chain })

/-- The loop that looks for gaps behind a fragment: whether there are none, and the fragment at
which it stops. -/
def follow : Frag → List Frag → Bool × Frag
  | prev, [] => (true, prev)
  | prev, q :: rest => if prev.stop = q.start then follow q rest else (false, q)

/-- The validation of a chain after `new` has been put in it. -/
def validate (ipr : ReassData) (new : Frag) (valid : Bool) (next : List Frag) :
    Except String Bool :=
  if ¬ ipr.lastfrag then .ok false
  else if ¬ valid then .ok false
  else if ipr.p.head?.all (·.start ≠ 0) then .ok false
  else
    let (valid, last) := follow new next
    if ¬ valid then .ok false
    else if ipr.p.length = 1 then .error "sanity check"
    else if last.stop ≠ ipr.datagramLen then
      .error "validate_datagram:datagram end!=datagram len"
    else .ok true

/-- `ip_reass_chain_frag_into_datagram_and_validate`: nothing if the fragment was thrown away. -/
def chainFrag (ipr : ReassData) (new : Frag) : Except String (Option (ReassData × Bool)) := do
  match ← place new none ipr.p true with
  | none => pure none
  | some placed =>
      let ipr := { ipr with p := placed.chain }
      let valid ← validate ipr new placed.valid placed.next
      pure (some (ipr, valid))

/-- The helper for a packet. -/
def fragOf (p : Packet) : Frag :=
  ⟨offsetOf p.hdr, offsetOf p.hdr + lengthOf p.hdr, p.first, p.more⟩

/-! ## `ip_reass` -/

/-- Make room if too many buffers are in the queue. -/
def makeRoom (s : State) (fraghdr : IpHdr) (clen : Nat) : Except String (State × Bool) := do
  if s.pbufcount + clen ≤ IP_REASS_MAX_PBUFS then pure (s, true)
  else
    let (s, freed) ← removeOldestDatagram fraghdr clen s
    pure (s, decide (freed ≠ 0 ∧ s.pbufcount + clen ≤ IP_REASS_MAX_PBUFS))

/-- The header of the datagram is that of its first fragment, once that is there. -/
def copyHdr (fraghdr : IpHdr) (ipr : ReassData) : ReassData :=
  if htons fraghdr.offset &&& IP_OFFMASK = 0 ∧ htons ipr.iphdr.offset &&& IP_OFFMASK ≠ 0 then
    { ipr with iphdr := fraghdr }
  else ipr

/-- The datagram of a fragment: the position of the entry, which may be new. -/
def findDatagram (s : State) (fraghdr : IpHdr) (clen : Nat) :
    Except String (State × Option Nat) := do
  match s.datagrams.findIdx? fun r => addressesAndIdMatch r.iphdr fraghdr with
  | some i => pure ({ s with datagrams := s.datagrams.modify i (copyHdr fraghdr) }, some i)
  | none =>
      let (s, made) ← enqueueNewDatagram fraghdr clen s
      pure (s, if made then some 0 else none)

/-- A fragment without more fragments behind it. -/
def markLast (fraghdr : IpHdr) (ipr : ReassData) : ReassData :=
  if htons fraghdr.offset &&& IP_MF = 0 then
    { ipr with lastfrag := true, datagramLen := offsetOf fraghdr + lengthOf fraghdr }
  else ipr

/-- The datagram that is made of a complete queue. -/
def joinFrags (ipr : ReassData) : Packet :=
  let hdr := { ipr.iphdr with len := htons (ipr.datagramLen + BitVec.ofNat 16 IP_HLEN), offset := 0 }
  match ipr.p with
  | [] => ⟨hdr.setChksum, [], []⟩
  | f :: rest => ⟨hdr.setChksum, f.first, f.more ++ rest.flatMap fun r => r.first :: r.more⟩

/-- The rest of `ip_reass`, for a fragment of the datagram at position `i`. -/
def addFrag (s : State) (i : Nat) (p : Packet) : Except String (State × Option Packet) :=
  match s.datagrams[i]? with
  | none => pure (s, none)
  | some ipr => do
      let ipr := markLast p.hdr ipr
      let count := s.pbufcount + pbufClen p
      match ← chainFrag ipr (fragOf p) with
      | none => pure (⟨s.datagrams.set i ipr, count - pbufClen p⟩, none)
      | some (ipr, false) => pure (⟨s.datagrams.set i ipr, count⟩, none)
      | some (ipr, true) =>
          let q := joinFrags ipr
          pure (⟨s.datagrams.eraseIdx i, count - pbufClen q⟩, some q)

/-- `ip_reass`: the datagram, if it is complete. -/
def ipReass (s : State) (p : Packet) : Except String (State × Option Packet) := do
  if iphHl p.hdr * 4 ≠ BitVec.ofNat 16 IP_HLEN then pure (s, none)
  else
    let (s, room) ← makeRoom s p.hdr (pbufClen p)
    if ¬ room then pure (s, none)
    else
      match ← findDatagram s p.hdr (pbufClen p) with
      | (s, none) => pure (s, none)
      | (s, some i) => addFrag s i p

/-- The loop of `ip_reass_tmr`: what is left of the list, and the buffers that are freed. -/
def tmrLoop : List ReassData → List ReassData × Nat
  | [] => ([], 0)
  | r :: rest =>
      let (rest, freed) := tmrLoop rest
      if 0 < r.timer then ({ r with timer := r.timer - 1 } :: rest, freed)
      else (rest, r.clen + freed)

def ipReassTmr (s : State) : State :=
  let (datagrams, freed) := tmrLoop s.datagrams
  ⟨datagrams, s.pbufcount - freed⟩

/-! ## `ip_frag` -/

/-- The size of the static buffer in which the fragments are built. -/
def IP_FRAG_MAX_MTU : Nat := 1500

end Labs.Jos.IpFrag
