import Labs.Jos.E1000Tx
import Labs.Jos.Ns

/-!
# Received packets on their way to lwIP

The input environment of `net/input.c` takes packets from the card, writes each of them into its
one page `nsipcbuf` and sends that page to the network server with an `NSREQ_INPUT` request. The
server maps the page at the slot of the request, and the thread of the request reads it in
`jif_input`. The input environment, the server and any other environments run one system call at
a time, in any order. Histories record the packets that the card gave and what `jif_input` read
for each request.
-/

namespace Labs.Jos.NetInput

open Ns

/-- `INPUT_BUFSIZE`. -/
def inputBufsize : Nat := 2048

/-- `struct jif_pkt` on a page. -/
structure JifPkt where
  jpLen : Word
  jpData : Nat → Byte

/-- The page after the stores to `jp_len` and `jp_data`. -/
def JifPkt.store (p : JifPkt) (pkt : Packet) : JifPkt where
  jpLen := BitVec.ofNat 32 pkt.length
  jpData := fun i => pkt.getD i (p.jpData i)

/-- What `low_level_input` copies into its buffer. The length is cut to a signed 16-bit number;
nothing is said about a negative one. -/
def lowLevelInput (p : JifPkt) : Option Packet :=
  let len := (p.jpLen.setWidth 16).toInt
  if len < 0 then none else some ((List.range len.toNat).map p.jpData)

/-- A page that the server may have mapped at a slot. -/
inductive Page where
  /-- The page of the input environment. -/
  | nsipcbuf
  /-- A page of another environment. -/
  | other (n : Nat)
  deriving DecidableEq

/-- Where the input environment is. -/
inductive Point where
  /-- At `sys_net_recv`. -/
  | recv
  /-- At the stores to `nsipcbuf`, with the packet in `inputbuf`. -/
  | store (pkt : Packet)
  /-- In `ipc_send`. -/
  | send
  /-- In `sys_yield` after `ipc_send`. -/
  | yield
  | panicked

/-- The input environment, the server and the pages. `maps` is the server's page table at the
slots, `requests` the number of `NSREQ_INPUT` requests so far, and `unread` lists the requests
that `jif_input` has not read, with their numbers. -/
structure World where
  server : Server
  maps : Word → Option Page
  mem : Page → JifPkt
  point : Point
  received : List Packet
  requests : Nat
  unread : List (StArgs × Nat)
  reads : List (Nat × Packet)

namespace World

/-- The environments when the server enters `serve`. -/
def boot (mem : Page → JifPkt) (maps : Word → Option Page) : World where
  server := Ns.boot
  maps := maps
  mem := mem
  point := .recv
  received := []
  requests := 0
  unread := []
  reads := []

/-- A message reaches the server, which waits with the slot `va`. A page may come with it. -/
def deliver (timerEnvid : Word) (w : World) (va : Word) (msg : Message) (page : Option Page)
    (alloc : Alloc) : World :=
  let server := Ns.receive timerEnvid w.server va msg alloc
  let args : StArgs := ⟨msg.reqno, msg.whom, va⟩
  { w with
    server := server
    maps := if page = none then w.maps else Function.update w.maps va page
    requests := if msg.reqno = nsreqInput then w.requests + 1 else w.requests
    unread :=
      if msg.reqno = nsreqInput ∧ args ∈ server.threads then w.unread ++ [(args, w.requests)]
      else w.unread }

/-- The thread of a request calls `jif_input`, which finds a packet on the page. -/
def jifInput (w : World) (args : StArgs) (k : Nat) (pkt : Packet) : World :=
  { w with unread := w.unread.erase (args, k), reads := w.reads ++ [(k, pkt)] }

end World

/-- What happens. -/
inductive Event where
  /-- `sys_net_recv` returns a packet. -/
  | recv (pkt : Packet)
  /-- The input environment stores the packet on its page. -/
  | store
  /-- `sys_ipc_try_send` of the input environment finds the server waiting. -/
  | send (alloc : Alloc)
  /-- The same without memory to map the page: the server gets the message all the same, with the
  permissions of an earlier one, and the input environment panics. -/
  | sendNoMem (perm : Word) (alloc : Alloc)
  /-- `sys_yield` returns in the input environment. -/
  | yield
  /-- Another environment sends a message to the server. -/
  | other (msg : Message) (page : Option Nat) (alloc : Alloc)
  /-- Another environment writes to a page of its own. -/
  | write (n : Nat) (p : JifPkt)
  /-- A thread of the server reads the page of its request. -/
  | read (args : StArgs) (k : Nat)
  /-- `jif_input` finds no memory for the packet and ignores it. -/
  | ignore (args : StArgs) (k : Nat)
  /-- The server runs otherwise. -/
  | server (e : Ns.Event)

/-- One event, if it can happen. The input environment is `inputEnvid`. -/
inductive Step (timerEnvid inputEnvid : Word) (w : World) : Event → World → Prop
  | recv (pkt : Packet) (hpoint : w.point = .recv) (hsize : pkt.length ≤ inputBufsize) :
      Step timerEnvid inputEnvid w (.recv pkt)
        { w with point := .store pkt, received := w.received ++ [pkt] }
  | store (pkt : Packet) (hpoint : w.point = .store pkt) :
      Step timerEnvid inputEnvid w .store
        { w with
          point := .send
          mem := Function.update w.mem .nsipcbuf ((w.mem .nsipcbuf).store pkt) }
  | send (va : Word) (alloc : Alloc) (hpoint : w.point = .send)
      (hserver : w.server.point = .receiving va) :
      Step timerEnvid inputEnvid w (.send alloc)
        { w.deliver timerEnvid va ⟨nsreqInput, inputEnvid, pteP ||| pteU⟩ (some .nsipcbuf) alloc with
          point := .yield }
  | sendNoMem (va perm : Word) (alloc : Alloc) (hpoint : w.point = .send)
      (hserver : w.server.point = .receiving va) :
      Step timerEnvid inputEnvid w (.sendNoMem perm alloc)
        { w.deliver timerEnvid va ⟨nsreqInput, inputEnvid, perm⟩ none alloc with
          point := .panicked }
  | yield (hpoint : w.point = .yield) :
      Step timerEnvid inputEnvid w .yield { w with point := .recv }
  | other (va : Word) (msg : Message) (page : Option Nat) (alloc : Alloc)
      (hserver : w.server.point = .receiving va) (hwhom : msg.whom ≠ inputEnvid) :
      Step timerEnvid inputEnvid w (.other msg page alloc)
        (w.deliver timerEnvid va msg (page.map .other) alloc)
  | write (n : Nat) (p : JifPkt) :
      Step timerEnvid inputEnvid w (.write n p)
        { w with mem := Function.update w.mem (.other n) p }
  | read (args : StArgs) (k : Nat) (page : Page) (pkt : Packet)
      (hserver : w.server.point = .top ∨ ∃ va, w.server.point = .timer va)
      (hunread : (args, k) ∈ w.unread) (hpage : w.maps args.req = some page)
      (hpkt : lowLevelInput (w.mem page) = some pkt) :
      Step timerEnvid inputEnvid w (.read args k) (w.jifInput args k pkt)
  | ignore (args : StArgs) (k : Nat)
      (hserver : w.server.point = .top ∨ ∃ va, w.server.point = .timer va)
      (hunread : (args, k) ∈ w.unread) :
      Step timerEnvid inputEnvid w (.ignore args k)
        { w with unread := w.unread.erase (args, k) }
  | getBuffer (server : Server)
      (hstep : Ns.step timerEnvid w.server .getBuffer = some server) :
      Step timerEnvid inputEnvid w (.server .getBuffer) { w with server := server }
  | timer (sent : Bool) (server : Server)
      (hstep : Ns.step timerEnvid w.server (.timer sent) = some server) :
      Step timerEnvid inputEnvid w (.server (.timer sent)) { w with server := server }
  | finish (args : StArgs) (sent : Bool) (server : Server)
      (hstep : Ns.step timerEnvid w.server (.finish args sent) = some server)
      (hread : ∀ k, (args, k) ∉ w.unread) :
      Step timerEnvid inputEnvid w (.server (.finish args sent))
        { w with server := server, maps := Function.update w.maps args.req none }

/-- The condition on an event: when the input environment stores a packet, the requests that
`jif_input` has still to read wait for that same packet, its sends do not run out of memory, and
nobody else sends an `NSREQ_INPUT` request. -/
def Fair (w : World) : Event → Prop
  | .store => ∀ pkt, w.point = .store pkt → ∀ u ∈ w.unread, w.received[u.2]? = some pkt
  | .sendNoMem _ _ => False
  | .other msg _ _ => msg.reqno ≠ nsreqInput
  | _ => True

/-- The worlds that runs reach, with the condition `ok` on every event. -/
inductive Run (timerEnvid inputEnvid : Word) (ok : World → Event → Prop) : World → Prop
  | boot (mem : Page → JifPkt) (maps : Word → Option Page) :
      Run timerEnvid inputEnvid ok (.boot mem maps)
  | step {w w' : World} {e : Event} (h : Run timerEnvid inputEnvid ok w)
      (hstep : Step timerEnvid inputEnvid w e w') (hok : ok w e) :
      Run timerEnvid inputEnvid ok w'

/-- What was stored on a page is what `low_level_input` finds there. -/
theorem low_level_input_store (p : JifPkt) {pkt : Packet} (h : pkt.length ≤ inputBufsize) :
    lowLevelInput (p.store pkt) = some pkt := by
  have hlen : ((p.store pkt).jpLen.setWidth 16).toInt = pkt.length := by
    have hsmall : pkt.length ≤ 2048 := h
    simp only [JifPkt.store, BitVec.toInt_eq_toNat_cond, BitVec.toNat_setWidth,
      BitVec.toNat_ofNat]
    omega
  have hdata : (List.range pkt.length).map (p.store pkt).jpData = pkt := by
    refine List.ext_getElem (by simp) ?_
    intro i hi hi'
    simp [JifPkt.store, hi']
  simp only [lowLevelInput, hlen]
  rw [if_neg (by omega), Int.toNat_natCast, hdata]

/-- The input environment has as many packets as it sent requests, and one more until it sends
it. -/
def Counted (w : World) : Prop :=
  match w.point with
  | .recv => w.requests = w.received.length
  | .yield => w.requests = w.received.length
  | .store pkt => w.received[w.requests]? = some pkt ∧ w.requests + 1 = w.received.length ∧
      pkt.length ≤ inputBufsize
  | .send => w.requests + 1 = w.received.length ∧
      lowLevelInput (w.mem .nsipcbuf) = w.received[w.requests]?
  | .panicked => False

/-- The invariant: a request that waits to be read finds its packet on the page. -/
structure Intact (w : World) : Prop where
  kept : Ns.Kept w.server
  counted : Counted w
  threads : ∀ u ∈ w.unread, u.1 ∈ w.server.threads
  maps : ∀ u ∈ w.unread, w.maps u.1.req = some .nsipcbuf
  waits : ∀ u ∈ w.unread, ∃ pkt, lowLevelInput (w.mem .nsipcbuf) = some pkt ∧
    w.received[u.2]? = some pkt
  reads : ∀ r ∈ w.reads, w.received[r.1]? = some r.2

/-- A packet that was received stays where it is. -/
theorem received_append {received : List Packet} {k : Nat} {pkt : Packet} (new : Packet)
    (h : received[k]? = some pkt) : (received ++ [new])[k]? = some pkt := by
  obtain ⟨hlt, _⟩ := List.getElem?_eq_some_iff.1 h
  rw [List.getElem?_append_left hlt, h]

/-- A message adds at most one request to those of the server. -/
theorem threads_receive (timerEnvid : Word) (s : Server) (va : Word) (msg : Message)
    (alloc : Alloc) : s.threads ⊆ (Ns.receive timerEnvid s va msg alloc).threads := by
  unfold Ns.receive
  split
  · split <;> exact List.Subset.refl _
  · split
    · exact List.Subset.refl _
    · cases alloc with
      | ok => exact List.subset_append_left _ _
      | noArgs => exact List.Subset.refl _
      | noThread => exact List.Subset.refl _

namespace Intact

variable {timerEnvid inputEnvid : Word} {w w' : World} {va : Word}

/-- A page for a new message leaves the pages of the unfinished requests alone. -/
theorem maps_deliver (h : Intact w) (hserver : w.server.point = .receiving va)
    (page : Option Page) {u : StArgs × Nat} (hu : u ∈ w.unread) :
    (if page = none then w.maps else Function.update w.maps va page) u.1.req = some .nsipcbuf := by
  have hne := h.kept.req_fresh hserver (h.threads u hu)
  split
  · exact h.maps u hu
  · rw [Function.update_of_ne hne]
    exact h.maps u hu

/-- A message from another environment, other than an `NSREQ_INPUT` request. -/
theorem other (h : Intact w) (hserver : w.server.point = .receiving va) {msg : Message}
    (hmsg : msg.reqno ≠ nsreqInput) (page : Option Page) (alloc : Alloc) :
    Intact (w.deliver timerEnvid va msg page alloc) := by
  have hunread : (w.deliver timerEnvid va msg page alloc).unread = w.unread := by
    simp [World.deliver, hmsg]
  have hrequests : (w.deliver timerEnvid va msg page alloc).requests = w.requests := by
    simp [World.deliver, hmsg]
  constructor
  case kept => exact h.kept.next (next_of_receive hserver msg alloc)
  case counted =>
    have hcounted := h.counted
    unfold Counted at hcounted ⊢
    rw [hrequests]
    exact hcounted
  case threads =>
    intro u hu
    rw [hunread] at hu
    exact threads_receive timerEnvid w.server va msg alloc (h.threads u hu)
  case maps =>
    intro u hu
    rw [hunread] at hu
    exact h.maps_deliver hserver page hu
  case waits =>
    intro u hu
    rw [hunread] at hu
    exact h.waits u hu
  case reads => exact h.reads

/-- A request of the input environment. -/
theorem send (h : Intact w) (hpoint : w.point = .send)
    (hserver : w.server.point = .receiving va) (alloc : Alloc) :
    Intact { w.deliver timerEnvid va ⟨nsreqInput, inputEnvid, pteP ||| pteU⟩
      (some .nsipcbuf) alloc with point := .yield } := by
  have hcounted := h.counted
  unfold Counted at hcounted
  rw [hpoint] at hcounted
  obtain ⟨hnumber, hpage⟩ := hcounted
  obtain ⟨pkt, hpkt⟩ : ∃ pkt, w.received[w.requests]? = some pkt :=
    ⟨_, List.getElem?_eq_getElem (by omega)⟩
  have hmem : ∀ u ∈ (w.deliver timerEnvid va ⟨nsreqInput, inputEnvid, pteP ||| pteU⟩
      (some .nsipcbuf) alloc).unread, u ∈ w.unread ∨
        (u.1.req = va ∧ u.2 = w.requests ∧ u.1 ∈ (Ns.receive timerEnvid w.server va
          ⟨nsreqInput, inputEnvid, pteP ||| pteU⟩ alloc).threads) := by
    intro u hu
    simp only [World.deliver] at hu
    split at hu
    case isTrue hcreated =>
      rcases List.mem_append.1 hu with hold | hnew
      · exact .inl hold
      · rw [List.mem_singleton] at hnew
        subst hnew
        exact .inr ⟨rfl, rfl, hcreated.2⟩
    case isFalse => exact .inl hu
  constructor
  case kept =>
    have hnext : Ns.Next timerEnvid w.server _ _ :=
      next_of_receive hserver ⟨nsreqInput, inputEnvid, pteP ||| pteU⟩ alloc
    exact h.kept.next hnext
  case counted => exact hnumber
  case threads =>
    intro u hu
    rcases hmem u hu with hold | ⟨_, _, hnew⟩
    · exact threads_receive timerEnvid w.server va _ alloc (h.threads u hold)
    · exact hnew
  case maps =>
    intro u hu
    rcases hmem u hu with hold | ⟨hreq, _, _⟩
    · exact h.maps_deliver hserver (some .nsipcbuf) hold
    · show Function.update w.maps va (some .nsipcbuf) u.1.req = _
      rw [hreq, Function.update_self]
  case waits =>
    intro u hu
    rcases hmem u hu with hold | ⟨_, hnumber', _⟩
    · exact h.waits u hold
    · refine ⟨pkt, hpage.trans hpkt, ?_⟩
      rw [hnumber']
      exact hpkt
  case reads => exact h.reads

/-- The server runs on its own and keeps the requests that have not been read. -/
theorem serve (h : Intact w) {server : Server} {maps : Word → Option Page}
    (hkept : Ns.Kept server) (hthreads : ∀ u ∈ w.unread, u.1 ∈ server.threads)
    (hmaps : ∀ u ∈ w.unread, maps u.1.req = w.maps u.1.req) :
    Intact { w with server := server, maps := maps } := by
  refine ⟨hkept, h.counted, hthreads, ?_, h.waits, h.reads⟩
  intro u hu
  show maps u.1.req = _
  rw [hmaps u hu]
  exact h.maps u hu

/-- An event that meets the condition keeps the invariant. -/
theorem step (h : Intact w) {e : Event} (hstep : Step timerEnvid inputEnvid w e w')
    (hfair : Fair w e) : Intact w' := by
  have hcounted := h.counted
  unfold Counted at hcounted
  cases hstep with
  | recv pkt hpoint hsize =>
      rw [hpoint] at hcounted
      refine ⟨h.kept, ?_, h.threads, h.maps, ?_, ?_⟩
      · refine ⟨?_, ?_, hsize⟩
        · show (w.received ++ [pkt])[w.requests]? = some pkt
          simp [hcounted]
        · show w.requests + 1 = (w.received ++ [pkt]).length
          simp [hcounted]
      · intro u hu
        obtain ⟨old, hpage, hold⟩ := h.waits u hu
        exact ⟨old, hpage, received_append pkt hold⟩
      · intro r hr
        exact received_append pkt (h.reads r hr)
  | store pkt hpoint =>
      rw [hpoint] at hcounted
      obtain ⟨hlast, hnumber, hsize⟩ := hcounted
      have hpage : lowLevelInput (Function.update w.mem .nsipcbuf
          ((w.mem .nsipcbuf).store pkt) .nsipcbuf) = some pkt := by
        rw [Function.update_self]
        exact low_level_input_store _ hsize
      refine ⟨h.kept, ⟨hnumber, hpage.trans hlast.symm⟩, h.threads, h.maps, ?_, h.reads⟩
      intro u hu
      exact ⟨pkt, hpage, hfair pkt hpoint u hu⟩
  | send va alloc hpoint hserver => exact h.send hpoint hserver alloc
  | sendNoMem va perm alloc hpoint hserver => exact absurd hfair id
  | yield hpoint =>
      rw [hpoint] at hcounted
      exact ⟨h.kept, hcounted, h.threads, h.maps, h.waits, h.reads⟩
  | other va msg page alloc hserver hwhom => exact h.other hserver hfair _ alloc
  | write n p =>
      have hmem : Function.update w.mem (.other n) p .nsipcbuf = w.mem .nsipcbuf :=
        Function.update_of_ne (by simp) _ _
      refine ⟨h.kept, ?_, h.threads, h.maps, ?_, h.reads⟩
      · simp only [Counted, hmem]
        exact h.counted
      · intro u hu
        show ∃ pkt, lowLevelInput (Function.update w.mem (.other n) p .nsipcbuf) = _ ∧ _
        rw [hmem]
        exact h.waits u hu
  | read args k page pkt hserver hunread hpage hpkt =>
      have hsub : ∀ u ∈ w.unread.erase (args, k), u ∈ w.unread := fun u hu =>
        List.mem_of_mem_erase hu
      refine ⟨h.kept, h.counted, fun u hu => h.threads u (hsub u hu),
        fun u hu => h.maps u (hsub u hu), fun u hu => h.waits u (hsub u hu), ?_⟩
      intro r hr
      rcases List.mem_append.1 hr with hold | hnew
      · exact h.reads r hold
      · rw [List.mem_singleton] at hnew
        obtain ⟨found, hfound, hreceived⟩ := h.waits _ hunread
        have hown : page = .nsipcbuf := Option.some.inj (hpage.symm.trans (h.maps _ hunread))
        rw [hown, hfound] at hpkt
        rw [hnew, ← Option.some.inj hpkt]
        exact hreceived
  | ignore args k hserver hunread =>
      have hsub : ∀ u ∈ w.unread.erase (args, k), u ∈ w.unread := fun u hu =>
        List.mem_of_mem_erase hu
      exact ⟨h.kept, h.counted, fun u hu => h.threads u (hsub u hu),
        fun u hu => h.maps u (hsub u hu), fun u hu => h.waits u (hsub u hu), h.reads⟩
  | getBuffer server hstep =>
      have hnext := next_of_step hstep
      refine h.serve (h.kept.next hnext) ?_ fun _ _ => rfl
      intro u hu
      have hmem := h.threads u hu
      cases hnext <;> exact hmem
  | timer sent server hstep =>
      have hnext := next_of_step hstep
      refine h.serve (h.kept.next hnext) ?_ fun _ _ => rfl
      intro u hu
      have hmem := h.threads u hu
      cases hnext <;> exact hmem
  | finish args sent server hstep hread =>
      have hnext := next_of_step hstep
      have halive := alive_of_next hnext
      have hother : ∀ u ∈ w.unread, u.1 ≠ args := by
        intro u hu heq
        exact hread u.2 (heq ▸ hu)
      refine h.serve (h.kept.next hnext) ?_ ?_
      · intro u hu
        have hmem := h.threads u hu
        cases hnext with
        | finish _ _ hpoint hargs => exact (List.mem_erase_of_ne (hother u hu)).2 hmem
        | finishDead _ _ hpoint hargs => exact hmem
      · intro u hu
        have hargs : args ∈ w.server.threads := by
          cases hnext with
          | finish _ _ hpoint hargs => exact hargs
          | finishDead _ _ hpoint hargs => exact hargs
        refine Function.update_of_ne (fun heq => ?_) _ _
        exact hother u hu (h.kept.req_inj halive (h.threads u hu) hargs heq)

theorem boot (mem : Page → JifPkt) (maps : Word → Option Page) : Intact (.boot mem maps) := by
  refine ⟨kept_boot, rfl, ?_, ?_, ?_, ?_⟩
  · intro u hu
    cases hu
  · intro u hu
    cases hu
  · intro u hu
    cases hu
  · intro r hr
    cases hr

/-- Every run whose events meet the condition keeps the invariant. -/
theorem of_run (h : Run timerEnvid inputEnvid Fair w) : Intact w := by
  induction h with
  | boot mem maps => exact boot mem maps
  | step h hstep hfair ih => exact ih.step hstep hfair

end Intact

/-- In every run whose events meet the condition, what `jif_input` reads for a request is the
packet of that number. -/
theorem input_intact {timerEnvid inputEnvid : Word} {w : World}
    (h : Run timerEnvid inputEnvid Fair w) :
    ∀ k pkt, (k, pkt) ∈ w.reads → w.received[k]? = some pkt :=
  fun k pkt hread => (Intact.of_run h).reads (k, pkt) hread

/-- A page of zeros. -/
def zeroPage : JifPkt := ⟨0, fun _ => 0⟩

/-- The request of the input environment `8` in slot `0`. -/
def inputArgs : StArgs := ⟨nsreqInput, 8, slotVa 0⟩

/-- The server waits, the packet `[1]` comes in and is sent, and the server creates a thread. -/
theorem run_sent (ok : World → Event → Prop) (hok : ∀ w e, Fair w e → ok w e) :
    ∃ w, Run 7 8 ok w ∧ w.point = .yield ∧ w.server.point = .top ∧ w.received = [[1]] ∧
      w.reads = [] ∧ w.unread = [(inputArgs, 0)] ∧ w.maps inputArgs.req = some .nsipcbuf ∧
      w.mem .nsipcbuf = zeroPage.store [1] := by
  have hboot : Run 7 8 ok (.boot (fun _ => zeroPage) fun _ => none) := .boot _ _
  have hbuffer := hboot.step (.getBuffer _ rfl) (hok _ _ trivial)
  have hrecv := hbuffer.step (.recv [1] rfl (by decide)) (hok _ _ trivial)
  have hstore := hrecv.step (.store [1] rfl) (hok _ _ (by intro pkt _ u hu; cases hu))
  have hsend := hstore.step (.send (slotVa 0) .ok rfl rfl) (hok _ _ trivial)
  exact ⟨_, hsend, rfl, rfl, rfl, rfl, rfl, rfl, rfl⟩

/-- The input environment may store the next packet before `jif_input` has read the last one. -/
theorem second_packet_read_first :
    ∃ w, Run 7 8 (fun _ _ => True) w ∧
      ∃ k pkt, (k, pkt) ∈ w.reads ∧ w.received[k]? ≠ some pkt := by
  obtain ⟨w, hrun, hpoint, hserver, hreceived, hreads, hunread, hmaps, hmem⟩ :=
    run_sent (fun _ _ => True) fun _ _ _ => trivial
  have hyield := hrun.step (.yield hpoint) trivial
  have hrecv := hyield.step (.recv [2] rfl (by decide)) trivial
  have hstore := hrecv.step (.store [2] rfl) trivial
  have hread := hstore.step (.read inputArgs 0 .nsipcbuf [2] (.inl hserver) ?_ hmaps ?_) trivial
  · refine ⟨_, hread, 0, [2], ?_, ?_⟩
    · simp [World.jifInput]
    · simp [World.jifInput, hreceived]
  · show (inputArgs, 0) ∈ w.unread
    simp [hunread]
  · show lowLevelInput (Function.update w.mem .nsipcbuf ((w.mem .nsipcbuf).store [2]) .nsipcbuf) = _
    rw [Function.update_self]
    exact low_level_input_store _ (by decide)

/-- A packet that is read before the next one is stored. -/
theorem input_intact_one :
    ∃ w, Run 7 8 Fair w ∧ w.reads = [(0, [1])] ∧
      ∀ k pkt, (k, pkt) ∈ w.reads → w.received[k]? = some pkt := by
  obtain ⟨w, hrun, hpoint, hserver, hreceived, hreads, hunread, hmaps, hmem⟩ :=
    run_sent Fair fun _ _ h => h
  have hread := hrun.step (.read inputArgs 0 .nsipcbuf [1] (.inl hserver) ?_ hmaps ?_) trivial
  · refine ⟨_, hread, ?_, input_intact hread⟩
    simp [World.jifInput, hreads]
  · simp [hunread]
  · rw [hmem]
    exact low_level_input_store _ (by decide)

end Labs.Jos.NetInput
