import Labs.Base.Pool
import Labs.Jos.Mmu

/-!
# Request slots of the network server

`serve` of `net/serv.c` takes one of `QUEUE_SIZE` page-sized slots before each message that it
receives. The thread that serves the request gives the slot back when it has finished. The main
thread and the request threads are cooperative: others run while the main thread is in
`thread_yield`, and none runs while it is blocked in `ipc_recv`.
-/

namespace Labs.Jos.Ns

/-- `QUEUE_SIZE`. -/
def queueSize : Nat := 20

/-- `REQVA`. -/
def reqva : Word := 0x0ffff000 - 20 * pgsizeW

def nsreqInput : Word := 10
def nsreqTimer : Word := 12

/-- The address of slot `i`. -/
def slotVa (i : Nat) : Word := reqva + BitVec.ofNat 32 i * pgsizeW

/-- The slot of an address. -/
def slotOf (va : Word) : Nat := ((va - reqva) / pgsizeW).toNat

/-- `get_buffer`: the address of the first free slot, if there is one, and the slots in use. -/
def getBuffer (buse : Nat → Bool) : Option (Word × (Nat → Bool)) :=
  match (List.range queueSize).find? fun i => !buse i with
  | some i => some (slotVa i, Function.update buse i true)
  | none => none

/-- `put_buffer`. -/
def putBuffer (buse : Nat → Bool) (va : Word) : Nat → Bool :=
  Function.update buse (slotOf va) false

/-- `struct st_args`. -/
structure StArgs where
  reqno : Word
  whom : Word
  req : Word
  deriving DecidableEq

/-- What `ipc_recv` returns. -/
structure Message where
  reqno : Word
  whom : Word
  perm : Word

/-- How the two allocations for a request end. -/
inductive Alloc where
  | ok
  /-- `malloc` of the arguments fails. -/
  | noArgs
  /-- `thread_create` fails; its result is ignored. -/
  | noThread
  deriving DecidableEq

/-- Why the server died. -/
inductive Panic where
  /-- `NS: buffer overflow`. -/
  | bufferOverflow
  /-- `could not allocate thread args structure`. -/
  | noArgs
  /-- `ipc_send error`. -/
  | ipcSend
  deriving DecidableEq

/-- Where the main thread is. -/
inductive Point where
  /-- At the top of the loop of `serve`, or in one of its calls of `thread_yield`. -/
  | top
  /-- In `ipc_recv`, with this slot for the page. -/
  | receiving (va : Word)
  /-- In `thread_yield` of `process_timer`. -/
  | timer (va : Word)
  | dead (panic : Panic)
  deriving DecidableEq

/-- The slots in use, the main thread, and the request threads that have not finished. -/
structure Server where
  buse : Nat → Bool
  point : Point
  threads : List StArgs

/-- The server when it enters `serve`. -/
def boot : Server where
  buse := fun _ => false
  point := .top
  threads := []

/-- What happens in the server. -/
inductive Event where
  /-- The main thread takes a slot. -/
  | getBuffer
  /-- A message arrives. -/
  | receive (msg : Message) (alloc : Alloc)
  /-- `process_timer` goes on after its yield; `sent` tells whether `ipc_send` succeeds. -/
  | timer (sent : Bool)
  /-- A request thread does its work up to its end; `sent` tells whether `ipc_send` succeeds. -/
  | finish (args : StArgs) (sent : Bool)

/-- `serve` from the return of `ipc_recv` to the next point at which other threads run. -/
def receive (timerEnvid : Word) (s : Server) (va : Word) (msg : Message) (alloc : Alloc) :
    Server :=
  if msg.reqno = nsreqTimer then
    -- `process_timer` refuses a message that is not from the timer environment
    if msg.whom ≠ timerEnvid then { s with buse := putBuffer s.buse va, point := .top }
    else { s with point := .timer va }
  else if msg.perm &&& pteP = 0 then
    -- just leave it hanging
    { s with point := .top }
  else
    match alloc with
    | .noArgs => { s with point := .dead .noArgs }
    | .noThread => { s with point := .top }
    | .ok => { s with point := .top, threads := s.threads ++ [⟨msg.reqno, msg.whom, va⟩] }

/-- The end of `serve_thread`. -/
def finish (s : Server) (args : StArgs) (sent : Bool) : Server :=
  if args.reqno ≠ nsreqInput ∧ sent = false then { s with point := .dead .ipcSend }
  else { s with buse := putBuffer s.buse args.req, threads := s.threads.erase args }

/-- One event, if it can happen. -/
def step (timerEnvid : Word) (s : Server) : Event → Option Server
  | .getBuffer =>
      if s.point = .top then
        match getBuffer s.buse with
        | some (va, buse) => some { s with buse := buse, point := .receiving va }
        | none => some { s with point := .dead .bufferOverflow }
      else none
  | .receive msg alloc =>
      match s.point with
      | .receiving va => some (receive timerEnvid s va msg alloc)
      | _ => none
  | .timer sent =>
      match s.point with
      | .timer va =>
          if sent then some { s with buse := putBuffer s.buse va, point := .top }
          else some { s with point := .dead .ipcSend }
      | _ => none
  | .finish args sent =>
      match s.point with
      | .receiving _ => none
      | .dead _ => none
      | _ => if args ∈ s.threads then some (finish s args sent) else none

/-- A run of the server. -/
def run (timerEnvid : Word) (s : Server) (events : List Event) : Option Server :=
  events.foldlM (step timerEnvid) s

/-- Slot `i` holds a request whose thread has not finished. -/
def Holds (s : Server) (i : Nat) : Prop := ∃ args ∈ s.threads, slotOf args.req = i

/-- At the top of the loop, the slots in use are the slots that hold unfinished requests; and the
server only runs out of slots when all of them do. -/
def Slots (s : Server) : Prop :=
  (s.point = .top → ∀ i < queueSize, s.buse i = true ↔ Holds s i) ∧
    (s.point = .dead .bufferOverflow → queueSize ≤ s.threads.length)

/-- A message whose slot somebody gives back: it is from a timer, or it has an argument page and
its thread is created. (If `malloc` fails, the server stops.) -/
def Served (msg : Message) (alloc : Alloc) : Prop :=
  msg.reqno = nsreqTimer ∨ (msg.perm &&& pteP ≠ 0 ∧ alloc ≠ .noThread)

instance (msg : Message) (alloc : Alloc) : Decidable (Served msg alloc) :=
  inferInstanceAs (Decidable (_ ∨ _))

/-- The slots of the unfinished requests. -/
def Server.taken (s : Server) : Multiset Nat :=
  Multiset.map (fun args : StArgs => slotOf args.req) s.threads

/-- The slots that somebody will give back. -/
def Server.owners (s : Server) : Multiset Nat :=
  match s.point with
  | .receiving va => slotOf va ::ₘ s.taken
  | .timer va => slotOf va ::ₘ s.taken
  | _ => s.taken

/-- The slots of the server as a pool. -/
def Server.pool (s : Server) : Pool Nat := ⟨s.buse, s.owners⟩

/-- `put_buffer` finds the slot again from its address. -/
theorem slot_of_va {i : Nat} (h : i < queueSize) : slotOf (slotVa i) = i := by
  have hall : ∀ j < 20, slotOf (slotVa j) = j := by decide
  exact hall i h

theorem mem_taken {s : Server} {i : Nat} : i ∈ s.taken ↔ Holds s i := by
  simp [Server.taken, Holds]

/-- A new request takes its slot. -/
theorem taken_push {s : Server} (args : StArgs) :
    ({ s with threads := s.threads ++ [args] } : Server).taken = slotOf args.req ::ₘ s.taken := by
  have hperm : ((s.threads ++ [args] : List StArgs) : Multiset StArgs) = args ::ₘ ↑s.threads :=
    Multiset.coe_eq_coe.2 (List.perm_append_singleton _ _)
  show Multiset.map _ _ = _
  rw [hperm, Multiset.map_cons]
  rfl

/-- A request that ends gives its slot up. -/
theorem taken_erase {s : Server} {args : StArgs} (h : args ∈ s.threads) :
    ({ s with threads := s.threads.erase args } : Server).taken =
      s.taken.erase (slotOf args.req) := by
  have herase := Multiset.map_erase_of_mem (fun a : StArgs => slotOf a.req) (s.threads : Multiset _)
    (Multiset.mem_coe.2 h)
  rw [Multiset.coe_erase] at herase
  exact herase

/-- What `get_buffer` does. -/
theorem get_buffer_cases (buse : Nat → Bool) :
    (∃ i < queueSize, buse i = false ∧
      getBuffer buse = some (slotVa i, Function.update buse i true)) ∨
    ((∀ i < queueSize, buse i = true) ∧ getBuffer buse = none) := by
  unfold getBuffer
  cases hfind : (List.range queueSize).find? fun i => !buse i with
  | some i =>
      have hmem := List.mem_of_find?_eq_some hfind
      have hfree := List.find?_some hfind
      exact .inl ⟨i, List.mem_range.1 hmem, by simpa using hfree, rfl⟩
  | none =>
      refine .inr ⟨fun i hi => ?_, rfl⟩
      have hused := List.find?_eq_none.1 hfind i (List.mem_range.2 hi)
      simpa using hused

variable {timerEnvid : Word} {s s' : Server}

/-- What an event can do, branch by branch. -/
inductive Next (timerEnvid : Word) (s : Server) : Event → Server → Prop
  | take (i : Nat) (hpoint : s.point = .top) (hi : i < queueSize) (hfree : s.buse i = false) :
      Next timerEnvid s .getBuffer
        { s with buse := Function.update s.buse i true, point := .receiving (slotVa i) }
  | overflow (hpoint : s.point = .top) (hfull : ∀ i < queueSize, s.buse i = true) :
      Next timerEnvid s .getBuffer { s with point := .dead .bufferOverflow }
  | refuse (va : Word) (msg : Message) (alloc : Alloc) (hpoint : s.point = .receiving va)
      (htimer : msg.reqno = nsreqTimer) :
      Next timerEnvid s (.receive msg alloc) { s with buse := putBuffer s.buse va, point := .top }
  | tick (va : Word) (msg : Message) (alloc : Alloc) (hpoint : s.point = .receiving va)
      (htimer : msg.reqno = nsreqTimer) :
      Next timerEnvid s (.receive msg alloc) { s with point := .timer va }
  | hang (va : Word) (msg : Message) (alloc : Alloc) (hpoint : s.point = .receiving va)
      (hserved : ¬ Served msg alloc) : Next timerEnvid s (.receive msg alloc) { s with point := .top }
  | noArgs (va : Word) (msg : Message) (hpoint : s.point = .receiving va)
      (hserved : Served msg .noArgs) :
      Next timerEnvid s (.receive msg .noArgs) { s with point := .dead .noArgs }
  | create (va : Word) (msg : Message) (hpoint : s.point = .receiving va)
      (hserved : Served msg .ok) :
      Next timerEnvid s (.receive msg .ok)
        { s with point := .top, threads := s.threads ++ [⟨msg.reqno, msg.whom, va⟩] }
  | tock (va : Word) (hpoint : s.point = .timer va) :
      Next timerEnvid s (.timer true) { s with buse := putBuffer s.buse va, point := .top }
  | tockDead (va : Word) (hpoint : s.point = .timer va) :
      Next timerEnvid s (.timer false) { s with point := .dead .ipcSend }
  | finish (args : StArgs) (sent : Bool) (hpoint : s.point = .top ∨ ∃ va, s.point = .timer va)
      (hmem : args ∈ s.threads) :
      Next timerEnvid s (.finish args sent)
        { s with buse := putBuffer s.buse args.req, threads := s.threads.erase args }
  | finishDead (args : StArgs) (sent : Bool)
      (hpoint : s.point = .top ∨ ∃ va, s.point = .timer va) (hmem : args ∈ s.threads) :
      Next timerEnvid s (.finish args sent) { s with point := .dead .ipcSend }

/-- The branches of `serve` after `ipc_recv`. -/
theorem next_of_receive {va : Word} (hpoint : s.point = .receiving va) (msg : Message)
    (alloc : Alloc) : Next timerEnvid s (.receive msg alloc) (receive timerEnvid s va msg alloc) := by
  unfold receive
  split
  case isTrue htimer =>
    split
    · exact .refuse va msg alloc hpoint htimer
    · exact .tick va msg alloc hpoint htimer
  case isFalse htimer =>
    split
    case isTrue hpage =>
      refine .hang va msg alloc hpoint ?_
      rintro (heq | ⟨hhas, _⟩)
      · exact htimer heq
      · exact hhas hpage
    case isFalse hpage =>
      cases alloc with
      | noArgs => exact .noArgs va msg hpoint (.inr ⟨hpage, by decide⟩)
      | ok => exact .create va msg hpoint (.inr ⟨hpage, by decide⟩)
      | noThread =>
          refine .hang va msg .noThread hpoint ?_
          rintro (heq | ⟨_, hthread⟩)
          · exact htimer heq
          · exact hthread rfl

/-- The branches of an event. -/
theorem next_of_step {e : Event} (h : step timerEnvid s e = some s') : Next timerEnvid s e s' := by
  cases e with
  | getBuffer =>
      simp only [step] at h
      split at h
      case isTrue htop =>
        rcases get_buffer_cases s.buse with ⟨i, hi, hfree, hget⟩ | ⟨hfull, hget⟩
        · rw [hget] at h
          cases h
          exact .take i htop hi hfree
        · rw [hget] at h
          cases h
          exact .overflow htop hfull
      case isFalse => cases h
  | receive msg alloc =>
      simp only [step] at h
      split at h
      case h_1 va hpoint =>
        cases h
        exact next_of_receive hpoint msg alloc
      case h_2 => cases h
  | timer sent =>
      simp only [step] at h
      split at h
      case h_1 va hpoint =>
        cases sent with
        | true =>
            cases h
            exact .tock va hpoint
        | false =>
            cases h
            exact .tockDead va hpoint
      case h_2 => cases h
  | finish args sent =>
      simp only [step] at h
      have hpoint : (s.point = .top ∨ ∃ va, s.point = .timer va) ∧ args ∈ s.threads ∧
          finish s args sent = s' := by
        cases hs : s.point with
        | top => simpa [hs] using h
        | timer va => simpa [hs] using h
        | receiving va => simp [hs] at h
        | dead panic => simp [hs] at h
      obtain ⟨hpoint, hmem, heq⟩ := hpoint
      rw [← heq, Ns.finish]
      split
      · exact .finishDead args sent hpoint hmem
      · exact .finish args sent hpoint hmem

/-- The server still runs, or it has run out of slots. -/
def Server.Alive (s : Server) : Prop := s.point ≠ .dead .noArgs ∧ s.point ≠ .dead .ipcSend

/-- The message of an event is served. -/
def Event.Served : Event → Prop
  | .receive msg alloc => Ns.Served msg alloc
  | _ => True

/-- The main thread holds a slot outside the top of the loop. -/
theorem owners_receiving {va : Word} (h : s.point = .receiving va) :
    s.owners = slotOf va ::ₘ s.taken := by
  rw [Server.owners, h]

theorem owners_timer {va : Word} (h : s.point = .timer va) :
    s.owners = slotOf va ::ₘ s.taken := by
  rw [Server.owners, h]

theorem owners_top (h : s.point = .top) : s.owners = s.taken := by
  rw [Server.owners, h]

/-- The main thread gives its slot back. -/
theorem move_put {va : Word} (howners : s.owners = slotOf va ::ₘ s.taken) :
    Pool.Move s.pool
      ({ s with buse := putBuffer s.buse va, point := .top } : Server).pool := by
  have hgive : s.pool.give (slotOf va) =
      ({ s with buse := putBuffer s.buse va, point := .top } : Server).pool := by
    rw [Pool.give, Server.pool, Server.pool, howners, Multiset.erase_cons_head]
    rfl
  have hmem : slotOf va ∈ s.pool.owners := by
    show slotOf va ∈ s.owners
    rw [howners]
    exact Multiset.mem_cons_self _ _
  rw [← hgive]
  exact .give _ hmem

/-- The end of a request thread gives its slot back. -/
theorem move_finish {args : StArgs} (hpoint : s.point = .top ∨ ∃ va, s.point = .timer va)
    (hmem : args ∈ s.threads) :
    Pool.Move s.pool ({ s with
      buse := putBuffer s.buse args.req, threads := s.threads.erase args } : Server).pool := by
  have hin : slotOf args.req ∈ s.taken := mem_taken.2 ⟨args, hmem, rfl⟩
  have herase := taken_erase hmem
  have hgive : slotOf args.req ∈ s.owners ∧ s.pool.give (slotOf args.req) = ({ s with
      buse := putBuffer s.buse args.req, threads := s.threads.erase args } : Server).pool := by
    rcases hpoint with htop | ⟨va, htimer⟩
    · have howners := owners_top htop
      refine ⟨howners ▸ hin, ?_⟩
      rw [Pool.give, Server.pool, Server.pool, howners, Server.owners, htop, ← herase]
      rfl
    · have howners := owners_timer htimer
      refine ⟨howners ▸ Multiset.mem_cons_of_mem hin, ?_⟩
      rw [Pool.give, Server.pool, Server.pool, howners, Server.owners, htimer,
        Multiset.erase_cons_tail_of_mem hin, ← herase]
      rfl
  rw [← hgive.2]
  exact .give _ hgive.1

/-- An event whose message is served moves the pool as it should, if the server survives. -/
theorem step_move {e : Event} (h : Next timerEnvid s e s') (halive : s'.Alive)
    (hserved : e.Served) : Pool.Move s.pool s'.pool := by
  cases h with
  | take i hpoint hi hfree =>
      have htake : s.pool.take i = ({ s with
          buse := Function.update s.buse i true, point := .receiving (slotVa i) } :
            Server).pool := by
        show Pool.mk _ (i ::ₘ s.owners) = Pool.mk _ (slotOf (slotVa i) ::ₘ s.taken)
        rw [slot_of_va hi, owners_top hpoint]
        rfl
      rw [← htake]
      exact .take i hfree
  | overflow hpoint hfull =>
      have hkeep : s.pool = ({ s with point := .dead .bufferOverflow } : Server).pool := by
        rw [Server.pool, Server.pool, owners_top hpoint]
        rfl
      rw [← hkeep]
      exact .keep
  | refuse va msg alloc hpoint htimer => exact move_put (owners_receiving hpoint)
  | tick va msg alloc hpoint htimer =>
      have hkeep : s.pool = ({ s with point := .timer va } : Server).pool := by
        rw [Server.pool, Server.pool, owners_receiving hpoint]
        rfl
      rw [← hkeep]
      exact .keep
  | hang va msg alloc hpoint hhang => exact absurd hserved hhang
  | noArgs va msg hpoint _ => exact absurd rfl halive.1
  | create va msg hpoint _ =>
      have hkeep : s.pool = ({ s with
          point := .top, threads := s.threads ++ [⟨msg.reqno, msg.whom, va⟩] } : Server).pool := by
        rw [Server.pool, Server.pool, owners_receiving hpoint,
          ← taken_push ⟨msg.reqno, msg.whom, va⟩]
        rfl
      rw [← hkeep]
      exact .keep
  | tock va hpoint => exact move_put (owners_timer hpoint)
  | tockDead va hpoint => exact absurd rfl halive.2
  | finish args sent hpoint hmem => exact move_finish hpoint hmem
  | finishDead args sent hpoint hmem => exact absurd rfl halive.2

/-- A message that is not served leaves its slot behind. -/
theorem step_drop {e : Event} (h : Next timerEnvid s e s') (hserved : ¬ e.Served) :
    s'.point = .top ∧ ∃ i ∈ s.owners, s'.pool = s.pool.drop i := by
  cases h with
  | hang va msg alloc hpoint hhang =>
      have howners := owners_receiving hpoint
      refine ⟨rfl, slotOf va, howners ▸ Multiset.mem_cons_self _ _, ?_⟩
      rw [Pool.drop, Server.pool, Server.pool, howners, Multiset.erase_cons_head]
      rfl
  | refuse va msg alloc hpoint htimer => exact absurd (.inl htimer) hserved
  | tick va msg alloc hpoint htimer => exact absurd (.inl htimer) hserved
  | noArgs va msg hpoint hmsg => exact absurd hmsg hserved
  | create va msg hpoint hmsg => exact absurd hmsg hserved
  | take => exact absurd trivial hserved
  | overflow => exact absurd trivial hserved
  | tock => exact absurd trivial hserved
  | tockDead => exact absurd trivial hserved
  | finish => exact absurd trivial hserved
  | finishDead => exact absurd trivial hserved

/-- A server that died does nothing more. -/
theorem alive_of_next {e : Event} (h : Next timerEnvid s e s') : s.Alive := by
  have hpoint : s.point = .top ∨ (∃ va, s.point = .receiving va) ∨ ∃ va, s.point = .timer va := by
    cases h with
    | take i hpoint => exact .inl hpoint
    | overflow hpoint => exact .inl hpoint
    | refuse va msg alloc hpoint => exact .inr (.inl ⟨va, hpoint⟩)
    | tick va msg alloc hpoint => exact .inr (.inl ⟨va, hpoint⟩)
    | hang va msg alloc hpoint => exact .inr (.inl ⟨va, hpoint⟩)
    | noArgs va msg hpoint => exact .inr (.inl ⟨va, hpoint⟩)
    | create va msg hpoint => exact .inr (.inl ⟨va, hpoint⟩)
    | tock va hpoint => exact .inr (.inr ⟨va, hpoint⟩)
    | tockDead va hpoint => exact .inr (.inr ⟨va, hpoint⟩)
    | finish args sent hpoint => exact hpoint.imp_right .inr
    | finishDead args sent hpoint => exact hpoint.imp_right .inr
  rcases hpoint with htop | ⟨va, hreceiving⟩ | ⟨va, htimer⟩
  · simp [Server.Alive, htop]
  · simp [Server.Alive, hreceiving]
  · simp [Server.Alive, htimer]

/-- `put_buffer` puts no slot in use. -/
theorem put_buffer_le {buse : Nat → Bool} {va : Word} {i : Nat}
    (h : putBuffer buse va i = true) : buse i = true := by
  by_cases hi : i = slotOf va
  · simp [putBuffer, hi] at h
  · rwa [putBuffer, Function.update_of_ne hi] at h

/-- What every run keeps: the owners have their slots, only the slots below `QUEUE_SIZE` are ever
in use, and all of them are when the server runs out. -/
structure Kept (s : Server) : Prop where
  sound : s.Alive → s.pool.Sound
  range : ∀ i, s.buse i = true → i < queueSize
  full : s.point = .dead .bufferOverflow → ∀ i < queueSize, s.buse i = true

theorem kept_boot : Kept boot := by
  refine ⟨fun _ => ⟨Multiset.nodup_zero, ?_⟩, ?_, ?_⟩
  · intro i hi
    cases Multiset.notMem_zero i hi
  · intro i hi
    cases hi
  · intro hpoint
    cases hpoint

theorem Kept.next {e : Event} (h : Kept s) (hnext : Next timerEnvid s e s') : Kept s' := by
  constructor
  case sound =>
    intro halive
    have hsound := h.sound (alive_of_next hnext)
    by_cases hserved : e.Served
    · exact hsound.move (step_move hnext halive hserved)
    · obtain ⟨_, i, _, hpool⟩ := step_drop hnext hserved
      rw [hpool]
      exact hsound.drop i
  case range =>
    intro i hused
    cases hnext with
    | take j hpoint hj hfree =>
        by_cases hij : i = j
        · exact hij ▸ hj
        · have hold : Function.update s.buse j true i = true := hused
          rw [Function.update_of_ne hij] at hold
          exact h.range i hold
    | refuse => exact h.range i (put_buffer_le hused)
    | tock => exact h.range i (put_buffer_le hused)
    | finish => exact h.range i (put_buffer_le hused)
    | overflow => exact h.range i hused
    | tick => exact h.range i hused
    | hang => exact h.range i hused
    | noArgs => exact h.range i hused
    | create => exact h.range i hused
    | tockDead => exact h.range i hused
    | finishDead => exact h.range i hused
  case full =>
    intro hdead
    cases hnext with
    | overflow hpoint hfull => exact hfull
    | finish args sent hpoint hmem =>
        have hsame : s.point = .dead .bufferOverflow := hdead
        rcases hpoint with htop | ⟨va, htimer⟩
        · rw [htop] at hsame
          cases hsame
        · rw [htimer] at hsame
          cases hsame
    | take => cases hdead
    | refuse => cases hdead
    | tick => cases hdead
    | hang => cases hdead
    | noArgs => cases hdead
    | create => cases hdead
    | tock => cases hdead
    | tockDead => cases hdead
    | finishDead => cases hdead

theorem run_append (events events' : List Event) :
    run timerEnvid s (events ++ events') =
      run timerEnvid s events >>= fun t => run timerEnvid t events' :=
  List.foldlM_append

theorem run_snoc (events : List Event) (e : Event) :
    run timerEnvid s (events ++ [e]) =
      run timerEnvid s events >>= fun t => step timerEnvid t e := by
  rw [run_append]
  congr 1
  funext t
  exact bind_pure _

/-- Each part of a run from its start on is a run. -/
theorem run_of_part {before events : List Event} (hpart : before <+: events)
    (h : (run timerEnvid s events).isSome) : (run timerEnvid s before).isSome := by
  obtain ⟨after, hsplit⟩ := hpart
  rw [← hsplit, run_append] at h
  cases hrun : run timerEnvid s before with
  | none => simp [hrun] at h
  | some t => rfl

/-- Every run keeps `Kept`. -/
theorem kept_of_run {events : List Event} (h : run timerEnvid boot events = some s) : Kept s := by
  induction events using List.reverseRecOn generalizing s with
  | nil =>
      cases h
      exact kept_boot
  | append_singleton events e ih =>
      rw [run_snoc, Option.bind_eq_bind, Option.bind_eq_some_iff] at h
      obtain ⟨t, hrun, hstep⟩ := h
      exact (ih hrun).next (next_of_step hstep)

/-- A run whose messages are all served leaks no slot. -/
theorem not_leaked_of_run {events : List Event} (h : run timerEnvid boot events = some s)
    (halive : s.Alive) (hserved : ∀ e ∈ events, e.Served) (i : Nat) : ¬ s.pool.Leaked i := by
  induction events using List.reverseRecOn generalizing s i with
  | nil =>
      cases h
      intro hleak
      cases hleak.1
  | append_singleton events e ih =>
      rw [run_snoc, Option.bind_eq_bind, Option.bind_eq_some_iff] at h
      obtain ⟨t, hrun, hstep⟩ := h
      have hnext := next_of_step hstep
      have hold := ih hrun (alive_of_next hnext) fun e' he' =>
        hserved e' (List.mem_append_left _ he')
      have hmove := step_move hnext halive (hserved e (by simp))
      exact hmove.not_leaked hold i

/-- Two unfinished requests have different addresses. -/
theorem Kept.req_inj (h : Kept s) (halive : s.Alive) {args args' : StArgs}
    (hmem : args ∈ s.threads) (hmem' : args' ∈ s.threads) (heq : args.req = args'.req) :
    args = args' := by
  have hnodup : s.taken.Nodup := by
    have howners : s.owners.Nodup := (h.sound halive).nodup
    unfold Server.owners at howners
    split at howners
    · exact (Multiset.nodup_cons.1 howners).2
    · exact (Multiset.nodup_cons.1 howners).2
    · exact howners
  refine List.inj_on_of_nodup_map (Multiset.coe_nodup.1 hnodup) hmem hmem' ?_
  rw [heq]

/-- The slot for the next message holds no unfinished request. -/
theorem Kept.req_fresh (h : Kept s) {va : Word} (hpoint : s.point = .receiving va) {args : StArgs}
    (hmem : args ∈ s.threads) : args.req ≠ va := by
  intro heq
  have halive : s.Alive := by simp [Server.Alive, hpoint]
  have howners : s.owners.Nodup := (h.sound halive).nodup
  rw [owners_receiving hpoint] at howners
  refine (Multiset.nodup_cons.1 howners).1 ?_
  rw [← heq]
  exact mem_taken.2 ⟨args, hmem, rfl⟩

/-- In every run, the slots in use are those of unfinished requests at each return to the top of
the loop, and the server runs out of them only when all hold unfinished requests, exactly when
every message is served. -/
theorem slots_iff (timerEnvid : Word) (events : List Event)
    (h : (run timerEnvid boot events).isSome) :
    (∀ before s, before <+: events → run timerEnvid boot before = some s → Slots s) ↔
      ∀ msg alloc, .receive msg alloc ∈ events → Served msg alloc := by
  constructor
  · intro hslots msg alloc hmem
    by_contra hunserved
    obtain ⟨before, after, hsplit⟩ := List.append_of_mem hmem
    have hbefore : before ++ [.receive msg alloc] <+: events := ⟨after, by simp [hsplit]⟩
    obtain ⟨s, hrun⟩ := Option.isSome_iff_exists.1 (run_of_part hbefore h)
    have hkept := kept_of_run hrun
    have hsnoc := hrun
    rw [run_snoc, Option.bind_eq_bind, Option.bind_eq_some_iff] at hsnoc
    obtain ⟨t, ht, hstep⟩ := hsnoc
    have hnext := next_of_step hstep
    obtain ⟨htop, i, hi, hpool⟩ := step_drop hnext hunserved
    have hsound := (kept_of_run ht).sound (alive_of_next hnext)
    have hleak : s.pool.Leaked i := hpool ▸ Pool.leaked_drop hsound hi
    have howner := ((hslots _ s hbefore hrun).1 htop i (hkept.range i hleak.1)).1 hleak.1
    refine hleak.2 ?_
    show i ∈ s.owners
    rw [owners_top htop]
    exact mem_taken.2 howner
  · intro hserved before s hpart hrun
    have hkept := kept_of_run hrun
    have hevents : ∀ e ∈ before, e.Served := by
      intro e he
      cases e with
      | receive msg alloc => exact hserved msg alloc (hpart.subset he)
      | getBuffer => trivial
      | timer sent => trivial
      | finish args sent => trivial
    refine ⟨?_, ?_⟩
    · intro htop i _
      have halive : s.Alive := by simp [Server.Alive, htop]
      have hiff := Pool.used_iff (hkept.sound halive) (not_leaked_of_run hrun halive hevents i)
      rw [← mem_taken, ← owners_top htop]
      exact hiff
    · intro hdead
      have halive : s.Alive := by simp [Server.Alive, hdead]
      have hcard := Pool.card_le (Finset.range queueSize) (hkept.sound halive)
        (not_leaked_of_run hrun halive hevents)
        fun i hi => hkept.full hdead i (Finset.mem_range.1 hi)
      rw [Finset.card_range] at hcard
      have howners : s.owners = s.taken := by rw [Server.owners, hdead]
      have hlength : s.pool.owners.card = s.threads.length := by
        show s.owners.card = _
        rw [howners, Server.taken, Multiset.card_map, Multiset.coe_card]
      rwa [hlength] at hcard

/-- A message without an argument page. -/
def bareMessage : Message := ⟨1, 5, 0⟩

/-- One slot is lost to a message without a page. -/
theorem bare_message_leaks :
    ∃ s, run 7 boot [.getBuffer, .receive bareMessage .ok] = some s ∧ ¬ Slots s := by
  refine ⟨_, rfl, ?_⟩
  intro hslots
  obtain ⟨args, hmem, _⟩ := (hslots.1 rfl 0 (by decide)).1 rfl
  cases hmem

/-- A request is received and served, and the timer is answered. -/
def servedRun : List Event :=
  [.getBuffer, .receive ⟨1, 5, 7⟩ .ok, .finish ⟨1, 5, slotVa 0⟩ true,
    .getBuffer, .receive ⟨12, 7, 0⟩ .ok, .timer true]

theorem slots_iff_served :
    (∀ before s, before <+: servedRun → run 7 boot before = some s → Slots s) ↔
      ∀ msg alloc, .receive msg alloc ∈ servedRun → Served msg alloc :=
  slots_iff 7 servedRun (by decide)

/-- `QUEUE_SIZE` messages without a page end the server, although no request is unfinished. -/
example : ((run 7 boot ((List.replicate queueSize
    [Event.getBuffer, .receive bareMessage .ok]).flatten ++ [.getBuffer])).map fun s =>
      (s.point, s.threads)) = some (.dead .bufferOverflow, []) := by
  decide

end Labs.Jos.Ns
