import Labs.Base.Ring
import Labs.Jos.Mmu

/-!
# Mailboxes of the network server

The semaphores and mailboxes of `net/lwip/jos/arch/sys_arch.c`. Threads are cooperative: they
switch only inside `thread_wait`, which `sys_arch_sem_wait` calls when the counter is zero. A
sleeping thread may go on at any moment and at any time of the clock, which covers wake-ups,
timeouts and spurious wake-ups alike. Histories record the messages that went into the mailbox
and those that came out of it.
-/

namespace Labs.Jos.SysArch

/-- `MBOXSLOTS`. -/
def mboxslots : Nat := 32

/-- `SYS_ARCH_TIMEOUT`. -/
def sysArchTimeout : Word := 0xffffffff

/-- `SYS_ARCH_NOWAIT`. -/
def sysArchNowait : Word := 0xfffffffe

/-- `struct sys_sem_entry`. -/
structure Sem where
  freed : Bool
  gen : Word
  counter : BitVec 16
  waiters : BitVec 16

/-- `sys_sem_new` on the entry that it takes from the free list, after the assertion that the
entry is free. The field `waiters` keeps the
value of the last life of the entry. -/
def sysSemNew (se : Sem) (count : BitVec 8) : Sem :=
  { se with freed := false, counter := count.setWidth 16, gen := se.gen + 1 }

/-- `sys_sem_signal` after its assertion. -/
def sysSemSignal (sem : Sem) : Sem :=
  if sem.waiters ≠ 0 then { sem with counter := sem.counter + 1, waiters := 0 }
  else { sem with counter := sem.counter + 1 }

/-- The local variables of `sys_arch_sem_wait` across `thread_wait`. -/
structure Wait where
  gen : Word
  waited : Word
  a : Word

/-- How a pass of the loop of `sys_arch_sem_wait` ends. -/
inductive Pass where
  /-- The function returned. -/
  | ret (waited : Word) (sem : Sem)
  /-- The thread called `thread_wait`. -/
  | sleep (wait : Wait) (sem : Sem)

/-- The loop of `sys_arch_sem_wait` up to `thread_wait`, with the clock at `now`. -/
def semLoop (sem : Sem) (tmMsec gen waited now : Word) : Pass :=
  if tmMsec = 0 ∨ waited < tmMsec then
    if 0 < sem.counter then .ret waited { sem with counter := sem.counter - 1 }
    else if tmMsec = sysArchNowait then .ret sysArchTimeout sem
    else .sleep ⟨gen, waited, now⟩ { sem with waiters := 1 }
  else .ret sysArchTimeout sem

/-- `sys_arch_sem_wait` from the return of `thread_wait` at time `b` on. -/
def semWake (sem : Sem) (tmMsec : Word) (w : Wait) (b now : Word) : Pass :=
  if w.gen ≠ sem.gen then .ret sysArchTimeout sem
  else semLoop sem tmMsec w.gen (w.waited + (b - w.a)) now

/-- `struct sys_mbox_entry`, with its two semaphores in place of their numbers. -/
structure Mbox (Msg : Type) where
  freed : Bool
  head : Int
  nextq : Int
  msg : Nat → Msg
  queuedMsg : Sem
  freeMsg : Sem

/-- What a function of the mailbox comes to. -/
inductive Result (Msg : Type) where
  /-- `ERR_OK`. -/
  | ok
  /-- `ERR_MEM`. -/
  | mem
  /-- The time waited and the message. -/
  | fetched (waited : Word) (msg : Msg)
  /-- `SYS_ARCH_TIMEOUT`. -/
  | timeout
  /-- A failed assertion. -/
  | assertion
  /-- The panic `lwip: sys_arch_mbox_fetch: no message`. -/
  | noMessage

/-- A call of a function of the mailbox. -/
inductive Call (Msg : Type) where
  | post (msg : Msg)
  | trypost (msg : Msg)
  | fetch (tmMsec : Word)
  | tryfetch

namespace Mbox

variable {Msg : Type}

/-- `sys_mbox_new` on the entries that it takes from the free lists. It asserts the size, and
that the entries are free. -/
def sysMboxNew (size : Int) (mbe : Mbox Msg) (queued free : Sem) : Option (Mbox Msg) :=
  if size < mboxslots ∧ mbe.freed ∧ queued.freed ∧ free.freed then
    some
      { mbe with
        freed := false
        head := -1
        nextq := 0
        queuedMsg := sysSemNew queued 0
        freeMsg := sysSemNew free (BitVec.ofNat 8 mboxslots) }
  else
    none

/-- The semaphore that a call waits for. -/
def sem (m : Mbox Msg) : Call Msg → Sem
  | .post _ | .trypost _ => m.freeMsg
  | .fetch _ | .tryfetch => m.queuedMsg

/-- Change the semaphore that a call waits for. -/
def putSem (m : Mbox Msg) (call : Call Msg) (sem : Sem) : Mbox Msg :=
  match call with
  | .post _ | .trypost _ => { m with freeMsg := sem }
  | .fetch _ | .tryfetch => { m with queuedMsg := sem }

/-- `sys_mbox_trypost` after `sys_arch_sem_wait`, whose result it ignores. -/
def trypostRest (m : Mbox Msg) (msg : Msg) : Mbox Msg × Result Msg :=
  if m.nextq = m.head then (m, .mem)
  else
    let slot := m.nextq
    let m :=
      { m with
        nextq := (slot + 1).tmod mboxslots
        msg := Function.update m.msg slot.toNat msg
        head := if m.head = -1 then slot else m.head }
    if m.queuedMsg.freed then (m, .assertion)
    else ({ m with queuedMsg := sysSemSignal m.queuedMsg }, .ok)

/-- `sys_arch_mbox_fetch` after `sys_arch_sem_wait`. -/
def fetchRest (m : Mbox Msg) (waited : Word) : Mbox Msg × Result Msg :=
  if waited = sysArchTimeout then (m, .timeout)
  else
    let slot := m.head
    if slot = -1 then (m, .noMessage)
    else
      let next := (slot + 1).tmod mboxslots
      let msg := m.msg slot.toNat
      let m := { m with head := if next = m.nextq then -1 else next }
      if m.freeMsg.freed then (m, .assertion)
      else ({ m with freeMsg := sysSemSignal m.freeMsg }, .fetched waited msg)

/-- What a call does once its wait has returned. -/
def rest (m : Mbox Msg) (call : Call Msg) (waited : Word) : Mbox Msg × Result Msg :=
  match call with
  | .trypost msg => m.trypostRest msg
  | .post msg =>
      -- `assert(sys_mbox_trypost(mbox, msg) == ERR_OK)`
      match m.trypostRest msg with
      | (m', .ok) => (m', .ok)
      | (m', _) => (m', .assertion)
  | .fetch _ => m.fetchRest waited
  | .tryfetch => m.fetchRest waited

end Mbox

/-- The timeout that a call waits with. -/
def Call.tmMsec {Msg : Type} : Call Msg → Word
  | .post _ | .trypost _ => 0
  | .fetch tmMsec => tmMsec
  | .tryfetch => sysArchNowait

/-- Where a thread stands. -/
inductive Phase (Msg : Type) where
  /-- It has not called the mailbox. -/
  | idle
  /-- In `thread_wait`. -/
  | waiting (call : Call Msg) (wait : Wait)
  /-- Its last call ended. -/
  | returned (result : Result Msg)

/-- A mailbox, the threads that use it and what went through it. -/
structure State (Thread Msg : Type) where
  mbox : Mbox Msg
  phase : Thread → Phase Msg
  enqueued : List Msg
  dequeued : List Msg

namespace State

variable {Thread Msg : Type} [DecidableEq Thread]

/-- A new mailbox. -/
def boot (mbox : Mbox Msg) : State Thread Msg where
  mbox := mbox
  phase := fun _ => .idle
  enqueued := []
  dequeued := []

/-- The call of a thread ends. -/
def finish (s : State Thread Msg) (t : Thread) (call : Call Msg) (r : Mbox Msg × Result Msg) :
    State Thread Msg where
  mbox := r.1
  phase := Function.update s.phase t (.returned r.2)
  enqueued :=
    match call, r.2 with
    | .post msg, .ok => s.enqueued ++ [msg]
    | .trypost msg, .ok => s.enqueued ++ [msg]
    | _, _ => s.enqueued
  dequeued :=
    match r.2 with
    | .fetched _ msg => s.dequeued ++ [msg]
    | _ => s.dequeued

/-- Go on after a pass of the loop of `sys_arch_sem_wait`. -/
def proceed (s : State Thread Msg) (t : Thread) (call : Call Msg) : Pass → State Thread Msg
  | .ret waited sem => s.finish t call ((s.mbox.putSem call sem).rest call waited)
  | .sleep wait sem =>
      { s with
        mbox := s.mbox.putSem call sem
        phase := Function.update s.phase t (.waiting call wait) }

/-- A thread calls a function of the mailbox. The mailbox and the semaphore are asserted to be
in use. -/
def enter (s : State Thread Msg) (t : Thread) (call : Call Msg) (now : Word) :
    State Thread Msg :=
  let sem := s.mbox.sem call
  if s.mbox.freed ∨ sem.freed then s.finish t call (s.mbox, .assertion)
  else s.proceed t call (semLoop sem call.tmMsec sem.gen 0 now)

/-- A thread goes on after `thread_wait`. -/
def resume (s : State Thread Msg) (t : Thread) (call : Call Msg) (w : Wait) (b now : Word) :
    State Thread Msg :=
  s.proceed t call (semWake (s.mbox.sem call) call.tmMsec w b now)

end State

variable {Thread Msg : Type} [DecidableEq Thread]

/-- A thread runs until it next switches to another. -/
inductive Step : State Thread Msg → State Thread Msg → Prop
  | enter {s : State Thread Msg} (t : Thread) (call : Call Msg) (now : Word)
      (h : ∀ call w, s.phase t ≠ .waiting call w) : Step s (s.enter t call now)
  | resume {s : State Thread Msg} (t : Thread) (call : Call Msg) (w : Wait) (b now : Word)
      (h : s.phase t = .waiting call w) : Step s (s.resume t call w b now)

/-- The states of a mailbox made by `sys_mbox_new`. -/
inductive Reachable : State Thread Msg → Prop
  | boot (size : Int) (mbe : Mbox Msg) (queued free : Sem) (mbox : Mbox Msg)
      (h : Mbox.sysMboxNew size mbe queued free = some mbox) : Reachable (.boot mbox)
  | step {s s' : State Thread Msg} (h : Reachable s) (hstep : Step s s') : Reachable s'

section Semaphores

variable {sem sem' : Sem} {tmMsec gen waited now r : Word} {w : Wait}

@[simp] theorem gen_signal : (sysSemSignal sem).gen = sem.gen := by
  unfold sysSemSignal
  split <;> rfl

@[simp] theorem freed_signal : (sysSemSignal sem).freed = sem.freed := by
  unfold sysSemSignal
  split <;> rfl

/-- A signal adds one, short of the limit of the counter. -/
theorem counter_signal (h : sem.counter.toNat < mboxslots) :
    (sysSemSignal sem).counter.toNat = sem.counter.toNat + 1 := by
  have hone : (sem.counter + 1).toNat = sem.counter.toNat + 1 := by
    have hsmall : sem.counter.toNat < 32 := h
    rw [BitVec.toNat_add, show (1 : BitVec 16).toNat = 1 from rfl]
    omega
  unfold sysSemSignal
  split <;> exact hone

/-- A wait that returns has taken one from the counter, or gives up. Giving up takes a timeout. -/
theorem sem_loop_ret (h : semLoop sem tmMsec gen waited now = .ret r sem') :
    (0 < sem.counter ∧ sem' = { sem with counter := sem.counter - 1 }) ∨
      (sem' = sem ∧ tmMsec ≠ 0 ∧ r = sysArchTimeout) := by
  unfold semLoop at h
  split at h
  · split at h
    case isTrue _ hcounter =>
      cases h
      exact .inl ⟨hcounter, rfl⟩
    case isFalse _ hcounter =>
      split at h
      case isTrue hnowait =>
        cases h
        refine .inr ⟨rfl, ?_, rfl⟩
        rw [hnowait]
        decide
      case isFalse hnowait => cases h
  case isFalse hlate =>
    cases h
    exact .inr ⟨rfl, fun hzero => hlate (.inl hzero), rfl⟩

/-- A thread that goes to sleep leaves the counter alone and remembers the generation. -/
theorem sem_loop_sleep (h : semLoop sem tmMsec gen waited now = .sleep w sem') :
    sem' = { sem with waiters := 1 } ∧ w.gen = gen := by
  unfold semLoop at h
  split at h
  · split at h
    · cases h
    · split at h
      · cases h
      · cases h
        exact ⟨rfl, rfl⟩
  · cases h

/-- Without a call to `sys_sem_free`, a thread that wakes up makes another pass. -/
theorem sem_wake_eq (b : Word) (h : w.gen = sem.gen) :
    semWake sem tmMsec w b now = semLoop sem tmMsec sem.gen (w.waited + (b - w.a)) now := by
  rw [semWake, if_neg (not_not_intro h), h]

/-- Taking one from a positive counter. -/
theorem counter_taken (h : 0 < sem.counter) :
    (sem.counter - 1).toNat + 1 = sem.counter.toNat := by
  have hpos : 0 < sem.counter.toNat := h
  rw [BitVec.toNat_sub, show (1 : BitVec 16).toNat = 1 from rfl]
  omega

end Semaphores

/-- The ring of a mailbox holds what went in and has not come out. The head is `-1` when there is
nothing. -/
structure Layout (m : Mbox Msg) (enqueued dequeued : List Msg) : Prop where
  out : dequeued <+: enqueued
  nextq : m.nextq = (enqueued.length % mboxslots : Nat)
  head : m.head =
    if dequeued.length = enqueued.length then -1 else ((dequeued.length % mboxslots : Nat) : Int)
  slots : RingHolds mboxslots (fun i msg => m.msg i = msg) enqueued dequeued.length
  queuedUsed : m.queuedMsg.freed = false
  freeUsed : m.freeMsg.freed = false

/-- A slot index plus one, as the code reduces it. -/
theorem next_slot (n : Nat) :
    (((n % mboxslots : Nat) : Int) + 1).tmod mboxslots = ((n + 1) % mboxslots : Nat) := by
  rw [Int.tmod_eq_emod_of_nonneg (by omega)]
  simp only [mboxslots]
  omega

namespace Layout

variable {m : Mbox Msg} {enqueued dequeued : List Msg}

theorem length_le (h : Layout m enqueued dequeued) : dequeued.length ≤ enqueued.length :=
  h.out.length_le

/-- The layout does not depend on the counters. -/
theorem put_sem (h : Layout m enqueued dequeued) (call : Call Msg) (sem : Sem)
    (hsem : sem.freed = (m.sem call).freed) : Layout (m.putSem call sem) enqueued dequeued := by
  cases call <;>
    exact ⟨h.out, h.nextq, h.head, h.slots, by simp_all [Mbox.putSem, Mbox.sem, h.queuedUsed],
      by simp_all [Mbox.putSem, Mbox.sem, h.freeUsed]⟩

/-- With a free slot, a message goes in at the end. -/
theorem trypost (h : Layout m enqueued dequeued) (msg : Msg)
    (hroom : enqueued.length < dequeued.length + mboxslots) :
    (m.trypostRest msg).2 = .ok ∧ (m.trypostRest msg).1.freed = m.freed ∧
      (m.trypostRest msg).1.freeMsg = m.freeMsg ∧
      (m.trypostRest msg).1.queuedMsg = sysSemSignal m.queuedMsg ∧
      Layout (m.trypostRest msg).1 (enqueued ++ [msg]) dequeued := by
  have hle := h.length_le
  have hne : m.nextq ≠ m.head := by
    rw [h.nextq, h.head]
    split
    case isTrue => omega
    case isFalse hsome =>
      have hslots : dequeued.length % mboxslots ≠ enqueued.length % mboxslots :=
        ring_slot_ne (by omega) hroom
      omega
  have hrest : m.trypostRest msg =
      ({ m with
          nextq := (m.nextq + 1).tmod mboxslots
          msg := Function.update m.msg m.nextq.toNat msg
          head := if m.head = -1 then m.nextq else m.head
          queuedMsg := sysSemSignal m.queuedMsg }, .ok) := by
    simp [Mbox.trypostRest, hne, h.queuedUsed]
  rw [hrest]
  refine ⟨rfl, rfl, rfl, rfl, ?_⟩
  have hslot : m.nextq.toNat = enqueued.length % mboxslots := by
    rw [h.nextq]
    exact Int.toNat_natCast _
  constructor
  case out => exact h.out.trans (List.prefix_append _ _)
  case nextq =>
    simp only [h.nextq, List.length_append, List.length_singleton]
    exact next_slot _
  case head =>
    show (if m.head = -1 then m.nextq else m.head) = _
    rw [List.length_append, List.length_singleton,
      if_neg (show dequeued.length ≠ enqueued.length + 1 by omega)]
    by_cases hnone : dequeued.length = enqueued.length
    · have hempty : m.head = -1 := by rw [h.head, if_pos hnone]
      rw [if_pos hempty, h.nextq, hnone]
    · have hoccupied : m.head = (dequeued.length % mboxslots : Nat) := by
        rw [h.head, if_neg hnone]
      rw [if_neg (by omega), hoccupied]
  case slots =>
    have hkept : RingHolds mboxslots (fun i x => Function.update m.msg m.nextq.toNat msg i = x)
        enqueued dequeued.length := by
      refine h.slots.edit_next hroom fun i x hi hx => ?_
      rw [Function.update_of_ne (hslot ▸ hi), hx]
    refine hkept.push ?_
    rw [← hslot, Function.update_self]
  case queuedUsed => simp [h.queuedUsed]
  case freeUsed => exact h.freeUsed

/-- With a message in the mailbox, the oldest one comes out. -/
theorem fetch (h : Layout m enqueued dequeued) {waited : Word} (hwaited : waited ≠ sysArchTimeout)
    (hsome : dequeued.length < enqueued.length)
    (hlap : enqueued.length ≤ dequeued.length + mboxslots) :
    ∃ msg, (m.fetchRest waited).2 = .fetched waited msg ∧ (m.fetchRest waited).1.freed = m.freed ∧
      (m.fetchRest waited).1.queuedMsg = m.queuedMsg ∧
      (m.fetchRest waited).1.freeMsg = sysSemSignal m.freeMsg ∧
      Layout (m.fetchRest waited).1 enqueued (dequeued ++ [msg]) := by
  have hhead : m.head = (dequeued.length % mboxslots : Nat) := by
    rw [h.head, if_neg (by omega)]
  have hslot : m.head.toNat = dequeued.length % mboxslots := by
    rw [hhead]
    exact Int.toNat_natCast _
  have hnext : (m.head + 1).tmod mboxslots = ((dequeued.length + 1) % mboxslots : Nat) := by
    rw [hhead]
    exact next_slot _
  have hmsg : enqueued[dequeued.length]? = some (m.msg m.head.toNat) := by
    obtain ⟨msg, hget⟩ : ∃ msg, enqueued[dequeued.length]? = some msg :=
      ⟨_, List.getElem?_eq_getElem hsome⟩
    have hholds := h.slots _ msg le_rfl hget
    rw [hslot, hget, hholds]
  have hrest : m.fetchRest waited =
      ({ m with
          head := if (m.head + 1).tmod mboxslots = m.nextq then -1
            else (m.head + 1).tmod mboxslots
          freeMsg := sysSemSignal m.freeMsg }, .fetched waited (m.msg m.head.toNat)) := by
    have hne : m.head ≠ -1 := by omega
    simp [Mbox.fetchRest, hwaited, hne, h.freeUsed]
  rw [hrest]
  refine ⟨m.msg m.head.toNat, rfl, rfl, rfl, rfl, ?_⟩
  constructor
  case out =>
    obtain ⟨rest, hrest'⟩ := h.out
    subst hrest'
    rw [List.getElem?_append_right le_rfl, Nat.sub_self] at hmsg
    cases rest with
    | nil => simp at hmsg
    | cons x rest =>
        simp only [List.getElem?_cons_zero, Option.some.injEq] at hmsg
        exact ⟨rest, by simp [hmsg]⟩
  case nextq => exact h.nextq
  case head =>
    simp only [List.length_append, List.length_singleton, hnext, h.nextq]
    by_cases hlast : dequeued.length + 1 = enqueued.length
    · simp [hlast]
    · have hslots : (dequeued.length + 1) % mboxslots ≠ enqueued.length % mboxslots :=
        ring_slot_ne (by omega) (by omega)
      rw [if_neg (by omega), if_neg hlast]
  case slots =>
    rw [List.length_append, List.length_singleton]
    exact h.slots.pop hlap fun _ _ _ hx => hx
  case queuedUsed => exact h.queuedUsed
  case freeUsed => simp [h.freeUsed]

end Layout

/-- The result is none of those that the mailbox must not give. -/
def Result.Fine (r : Result Msg) : Prop := r ≠ .mem ∧ r ≠ .assertion ∧ r ≠ .noMessage

/-- The invariant of a mailbox. Each free slot has a token in `free_msg`; each token in
`queued_msg` has its message, but a message may have lost its token to a wait of
`SYS_ARCH_TIMEOUT` milliseconds. -/
structure Fifo (s : State Thread Msg) : Prop where
  layout : Layout s.mbox s.enqueued s.dequeued
  used : s.mbox.freed = false
  free : s.mbox.freeMsg.counter.toNat + s.enqueued.length = s.dequeued.length + mboxslots
  queued : s.mbox.queuedMsg.counter.toNat + s.dequeued.length ≤ s.enqueued.length
  gens : ∀ t call w, s.phase t = .waiting call w → w.gen = (s.mbox.sem call).gen
  fine : ∀ t r, s.phase t = .returned r → r.Fine

namespace Fifo

variable {s : State Thread Msg} {t : Thread} {call : Call Msg} {sem : Sem}

/-- Generations stay, so the threads that sleep still recognise their semaphore. -/
theorem gens_put {phase : Thread → Phase Msg} {m m' : Mbox Msg}
    (h : ∀ t call w, phase t = .waiting call w → w.gen = (m.sem call).gen)
    (hqueued : m'.queuedMsg.gen = m.queuedMsg.gen) (hfree : m'.freeMsg.gen = m.freeMsg.gen)
    (t : Thread) (p : Phase Msg)
    (hp : ∀ call w, p = .waiting call w → w.gen = (m'.sem call).gen) :
    ∀ u call w, Function.update phase t p u = .waiting call w → w.gen = (m'.sem call).gen := by
  intro u call w hu
  by_cases hut : u = t
  · subst hut
    rw [Function.update_self] at hu
    exact hp call w hu
  · rw [Function.update_of_ne hut] at hu
    rw [h u call w hu]
    cases call with
    | post msg => exact hfree.symm
    | trypost msg => exact hfree.symm
    | fetch tmMsec => exact hqueued.symm
    | tryfetch => exact hqueued.symm

/-- The results that threads have so far, and one more. -/
theorem fine_put {phase : Thread → Phase Msg} (h : ∀ t r, phase t = .returned r → r.Fine)
    (t : Thread) (p : Phase Msg) (hp : ∀ r, p = .returned r → r.Fine) :
    ∀ u r, Function.update phase t p u = .returned r → r.Fine := by
  intro u r hu
  by_cases hut : u = t
  · subst hut
    rw [Function.update_self] at hu
    exact hp r hu
  · rw [Function.update_of_ne hut] at hu
    exact h u r hu

/-- A thread goes to sleep. -/
theorem sleep (h : Fifo s) (w : Wait) (hw : w.gen = (s.mbox.sem call).gen) :
    Fifo (s.proceed t call (.sleep w { s.mbox.sem call with waiters := 1 })) := by
  have hlayout := h.layout.put_sem call { s.mbox.sem call with waiters := 1 } rfl
  have hgens : ∀ call', ((s.mbox.putSem call { s.mbox.sem call with waiters := 1 }).sem call').gen
      = (s.mbox.sem call').gen := by
    intro call'
    cases call <;> cases call' <;> rfl
  constructor
  case layout => exact hlayout
  case used => cases call <;> exact h.used
  case free => cases call <;> exact h.free
  case queued => cases call <;> exact h.queued
  case gens =>
    refine gens_put h.gens ?_ ?_ t _ ?_
    · exact hgens .tryfetch
    · cases call <;> rfl
    · intro call' w' heq
      cases heq
      rw [hw]
      exact (hgens call).symm
  case fine =>
    refine fine_put h.fine t _ ?_
    intro r heq
    cases heq

/-- A call ends with a mailbox whose generations are the old ones. -/
theorem finish (h : Fifo s) {m : Mbox Msg} {r : Result Msg} (enqueued dequeued : List Msg)
    (henqueued : (s.finish t call (m, r)).enqueued = enqueued)
    (hdequeued : (s.finish t call (m, r)).dequeued = dequeued)
    (hlayout : Layout m enqueued dequeued) (hused : m.freed = false)
    (hfree : m.freeMsg.counter.toNat + enqueued.length = dequeued.length + mboxslots)
    (hqueued : m.queuedMsg.counter.toNat + dequeued.length ≤ enqueued.length)
    (hgens : m.queuedMsg.gen = s.mbox.queuedMsg.gen ∧ m.freeMsg.gen = s.mbox.freeMsg.gen)
    (hfine : r.Fine) : Fifo (s.finish t call (m, r)) := by
  subst henqueued hdequeued
  refine ⟨hlayout, hused, hfree, hqueued, ?_, ?_⟩
  · refine gens_put h.gens hgens.1 hgens.2 t _ ?_
    intro call' w heq
    cases heq
  · refine fine_put h.fine t _ ?_
    intro r' heq
    cases heq
    exact hfine

/-- A posting thread that has a free slot puts its message in. -/
theorem posted (h : Fifo s) {msg : Msg} {waited : Word}
    (hcall : call = .post msg ∨ call = .trypost msg) (hcounter : 0 < s.mbox.freeMsg.counter) :
    Fifo (s.proceed t call
      (.ret waited { s.mbox.sem call with counter := (s.mbox.sem call).counter - 1 })) := by
  let taken : Sem := { s.mbox.freeMsg with counter := s.mbox.freeMsg.counter - 1 }
  let m : Mbox Msg := { s.mbox with freeMsg := taken }
  have htaken : taken.counter.toNat + 1 = s.mbox.freeMsg.counter.toNat := counter_taken hcounter
  have hfree := h.free
  have hqueued := h.queued
  have hlayout : Layout m s.enqueued s.dequeued := h.layout.put_sem (.trypost msg) taken rfl
  obtain ⟨hok, hfreed, hfreeMsg, hqueuedMsg, hnew⟩ := hlayout.trypost msg (by omega)
  have hcount : (sysSemSignal m.queuedMsg).counter.toNat = m.queuedMsg.counter.toNat + 1 := by
    refine counter_signal ?_
    show s.mbox.queuedMsg.counter.toNat < mboxslots
    omega
  have hrest : m.trypostRest msg = ((m.trypostRest msg).1, .ok) := Prod.ext rfl hok
  have hfifo : ∀ call', call' = .post msg ∨ call' = .trypost msg →
      Fifo (s.finish t call' ((m.trypostRest msg).1, .ok)) := by
    intro call' hcall'
    refine h.finish (s.enqueued ++ [msg]) s.dequeued ?_ rfl hnew ?_ ?_ ?_
      ⟨?_, ?_⟩ ?_
    · rcases hcall' with hpost | htrypost
      · rw [hpost]
        rfl
      · rw [htrypost]
        rfl
    · rw [hfreed]
      exact h.used
    · rw [hfreeMsg, List.length_append, List.length_singleton]
      show taken.counter.toNat + _ = _
      omega
    · rw [hqueuedMsg, hcount, List.length_append, List.length_singleton]
      show s.mbox.queuedMsg.counter.toNat + 1 + _ ≤ _
      omega
    · rw [hqueuedMsg, gen_signal]
    · rw [hfreeMsg]
    · simp [Result.Fine]
  rcases hcall with rfl | rfl
  · have hpost : m.rest (.post msg) waited = ((m.trypostRest msg).1, .ok) := by
      rw [Mbox.rest, hrest]
    have hgoal := hfifo (.post msg) (.inl rfl)
    rw [← hpost] at hgoal
    exact hgoal
  · have htrypost : m.rest (.trypost msg) waited = ((m.trypostRest msg).1, .ok) := hrest
    have hgoal := hfifo (.trypost msg) (.inr rfl)
    rw [← htrypost] at hgoal
    exact hgoal

/-- A fetching thread that has a token takes the oldest message, unless it leaves with
`SYS_ARCH_TIMEOUT`. -/
theorem fetched (h : Fifo s) {waited : Word}
    (hcall : (∃ tmMsec, call = .fetch tmMsec) ∨ call = .tryfetch)
    (hcounter : 0 < s.mbox.queuedMsg.counter) :
    Fifo (s.proceed t call
      (.ret waited { s.mbox.sem call with counter := (s.mbox.sem call).counter - 1 })) := by
  let taken : Sem := { s.mbox.queuedMsg with counter := s.mbox.queuedMsg.counter - 1 }
  let m : Mbox Msg := { s.mbox with queuedMsg := taken }
  have htaken : taken.counter.toNat + 1 = s.mbox.queuedMsg.counter.toNat := counter_taken hcounter
  have hfree := h.free
  have hqueued := h.queued
  have hlayout : Layout m s.enqueued s.dequeued := h.layout.put_sem .tryfetch taken rfl
  have hfifo : Fifo (s.finish t call (m.fetchRest waited)) := by
    by_cases hwaited : waited = sysArchTimeout
    · have hrest : m.fetchRest waited = (m, .timeout) := by
        rw [Mbox.fetchRest, if_pos hwaited]
      rw [hrest]
      refine h.finish s.enqueued s.dequeued ?_ rfl hlayout h.used ?_ ?_
        ⟨rfl, rfl⟩ ?_
      · cases call <;> rfl
      · exact hfree
      · show taken.counter.toNat + _ ≤ _
        omega
      · simp [Result.Fine]
    · obtain ⟨msg, hresult, hfreed, hqueuedMsg, hfreeMsg, hnew⟩ :=
        hlayout.fetch hwaited (by omega) (by omega)
      have hrest : m.fetchRest waited = ((m.fetchRest waited).1, .fetched waited msg) :=
        Prod.ext rfl hresult
      have hcount : (sysSemSignal m.freeMsg).counter.toNat = m.freeMsg.counter.toNat + 1 := by
        refine counter_signal ?_
        show s.mbox.freeMsg.counter.toNat < mboxslots
        omega
      rw [hrest]
      refine h.finish s.enqueued (s.dequeued ++ [msg]) ?_ rfl hnew ?_ ?_ ?_
        ⟨?_, ?_⟩ ?_
      · cases call <;> rfl
      · rw [hfreed]
        exact h.used
      · rw [hfreeMsg, hcount, List.length_append, List.length_singleton]
        show s.mbox.freeMsg.counter.toNat + 1 + _ = _
        omega
      · rw [hqueuedMsg, List.length_append, List.length_singleton]
        show taken.counter.toNat + _ ≤ _
        omega
      · rw [hqueuedMsg]
      · rw [hfreeMsg, gen_signal]
      · simp [Result.Fine]
  rcases hcall with ⟨tmMsec, rfl⟩ | rfl
  · exact hfifo
  · exact hfifo

/-- A pass of the loop of `sys_arch_sem_wait` and what follows it keep the invariant. -/
theorem pass (h : Fifo s) (waited now : Word) :
    Fifo (s.proceed t call
      (semLoop (s.mbox.sem call) call.tmMsec (s.mbox.sem call).gen waited now)) := by
  cases hpass : semLoop (s.mbox.sem call) call.tmMsec (s.mbox.sem call).gen waited now with
  | sleep w sem =>
      obtain ⟨hsem, hgen⟩ := sem_loop_sleep hpass
      rw [hsem]
      exact h.sleep w hgen
  | ret r sem =>
      rcases sem_loop_ret hpass with ⟨hcounter, hsem⟩ | ⟨hsem, htm, htimeout⟩
      · rw [hsem]
        cases call with
        | post msg => exact h.posted (.inl rfl) hcounter
        | trypost msg => exact h.posted (.inr rfl) hcounter
        | fetch tmMsec => exact h.fetched (.inl ⟨tmMsec, rfl⟩) hcounter
        | tryfetch => exact h.fetched (.inr rfl) hcounter
      · have hgiveup : ∀ call' : Call Msg, s.mbox.fetchRest r = (s.mbox, .timeout) ∧
            Fifo (s.finish t call' (s.mbox, .timeout)) := by
          intro call'
          refine ⟨by rw [Mbox.fetchRest, if_pos htimeout], ?_⟩
          refine h.finish s.enqueued s.dequeued ?_ rfl h.layout h.used
            h.free h.queued ⟨rfl, rfl⟩ ?_
          · cases call' <;> rfl
          · simp [Result.Fine]
        have hsame : s.mbox.putSem call (s.mbox.sem call) = s.mbox := by
          cases call <;> rfl
        rw [hsem, State.proceed, hsame]
        cases call with
        | post msg => exact absurd rfl htm
        | trypost msg => exact absurd rfl htm
        | fetch tmMsec =>
            show Fifo (s.finish t _ (s.mbox.fetchRest r))
            rw [(hgiveup (.fetch tmMsec)).1]
            exact (hgiveup _).2
        | tryfetch =>
            show Fifo (s.finish t _ (s.mbox.fetchRest r))
            rw [(hgiveup .tryfetch).1]
            exact (hgiveup _).2

/-- A thread that runs until the next switch keeps the invariant. -/
theorem step {s' : State Thread Msg} (h : Fifo s) (hstep : Step s s') : Fifo s' := by
  cases hstep with
  | enter t call now hready =>
      have hlive : ¬ (s.mbox.freed = true ∨ (s.mbox.sem call).freed = true) := by
        have hsem : (s.mbox.sem call).freed = false := by
          cases call with
          | post msg => exact h.layout.freeUsed
          | trypost msg => exact h.layout.freeUsed
          | fetch tmMsec => exact h.layout.queuedUsed
          | tryfetch => exact h.layout.queuedUsed
        simp [h.used, hsem]
      show Fifo (if _ then _ else _)
      rw [if_neg hlive]
      exact h.pass 0 now
  | resume t call w b now hwaiting =>
      rw [State.resume, sem_wake_eq b (h.gens t call w hwaiting)]
      exact h.pass _ now

omit [DecidableEq Thread] in
/-- A new mailbox is empty and has a token for each of its slots. -/
theorem boot {size : Int} {mbe mbox : Mbox Msg} {queued free : Sem}
    (h : Mbox.sysMboxNew size mbe queued free = some mbox) :
    Fifo (State.boot mbox : State Thread Msg) := by
  unfold Mbox.sysMboxNew at h
  split at h
  · cases h
    refine ⟨⟨List.nil_prefix, rfl, rfl, RingHolds.nil, rfl, rfl⟩, rfl, rfl, le_rfl, ?_, ?_⟩
    · intro t call w hphase
      cases hphase
    · intro t r hphase
      cases hphase
  · cases h

/-- Every run keeps the invariant. -/
theorem of_reachable (h : Reachable s) : Fifo s := by
  induction h with
  | boot size mbe queued free mbox hnew => exact boot hnew
  | step hreach hstep ih => exact ih.step hstep

end Fifo

/-- Whatever the threads do, what came out of the mailbox is a prefix of what went in, the rest
fits its slots, no `sys_mbox_trypost` found it full and no fetch found it empty. -/
theorem mailbox_fifo {s : State Thread Msg} (h : Reachable s) :
    s.dequeued <+: s.enqueued ∧ s.enqueued.length ≤ s.dequeued.length + mboxslots ∧
      ∀ t, s.phase t ≠ .returned .mem ∧ s.phase t ≠ .returned .assertion ∧
        s.phase t ≠ .returned .noMessage := by
  have hfifo := Fifo.of_reachable h
  have hfree := hfifo.free
  refine ⟨hfifo.layout.out, by omega, ?_⟩
  intro t
  refine ⟨?_, ?_, ?_⟩
  · intro hmem
    exact (hfifo.fine t _ hmem).1 rfl
  · intro hassertion
    exact (hfifo.fine t _ hassertion).2.1 rfl
  · intro hpanic
    exact (hfifo.fine t _ hpanic).2.2 rfl

/-- The entries of the tables before any use. -/
def freshSem : Sem := ⟨true, 0, 0, 0⟩

/-- A mailbox of the fresh tables. -/
def freshMbox : Mbox Nat where
  freed := false
  head := -1
  nextq := 0
  msg := fun _ => 0
  queuedMsg := sysSemNew freshSem 0
  freeMsg := sysSemNew freshSem 32

/-- One thread posts `7`, and another one fetches it. -/
def delivered : State Bool Nat :=
  ((State.boot freshMbox).enter false (.post 7) 0).enter true (.fetch 0) 5

theorem mailbox_fifo_delivered :
    delivered.dequeued = [7] ∧
      delivered.dequeued <+: delivered.enqueued ∧
      delivered.enqueued.length ≤ delivered.dequeued.length + mboxslots ∧
      ∀ t, delivered.phase t ≠ .returned .mem ∧ delivered.phase t ≠ .returned .assertion ∧
        delivered.phase t ≠ .returned .noMessage := by
  refine ⟨by decide, mailbox_fifo ?_⟩
  have hboot : Reachable (State.boot freshMbox : State Bool Nat) :=
    .boot 20 { freshMbox with freed := true } freshSem freshSem freshMbox rfl
  refine .step (.step hboot (.enter false (.post 7) 0 ?_)) (.enter true (.fetch 0) 5 ?_)
  · intro call w hphase
    cases hphase
  · intro call w hphase
    cases hphase

end Labs.Jos.SysArch
