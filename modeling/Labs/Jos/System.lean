import Labs.Jos.Trap
import Mathlib.Logic.Relation

/-!
# The multiprocessor system

The transitions of the whole machine: a CPU enters the kernel and runs it to its exit, as one
step under the big kernel lock; a CPU in user mode stores a byte; a device changes its state.
User code is not modelled beyond what the hardware allows it: any sequence of stores through
its translations, then a trap with any registers. Between two traps user code cannot change its
code segment, its I/O privilege level or, without I/O privilege, its interrupt flag.
-/

namespace Labs.Jos

/-- The I/O privilege level bits of a frame's flags. -/
def iopl (tf : Trapframe) : Word := tf.eflags &&& flIoplMask

/-- The frame resumes user code: its code segment is the user's, and it is no virtual-8086 frame. -/
def UserFrame (tf : Trapframe) : Prop := tf.cs = gdUt ||| 3 ∧ hasFlag tf.eflags flVm = false

/-- The frame enables interrupts and gives no I/O privilege. -/
def Unprivileged (tf : Trapframe) : Prop := hasFlag tf.eflags flIf = true ∧ iopl tf = 0

instance (tf : Trapframe) : Decidable (UserFrame tf) := inferInstanceAs (Decidable (_ ∧ _))

instance (tf : Trapframe) : Decidable (Unprivileged tf) := inferInstanceAs (Decidable (_ ∧ _))

/-- User code resumed with the frame `loaded` can trap with the frame `saved`. Virtual-8086 code
may hold anything in its code segment register. -/
structure UserTrap (loaded saved : Trapframe) : Prop where
  vm : hasFlag saved.eflags flVm = hasFlag loaded.eflags flVm
  level : iopl saved = iopl loaded
  cs : hasFlag loaded.eflags flVm = false → saved.cs = loaded.cs
  intr : iopl loaded ≠ flIopl3 → hasFlag saved.eflags flIf = hasFlag loaded.eflags flIf

/-- What can happen next. -/
inductive Event where
  /-- CPU `k` reaches the scheduler at the end of `i386_init` or `mp_main`. -/
  | start (k : CpuId)
  /-- CPU `k` traps from user mode. -/
  | trap (k : CpuId) (tf : Trapframe) (cr2 : Word)
  /-- An interrupt wakes the halted CPU `k`. -/
  | irq (k : CpuId) (tf : Trapframe)
  /-- User code on CPU `k` stores a byte at `va`. -/
  | store (k : CpuId) (va : Word) (b : Byte)
  /-- The network card changes its descriptors and buffers. -/
  | nic (dev : E1000)
  /-- A character arrives at the console. -/
  | key (ch : Byte)

/-- The CPU that enters the kernel. -/
def Event.entrant : Event → Option CpuId
  | .start k => some k
  | .trap k _ _ => some k
  | .irq k _ => some k
  | .store _ _ _ => none
  | .nic _ => none
  | .key _ => none

/-- The end of `i386_init`, which holds the lock already, or of `mp_main`. -/
def startCpu (k : CpuId) : Kern Unit := do
  if (← Prog.gets Kernel.kernelLock) ≠ some k then lockKernel k
  schedYield k

/-- The state after a kernel entry of CPU `k`. -/
def leave (k : CpuId) : Outcome Kernel Exit Unit → Kernel
  | .ret _ s => s
  | .exit .resume s => s
  | .exit .halt s => s
  | .exit .blocked s => s
  | .exit _ s => s.setCpu k fun c => { c with mode := .dead }

/-- A CPU that waits for the lock takes no step. -/
def proceeds : Outcome Kernel Exit Unit → Prop
  | .exit .blocked _ => False
  | _ => True

/-- One transition of the machine. -/
inductive Step : Kernel → Event → Kernel → Prop where
  | start {s : Kernel} {k : CpuId} (hmode : (s.cpus k).mode = .boot)
      (hgo : proceeds (startCpu k s)) : Step s (.start k) (leave k (startCpu k s))
  | trap {s : Kernel} {k : CpuId} {loaded tf : Trapframe} {cr2 : Word}
      (hmode : (s.cpus k).mode = .user loaded) (hframe : UserTrap loaded tf)
      (hgo : proceeds (trap k tf cr2 s)) : Step s (.trap k tf cr2) (leave k (trap k tf cr2 s))
  | irq {s : Kernel} {k : CpuId} {tf : Trapframe} (hmode : (s.cpus k).mode = .halted)
      (hcs : tf.cs = gdKt) (hirq : 32 ≤ tf.trapno.toNat ∧ tf.trapno.toNat < 48)
      (hgo : proceeds (trap k tf 0 s)) : Step s (.irq k tf) (leave k (trap k tf 0 s))
  | store {s : Kernel} {k : CpuId} {loaded : Trapframe} {va : Word} {b : Byte} {x : Xlat}
      (hmode : (s.cpus k).mode = .user loaded) (hx : s.mayHold k (pgnum va) x)
      (hw : x.writable = true) (hu : x.user = true) :
      Step s (.store k va b) (s.setPhysByte x.page (pgoff va) b)
  | nic {s : Kernel} {dev : E1000} : Step s (.nic dev) { s with e1000 := dev }
  | key {s : Kernel} {ch : Byte} : Step s (.key ch) { s with consIn := s.consIn ++ [ch] }

/-- The trapped frame satisfies the conditions that the hardware guarantees. -/
instance (loaded saved : Trapframe) : Decidable (UserTrap loaded saved) :=
  decidable_of_iff
    (hasFlag saved.eflags flVm = hasFlag loaded.eflags flVm ∧ iopl saved = iopl loaded ∧
      (hasFlag loaded.eflags flVm = false → saved.cs = loaded.cs) ∧
      (iopl loaded ≠ flIopl3 → hasFlag saved.eflags flIf = hasFlag loaded.eflags flIf))
    ⟨fun h => ⟨h.1, h.2.1, h.2.2.1, h.2.2.2⟩, fun h => ⟨h.vm, h.level, h.cs, h.intr⟩⟩

instance (x : Outcome Kernel Exit Unit) : Decidable (proceeds x) :=
  match x with
  | .ret _ _ => isTrue trivial
  | .exit .resume _ => isTrue trivial
  | .exit .halt _ => isTrue trivial
  | .exit (.panic _) _ => isTrue trivial
  | .exit .monitor _ => isTrue trivial
  | .exit .hang _ => isTrue trivial
  | .exit .blocked _ => isFalse not_false
  | .exit .undefined _ => isTrue trivial

/-- The state after CPU `k` has started or trapped from user mode, if it can. -/
def enter (s : Kernel) : Event → Option Kernel
  | .start k =>
      if (s.cpus k).mode = .boot ∧ proceeds (startCpu k s) then
        some (leave k (startCpu k s))
      else none
  | .trap k tf cr2 =>
      match (s.cpus k).mode with
      | .user loaded =>
          if UserTrap loaded tf ∧ proceeds (trap k tf cr2 s) then
            some (leave k (trap k tf cr2 s))
          else none
      | _ => none
  | _ => none

/-- What `enter` computes is a transition. -/
theorem step_of_enter {s s' : Kernel} {ev : Event} (h : enter s ev = some s') : Step s ev s' := by
  cases ev with
  | start k =>
      rw [enter] at h
      split at h
      case isTrue hstart =>
        cases h
        exact .start hstart.1 hstart.2
      case isFalse => cases h
  | trap k tf cr2 =>
      rw [enter] at h
      split at h
      case h_1 loaded hmode =>
        split at h
        case isTrue htrap =>
          cases h
          exact .trap hmode htrap.1 htrap.2
        case isFalse => cases h
      case h_2 => cases h
  | irq k tf => cases h
  | store k va b => cases h
  | nic dev => cases h
  | key ch => cases h

/-- One transition whose event the condition `ok` allows in the state before it. -/
def StepIf (ok : Kernel → Event → Prop) (s s' : Kernel) : Prop :=
  ∃ ev, ok s ev ∧ Step s ev s'

/-- The states reached from `s` by transitions that all meet the condition `ok`. -/
def ReachIf (ok : Kernel → Event → Prop) : Kernel → Kernel → Prop :=
  Relation.ReflTransGen (StepIf ok)

/-- A weaker condition allows more runs. -/
theorem ReachIf.mono {ok ok' : Kernel → Event → Prop} {s s' : Kernel}
    (hok : ∀ t ev, ok t ev → ok' t ev) (h : ReachIf ok s s') : ReachIf ok' s s' := by
  induction h with
  | refl => exact Relation.ReflTransGen.refl
  | tail _ hstep ih =>
      obtain ⟨ev, hev, hstep⟩ := hstep
      exact ih.tail ⟨ev, hok _ ev hev, hstep⟩

/-- A run with its events, all of which meet the condition `ok`. -/
inductive RunIf (ok : Kernel → Event → Prop) : Kernel → List Event → Kernel → Prop where
  | nil {s : Kernel} : RunIf ok s [] s
  | snoc {s t u : Kernel} {evs : List Event} {ev : Event} (hrun : RunIf ok s evs t)
      (hok : ok t ev) (hstep : Step t ev u) : RunIf ok s (evs ++ [ev]) u

theorem RunIf.reach {ok : Kernel → Event → Prop} {s s' : Kernel} {evs : List Event}
    (h : RunIf ok s evs s') : ReachIf ok s s' := by
  induction h with
  | nil => exact Relation.ReflTransGen.refl
  | snoc _ hok hstep ih => exact ih.tail ⟨_, hok, hstep⟩

/-- The state after several kernel entries, if they can happen. -/
def enterAll (s : Kernel) : List Event → Option Kernel
  | [] => some s
  | ev :: evs => do enterAll (← enter s ev) evs

/-- A run of `enterAll` reaches its state. -/
theorem reach_of_enter_all {s s' : Kernel} {evs : List Event} (h : enterAll s evs = some s') :
    ReachIf (fun _ _ => True) s s' := by
  induction evs generalizing s with
  | nil =>
      cases h
      exact .refl
  | cons ev evs ih =>
      rw [enterAll] at h
      cases hnext : enter s ev with
      | none =>
          rw [hnext] at h
          cases h
      | some next =>
          rw [hnext] at h
          exact .head ⟨ev, trivial, step_of_enter hnext⟩ (ih h)

/-- The states reached from `s`. -/
def Reach : Kernel → Kernel → Prop := ReachIf fun _ _ => True

end Labs.Jos
