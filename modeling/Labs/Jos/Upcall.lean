import Labs.Base.Ia32
import Labs.Jos.Trap

/-!
# The page fault upcall

`lib/pfentry.S`, and what `page_fault_handler` does with the user's machine: it puts a record of the
fault on the exception stack and lets the environment run at its upcall. The upcall calls the C
handler, puts the trap-time `eip` on the trap-time stack, restores the registers from the record and
returns to the instruction that faulted. The handler may fault itself.
-/

namespace Labs.Jos.Upcall

open Ia32

/-- The upcall up to the call of the handler, whose address is at `handler`. -/
def prologue (handler : Word) : List Instr :=
  [.pushl .esp, .loadAbs handler .eax, .call .eax]

/-- The upcall finds the record and the trap-time stack. -/
def findStack : List Instr :=
  [.addl 4 .esp, .movl .esp .eax, .load 40 .esp .ebx, .load 48 .esp .esp]

/-- The upcall leaves the trap-time `eip` on the trap-time stack, and restores the registers. -/
def restore : List Instr :=
  [.pushl .ebx, .store .esp 48 .eax, .movl .eax .esp, .addl 4 .esp, .addl 4 .esp, .popal,
    .addl 4 .esp, .popfl, .popl .esp, .ret]

/-- `_pgfault_upcall`. -/
def pgfaultUpcall (handler : Word) : List Instr := prologue handler ++ (findStack ++ restore)

/-- The frame `tf` is what the hardware saves of the machine at a fault in user mode. It may set
other flags than those of user code. -/
structure Trapped (m : Machine) (tf : Trapframe) : Prop where
  edi : tf.regs.edi = m.reg .edi
  esi : tf.regs.esi = m.reg .esi
  ebp : tf.regs.ebp = m.reg .ebp
  ebx : tf.regs.ebx = m.reg .ebx
  edx : tf.regs.edx = m.reg .edx
  ecx : tf.regs.ecx = m.reg .ecx
  eax : tf.regs.eax = m.reg .eax
  eip : tf.eip = m.eip
  eflags : tf.eflags &&& userFlags = m.eflags &&& userFlags
  esp : tf.esp = m.reg .esp

/-- The bytes from `a` on may be written. -/
def writable (m : Machine) (a n : Nat) : Bool := (List.range n).all fun i => m.may true (a + i)

/-- The page of the exception stack. -/
def uxstack : Nat := (uxstacktop - pgsizeW).toNat

/-- `page_fault_handler` for a fault in user mode, as user code sees it. If the record has no place
the environment is destroyed. -/
def deliver (upcall faultVa : Word) (tf : Trapframe) (m : Machine) : Option Machine :=
  let stack := faultStack tf.esp
  if writable m uxstack 4096 && writable m stack.toNat 52 then
    let m' := { m with mem := m.mem.store stack.toNat (encodeUTrapframe faultVa tf) }
    some ((m'.set .esp stack).setEip upcall)
  else none

/-- What C code does that runs below `top` on the exception stack: it leaves the stack from `top` on
and the rights to it alone. The flags of the system are not in its hands. -/
structure Follows (top : Nat) (m m' : Machine) : Prop where
  above : ∀ a, top ≤ a → a < uxstacktop.toNat → m'.mem a = m.mem a
  may : ∀ a, top ≤ a → a < uxstacktop.toNat → m'.may true a = m.may true a
  flags : m'.eflags &&& ~~~userFlags = m.eflags &&& ~~~userFlags

/-- The stack pointer is on the exception stack. -/
def OnStack (m : Machine) : Prop := uxstack ≤ (m.reg .esp).toNat ∧ (m.reg .esp).toNat < uxstacktop.toNat

/-- A run of the handler: C code, and faults at places below `top` that `nested` handles. -/
inductive HandlerRun (nested : Machine → Machine → Prop) (top : Nat) : Machine → Machine → Prop where
  | refl (m : Machine) : HandlerRun nested top m m
  | code {m m' m'' : Machine} : Follows top m m' → HandlerRun nested top m' m'' →
      HandlerRun nested top m m''
  | fault {m m' m'' : Machine} : OnStack m → (m.reg .esp).toNat ≤ top → nested m m' →
      HandlerRun nested top m' m'' → HandlerRun nested top m m''

/-- The upcall from the record of a fault to the return of the handler: the record is in place, the
upcall has called the handler, and the handler has returned to it. -/
structure Called (upcall handler : Word) (nested : Machine → Machine → Prop) (m m' : Machine) :
    Prop where
  called : ∃ faultVa tf m₁ m₂, Trapped m tf ∧ deliver upcall faultVa tf m = some m₁ ∧
    run (pgfaultUpcall handler) upcall 3 m₁ = some m₂ ∧
    HandlerRun nested (faultStack (m.reg .esp)).toNat m₂ m'
  eip : m'.eip = upcall + 8
  esp : m'.reg .esp = faultStack (m.reg .esp) - 4

/-- A fault is handled, with faults nested less than `n` deep. -/
def Handled (upcall handler : Word) : Nat → Machine → Machine → Prop
  | 0, _, _ => False
  | n + 1, m, m' => ∃ m₃, Called upcall handler (Handled upcall handler n) m m₃ ∧
      run (pgfaultUpcall handler) upcall 14 m₃ = some m'

end Labs.Jos.Upcall
