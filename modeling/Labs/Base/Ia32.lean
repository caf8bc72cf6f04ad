import Labs.Base.Bytes
import Mathlib.Algebra.BigOperators.Group.List.Basic
import Mathlib.Algebra.GroupWithZero.Nat
import Mathlib.Logic.Function.Basic

/-!
# User code of IA-32

The instructions that code between two stacks needs, over a flat memory. A byte may be read or
written or neither, and an access that is not allowed is a fault: nothing has changed then, and the
instruction may be run again. Code is straight: it has no jumps but `call` and `ret`.
-/

namespace Labs.Ia32

/-- The general registers. -/
inductive Reg where
  | eax | ecx | edx | ebx | esp | ebp | esi | edi
  deriving DecidableEq

/-- The machine as user code sees it: `may true` are the bytes it may write, `may false` those it
may read. -/
structure Machine where
  reg : Reg → BitVec 32
  eip : BitVec 32
  eflags : BitVec 32
  mem : Bytes
  may : Bool → Nat → Bool
  may_read : ∀ a, may true a = true → may false a = true

/-- An access that is not allowed. -/
structure Fault where
  va : BitVec 32
  write : Bool
  deriving DecidableEq

inductive Instr where
  | pushl (src : Reg)
  | popl (dst : Reg)
  | movl (src dst : Reg)
  /-- `movl off(%base), %dst` -/
  | load (off : BitVec 32) (base dst : Reg)
  /-- `movl %src, off(%base)` -/
  | store (src : Reg) (off : BitVec 32) (base : Reg)
  /-- `movl addr, %dst` -/
  | loadAbs (addr : BitVec 32) (dst : Reg)
  /-- `addl $imm, %dst` -/
  | addl (imm : BitVec 32) (dst : Reg)
  /-- `call *%target` -/
  | call (target : Reg)
  | popal
  | popfl
  | ret
  deriving DecidableEq

/-- The length of the code of an instruction, with offsets and constants of one byte. -/
def Instr.size : Instr → Nat
  | .pushl _ | .popl _ | .popal | .popfl | .ret => 1
  | .movl _ _ | .call _ => 2
  | .load _ base _ | .store _ _ base => if base = .esp then 4 else 3
  | .loadAbs _ dst => if dst = .eax then 5 else 6
  | .addl _ _ => 3

/-- The flags that user code may change. -/
def userFlags : BitVec 32 := 0x00244DD5

/-- The flags that an addition sets: carry, parity, adjust, zero, sign and overflow. -/
def addFlags (a b : BitVec 32) : BitVec 32 :=
  let s := a + b
  let flag := fun (on : Bool) (bit : Nat) => if on then (1 : BitVec 32) <<< bit else 0
  let low := s.extractLsb' 0 8
  let ones := (List.range 8).countP fun i => low.getLsbD i
  flag (s < a) 0 ||| flag (ones % 2 = 0) 2 |||
    flag ((a.extractLsb' 0 4).toNat + (b.extractLsb' 0 4).toNat > 15) 4 ||| flag (s = 0) 6 |||
    flag s.msb 7 ||| flag (a.msb = b.msb ∧ s.msb ≠ a.msb) 11

namespace Machine

variable (m : Machine)

/-- The first byte of the word at `a` that may not be accessed. -/
def refused (write : Bool) (a : BitVec 32) : Option Nat :=
  (List.range 4).find? fun i => !(decide (a.toNat + i < 2 ^ 32) && m.may write (a.toNat + i))

/-- The word at `a`. -/
def load (a : BitVec 32) : Except Fault (BitVec 32) :=
  match m.refused false a with
  | none => .ok (m.mem.load32 a.toNat)
  | some i => .error ⟨a + BitVec.ofNat 32 i, false⟩

/-- Store the word `v` at `a`. -/
def store (a v : BitVec 32) : Except Fault Machine :=
  match m.refused true a with
  | none => .ok { m with mem := m.mem.store32 a.toNat v }
  | some i => .error ⟨a + BitVec.ofNat 32 i, true⟩

/-- Set a register. -/
def set (r : Reg) (v : BitVec 32) : Machine := { m with reg := Function.update m.reg r v }

def setEip (v : BitVec 32) : Machine := { m with eip := v }

def setFlags (v : BitVec 32) : Machine := { m with eflags := v }

/-- What `popfl` makes of the flags. -/
def popFlags (w : BitVec 32) : Machine :=
  m.setFlags ((m.eflags &&& ~~~userFlags) ||| (w &&& userFlags))

/-- The registers that `popal` restores; it skips `esp`. -/
def popRegs (edi esi ebp ebx edx ecx eax : BitVec 32) : Machine :=
  ((((((m.set .edi edi).set .esi esi).set .ebp ebp).set .ebx ebx).set .edx edx).set .ecx ecx).set
    .eax eax

/-- One instruction. -/
def exec (i : Instr) : Except Fault Machine := do
  let next := m.eip + BitVec.ofNat 32 i.size
  let esp := m.reg .esp
  match i with
  | .pushl src =>
      let m' ← m.store (esp - 4) (m.reg src)
      pure ((m'.set .esp (esp - 4)).setEip next)
  | .popl dst =>
      let v ← m.load esp
      pure (((m.set .esp (esp + 4)).set dst v).setEip next)
  | .movl src dst => pure ((m.set dst (m.reg src)).setEip next)
  | .load off base dst =>
      let v ← m.load (m.reg base + off)
      pure ((m.set dst v).setEip next)
  | .store src off base =>
      let m' ← m.store (m.reg base + off) (m.reg src)
      pure (m'.setEip next)
  | .loadAbs addr dst =>
      let v ← m.load addr
      pure ((m.set dst v).setEip next)
  | .addl imm dst =>
      let status : BitVec 32 := 0x8D5
      let m' := m.set dst (m.reg dst + imm)
      pure ((m'.setFlags ((m.eflags &&& ~~~status) ||| (addFlags (m.reg dst) imm &&& status))).setEip
        next)
  | .call target =>
      let m' ← m.store (esp - 4) next
      pure ((m'.set .esp (esp - 4)).setEip (m.reg target))
  | .popal =>
      let edi ← m.load esp
      let esi ← m.load (esp + 4)
      let ebp ← m.load (esp + 8)
      let ebx ← m.load (esp + 16)
      let edx ← m.load (esp + 20)
      let ecx ← m.load (esp + 24)
      let eax ← m.load (esp + 28)
      pure (((m.popRegs edi esi ebp ebx edx ecx eax).set .esp (esp + 32)).setEip next)
  | .popfl =>
      let w ← m.load esp
      pure (((m.popFlags w).set .esp (esp + 4)).setEip next)
  | .ret =>
      let v ← m.load esp
      pure ((m.set .esp (esp + 4)).setEip v)

/-- The instructions of a block one after the other. -/
def execAll : List Instr → Machine → Except Fault Machine
  | [], m => .ok m
  | i :: rest, m => m.exec i >>= execAll rest

end Machine

/-- The instruction at an offset of the code. -/
def fetch : List Instr → Nat → Option Instr
  | [], _ => none
  | i :: _, 0 => some i
  | i :: rest, off => if off < i.size then none else fetch rest (off - i.size)

/-- The length of code. -/
def codeSize (code : List Instr) : Nat := (code.map Instr.size).sum

/-- Run the instruction at `eip` of the code at `base`. -/
def step (code : List Instr) (base : BitVec 32) (m : Machine) : Option (Except Fault Machine) :=
  (fetch code (m.eip - base).toNat).map m.exec

/-- Run instructions of the code at `base`, as long as there is no fault. -/
def run (code : List Instr) (base : BitVec 32) : Nat → Machine → Option Machine
  | 0, m => some m
  | n + 1, m =>
      match step code base m with
      | some (.ok m') => run code base n m'
      | some (.error _) => none
      | none => none

variable {m m' : Machine} {r : Reg} {a v : BitVec 32} {i : Instr} {code pre block post : List Instr}
  {base : BitVec 32}

/-! ## Registers -/

namespace Machine

@[simp] theorem set_reg_self : (m.set r v).reg r = v := Function.update_self ..

theorem set_reg_of_ne {r' : Reg} (hne : r' ≠ r) : (m.set r v).reg r' = m.reg r' :=
  Function.update_of_ne hne ..

@[simp] theorem set_eip : (m.set r v).eip = m.eip := rfl
@[simp] theorem set_eflags : (m.set r v).eflags = m.eflags := rfl
@[simp] theorem set_mem : (m.set r v).mem = m.mem := rfl
@[simp] theorem set_may : (m.set r v).may = m.may := rfl
@[simp] theorem set_eip_reg : (m.setEip v).reg = m.reg := rfl
@[simp] theorem set_eip_eip : (m.setEip v).eip = v := rfl
@[simp] theorem set_eip_eflags : (m.setEip v).eflags = m.eflags := rfl
@[simp] theorem set_eip_mem : (m.setEip v).mem = m.mem := rfl
@[simp] theorem set_eip_may : (m.setEip v).may = m.may := rfl
@[simp] theorem set_flags_reg : (m.setFlags v).reg = m.reg := rfl
@[simp] theorem set_flags_eip : (m.setFlags v).eip = m.eip := rfl
@[simp] theorem set_flags_eflags : (m.setFlags v).eflags = v := rfl
@[simp] theorem set_flags_mem : (m.setFlags v).mem = m.mem := rfl
@[simp] theorem set_flags_may : (m.setFlags v).may = m.may := rfl

/-! ## Accesses -/

/-- The word at `a` may be accessed. -/
def Legal (m : Machine) (write : Bool) (a : BitVec 32) : Prop := m.refused write a = none

theorem legal_iff {write : Bool} : m.Legal write a ↔
    ∀ i, i < 4 → a.toNat + i < 2 ^ 32 ∧ m.may write (a.toNat + i) = true := by
  simp only [Legal, refused, List.find?_eq_none, List.mem_range, Bool.not_eq_false,
    Bool.and_eq_true, decide_eq_true_eq, Bool.not_eq_eq_eq_not, Bool.not_true]

theorem Legal.read (h : m.Legal true a) : m.Legal false a := by
  rw [legal_iff] at h ⊢
  exact fun i hi => ⟨(h i hi).1, m.may_read _ (h i hi).2⟩

theorem Legal.congr {write : Bool} (h : m.Legal write a) (hmay : m'.may = m.may) :
    m'.Legal write a := by
  unfold Legal refused at h ⊢
  rwa [hmay]

theorem load_eq (h : m.Legal false a) : m.load a = .ok (m.mem.load32 a.toNat) := by
  unfold load
  rw [h]

theorem store_eq (h : m.Legal true a) :
    m.store a v = .ok { m with mem := m.mem.store32 a.toNat v } := by
  unfold store
  rw [h]

theorem store_ok (h : m.store a v = .ok m') :
    m.Legal true a ∧ m' = { m with mem := m.mem.store32 a.toNat v } := by
  unfold store at h
  split at h
  case h_1 hlegal => exact ⟨hlegal, (Except.ok.inj h).symm⟩
  case h_2 => cases h

end Machine

/-! ## Instructions -/

namespace Machine

theorem exec_all_cons {rest : List Instr} (h : m.exec i = .ok m') :
    m.execAll (i :: rest) = m'.execAll rest := by
  rw [execAll, h]
  rfl

theorem exec_all_append {is : List Instr} (h : m.execAll is = .ok m') (js : List Instr) :
    m.execAll (is ++ js) = m'.execAll js := by
  induction is generalizing m with
  | nil =>
      cases h
      rfl
  | cons i is ih =>
      rw [execAll] at h
      cases hexec : m.exec i with
      | error f =>
          rw [hexec] at h
          cases h
      | ok m₁ =>
          rw [hexec] at h
          rw [List.cons_append, exec_all_cons hexec]
          exact ih h

theorem exec_movl (src dst : Reg) :
    m.exec (.movl src dst) = .ok ((m.set dst (m.reg src)).setEip (m.eip + 2)) := rfl

/-- An addition changes its register and flags of user code. -/
theorem exec_addl (imm : BitVec 32) (dst : Reg) : ∃ flags,
    m.exec (.addl imm dst) =
      .ok (((m.set dst (m.reg dst + imm)).setFlags flags).setEip (m.eip + 3)) ∧
    flags &&& ~~~userFlags = m.eflags &&& ~~~userFlags := by
  refine ⟨_, rfl, ?_⟩
  have hold : ~~~(0x8D5 : BitVec 32) &&& ~~~userFlags = ~~~userFlags := by decide
  have hnew : (0x8D5 : BitVec 32) &&& ~~~userFlags = 0 := by decide
  rw [BitVec.and_or_distrib_right, BitVec.and_assoc, hold, BitVec.and_assoc, hnew]
  simp

theorem exec_load {off : BitVec 32} {base : Reg} (dst : Reg) (h : m.Legal false (m.reg base + off)) :
    m.exec (.load off base dst) = .ok ((m.set dst (m.mem.load32 (m.reg base + off).toNat)).setEip
      (m.eip + BitVec.ofNat 32 (Instr.load off base dst).size)) := by
  unfold exec
  dsimp only
  rw [load_eq h]
  rfl

theorem exec_store {off : BitVec 32} {base : Reg} (src : Reg) (h : m.Legal true (m.reg base + off)) :
    m.exec (.store src off base) =
      .ok (({ m with mem := m.mem.store32 (m.reg base + off).toNat (m.reg src) } : Machine).setEip
        (m.eip + BitVec.ofNat 32 (Instr.store src off base).size)) := by
  unfold exec
  dsimp only
  rw [store_eq h]
  rfl

theorem exec_load_abs {addr : BitVec 32} (dst : Reg) (h : m.Legal false addr) :
    m.exec (.loadAbs addr dst) = .ok ((m.set dst (m.mem.load32 addr.toNat)).setEip
      (m.eip + BitVec.ofNat 32 (Instr.loadAbs addr dst).size)) := by
  unfold exec
  dsimp only
  rw [load_eq h]
  rfl

theorem exec_pushl (src : Reg) (h : m.Legal true (m.reg .esp - 4)) :
    m.exec (.pushl src) =
      .ok ((({ m with mem := m.mem.store32 (m.reg .esp - 4).toNat (m.reg src) } : Machine).set .esp
        (m.reg .esp - 4)).setEip (m.eip + 1)) := by
  unfold exec
  dsimp only
  rw [store_eq h]
  rfl

theorem exec_call (target : Reg) (h : m.Legal true (m.reg .esp - 4)) :
    m.exec (.call target) =
      .ok ((({ m with mem := m.mem.store32 (m.reg .esp - 4).toNat (m.eip + 2) } : Machine).set .esp
        (m.reg .esp - 4)).setEip (m.reg target)) := by
  unfold exec
  dsimp only
  rw [store_eq h]
  rfl

theorem exec_popl (dst : Reg) (h : m.Legal false (m.reg .esp)) :
    m.exec (.popl dst) = .ok (((m.set .esp (m.reg .esp + 4)).set dst
      (m.mem.load32 (m.reg .esp).toNat)).setEip (m.eip + 1)) := by
  unfold exec
  dsimp only
  rw [load_eq h]
  rfl

theorem exec_popfl (h : m.Legal false (m.reg .esp)) :
    m.exec .popfl = .ok (((m.popFlags (m.mem.load32 (m.reg .esp).toNat)).set .esp
      (m.reg .esp + 4)).setEip (m.eip + 1)) := by
  unfold exec
  dsimp only
  rw [load_eq h]
  rfl

theorem exec_ret (h : m.Legal false (m.reg .esp)) :
    m.exec .ret = .ok ((m.set .esp (m.reg .esp + 4)).setEip
      (m.mem.load32 (m.reg .esp).toNat)) := by
  unfold exec
  dsimp only
  rw [load_eq h]
  rfl

/-- The registers that `popal` restores from the words at `a`. -/
structure Popped (m m' : Machine) (a : BitVec 32) : Prop where
  edi : m'.reg .edi = m.mem.load32 a.toNat
  esi : m'.reg .esi = m.mem.load32 (a + 4).toNat
  ebp : m'.reg .ebp = m.mem.load32 (a + 8).toNat
  ebx : m'.reg .ebx = m.mem.load32 (a + 16).toNat
  edx : m'.reg .edx = m.mem.load32 (a + 20).toNat
  ecx : m'.reg .ecx = m.mem.load32 (a + 24).toNat
  eax : m'.reg .eax = m.mem.load32 (a + 28).toNat
  esp : m'.reg .esp = a + 32
  eip : m'.eip = m.eip + 1
  eflags : m'.eflags = m.eflags
  mem : m'.mem = m.mem
  may : m'.may = m.may

theorem exec_popal (h : ∀ k : BitVec 32, k.toNat + 4 ≤ 32 → m.Legal false (m.reg .esp + k)) :
    ∃ m', m.exec .popal = .ok m' ∧ Popped m m' (m.reg .esp) := by
  have hfirst : m.Legal false (m.reg .esp) := by simpa using h 0 (by decide)
  have hexec : m.exec .popal = .ok (((m.popRegs (m.mem.load32 (m.reg .esp).toNat)
      (m.mem.load32 (m.reg .esp + 4).toNat) (m.mem.load32 (m.reg .esp + 8).toNat)
      (m.mem.load32 (m.reg .esp + 16).toNat) (m.mem.load32 (m.reg .esp + 20).toNat)
      (m.mem.load32 (m.reg .esp + 24).toNat) (m.mem.load32 (m.reg .esp + 28).toNat)).set .esp
      (m.reg .esp + 32)).setEip (m.eip + 1)) := by
    unfold exec
    dsimp only
    rw [load_eq hfirst, load_eq (h 4 (by decide)), load_eq (h 8 (by decide)),
      load_eq (h 16 (by decide)), load_eq (h 20 (by decide)), load_eq (h 24 (by decide)),
      load_eq (h 28 (by decide))]
    rfl
  refine ⟨_, hexec, ?_⟩
  constructor <;> simp [popRegs, set_reg_of_ne]

end Machine

/-! ## Blocks -/

/-- The instruction is followed by the next one. -/
def Instr.goesOn : Instr → Bool
  | .call _ | .ret => false
  | _ => true

theorem fetch_append (pre post : List Instr) (i : Instr) :
    fetch (pre ++ i :: post) (codeSize pre) = some i := by
  induction pre with
  | nil => rfl
  | cons j pre ih =>
      have hsize : codeSize (j :: pre) = j.size + codeSize pre := rfl
      have hpos : 0 < j.size := by
        cases j <;> simp only [Instr.size] <;> (try split) <;> omega
      obtain ⟨n, hn⟩ : ∃ n, codeSize (j :: pre) = n + 1 := ⟨codeSize (j :: pre) - 1, by omega⟩
      have hskip : ¬ n + 1 < j.size := by omega
      have hrest : n + 1 - j.size = codeSize pre := by omega
      rw [List.cons_append, hn]
      change (if n + 1 < j.size then none else fetch (pre ++ i :: post) (n + 1 - j.size)) = some i
      rw [if_neg hskip, hrest]
      exact ih

theorem code_size_append (pre post : List Instr) :
    codeSize (pre ++ post) = codeSize pre + codeSize post := by
  unfold codeSize
  rw [List.map_append, List.sum_append]

theorem bind_eq_ok {α β : Type} {x : Except Fault α} {f : α → Except Fault β} {b : β} :
    (x >>= f) = .ok b ↔ ∃ a, x = .ok a ∧ f a = .ok b := by
  cases x with
  | error e => exact ⟨fun h => (by cases h), fun ⟨_, h, _⟩ => (by cases h)⟩
  | ok a => exact ⟨fun h => ⟨a, rfl, h⟩, fun ⟨_, h, hf⟩ => Except.ok.inj h ▸ hf⟩

/-- An instruction that goes on leaves `eip` behind it. -/
theorem exec_eip (hgoes : i.goesOn = true) (h : m.exec i = .ok m') :
    m'.eip = m.eip + BitVec.ofNat 32 i.size := by
  cases i with
  | call target => cases hgoes
  | ret => cases hgoes
  | movl src dst =>
      cases h
      rfl
  | addl imm dst =>
      cases h
      rfl
  | pushl src =>
      obtain ⟨_, -, h⟩ := bind_eq_ok.1 h
      cases h
      rfl
  | store src off base =>
      obtain ⟨_, -, h⟩ := bind_eq_ok.1 h
      cases h
      rfl
  | popl dst =>
      obtain ⟨_, -, h⟩ := bind_eq_ok.1 h
      cases h
      rfl
  | load off base dst =>
      obtain ⟨_, -, h⟩ := bind_eq_ok.1 h
      cases h
      rfl
  | loadAbs addr dst =>
      obtain ⟨_, -, h⟩ := bind_eq_ok.1 h
      cases h
      rfl
  | popfl =>
      obtain ⟨_, -, h⟩ := bind_eq_ok.1 h
      cases h
      rfl
  | popal =>
      obtain ⟨_, -, h⟩ := bind_eq_ok.1 h
      obtain ⟨_, -, h⟩ := bind_eq_ok.1 h
      obtain ⟨_, -, h⟩ := bind_eq_ok.1 h
      obtain ⟨_, -, h⟩ := bind_eq_ok.1 h
      obtain ⟨_, -, h⟩ := bind_eq_ok.1 h
      obtain ⟨_, -, h⟩ := bind_eq_ok.1 h
      obtain ⟨_, -, h⟩ := bind_eq_ok.1 h
      cases h
      rfl

/-- No instruction changes the rights. -/
theorem exec_may (h : m.exec i = .ok m') : m'.may = m.may := by
  cases i with
  | movl src dst =>
      cases h
      rfl
  | addl imm dst =>
      cases h
      rfl
  | pushl src =>
      obtain ⟨_, hstore, h⟩ := bind_eq_ok.1 h
      cases h
      rw [(Machine.store_ok hstore).2]
      rfl
  | store src off base =>
      obtain ⟨_, hstore, h⟩ := bind_eq_ok.1 h
      cases h
      rw [(Machine.store_ok hstore).2]
      rfl
  | call target =>
      obtain ⟨_, hstore, h⟩ := bind_eq_ok.1 h
      cases h
      rw [(Machine.store_ok hstore).2]
      rfl
  | popl dst =>
      obtain ⟨_, -, h⟩ := bind_eq_ok.1 h
      cases h
      rfl
  | load off base dst =>
      obtain ⟨_, -, h⟩ := bind_eq_ok.1 h
      cases h
      rfl
  | loadAbs addr dst =>
      obtain ⟨_, -, h⟩ := bind_eq_ok.1 h
      cases h
      rfl
  | popfl =>
      obtain ⟨_, -, h⟩ := bind_eq_ok.1 h
      cases h
      rfl
  | ret =>
      obtain ⟨_, -, h⟩ := bind_eq_ok.1 h
      cases h
      rfl
  | popal =>
      obtain ⟨_, -, h⟩ := bind_eq_ok.1 h
      obtain ⟨_, -, h⟩ := bind_eq_ok.1 h
      obtain ⟨_, -, h⟩ := bind_eq_ok.1 h
      obtain ⟨_, -, h⟩ := bind_eq_ok.1 h
      obtain ⟨_, -, h⟩ := bind_eq_ok.1 h
      obtain ⟨_, -, h⟩ := bind_eq_ok.1 h
      obtain ⟨_, -, h⟩ := bind_eq_ok.1 h
      cases h
      rfl

theorem exec_all_may {is : List Instr} (h : m.execAll is = .ok m') : m'.may = m.may := by
  induction is generalizing m with
  | nil =>
      cases h
      rfl
  | cons i is ih =>
      obtain ⟨m₁, hexec, hrest⟩ := bind_eq_ok.1 h
      exact (ih hrest).trans (exec_may hexec)

theorem exec_all_eip {is : List Instr} (hgoes : ∀ i ∈ is, i.goesOn = true)
    (h : m.execAll is = .ok m') : m'.eip = m.eip + BitVec.ofNat 32 (codeSize is) := by
  induction is generalizing m with
  | nil =>
      cases h
      simp [codeSize]
  | cons i is ih =>
      obtain ⟨hi, his⟩ := List.forall_mem_cons.1 hgoes
      obtain ⟨m₁, hexec, hrest⟩ := bind_eq_ok.1 h
      rw [ih his hrest, exec_eip hi hexec, BitVec.add_assoc, ← BitVec.ofNat_add]
      rfl

theorem run_succ (n : Nat) : run code base (n + 1) m = some m' ↔
    ∃ i m₁, fetch code (m.eip - base).toNat = some i ∧ m.exec i = .ok m₁ ∧
      run code base n m₁ = some m' := by
  rw [run, step]
  cases hf : fetch code (m.eip - base).toNat with
  | none => simp
  | some i => cases he : m.exec i <;> simp [he]

/-- A block of code runs as its instructions do. -/
theorem run_block (hcode : code = pre ++ (block ++ post)) (hsize : codeSize code < 2 ^ 32)
    (heip : m.eip = base + BitVec.ofNat 32 (codeSize pre))
    (hgoes : ∀ i ∈ block.dropLast, i.goesOn = true) :
    run code base block.length m = some m' ↔ m.execAll block = .ok m' := by
  induction block generalizing pre m with
  | nil => simp [run, Machine.execAll]
  | cons i rest ih =>
      have hlow : codeSize pre < 2 ^ 32 := by
        rw [hcode, code_size_append] at hsize
        omega
      have hoff : (m.eip - base).toNat = codeSize pre := by
        rw [heip, BitVec.add_comm, BitVec.add_sub_cancel, BitVec.toNat_ofNat]
        exact Nat.mod_eq_of_lt hlow
      have hfetch : fetch code (m.eip - base).toNat = some i := by
        rw [hoff, hcode]
        exact fetch_append pre (rest ++ post) i
      have hnext : ∀ m₁, m.exec i = .ok m₁ →
          (run code base rest.length m₁ = some m' ↔ m₁.execAll rest = .ok m') := by
        intro m₁ hexec
        cases rest with
        | nil => simp [run, Machine.execAll]
        | cons j rest =>
            have heip₁ := exec_eip (hgoes i List.mem_cons_self) hexec
            have hcode₁ : code = (pre ++ [i]) ++ (j :: rest ++ post) := by
              rw [hcode, List.append_assoc]
              rfl
            refine ih hcode₁ ?_ fun k hk => hgoes k (List.mem_cons_of_mem _ hk)
            rw [heip₁, heip, code_size_append, BitVec.ofNat_add, BitVec.add_assoc]
            rfl
      rw [List.length_cons, run_succ, Machine.execAll, bind_eq_ok]
      constructor
      · rintro ⟨i', m₁, hf, he, hr⟩
        rw [hfetch] at hf
        cases hf
        exact ⟨m₁, he, (hnext m₁ he).1 hr⟩
      · rintro ⟨m₁, he, hr⟩
        exact ⟨i, m₁, hfetch, he, (hnext m₁ he).2 hr⟩

end Labs.Ia32
