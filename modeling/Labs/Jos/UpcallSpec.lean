import Labs.Jos.Upcall

/-!
# What the upcall does

The two halves of the upcall behind the call, each as one step of the machine. The first finds the
record and the trap-time stack; the second leaves `eip` there and takes the registers from the
record.
-/

namespace Labs.Jos.Upcall

open Ia32

variable {m m' : Machine} {u t : Word}

theorem uxstacktop_eq : uxstacktop.toNat = 4005560320 := by
  unfold uxstacktop
  exact utop_to_nat

theorem uxstack_eq : uxstack = 4005556224 := by
  rw [uxstack, BitVec.toNat_sub, uxstacktop_eq]
  rfl

/-- The record at `u` lies below the top of the exception stack and may be written. -/
structure RecordAt (m : Machine) (u : Word) : Prop where
  high : u.toNat + 52 ≤ uxstacktop.toNat
  may : ∀ i, i < 52 → m.may true (u.toNat + i) = true

theorem RecordAt.legal (h : RecordAt m u) (write : Bool) {k : Word} (hk : k.toNat + 4 ≤ 52) :
    m.Legal write (u + k) := by
  have hhigh := h.high
  rw [uxstacktop_eq] at hhigh
  have hadd : (u + k).toNat = u.toNat + k.toNat := by
    rw [BitVec.toNat_add]
    omega
  have hlegal : m.Legal true (u + k) := by
    rw [Machine.legal_iff]
    intro i hi
    refine ⟨by omega, ?_⟩
    rw [hadd, Nat.add_assoc]
    exact h.may _ (by omega)
  cases write with
  | true => exact hlegal
  | false => exact hlegal.read

theorem RecordAt.congr (h : RecordAt m u) (hmay : m'.may = m.may) : RecordAt m' u :=
  ⟨h.high, fun i hi => hmay ▸ h.may i hi⟩

/-- The address of a word of the record. -/
theorem RecordAt.add (h : RecordAt m u) {k : Word} (hk : k.toNat ≤ 52) :
    (u + k).toNat = u.toNat + k.toNat := by
  have := h.high
  rw [uxstacktop_eq] at this
  rw [BitVec.toNat_add]
  omega

/-- The machine that is about to leave `eip` on the trap-time stack. -/
structure Found (m m' : Machine) (u : Word) : Prop where
  eax : m'.reg .eax = u
  ebx : m'.reg .ebx = m.mem.load32 (u.toNat + 40)
  esp : m'.reg .esp = m.mem.load32 (u.toNat + 48)
  others : ∀ r, r ≠ .eax → r ≠ .ebx → r ≠ .esp → m'.reg r = m.reg r
  mem : m'.mem = m.mem
  may : m'.may = m.may
  flags : m'.eflags &&& ~~~userFlags = m.eflags &&& ~~~userFlags

theorem find_stack_spec (h : RecordAt m u) (hesp : m.reg .esp = u - 4) :
    ∃ m', m.execAll findStack = .ok m' ∧ Found m m' u := by
  obtain ⟨flags, hadd, hflags⟩ := m.exec_addl 4 .esp
  rw [hesp, BitVec.sub_add_cancel] at hadd
  obtain ⟨m₁, hm₁⟩ : ∃ m₁, m₁ = ((m.set .esp u).setFlags flags).setEip (m.eip + 3) := ⟨_, rfl⟩
  rw [← hm₁] at hadd
  obtain ⟨m₂, hm₂⟩ : ∃ m₂, m₂ = (m₁.set .eax (m₁.reg .esp)).setEip (m₁.eip + 2) := ⟨_, rfl⟩
  have hmov : m₁.exec (.movl .esp .eax) = .ok m₂ := hm₂ ▸ m₁.exec_movl .esp .eax
  have hesp₂ : m₂.reg .esp = u := by
    rw [hm₂, hm₁]
    simp [Machine.set_reg_of_ne]
  have hmay₂ : m₂.may = m.may := by
    rw [hm₂, hm₁]
    rfl
  have hmem₂ : m₂.mem = m.mem := by
    rw [hm₂, hm₁]
    rfl
  have heip := Machine.exec_load .ebx
    (hesp₂ ▸ (h.legal false (by decide : (40 : Word).toNat + 4 ≤ 52)).congr hmay₂)
  obtain ⟨m₃, hm₃⟩ : ∃ m₃, m₃ = (m₂.set .ebx (m₂.mem.load32 (m₂.reg .esp + 40).toNat)).setEip
    (m₂.eip + BitVec.ofNat 32 (Instr.load 40 .esp .ebx).size) := ⟨_, rfl⟩
  rw [← hm₃] at heip
  have hesp₃ : m₃.reg .esp = u := by
    rw [hm₃, ← hesp₂]
    simp [Machine.set_reg_of_ne]
  have hmay₃ : m₃.may = m.may := by
    rw [hm₃]
    exact hmay₂
  have hload := Machine.exec_load .esp
    (hesp₃ ▸ (h.legal false (by decide : (48 : Word).toNat + 4 ≤ 52)).congr hmay₃)
  obtain ⟨m₄, hm₄⟩ : ∃ m₄, m₄ = (m₃.set .esp (m₃.mem.load32 (m₃.reg .esp + 48).toNat)).setEip
    (m₃.eip + BitVec.ofNat 32 (Instr.load 48 .esp .esp).size) := ⟨_, rfl⟩
  rw [← hm₄] at hload
  refine ⟨m₄, ?_, ?_⟩
  · rw [findStack, Machine.exec_all_cons hadd, Machine.exec_all_cons hmov,
      Machine.exec_all_cons heip, Machine.exec_all_cons hload]
    rfl
  · have h40 : (u + 40).toNat = u.toNat + 40 := h.add (by decide)
    have h48 : (u + 48).toNat = u.toNat + 48 := h.add (by decide)
    rw [hesp₂, h40, hmem₂] at hm₃
    rw [hesp₃, h48] at hm₄
    constructor
    · simp [Machine.set_reg_of_ne, hm₄, hm₃, hm₂, hm₁]
    · simp [Machine.set_reg_of_ne, hm₄, hm₃]
    · simp [hm₄, hm₃, hmem₂]
    · intro r heax hebx hesp
      simp [Machine.set_reg_of_ne, hm₄, hm₃, hm₂, hm₁, heax, hebx, hesp]
    · rw [← hmem₂, hm₄, hm₃]
      rfl
    · rw [← hmay₃, hm₄]
      rfl
    · rw [← hflags, hm₄, hm₃, hm₂, hm₁]
      rfl

/-- The machine after the upcall has left `eip` on the trap-time stack, with its stack pointer back
at the record. -/
structure Left (m m' : Machine) (u : Word) : Prop where
  mem : m'.mem = (m.mem.store32 (m.reg .esp - 4).toNat (m.reg .ebx)).store32 (u.toNat + 48)
    (m.reg .esp - 4)
  esp : m'.reg .esp = u
  may : m'.may = m.may
  eflags : m'.eflags = m.eflags

theorem leave_spec (h : RecordAt m u) (heax : m.reg .eax = u)
    (hpush : m.Legal true (m.reg .esp - 4)) :
    ∃ m', m.execAll [.pushl .ebx, .store .esp 48 .eax, .movl .eax .esp] = .ok m' ∧ Left m m' u := by
  have hfst := Machine.exec_pushl .ebx hpush
  obtain ⟨m₁, hm₁⟩ : ∃ m₁, m₁ = (({ m with
      mem := m.mem.store32 (m.reg .esp - 4).toNat (m.reg .ebx) } : Machine).set .esp
        (m.reg .esp - 4)).setEip (m.eip + 1) := ⟨_, rfl⟩
  rw [← hm₁] at hfst
  have heax₁ : m₁.reg .eax = u := by
    rw [hm₁, ← heax]
    simp [Machine.set_reg_of_ne]
  have hmay₁ : m₁.may = m.may := by
    rw [hm₁]
    rfl
  have hsnd := Machine.exec_store .esp
    (heax₁ ▸ (h.legal true (by decide : (48 : Word).toNat + 4 ≤ 52)).congr hmay₁)
  obtain ⟨m₂, hm₂⟩ : ∃ m₂, m₂ = (({ m₁ with
      mem := m₁.mem.store32 (m₁.reg .eax + 48).toNat (m₁.reg .esp) } : Machine).setEip
        (m₁.eip + BitVec.ofNat 32 (Instr.store .esp 48 .eax).size)) := ⟨_, rfl⟩
  rw [← hm₂] at hsnd
  obtain ⟨m₃, hm₃⟩ : ∃ m₃, m₃ = (m₂.set .esp (m₂.reg .eax)).setEip (m₂.eip + 2) := ⟨_, rfl⟩
  have hthd : m₂.exec (.movl .eax .esp) = .ok m₃ := hm₃ ▸ m₂.exec_movl .eax .esp
  refine ⟨m₃, ?_, ?_⟩
  · rw [Machine.exec_all_cons hfst, Machine.exec_all_cons hsnd, Machine.exec_all_cons hthd]
    rfl
  · have h48 : (u + 48).toNat = u.toNat + 48 := h.add (by decide)
    rw [heax₁, h48] at hm₂
    constructor
    · rw [hm₃, hm₂, hm₁]
      simp
    · rw [hm₃, hm₂, ← heax₁]
      simp
    · rw [← hmay₁, hm₃, hm₂]
      rfl
    · rw [hm₃, hm₂, hm₁]
      rfl

/-- The registers and flags that a record holds. -/
structure Restored (m m' : Machine) (u : Word) : Prop where
  edi : m'.reg .edi = m.mem.load32 (u.toNat + 8)
  esi : m'.reg .esi = m.mem.load32 (u.toNat + 12)
  ebp : m'.reg .ebp = m.mem.load32 (u.toNat + 16)
  ebx : m'.reg .ebx = m.mem.load32 (u.toNat + 24)
  edx : m'.reg .edx = m.mem.load32 (u.toNat + 28)
  ecx : m'.reg .ecx = m.mem.load32 (u.toNat + 32)
  eax : m'.reg .eax = m.mem.load32 (u.toNat + 36)
  eflags : m'.eflags &&& userFlags = m.mem.load32 (u.toNat + 44) &&& userFlags
  system : m'.eflags &&& ~~~userFlags = m.eflags &&& ~~~userFlags
  mem : m'.mem = m.mem
  may : m'.may = m.may

theorem pop_flags_spec (f w : Word) :
    ((f &&& ~~~userFlags) ||| (w &&& userFlags)) &&& userFlags = w &&& userFlags ∧
      ((f &&& ~~~userFlags) ||| (w &&& userFlags)) &&& ~~~userFlags = f &&& ~~~userFlags := by
  have hself : userFlags &&& userFlags = userFlags := BitVec.and_self
  have hnot : ~~~userFlags &&& userFlags = 0 := by decide
  have hnot' : userFlags &&& ~~~userFlags = 0 := by decide
  constructor
  · rw [BitVec.and_or_distrib_right, BitVec.and_assoc, hnot, BitVec.and_assoc, hself]
    simp
  · rw [BitVec.and_or_distrib_right, BitVec.and_assoc, BitVec.and_self, BitVec.and_assoc, hnot']
    simp

/-- The registers are taken from the record, and the stack pointer is left at its last word. -/
theorem pops_spec (h : RecordAt m u) (hesp : m.reg .esp = u) :
    ∃ m', m.execAll [.addl 4 .esp, .addl 4 .esp, .popal, .addl 4 .esp, .popfl] = .ok m' ∧
      Restored m m' u ∧ m'.reg .esp = u + 48 := by
  obtain ⟨flags₁, hfst, hflags₁⟩ := m.exec_addl 4 .esp
  rw [hesp] at hfst
  obtain ⟨m₁, hm₁⟩ : ∃ m₁, m₁ = ((m.set .esp (u + 4)).setFlags flags₁).setEip (m.eip + 3) :=
    ⟨_, rfl⟩
  rw [← hm₁] at hfst
  obtain ⟨flags₂, hsnd, hflags₂⟩ := m₁.exec_addl 4 .esp
  have hesp₁ : m₁.reg .esp = u + 4 := by
    rw [hm₁]
    simp
  rw [hesp₁, BitVec.add_assoc] at hsnd
  obtain ⟨m₂, hm₂⟩ : ∃ m₂, m₂ = ((m₁.set .esp (u + (4 + 4))).setFlags flags₂).setEip
    (m₁.eip + 3) := ⟨_, rfl⟩
  rw [← hm₂] at hsnd
  have hesp₂ : m₂.reg .esp = u + 8 := by
    rw [hm₂]
    simp
  have hmay₂ : m₂.may = m.may := by
    rw [hm₂, hm₁]
    rfl
  have hmem₂ : m₂.mem = m.mem := by
    rw [hm₂, hm₁]
    rfl
  have hword : ∀ k : Word, k.toNat ≤ 44 → (u + 8 + k).toNat = u.toNat + 8 + k.toNat := by
    intro k hk
    have height : (8 : Word).toNat = 8 := rfl
    have hsum : (8 + k).toNat = 8 + k.toNat := by
      rw [BitVec.toNat_add, height]
      omega
    rw [BitVec.add_assoc, h.add (by omega), hsum]
    omega
  obtain ⟨m₃, hpopal, hpopped⟩ := m₂.exec_popal fun k hk => by
    rw [hesp₂, BitVec.add_assoc]
    refine (h.legal false ?_).congr hmay₂
    have height : (8 : Word).toNat = 8 := rfl
    rw [BitVec.toNat_add, height]
    omega
  rw [hesp₂] at hpopped
  obtain ⟨flags₄, hfth, hflags₄⟩ := m₃.exec_addl 4 .esp
  have hesp₄ : m₃.reg .esp + 4 = u + 44 := by
    rw [hpopped.esp, BitVec.add_assoc, BitVec.add_assoc]
    rfl
  rw [hesp₄] at hfth
  obtain ⟨m₄, hm₄⟩ : ∃ m₄, m₄ = ((m₃.set .esp (u + 44)).setFlags flags₄).setEip (m₃.eip + 3) :=
    ⟨_, rfl⟩
  rw [← hm₄] at hfth
  have hmay₄ : m₄.may = m.may := by
    rw [hm₄, ← hmay₂, ← hpopped.may]
    rfl
  have hmem₄ : m₄.mem = m.mem := by
    rw [hm₄, ← hmem₂, ← hpopped.mem]
    rfl
  have hreg₄ : ∀ r, r ≠ .esp → m₄.reg r = m₃.reg r := by
    intro r hr
    rw [hm₄]
    simp [Machine.set_reg_of_ne, hr]
  have hespEq : m₄.reg .esp = u + 44 := by
    rw [hm₄]
    simp
  have hfifth := Machine.exec_popfl
    (hespEq ▸ (h.legal false (by decide : (44 : Word).toNat + 4 ≤ 52)).congr hmay₄)
  obtain ⟨m₅, hm₅⟩ : ∃ m₅, m₅ = ((m₄.popFlags (m₄.mem.load32 (m₄.reg .esp).toNat)).set .esp
    (m₄.reg .esp + 4)).setEip (m₄.eip + 1) := ⟨_, rfl⟩
  rw [← hm₅] at hfifth
  have hreg₅ : ∀ r, r ≠ .esp → m₅.reg r = m₃.reg r := by
    intro r hr
    rw [← hreg₄ r hr, hm₅]
    simp [Machine.set_reg_of_ne, hr, Machine.popFlags]
  have h44 : (u + 44).toNat = u.toNat + 44 := h.add (by decide)
  have hflags₅ : m₅.eflags =
      (m₄.eflags &&& ~~~userFlags) ||| (m.mem.load32 (u.toNat + 44) &&& userFlags) := by
    rw [hm₅, hespEq, h44, hmem₄]
    rfl
  have hsystem : m₄.eflags &&& ~~~userFlags = m.eflags &&& ~~~userFlags := by
    have hfour : m₄.eflags &&& ~~~userFlags = m₃.eflags &&& ~~~userFlags := by
      rw [hm₄]
      exact hflags₄
    have htwo : m₂.eflags &&& ~~~userFlags = m₁.eflags &&& ~~~userFlags := by
      rw [hm₂]
      exact hflags₂
    have hone : m₁.eflags &&& ~~~userFlags = m.eflags &&& ~~~userFlags := by
      rw [hm₁]
      exact hflags₁
    rw [hfour, hpopped.eflags, htwo, hone]
  obtain ⟨hpop, hkeep⟩ := pop_flags_spec m₄.eflags (m.mem.load32 (u.toNat + 44))
  refine ⟨m₅, ?_, ⟨?_, ?_, ?_, ?_, ?_, ?_, ?_, ?_, ?_, ?_, ?_⟩, ?_⟩
  · rw [Machine.exec_all_cons hfst, Machine.exec_all_cons hsnd, Machine.exec_all_cons hpopal,
      Machine.exec_all_cons hfth, Machine.exec_all_cons hfifth]
    rfl
  · have h8 : (u + 8).toNat = u.toNat + 8 := h.add (by decide)
    rw [hreg₅ .edi (by decide), hpopped.edi, hmem₂, h8]
  · rw [hreg₅ .esi (by decide), hpopped.esi, hmem₂, hword 4 (by decide)]
    rfl
  · rw [hreg₅ .ebp (by decide), hpopped.ebp, hmem₂, hword 8 (by decide)]
    rfl
  · rw [hreg₅ .ebx (by decide), hpopped.ebx, hmem₂, hword 16 (by decide)]
    rfl
  · rw [hreg₅ .edx (by decide), hpopped.edx, hmem₂, hword 20 (by decide)]
    rfl
  · rw [hreg₅ .ecx (by decide), hpopped.ecx, hmem₂, hword 24 (by decide)]
    rfl
  · rw [hreg₅ .eax (by decide), hpopped.eax, hmem₂, hword 28 (by decide)]
    rfl
  · rw [hflags₅, hpop]
  · rw [hflags₅, hkeep, hsystem]
  · rw [hm₅, ← hmem₄]
    rfl
  · rw [hm₅, ← hmay₄]
    rfl
  · rw [hm₅, hespEq]
    simp [BitVec.add_assoc]

/-- The stack pointer is taken from the last word of the record, and `eip` from where it points. -/
theorem returns_spec (h : RecordAt m u) (hesp : m.reg .esp = u + 48) {t : Word}
    (ht : m.mem.load32 (u.toNat + 48) = t) (hlegal : m.Legal false t) :
    ∃ m', m.execAll [.popl .esp, .ret] = .ok m' ∧ m'.reg .esp = t + 4 ∧
      m'.eip = m.mem.load32 t.toNat ∧ (∀ r, r ≠ .esp → m'.reg r = m.reg r) ∧
      m'.eflags = m.eflags ∧ m'.mem = m.mem ∧ m'.may = m.may := by
  have h48 : (u + 48).toNat = u.toNat + 48 := h.add (by decide)
  have hfst := Machine.exec_popl .esp (hesp ▸ h.legal false (by decide : (48 : Word).toNat + 4 ≤ 52))
  obtain ⟨m₁, hm₁⟩ : ∃ m₁, m₁ = ((m.set .esp (m.reg .esp + 4)).set .esp
    (m.mem.load32 (m.reg .esp).toNat)).setEip (m.eip + 1) := ⟨_, rfl⟩
  rw [← hm₁] at hfst
  have hesp₁ : m₁.reg .esp = t := by
    rw [hm₁, hesp, h48, ht]
    simp
  have hsnd := Machine.exec_ret (m := m₁) (by
    rw [hesp₁]
    refine hlegal.congr ?_
    rw [hm₁]
    rfl)
  obtain ⟨m₂, hm₂⟩ : ∃ m₂, m₂ = (m₁.set .esp (m₁.reg .esp + 4)).setEip
    (m₁.mem.load32 (m₁.reg .esp).toNat) := ⟨_, rfl⟩
  rw [← hm₂] at hsnd
  refine ⟨m₂, ?_, ?_, ?_, ?_, ?_, ?_, ?_⟩
  · rw [Machine.exec_all_cons hfst, Machine.exec_all_cons hsnd]
    rfl
  · rw [hm₂, ← hesp₁]
    simp
  · rw [hm₂, hesp₁, hm₁]
    rfl
  · intro r hr
    rw [hm₂, hm₁]
    simp [Machine.set_reg_of_ne, hr]
  · rw [hm₂, hm₁]
    rfl
  · rw [hm₂, hm₁]
    rfl
  · rw [hm₂, hm₁]
    rfl

/-- The memory when `eip` has been left below the trap-time stack pointer `t`. -/
def leftMem (mem : Bytes) (u t eip : Word) : Bytes :=
  (mem.store32 (t - 4).toNat eip).store32 (u.toNat + 48) (t - 4)

/-- The word below `t` is no part of the record at `u`. -/
def Apart (u t : Word) : Prop := (t - 4).toNat + 4 ≤ u.toNat ∨ u.toNat + 52 ≤ (t - 4).toNat

theorem left_mem_record (mem : Bytes) (eip : Word) (hapart : Apart u t) {k : Nat}
    (hk : k + 4 ≤ 48) : (leftMem mem u t eip).load32 (u.toNat + k) = mem.load32 (u.toNat + k) := by
  unfold leftMem
  unfold Apart at hapart
  rw [Bytes.load32_store32_of_ne _ (by omega), Bytes.load32_store32_of_ne _ (by omega)]

theorem left_mem_eip (mem : Bytes) (eip : Word) (hapart : Apart u t) :
    (leftMem mem u t eip).load32 (t - 4).toNat = eip := by
  unfold leftMem
  unfold Apart at hapart
  rw [Bytes.load32_store32_of_ne _ (by omega), Bytes.load32_store32]

/-- The machine that resumes. -/
structure Resumed (m m' : Machine) (u t : Word) : Prop
    extends Restored { m with mem := leftMem m.mem u t (m.reg .ebx) } m' u where
  esp : m'.reg .esp = t
  eip : m'.eip = m.reg .ebx

/-- The second half of the upcall: the registers are those of the record, and the machine runs on
where `ebx` says. -/
theorem restore_spec (h : RecordAt m u) (heax : m.reg .eax = u) (hesp : m.reg .esp = t)
    (hpush : m.Legal true (t - 4)) (hapart : Apart u t) :
    ∃ m', m.execAll restore = .ok m' ∧ Resumed m m' u t := by
  rw [← hesp] at hpush
  obtain ⟨m₁, hfst, hleft⟩ := leave_spec h heax hpush
  have hmem₁ : m₁.mem = leftMem m.mem u t (m.reg .ebx) := by
    rw [hleft.mem, hesp]
    rfl
  obtain ⟨m₂, hsnd, hrest, hesp₂⟩ := pops_spec (h.congr hleft.may) hleft.esp
  have hmay₂ : m₂.may = m.may := hrest.may.trans hleft.may
  have hlast : m₂.mem.load32 (u.toNat + 48) = t - 4 := by
    rw [hrest.mem, hmem₁, leftMem, Bytes.load32_store32]
  have hread : m₂.Legal false (t - 4) := (hesp ▸ hpush).read.congr hmay₂
  obtain ⟨m₃, hthd, hesp₃, heip₃, hregs, hflags, hmem₃, hmay₃⟩ :=
    returns_spec (h.congr hmay₂) hesp₂ hlast hread
  refine ⟨m₃, ?_, ⟨?_, ?_, ?_, ?_, ?_, ?_, ?_, ?_, ?_, ?_, ?_⟩, ?_, ?_⟩
  · have hall := Machine.exec_all_append hfst
      ([.addl 4 .esp, .addl 4 .esp, .popal, .addl 4 .esp, .popfl] ++ [.popl .esp, .ret])
    rw [Machine.exec_all_append hsnd, hthd] at hall
    exact hall
  · rw [hregs .edi (by decide), hrest.edi, hmem₁]
  · rw [hregs .esi (by decide), hrest.esi, hmem₁]
  · rw [hregs .ebp (by decide), hrest.ebp, hmem₁]
  · rw [hregs .ebx (by decide), hrest.ebx, hmem₁]
  · rw [hregs .edx (by decide), hrest.edx, hmem₁]
  · rw [hregs .ecx (by decide), hrest.ecx, hmem₁]
  · rw [hregs .eax (by decide), hrest.eax, hmem₁]
  · rw [hflags, hrest.eflags, hmem₁]
  · rw [hflags, hrest.system, hleft.eflags]
  · rw [hmem₃, hrest.mem, hmem₁]
  · rw [hmay₃, hmay₂]
  · rw [hesp₃, BitVec.sub_add_cancel]
  · rw [heip₃, hrest.mem, hmem₁, left_mem_eip _ _ hapart]

end Labs.Jos.Upcall
