import Labs.Base.Prog
import Labs.Base.Records
import Labs.Jos.Mmu
import Mathlib.Data.List.Basic

/-!
# The multiprocessor configuration table

`mp_init` of `kern/mpconfig.c`, which finds the CPUs in a table of the firmware, and `mpconfig`,
which finds the table and checks it. Addresses are words, and pointer arithmetic wraps around. The
variables of the kernel are not in the memory that the firmware has written. A state has a list of
the bytes of the table that `mp_init` itself examines; what `mpconfig` reads for its checks is not
in it. `mp_init_safe_iff` says for which tables `mp_init` stays inside the table and the array
`cpus`.
-/

namespace Labs.Jos.Mpconfig

open Prog

/-- The bytes of the kernel's address space. -/
abbrev Memory := Word → Byte

/-- Why the kernel stopped. -/
inductive Halt where
  /-- `KADDR` was called with an invalid physical address. -/
  | panic (pa : Word)
  /-- An access outside the array `cpus`. -/
  | overrun

/-- The memory with the tables of the firmware, the number of physical pages, and what has been
printed. -/
structure Firmware where
  mem : Memory
  npages : Nat
  console : List (String × List Nat)

/-- `struct CpuInfo`: the fields that `mp_init` writes. -/
structure CpuInfo where
  cpuId : Byte
  cpuStatus : Word

/-- The variables of the kernel. The pointer `bootcpu` is an index of the array `cpus`, `imcr` is
what port 0x23 reads, `ports` is what has been written to ports, and `examined` are the addresses of
the bytes of the table that `mp_init` has read. -/
structure State where
  fw : Firmware
  cpus : List CpuInfo
  bootcpu : Option Nat
  ncpu : Nat
  ismp : Bool
  lapicaddr : Word
  imcr : Byte
  ports : List (Nat × Byte)
  examined : List Word

abbrev FwM := Prog Firmware Halt

abbrev MpM := Prog State Halt

/-- `NCPU`. -/
def ncpuMax : Nat := 8

/-- `CPU_STARTED`. -/
def cpuStarted : Word := 1

/-- `MPPROC_BOOT`. -/
def mpprocBoot : Byte := 0x02

section Model

/-- A field of 16 bits. -/
def u16 (m : Memory) (a : Word) : BitVec 16 := m (a + 1) ++ m a

/-- A field of 32 bits. -/
def u32 (m : Memory) (a : Word) : Word := m (a + 3) ++ m (a + 2) ++ m (a + 1) ++ m a

/-- `memcmp(a, text, n) == 0`, for the `n` bytes of the text. -/
def holds (m : Memory) (a : Word) : List Byte → Bool
  | [] => true
  | c :: text => m a = c ∧ holds m (a + 1) text

/-- The function `sum`. -/
def sum (m : Memory) (addr : Word) (len : Nat) : Byte :=
  (List.range len).foldl (fun sum i => sum + m (addr + BitVec.ofNat 32 i)) 0

/-- `KADDR(pa)`. -/
def kaddr (pa : Word) : FwM Word := do
  let fw ← get
  if fw.npages ≤ pgnum pa then exit (.panic pa) else return pa + kernbase

/-- `cprintf`. -/
def printTo (fw : Firmware) (fmt : String) (args : List Nat) : Firmware :=
  { fw with console := fw.console ++ [(fmt, args)] }

/-- The floating pointer structure: the signature `_MP_`, and a checksum. -/
def isMp (m : Memory) (mp : Word) : Bool := holds m mp [0x5F, 0x4D, 0x50, 0x5F] ∧ sum m mp 16 = 0

/-- The function `mpsearch1`. The pointers of its callers do not wrap around, so that its loop looks
at one structure in every 16 bytes. -/
def mpsearch1 (a : Word) (len : Nat) : FwM (Option Word) := do
  let mp ← kaddr a
  let _ ← kaddr (a + BitVec.ofNat 32 len)
  let fw ← get
  return ((List.range (len / 16)).map fun i => mp + BitVec.ofNat 32 (16 * i)).find? (isMp fw.mem)

/-- The function `mpsearch`. -/
def mpsearch : FwM (Option Word) := do
  let bda ← kaddr 0x400
  let fw ← get
  let segment := u16 fw.mem (bda + 0x0E)
  let first ←
    if segment ≠ 0 then mpsearch1 (segment.setWidth 32 <<< 4) 1024
    else mpsearch1 ((u16 fw.mem (bda + 0x13)).setWidth 32 * 1024 - 1024) 1024
  if first.isSome then return first else mpsearch1 0xF0000 0x10000

/-- `conf->length`. -/
def tableLength (m : Memory) (conf : Word) : Nat := (u16 m (conf + 4)).toNat

/-- `conf->entry`. -/
def entryCount (m : Memory) (conf : Word) : Nat := (u16 m (conf + 34)).toNat

/-- Print a message and return no table. -/
def reject (fmt : String) (args : List Nat) : FwM (Option (Word × Word)) := do
  modify fun fw => printTo fw fmt args
  return none

/-- The checks of `mpconfig` on the table. -/
def checkConf (mp conf : Word) : FwM (Option (Word × Word)) := do
  let fw ← get
  let version := fw.mem (conf + 6)
  if holds fw.mem conf [0x50, 0x43, 0x4D, 0x50] = false then
    reject "SMP: Incorrect MP configuration table signature\n" []
  else if sum fw.mem conf (tableLength fw.mem conf) ≠ 0 then
    reject "SMP: Bad MP configuration checksum\n" []
  else if version ≠ 1 ∧ version ≠ 4 then
    reject "SMP: Unsupported MP version %d\n" [version.toNat]
  else if sum fw.mem (conf + BitVec.ofNat 32 (tableLength fw.mem conf))
      (u16 fw.mem (conf + 40)).toNat ≠ fw.mem (conf + 42) then
    reject "SMP: Bad MP configuration extended checksum\n" []
  else return some (mp, conf)

/-- `mpconfig` with the structure that `mpsearch` has found. -/
def readMp (mp : Word) : FwM (Option (Word × Word)) := do
  let fw ← get
  if u32 fw.mem (mp + 4) = 0 ∨ fw.mem (mp + 11) ≠ 0 then
    reject "SMP: Default configurations not implemented\n" []
  else
    let conf ← kaddr (u32 fw.mem (mp + 4))
    checkConf mp conf

/-- The function `mpconfig`: the floating pointer structure and the table. -/
def mpconfig : FwM (Option (Word × Word)) := do
  let found ← mpsearch
  match found with
  | none => return none
  | some mp => readMp mp

/-- The table that `mpconfig` accepts. -/
def accepted (fw : Firmware) : Option (Word × Word) :=
  match mpconfig fw with
  | .ret found _ => found
  | .exit _ _ => none

/-- Read a byte of the table. -/
def examine (a : Word) : MpM Byte := fun s =>
  .ret (s.fw.mem a) { s with examined := s.examined ++ [a] }

/-- Read a field of 16 bits of the table. -/
def examine16 (a : Word) : MpM (BitVec 16) := do
  let lo ← examine a
  let hi ← examine (a + 1)
  return hi ++ lo

/-- Read a field of 32 bits of the table. -/
def examine32 (a : Word) : MpM Word := do
  let lo ← examine16 a
  let hi ← examine16 (a + 2)
  return hi ++ lo

def cprintf (fmt : String) (args : List Nat) : MpM Unit :=
  modify fun s => { s with fw := printTo s.fw fmt args }

/-- `cpus[k]`, for the index `k` of a pointer. -/
def cpuAt (k : Option Nat) : MpM CpuInfo := fun s =>
  match k.bind (s.cpus[·]?) with
  | some c => .ret c s
  | none => .exit .overrun s

/-- Write a field of `cpus[k]`. -/
def setCpu (k : Option Nat) (f : CpuInfo → CpuInfo) : MpM Unit := fun s =>
  match k with
  | some k =>
      if k < s.cpus.length then .ret () { s with cpus := s.cpus.modify k f } else .exit .overrun s
  | none => .exit .overrun s

def outb (port : Nat) (data : Byte) : MpM Unit :=
  modify fun s => { s with ports := s.ports ++ [(port, data)] }

/-- The test of the boot flag. -/
def noteBoot (p : Word) : MpM Unit := do
  let flags ← examine (p + 3)
  if flags &&& mpprocBoot ≠ 0 then modify fun s => { s with bootcpu := some s.ncpu }
  else pure ()

/-- One more CPU, if there is room for it. -/
def addCpu (p : Word) : MpM Unit := do
  let s ← get
  if s.ncpu < ncpuMax then
    setCpu (some s.ncpu) fun c => { c with cpuId := BitVec.ofNat 8 s.ncpu }
    modify fun s => { s with ncpu := s.ncpu + 1 }
  else
    let apicid ← examine (p + 1)
    cprintf "SMP: too many CPUs, CPU %d disabled\n" [apicid.toNat]

/-- The case `MPPROC`. -/
def mpproc (p : Word) : MpM Unit := do
  noteBoot p
  addCpu p

/-- The `default` case. -/
def unknownEntry (p : Word) : MpM Unit := do
  let type ← examine p
  cprintf "mpinit: unknown config type %x\n" [type.toNat]
  modify fun s => { s with ismp := false }

/-- The loop over the entries, with `n` of them left. The table does not change, so `conf->entry` is
read once, before the loop. -/
def entries : Nat → Word → MpM Unit
  | 0, _ => pure ()
  | n + 1, p => do
      let type ← examine p
      if type = 0 then
        mpproc p
        entries n (p + 20)
      else if type ≤ 4 then entries n (p + 8)
      else unknownEntry p

/-- The end of `mp_init`. -/
def finish (mp : Word) : MpM Unit := do
  let s ← get
  setCpu s.bootcpu fun c => { c with cpuStatus := cpuStarted }
  if s.ismp = false then
    modify fun s => { s with ncpu := 1, lapicaddr := 0 }
    cprintf "SMP: configuration not found, SMP disabled\n" []
  else
    let boot ← cpuAt s.bootcpu
    cprintf "SMP: CPU %d found %d CPU(s)\n" [boot.cpuId.toNat, s.ncpu]
    if s.fw.mem (mp + 12) ≠ 0 then
      cprintf "SMP: Setting IMCR to switch from PIC mode to symmetric I/O mode\n" []
      outb 0x22 0x70
      outb 0x23 (s.imcr ||| 1)

/-- `mp_init` with a table. -/
def readConf (mp conf : Word) : MpM Unit := do
  modify fun s => { s with ismp := true }
  let lapicaddr ← examine32 (conf + 36)
  modify fun s => { s with lapicaddr := lapicaddr }
  let count ← examine16 (conf + 34)
  entries count.toNat (conf + 44)
  finish mp

/-- The function `mp_init`. -/
def mpInit : MpM Unit := do
  modify fun s => { s with bootcpu := some 0 }
  let found ← zoom State.fw (fun fw s => { s with fw := fw }) mpconfig
  match found with
  | none => return ()
  | some (mp, conf) => readConf mp conf

/-- The state in which `mp_init` is called: the variables of the kernel are zero. -/
def bootState (fw : Firmware) (imcr : Byte) : State where
  fw := fw
  cpus := List.replicate ncpuMax ⟨0, 0⟩
  bootcpu := none
  ncpu := 0
  ismp := false
  lapicaddr := 0
  imcr := imcr
  ports := []
  examined := []

end Model

section Tables

variable (m : Memory) (conf : Word)

/-- The address of the byte with a given offset in the table. -/
def addr (off : Nat) : Word := conf + BitVec.ofNat 32 off

/-- The size of an entry of the table, unless its type is unknown. -/
def entrySize (off : Nat) : Option Nat :=
  if m (addr conf off) = 0 then some 20
  else if m (addr conf off) ≤ 4 then some 8
  else none

/-- The entry at an offset is one of a processor. -/
def isProcessor (off : Nat) : Bool := m (addr conf off) = 0

/-- The processor of an entry is the one that the machine has started with. -/
def isBoot (off : Nat) : Bool := m (addr conf (off + 3)) &&& mpprocBoot ≠ 0

/-- The offsets of the entries that the count of the table covers, up to one of unknown type. -/
def offsets : List Nat := Records.places (entrySize m conf) (entryCount m conf) 44

/-- The offsets of the entries for processors. -/
def processors : List Nat := (offsets m conf).filter (isProcessor m conf)

/-- The table has its entries, and its header up to the address of the local APIC, in its declared
length, and no processor that has no place in `cpus` is the one that the machine has started
with. -/
structure WellFormed : Prop where
  header : 40 ≤ tableLength m conf
  types : ∀ off ∈ offsets m conf, off < tableLength m conf
  flags : ∀ off ∈ processors m conf, off + 3 < tableLength m conf
  boot : ∀ off ∈ (processors m conf).drop ncpuMax, isBoot m conf off = false

/-- The address is in the declared length of the table. -/
def Within (a : Word) : Prop := (a - conf).toNat < tableLength m conf

instance (a : Word) : Decidable (Within m conf a) := inferInstanceAs (Decidable (_ < _))

/-- `mp_init` has returned, `ncpu` and `bootcpu` fit the array `cpus`, and `mp_init` has only
examined bytes in the declared length of the table. -/
def Safe : Outcome State Halt Unit → Prop
  | .ret _ s => s.ncpu ≤ ncpuMax ∧ (∃ k < ncpuMax, s.bootcpu = some k) ∧
      ∀ a ∈ s.examined, Within m conf a
  | .exit _ _ => False

instance (o : Outcome State Halt Unit) : Decidable (Safe m conf o) :=
  match o with
  | .ret _ _ => inferInstanceAs (Decidable (_ ∧ _ ∧ _))
  | .exit _ _ => inferInstanceAs (Decidable False)

end Tables

variable {m : Memory} {conf mp : Word} {off : Nat} {s s' t : State} {offs offs' : List Nat}

/-! ## Addresses in the table -/

theorem addr_add (k : Nat) : addr conf off + BitVec.ofNat 32 k = addr conf (off + k) := by
  unfold addr
  rw [BitVec.add_assoc, ← BitVec.ofNat_add]

/-- Offsets are not large enough for an address to wrap around to the start of the table. -/
theorem within_addr (h : off < 2 ^ 32) :
    Within m conf (addr conf off) ↔ off < tableLength m conf := by
  have hoff : (addr conf off - conf).toNat = off := by
    unfold addr
    rw [BitVec.add_comm, BitVec.add_sub_cancel, BitVec.toNat_ofNat, Nat.mod_eq_of_lt h]
  unfold Within
  rw [hoff]

/-! ## One entry -/

section Entry

/-- A state of the loop over the entries. -/
structure Walking (m : Memory) (s : State) : Prop where
  mem : s.fw.mem = m
  cpus : s.cpus.length = ncpuMax
  ncpu : s.ncpu ≤ ncpuMax
  bootcpu : ∃ k, s.bootcpu = some k ∧ (k < ncpuMax ∨ s.ncpu = ncpuMax)

/-- The pointer `bootcpu` points into the array `cpus`. -/
def HasBoot (s : State) : Prop := ∃ k < ncpuMax, s.bootcpu = some k

/-- Everything that has been examined is in the declared length of the table. -/
def AllWithin (m : Memory) (conf : Word) (s : State) : Prop := ∀ a ∈ s.examined, Within m conf a

/-- `s'` is the state after the entries at `offs`. -/
structure Walked (m : Memory) (conf : Word) (offs : List Nat) (s s' : State) : Prop where
  walking : Walking m s'
  ncpu : s'.ncpu = min ncpuMax (s.ncpu + (offs.filter (isProcessor m conf)).length)
  boot : HasBoot s' ↔ HasBoot s ∧
    ∀ off ∈ (offs.filter (isProcessor m conf)).drop (ncpuMax - s.ncpu), isBoot m conf off = false
  examined : AllWithin m conf s' ↔ AllWithin m conf s ∧ (∀ off ∈ offs, off < tableLength m conf) ∧
    ∀ off ∈ offs.filter (isProcessor m conf), off + 3 < tableLength m conf

theorem Walked.refl (hs : Walking m s) : Walked m conf [] s s where
  walking := hs
  ncpu := (Nat.min_eq_right hs.ncpu).symm
  boot := by simp
  examined := by simp

/-- Entries one behind the other. -/
theorem Walked.trans (h : Walked m conf offs s t) (h' : Walked m conf offs' t s') :
    Walked m conf (offs ++ offs') s s' where
  walking := h'.walking
  ncpu := by
    rw [h'.ncpu, h.ncpu, List.filter_append, List.length_append]
    omega
  boot := by
    have hfree : ncpuMax - t.ncpu =
        ncpuMax - s.ncpu - (offs.filter (isProcessor m conf)).length := by
      rw [h.ncpu]
      omega
    rw [h'.boot, h.boot, List.filter_append, List.drop_append, hfree, List.forall_mem_append,
      and_assoc]
  examined := by
    rw [h'.examined, h.examined, List.filter_append, List.forall_mem_append,
      List.forall_mem_append]
    tauto

theorem examine_ret {a : Word} :
    examine a s = .ret (s.fw.mem a) { s with examined := s.examined ++ [a] } := rfl

/-- The test of the boot flag reads one byte. -/
theorem note_boot_ret (hmem : s.fw.mem = m) : noteBoot (addr conf off) s = .ret () { s with
    bootcpu := if isBoot m conf off = true then some s.ncpu else s.bootcpu
    examined := s.examined ++ [addr conf (off + 3)] } := by
  have haddr : addr conf off + 3 = addr conf (off + 3) := addr_add 3
  unfold noteBoot
  rw [haddr, bind_of_ret examine_ret, hmem]
  by_cases hflag : m (addr conf (off + 3)) &&& mpprocBoot ≠ 0
  · have hboot : isBoot m conf off = true := decide_eq_true hflag
    rw [if_pos hflag, if_pos hboot]
    rfl
  · have hboot : ¬ isBoot m conf off = true := by simpa [isBoot] using hflag
    rw [if_neg hflag, if_neg hboot]
    rfl

theorem set_cpu_ret {k : Nat} {f : CpuInfo → CpuInfo} (h : k < s.cpus.length) :
    setCpu (some k) f s = .ret () { s with cpus := s.cpus.modify k f } := if_pos h

/-- A CPU that has a place in the array gets it; the identifier of any other one is printed. -/
theorem wp_add_cpu {Q : Unit → State → Prop} {E : Halt → State → Prop} {p : Word}
    (hcpus : s.cpus.length = ncpuMax)
    (hroom : ∀ cpus, cpus.length = ncpuMax → s.ncpu < ncpuMax →
      Q () { s with cpus := cpus, ncpu := s.ncpu + 1 })
    (hfull : ∀ fw, fw.mem = s.fw.mem → ncpuMax ≤ s.ncpu →
      Q () { s with fw := fw, examined := s.examined ++ [p + 1] }) :
    wp (addCpu p) Q E s := by
  unfold addCpu
  rw [wp_bind, wp_get, wp_ite]
  refine ⟨fun hlt => ?_, fun hle => ?_⟩
  · rw [wp_bind, wp_of_ret (set_cpu_ret (hcpus ▸ hlt)), wp_modify]
    exact hroom _ ((List.length_modify _ _ _).trans hcpus) hlt
  · rw [wp_bind, wp_of_ret examine_ret]
    exact hfull _ rfl (Nat.le_of_not_lt hle)

/-- Only when the array is full does the flag move the pointer `bootcpu` out of it. -/
theorem bootcpu_flagged (hs : Walking m s) (flag : Bool) :
    ∃ k, (if flag = true then some s.ncpu else s.bootcpu) = some k ∧
      (k < ncpuMax ∨ s.ncpu = ncpuMax) := by
  have hn := hs.ncpu
  split
  case isTrue => exact ⟨s.ncpu, rfl, by omega⟩
  case isFalse => exact hs.bootcpu

/-- The pointer stays in the array unless a processor without a place in it has the flag. -/
theorem has_boot_iff (hs : Walking m s) (flag : Bool) :
    (∃ k < ncpuMax, (if flag = true then some s.ncpu else s.bootcpu) = some k) ↔
      HasBoot s ∧ (s.ncpu = ncpuMax → flag = false) := by
  obtain ⟨k, hk, hroom⟩ := hs.bootcpu
  have hn := hs.ncpu
  cases flag with
  | true =>
      rw [if_pos rfl]
      constructor
      · intro h
        obtain ⟨j, hj, heq⟩ := h
        cases heq
        have hlt : k < ncpuMax := by omega
        exact ⟨⟨k, hlt, hk⟩, fun hfull => absurd hfull (by omega)⟩
      · intro h
        have hlt : s.ncpu ≠ ncpuMax := fun hfull => Bool.noConfusion (h.2 hfull)
        exact ⟨s.ncpu, by omega, rfl⟩
  | false => exact ⟨fun h => ⟨h, fun _ => rfl⟩, fun h => h.1⟩

theorem all_within_append {l : List Word} (hexamined : t.examined = s.examined ++ l) :
    AllWithin m conf t ↔ AllWithin m conf s ∧ ∀ a ∈ l, Within m conf a := by
  unfold AllWithin
  rw [hexamined, List.forall_mem_append]

/-- Only a processor without a place in the array must not have the flag. -/
theorem drop_one_iff (hs : Walking m s) : (∀ o ∈ [off].drop (ncpuMax - s.ncpu),
    isBoot m conf o = false) ↔ (s.ncpu = ncpuMax → isBoot m conf off = false) := by
  have hn := hs.ncpu
  by_cases hfull : s.ncpu = ncpuMax
  · rw [hfull, Nat.sub_self, List.drop_zero, List.forall_mem_singleton]
    exact ⟨fun h _ => h, fun h => h rfl⟩
  · rw [List.drop_of_length_le (by rw [List.length_singleton]; omega)]
    exact ⟨fun _ h => absurd h hfull, fun _ _ h => absurd h List.not_mem_nil⟩

/-- The byte with the flags is the last one that is read of an entry. -/
theorem processor_within_iff {l : List Word} (hoff : off + 3 < 2 ^ 32)
    (hl : l = [addr conf off, addr conf (off + 3)] ∨
      l = [addr conf off, addr conf (off + 3), addr conf (off + 1)]) :
    (∀ a ∈ l, Within m conf a) ↔ (∀ o ∈ [off], o < tableLength m conf) ∧
      ∀ o ∈ [off], o + 3 < tableLength m conf := by
  have htype : off < 2 ^ 32 := by omega
  have hid : off + 1 < 2 ^ 32 := by omega
  cases hl with
  | inl hl => simp [hl, within_addr htype, within_addr hoff]
  | inr hl =>
      simp [hl, within_addr htype, within_addr hoff, within_addr hid]
      omega

/-- An entry for a processor. -/
theorem wp_mpproc (hs : Walking m s) (hoff : off + 3 < 2 ^ 32)
    (htype : isProcessor m conf off = true)
    (ht : t = { s with examined := s.examined ++ [addr conf off] }) :
    wp (mpproc (addr conf off)) (fun _ s' => Walked m conf [off] s s') (fun _ _ => False) t := by
  have hproc : [off].filter (isProcessor m conf) = [off] := List.filter_cons_of_pos htype
  have haddr : addr conf off + 1 = addr conf (off + 1) := addr_add 1
  have hn := hs.ncpu
  have hmem : t.fw.mem = m := by
    rw [ht]
    exact hs.mem
  have hboot := bootcpu_flagged hs (isBoot m conf off)
  -- whether there is room for the processor or not, the flag has done the same
  have hflag := has_boot_iff hs (isBoot m conf off)
  rw [← drop_one_iff hs] at hflag
  unfold mpproc
  rw [wp_bind, wp_of_ret (note_boot_ret hmem), ht]
  refine wp_add_cpu hs.cpus (fun cpus hcpus hlt => ?_) fun fw hfw hle => ?_
  · have hlt : s.ncpu < ncpuMax := hlt
    refine ⟨⟨hs.mem, hcpus, Nat.succ_le_of_lt hlt, ?_⟩, ?_, ?_, ?_⟩
    · obtain ⟨k, hk, hroom⟩ := hboot
      exact ⟨k, hk, .inl (by omega)⟩
    · rw [hproc, List.length_singleton]
      exact (Nat.min_eq_right (Nat.succ_le_of_lt hlt)).symm
    · rw [hproc]
      exact hflag
    · rw [hproc, all_within_append (s := s) (List.append_assoc _ _ _)]
      exact and_congr_right fun _ => processor_within_iff hoff (.inl rfl)
  · have hfull : s.ncpu = ncpuMax := Nat.le_antisymm hn hle
    refine ⟨⟨hfw.trans hs.mem, hs.cpus, hn, hboot⟩, ?_, ?_, ?_⟩
    · rw [hproc, List.length_singleton]
      exact hfull.trans (Nat.min_eq_left (by omega)).symm
    · rw [hproc]
      exact hflag
    · have hexamined : s.examined ++ [addr conf off] ++ [addr conf (off + 3)] ++
          [addr conf off + 1] =
          s.examined ++ [addr conf off, addr conf (off + 3), addr conf (off + 1)] := by
        rw [haddr]
        simp
      rw [hproc, all_within_append (s := s) hexamined]
      exact and_congr_right fun _ => processor_within_iff hoff (.inr rfl)

/-- Any other entry. -/
theorem walked_other (hs : Walking m s) (htype : isProcessor m conf off = false)
    (hmem : s'.fw.mem = s.fw.mem) (hcpus : s'.cpus = s.cpus) (hncpu : s'.ncpu = s.ncpu)
    (hboot : s'.bootcpu = s.bootcpu)
    (hexamined : AllWithin m conf s' ↔ AllWithin m conf s ∧ off < tableLength m conf) :
    Walked m conf [off] s s' := by
  have hnone : [off].filter (isProcessor m conf) = [] :=
    List.filter_cons_of_neg (by rw [htype]; exact Bool.false_ne_true)
  have hn := hs.ncpu
  refine ⟨⟨hmem.trans hs.mem, hcpus ▸ hs.cpus, hncpu ▸ hn, ?_⟩, ?_, ?_, ?_⟩
  · rw [hboot, hncpu]
    exact hs.bootcpu
  · rw [hnone, hncpu]
    exact (Nat.min_eq_right hn).symm
  · rw [hnone, List.drop_nil]
    unfold HasBoot
    rw [hboot]
    exact ⟨fun h => ⟨h, fun _ hmem => absurd hmem List.not_mem_nil⟩, fun h => h.1⟩
  · rw [hexamined, hnone, List.forall_mem_singleton]
    exact and_congr_right fun _ =>
      ⟨fun h => ⟨h, fun _ hmem => absurd hmem List.not_mem_nil⟩, fun h => h.1⟩

end Entry

/-! ## All entries -/

/-- The loop walks over the entries that the count of the table covers. -/
theorem wp_entries {n : Nat} (hs : Walking m s) (hoff : off + 20 * n < 2 ^ 32) :
    wp (entries n (addr conf off))
      (fun _ s' => Walked m conf (Records.places (entrySize m conf) n off) s s')
      (fun _ _ => False) s := by
  induction n generalizing off s with
  | zero => exact Walked.refl hs
  | succ n ih =>
      have hhere : off < 2 ^ 32 := by omega
      have hmem := hs.mem
      rw [entries, wp_bind, wp_of_ret examine_ret, hmem]
      by_cases hproc : m (addr conf off) = 0
      · have hnext : addr conf off + 20 = addr conf (off + 20) := addr_add 20
        have hsize : entrySize m conf off = some 20 := if_pos hproc
        rw [if_pos hproc, wp_bind, Records.places_known hsize, hnext]
        refine wp_mono_ret (wp_mpproc hs (by omega) (decide_eq_true hproc) rfl) fun _ t ht => ?_
        refine wp_mono_ret (ih ht.walking (by omega)) fun _ s' hs' => ?_
        exact ht.trans hs'
      · have htype : isProcessor m conf off = false := decide_eq_false hproc
        rw [if_neg hproc]
        by_cases hknown : m (addr conf off) ≤ 4
        · have hnext : addr conf off + 8 = addr conf (off + 8) := addr_add 8
          have hsize : entrySize m conf off = some 8 := by
            rw [entrySize, if_neg hproc, if_pos hknown]
          have ht : Walked m conf [off] s { s with examined := s.examined ++ [addr conf off] } := by
            refine walked_other hs htype rfl rfl rfl rfl ((all_within_append rfl).trans ?_)
            rw [List.forall_mem_singleton, within_addr hhere]
          rw [if_pos hknown, Records.places_known hsize, hnext]
          refine wp_mono_ret (ih ht.walking (by omega)) fun _ s' hs' => ?_
          exact ht.trans hs'
        · have hsize : entrySize m conf off = none := by
            rw [entrySize, if_neg hproc, if_neg hknown]
          rw [if_neg hknown, Records.places_unknown hsize]
          -- the type is read once more for the message
          refine walked_other hs htype rfl rfl rfl rfl ?_
          refine (all_within_append (List.append_assoc _ _ _)).trans ?_
          rw [List.forall_mem_append, List.forall_mem_singleton, within_addr hhere, and_self]

/-! ## The whole function -/

theorem cpu_at_ret {k : Nat} (h : k < s.cpus.length) : cpuAt (some k) s = .ret s.cpus[k] s := by
  simp [cpuAt, List.getElem?_eq_getElem h]

/-- The end of `mp_init` writes through `bootcpu`, and reads nothing more of the table. -/
theorem finish_safe_iff (hs : Walking m s) :
    Safe m conf (finish mp s) ↔ HasBoot s ∧ AllWithin m conf s := by
  obtain ⟨k, hk, -⟩ := hs.bootcpu
  unfold finish
  rw [get_bind, hk]
  by_cases hroom : k < ncpuMax
  · have hlt : k < s.cpus.length := hs.cpus ▸ hroom
    have hboot : HasBoot s := ⟨k, hroom, hk⟩
    have hone : 1 ≤ ncpuMax := Nat.succ_le_of_lt (Nat.zero_lt_of_lt hroom)
    rw [bind_of_ret (set_cpu_ret hlt)]
    by_cases hismp : s.ismp = false
    · rw [if_pos hismp]
      exact ⟨fun h => ⟨hboot, h.2.2⟩, fun h => ⟨hone, hboot, h.2⟩⟩
    · rw [if_neg hismp, bind_of_ret (cpu_at_ret ((List.length_modify _ _ _).symm ▸ hlt)),
        bind_of_ret (rfl : cprintf _ _ _ = .ret _ _)]
      split
      case isTrue => exact ⟨fun h => ⟨hboot, h.2.2⟩, fun h => ⟨hs.ncpu, hboot, h.2⟩⟩
      case isFalse => exact ⟨fun h => ⟨hboot, h.2.2⟩, fun h => ⟨hs.ncpu, hboot, h.2⟩⟩
  · have hover : setCpu (some k) (fun c => { c with cpuStatus := cpuStarted }) s =
        .exit .overrun s := if_neg (hs.cpus ▸ hroom)
    rw [bind_of_exit hover]
    refine ⟨False.elim, fun h => ?_⟩
    obtain ⟨⟨j, hj, heq⟩, _⟩ := h
    rw [hk] at heq
    cases heq
    exact hroom hj

theorem examine16_ret : examine16 (addr conf off) s = .ret (u16 s.fw.mem (addr conf off))
    { s with examined := s.examined ++ [addr conf off, addr conf (off + 1)] } := by
  have hnext : addr conf off + 1 = addr conf (off + 1) := addr_add 1
  unfold examine16 u16
  rw [hnext, bind_of_ret examine_ret, bind_of_ret examine_ret, List.append_assoc]
  rfl

theorem examine32_ret : ∃ v, examine32 (addr conf off) s = .ret v { s with
    examined := s.examined ++
      [addr conf off, addr conf (off + 1), addr conf (off + 2), addr conf (off + 3)] } := by
  have hnext : addr conf off + 2 = addr conf (off + 2) := addr_add 2
  unfold examine32
  rw [hnext, bind_of_ret examine16_ret, bind_of_ret examine16_ret, List.append_assoc]
  exact ⟨_, rfl⟩

/-- What `mp_init` reads of the header, before the loop over the entries. -/
theorem read_conf_eq (mp conf : Word) (s : State) : ∃ t, readConf mp conf s =
      (do entries (entryCount s.fw.mem conf) (addr conf 44); finish mp) t ∧
    t.fw = s.fw ∧ t.cpus = s.cpus ∧ t.ncpu = s.ncpu ∧ t.bootcpu = s.bootcpu ∧
    t.examined = s.examined ++ [addr conf 36, addr conf 37, addr conf 38, addr conf 39,
      addr conf 34, addr conf 35] := by
  have hlapic : conf + 36 = addr conf 36 := rfl
  have hcount : conf + 34 = addr conf 34 := rfl
  obtain ⟨v, hv⟩ := @examine32_ret conf 36 { s with ismp := true }
  unfold readConf
  rw [modify_bind, hlapic, hcount, bind_of_ret hv, modify_bind, bind_of_ret examine16_ret]
  exact ⟨_, rfl, rfl, rfl, rfl, rfl, List.append_assoc _ _ _⟩

/-- The header up to the address of the local APIC. -/
theorem header_within_iff : (∀ a ∈ [addr conf 36, addr conf 37, addr conf 38, addr conf 39,
    addr conf 34, addr conf 35], Within m conf a) ↔ 40 ≤ tableLength m conf := by
  have hwithin : ∀ off, off < 40 → (Within m conf (addr conf off) ↔ off < tableLength m conf) :=
    fun off hoff => within_addr (by omega)
  simp [hwithin]
  omega

/-! ## mpconfig -/

/-- The memory stays as it is. -/
def SameMem (fw fw' : Firmware) : Prop := fw'.mem = fw.mem

instance : Composes SameMem (fun fw (_ : Halt) fw' => SameMem fw fw') where
  refl _ := rfl
  trans h h' := Eq.trans h' h
  absorb h h' := Eq.trans h' h

abbrev KeepsMem {α : Type} (x : FwM α) : Prop := Keeps SameMem (fun fw _ fw' => SameMem fw fw') x

theorem keeps_mem_kaddr {pa : Word} : KeepsMem (kaddr pa) := by
  refine keeps_bind keeps_get fun fw => ?_
  exact keeps_ite (keeps_exit fun _ => rfl) (keeps_pure _)

theorem keeps_mem_mpsearch1 {a : Word} {len : Nat} : KeepsMem (mpsearch1 a len) :=
  keeps_bind keeps_mem_kaddr fun _ => keeps_bind keeps_mem_kaddr fun _ =>
    keeps_bind keeps_get fun _ => keeps_pure _

theorem keeps_mem_mpsearch : KeepsMem mpsearch := by
  have hlast : ∀ first : Option Word, KeepsMem
      (if first.isSome then return first else mpsearch1 0xF0000 0x10000) :=
    fun first => keeps_ite (keeps_pure first) keeps_mem_mpsearch1
  refine keeps_bind keeps_mem_kaddr fun bda => keeps_bind keeps_get fun fw => ?_
  exact keeps_ite (keeps_bind keeps_mem_mpsearch1 hlast) (keeps_bind keeps_mem_mpsearch1 hlast)

theorem keeps_mem_reject {fmt : String} {args : List Nat} : KeepsMem (reject fmt args) :=
  keeps_bind (keeps_modify fun _ => rfl) fun _ => keeps_pure none

theorem keeps_mem_check_conf : KeepsMem (checkConf mp conf) := by
  refine keeps_bind keeps_get fun fw => ?_
  refine keeps_ite keeps_mem_reject (keeps_ite keeps_mem_reject (keeps_ite keeps_mem_reject ?_))
  exact keeps_ite keeps_mem_reject (keeps_pure _)

theorem keeps_mem_read_mp : KeepsMem (readMp mp) := by
  refine keeps_bind keeps_get fun fw => ?_
  exact keeps_ite keeps_mem_reject (keeps_bind keeps_mem_kaddr fun _ => keeps_mem_check_conf)

/-- `mpconfig` does not change the memory. -/
theorem keeps_mem_mpconfig : KeepsMem mpconfig := by
  refine keeps_bind keeps_mem_mpsearch fun found => ?_
  cases found with
  | none => exact keeps_pure none
  | some mp => exact keeps_mem_read_mp

theorem mpconfig_of_accepted {fw : Firmware} (h : accepted fw = some (mp, conf)) :
    ∃ fw', mpconfig fw = .ret (some (mp, conf)) fw' ∧ fw'.mem = fw.mem := by
  have hkeeps := keeps_mem_mpconfig fw
  unfold accepted at h
  cases hrun : mpconfig fw with
  | ret found fw' =>
      rw [hrun] at h
      rw [wp_of_ret hrun] at hkeeps
      exact ⟨fw', h ▸ rfl, hkeeps⟩
  | exit e fw' =>
      rw [hrun] at h
      cases h

/-- `mp_init` with a table, in the state in which it is called. -/
theorem read_conf_safe_iff (hs : Walking m s) (hncpu : s.ncpu = 0) (hboot : HasBoot s)
    (hexamined : s.examined = []) : Safe m conf (readConf mp conf s) ↔ WellFormed m conf := by
  obtain ⟨t, heq, hfw, hcpus, hncpu', hbootcpu, hheader⟩ := read_conf_eq mp conf s
  have ht : Walking m t := by
    refine ⟨hfw ▸ hs.mem, hcpus ▸ hs.cpus, hncpu' ▸ hs.ncpu, ?_⟩
    rw [hbootcpu, hncpu']
    exact hs.bootcpu
  have hboot' : HasBoot t := by
    unfold HasBoot
    rw [hbootcpu]
    exact hboot
  have hstart : AllWithin m conf t ↔ 40 ≤ tableLength m conf := by
    rw [← header_within_iff]
    unfold AllWithin
    rw [hheader, hexamined, List.nil_append]
  have hcount : entryCount m conf < 2 ^ 16 := BitVec.isLt _
  have hwalk : wp (entries (entryCount m conf) (addr conf 44))
      (fun _ u => Walked m conf (offsets m conf) t u) (fun _ _ => False) t :=
    wp_entries ht (by omega)
  obtain ⟨_, u, hret, hwalked⟩ := ret_of_wp hwalk
  rw [heq, hs.mem, bind_of_ret hret, finish_safe_iff hwalked.walking, hwalked.boot,
    hwalked.examined, hstart, hncpu', hncpu, Nat.sub_zero]
  constructor
  · intro h
    exact ⟨h.2.1, h.2.2.1, h.2.2.2, h.1.2⟩
  · intro h
    exact ⟨⟨hboot', h.boot⟩, h.header, h.types, h.flags⟩

/-- `mp_init` with a table that `mpconfig` accepts. -/
theorem mp_init_eq {fw : Firmware} (imcr : Byte) (h : accepted fw = some (mp, conf)) :
    ∃ s, mpInit (bootState fw imcr) = readConf mp conf s ∧ Walking fw.mem s ∧ s.ncpu = 0 ∧
      HasBoot s ∧ s.examined = [] := by
  obtain ⟨fw', hret, hmem⟩ := mpconfig_of_accepted h
  have hzoom : zoom State.fw (fun fw s => { s with fw := fw }) mpconfig
      { bootState fw imcr with bootcpu := some 0 } =
      .ret (some (mp, conf)) { bootState fw' imcr with bootcpu := some 0 } := by
    have hrun : mpconfig { bootState fw imcr with bootcpu := some 0 }.fw = _ := hret
    rw [zoom, hrun]
    rfl
  have hpos : 0 < ncpuMax := Nat.succ_pos 7
  refine ⟨{ bootState fw' imcr with bootcpu := some 0 }, ?_, ?_, rfl, ⟨0, hpos, rfl⟩, rfl⟩
  · unfold mpInit
    rw [modify_bind, bind_of_ret hzoom]
  · exact ⟨hmem, List.length_replicate, Nat.zero_le _, 0, rfl, .inl hpos⟩

/-- For every memory with a table that `mpconfig` accepts, `mp_init` is safe exactly when the table
is well formed. -/
theorem mp_init_safe_iff (fw : Firmware) (imcr : Byte) (mp conf : Word)
    (h : accepted fw = some (mp, conf)) :
    Safe fw.mem conf (mpInit (bootState fw imcr)) ↔ WellFormed fw.mem conf := by
  obtain ⟨s, heq, hs, hncpu, hboot, hexamined⟩ := mp_init_eq imcr h
  rw [heq]
  exact read_conf_safe_iff hs hncpu hboot hexamined

/-! ## Tables of three machines -/

/-- The floating pointer structure of a table at the physical address 0x20010. -/
def floatingPointer : List Byte :=
  [0x5F, 0x4D, 0x50, 0x5F, 0x10, 0x00, 0x02, 0x00, 1, 4, 0x8E, 0, 0, 0, 0, 0]

/-- A table with a declared length, a checksum and a count of its entries. -/
def tableOf (length check count : Byte) (entries : List (List Byte)) : List Byte :=
  [0x50, 0x43, 0x4D, 0x50, length, 0, 4, check] ++ List.replicate 26 0 ++ [count, 0] ++
    [0x00, 0x00, 0xE0, 0xFE, 0, 0, 0, 0] ++ entries.flatten

/-- The entry of a processor. -/
def processorEntry (flags : Byte) : List Byte := [0, 0, 0x14, flags] ++ List.replicate 16 0

/-- The memory of a machine whose extended BIOS data area has the segment 0x2000. -/
def machine (table : List Byte) : Firmware where
  mem a :=
    let pa := (a - kernbase).toNat
    if pa = 0x40F then 0x20
    else if 0x20000 ≤ pa then ((floatingPointer ++ table)[pa - 0x20000]?).getD 0
    else 0
  npages := 0x10000
  console := []

/-- A processor that the machine has started with, and a bus. -/
def small : List Byte := tableOf 72 0xAF 2 [processorEntry 3, [1, 0, 0x49, 0x53, 0x41, 0, 0, 0]]

/-- Nine processors, the last of which is the one that the machine has started with. -/
def nine : List Byte :=
  tableOf 224 0x46 9 (List.replicate 8 (processorEntry 1) ++ [processorEntry 3])

/-- A table that ends behind its header, with a count of one. -/
def headerOnly : List Byte := tableOf 44 0xC1 1 []

theorem mp_init_safe_small : Safe (machine small).mem 0xF0020010
    (mpInit (bootState (machine small) 0)) :=
  (mp_init_safe_iff (machine small) 0 0xF0020000 0xF0020010 (by decide +kernel)).2
    ⟨by decide +kernel, by decide +kernel, by decide +kernel, by decide +kernel⟩

/-- `mp_init` writes behind the array `cpus` for the ninth processor, and reads behind a table that
has no room for the entry that it counts. -/
theorem mp_init_unsafe :
    (accepted (machine nine) = some (0xF0020000, 0xF0020010) ∧
      ¬ Safe (machine nine).mem 0xF0020010 (mpInit (bootState (machine nine) 0))) ∧
    (accepted (machine headerOnly) = some (0xF0020000, 0xF0020010) ∧
      ¬ Safe (machine headerOnly).mem 0xF0020010 (mpInit (bootState (machine headerOnly) 0))) := by
  have haccepted : accepted (machine headerOnly) = some (0xF0020000, 0xF0020010) := by
    decide +kernel
  refine ⟨⟨by decide +kernel, by decide +kernel⟩, haccepted, fun hsafe => ?_⟩
  obtain ⟨s, heq, hs, hncpu, hboot, hexamined⟩ := mp_init_eq 0 haccepted
  rw [heq, read_conf_safe_iff hs hncpu hboot hexamined] at hsafe
  -- the only entry starts where the table ends
  have hentry : 44 ∈ offsets (machine headerOnly).mem 0xF0020010 := by decide +kernel
  have hlength : tableLength (machine headerOnly).mem 0xF0020010 = 44 := by decide +kernel
  have hlt := hsafe.types 44 hentry
  rw [hlength] at hlt
  exact Nat.lt_irrefl 44 hlt

end Labs.Jos.Mpconfig
