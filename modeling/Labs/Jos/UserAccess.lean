import Labs.Jos.TrapRefines
import Labs.Jos.UserRead

/-!
# The buffers of system calls

Five system calls take a pointer to user memory. What they check and what they then touch is
compared here for the four besides `sys_exec`: the accesses that a call comes to are listed by
`Attempts`, and a call is safe if each of them is to a page that the caller may access in the same
way, and the caller survives with every buffer it may access in full. The formatter behind
`sys_cputs` looks at the byte behind the buffer, `sys_net_recv` checks for reading what it then
writes, and no call accepts an empty buffer.
-/

namespace Labs.Jos

open Prog

variable {s s' t : Kernel} {k : CpuId} {c : EnvIx} {dir : Nat} {buf str size len va : Word}

/-! ## Rights of the caller -/

/-- The caller `c` may load the byte at address `a`, or store there. A store needs the writable bit
at both levels. -/
def Kernel.grants (s : Kernel) (c : EnvIx) (store : Bool) (a : Nat) : Prop :=
  s.accessible c pteU a ∧ (store = true → ∃ pde pte, s.mapping c (a / 4096) = some (pde, pte) ∧
    hasFlag pde pteW = true ∧ hasFlag pte pteW = true)

/-- The caller may access all bytes of the buffer. -/
def Legal (s : Kernel) (c : EnvIx) (store : Bool) (va len : Word) : Prop :=
  ∀ a, InRange va len a → s.grants c store a

/-- CPU `k` runs a system call of `c`: `c` is its current environment, and its directory is loaded.
Pages that user code may write are not part of the page tables. -/
structure Entered (s : Kernel) (k : CpuId) (c : EnvIx) (dir : Nat) : Prop
    extends DirOk s c dir where
  cur : (s.cpus k).cpuEnv = some c
  cr3 : (s.cpus k).cr3 = dir
  apart : ∀ n pde pte, s.allows c pteU n = true → s.mapping c n = some (pde, pte) →
    hasFlag pde pteW = true → hasFlag pte pteW = true →
      pgnum pte ≠ dir ∧
        ∀ d < 1024, hasFlag (s.mem dir d) pteP = true → pgnum pte ≠ pgnum (s.mem dir d)

/-- The pages of the page tables do not hold data. -/
theorem Rep.pde_not_data {v : Scope} {m : Space} (h : Rep v m s.mm)
    (hdir : (s.envs c).envPgdir = some dir) {d : Nat} (hd : d < 1024)
    (hpresent : hasFlag (s.mem dir d) pteP = true) : m.role (pgnum (s.mem dir d)) ≠ .data := by
  have hrole : m.role dir = .dir c := (h.tables.dir c dir).1 hdir
  by_cases hlow : d < 955
  · have htable := (h.tables.pde c dir d _ hrole hlow).2 ⟨hpresent, rfl⟩
    exact htable ▸ fun heq => (by cases heq)
  · have hhigh := h.tables.high c dir d hrole (by omega) hd
    by_cases hself : d = 957
    · have hsmall := h.page_lt (p := dir) (by rw [hrole]; exact fun heq => (by cases heq))
      rw [if_pos hself] at hhigh
      rw [show s.mem dir d = _ from hhigh, pgnum_or_of_lt (by decide), pgnum_or_of_lt (by decide),
        pgnum_page2pa hsmall, hrole]
      exact fun heq => (by cases heq)
    · rw [if_neg hself] at hhigh
      have hkern := (h.tables.ktable d (pgnum (s.mem dir d))).2 ⟨by omega, hd, hself,
        by rw [← hhigh]; exact hpresent, congrArg pgnum hhigh.symm⟩
      exact hkern ▸ fun heq => (by cases heq)

/-- In a state that represents an abstract memory user code cannot write to page tables. -/
theorem Rep.entered {v : Scope} {m : Space} (h : Rep v m s.mm)
    (hdir : (s.envs c).envPgdir = some dir) (hcur : (s.cpus k).cpuEnv = some c)
    (hcr3 : (s.cpus k).cr3 = dir) : Entered s k c dir := by
  have hrole : m.role dir = .dir c := (h.tables.dir c dir).1 hdir
  refine ⟨h.dir_ok hdir, hcur, hcr3, fun n pde pte hallows hmap hw hw' => ?_⟩
  rw [Kernel.allows, hmap, Bool.and_eq_true, decide_eq_true_eq, pgnum_eq, ulim_to_nat,
    Bool.and_eq_true, beq_iff_eq] at hallows
  obtain ⟨hlow, hpte, huser⟩ := hallows
  have hu : hasFlag pte pteU = true := has_flag_of_and huser (by decide)
  rw [Kernel.mapping, hdir] at hmap
  dsimp only at hmap
  split at hmap
  case isFalse => cases hmap
  case isTrue hpde =>
    cases hmap
    have hdata : m.role (pgnum (s.mem (pgnum (s.mem dir (n / 1024))) (n % 1024))) = .data := by
      by_cases huserPart : n / 1024 < 955
      · have htable := (h.tables.pde c dir (n / 1024) _ hrole huserPart).2 ⟨hpde, rfl⟩
        have hentry := h.tables.pte c _ _ (n % 1024) htable (Nat.mod_lt _ (by decide))
        exact (h.ok.entry _ _ _ (hentry.trans (if_pos hpte))).2.2.2
      · -- no entry of the upper part gives user code the right to write
        have hhigh := h.tables.high c dir (n / 1024) hrole (by omega) (by omega)
        by_cases hself : n / 1024 = 957
        · rw [if_pos hself] at hhigh
          rw [show s.mem dir (n / 1024) = _ from hhigh, has_flag_or, has_flag_or, has_flag_w,
            get_lsb_page2pa _ (by decide)] at hw
          exact absurd hw (by decide)
        · rw [if_neg hself] at hhigh
          have hkern := (h.tables.ktable (n / 1024) (pgnum (s.mem dir (n / 1024)))).2
            ⟨by omega, by omega, hself, by rw [← hhigh]; exact hpde, congrArg pgnum hhigh.symm⟩
          have hword := h.tables.kpte _ _ (n % 1024) hkern (Nat.mod_lt _ (by decide))
          have hflags := (h.tables.kflags _ _ (n % 1024) hkern (Nat.mod_lt _ (by decide))).1
          rw [← hword] at hflags
          rcases hflags with hno | hno
          · exact absurd (hno.symm.trans hw') (by decide)
          · exact absurd (hno.symm.trans hu) (by decide)
    refine ⟨fun heq => ?_, fun d hd hpresent heq => ?_⟩
    · rw [heq, hrole] at hdata
      cases hdata
    · rw [heq] at hdata
      exact h.pde_not_data hdir hd hpresent hdata

/-! ## What the calls touch -/

/-- The state of the string loop of `vprintfmt` that has started at `p` in `s`: it is about to load
the byte at the given address, with the given precision left. -/
inductive AtChar (k : CpuId) (p : Word) (precision : Int) (s : Kernel) :
    Word → Int → Kernel → Prop where
  | first : AtChar k p precision s p precision s
  | next {q : Word} {left : Int} {t t' : Kernel} {ch : Byte} (hat : AtChar k p precision s q left t)
      (hload : loadByte k q t = .ret ch t') (hne : ch ≠ 0) (hmore : left < 0 ∨ 0 ≤ left - 1) :
      AtChar k p precision s (q + 1) (if left < 0 then left else left - 1)
        { t' with consOut := t'.consOut ++ [ch] }

/-- The packet that `e1000_receive` would store. -/
def Kernel.packet (s : Kernel) : List Byte :=
  let next := (s.e1000.rdt.toNat + 1) % nrxdesc
  (List.range (s.e1000.rxQueue next).length.toNat).map (s.e1000.rxBuf next)

/-- `e1000_receive` has a packet, and the buffer is large enough for it. -/
def Kernel.receives (s : Kernel) (size : Word) : Prop :=
  let desc := s.e1000.rxQueue ((s.e1000.rdt.toNat + 1) % nrxdesc)
  desc.status &&& rxdStatDd ≠ 0 ∧ ¬ size.toInt < desc.length.toNat

/-- `e1000_transmit` takes the packet. -/
def Kernel.transmits (s : Kernel) (size : Word) : Prop :=
  let desc := s.e1000.txQueue s.e1000.tdt.toNat
  ¬ ethPktSize < size ∧ ¬ (desc.cmd &&& txdCmdRs ≠ 0 ∧ desc.status &&& txdStatDd = 0)

/-- The descriptor at the tail is claimed for a packet. -/
def Kernel.txClaimed (s : Kernel) : Kernel :=
  { s with e1000 := s.e1000.setTx s.e1000.tdt.toNat fun d =>
      { d with status := d.status &&& ~~~txdStatDd } }

/-- The call of `c` on CPU `k` from `s` comes to load, or to store, the byte at an address. -/
inductive Attempts (k : CpuId) (c : EnvIx) (s : Kernel) : Call → Bool → Word → Kernel → Prop where
  | cputs {str len p : Word} {left : Int} {t₀ t : Kernel}
      (hcheck : userMemAssert k c str len pteU s = .ret () t₀) (hne : str ≠ 0)
      (hat : AtChar k str len.toInt t₀ p left t) : Attempts k c s (.cputs str len) false p t
  | trapframe {envid tf : Word} {e : EnvIx} {i : Nat} {bytes : List Byte} {t₀ t : Kernel}
      (he : envid2env s k envid true = some e)
      (hcheck : userMemAssert k c tf 68 pteU s = .ret () t₀) (hi : i < 68)
      (hload : loadBytes k i tf t₀ = .ret bytes t) :
      Attempts k c s (.envSetTrapframe envid tf) false (tf + BitVec.ofNat 32 i) t
  | netSend {buf size : Word} {i : Nat} {bytes : List Byte} {t₀ t : Kernel}
      (hcheck : userMemAssert k c buf size pteU s = .ret () t₀) (htake : t₀.transmits size)
      (hi : i < size.toNat) (hload : loadBytes k i buf t₀.txClaimed = .ret bytes t) :
      Attempts k c s (.netSend buf size) false (buf + BitVec.ofNat 32 i) t
  | netRecv {buf size : Word} {i : Nat} {t₀ t : Kernel}
      (hcheck : userMemAssert k c buf size pteU s = .ret () t₀) (htake : t₀.receives size)
      (hi : i < t₀.packet.length) (hstore : storeBytes k (t₀.packet.take i) buf t₀ = .ret () t) :
      Attempts k c s (.netRecv buf size) true (buf + BitVec.ofNat 32 i) t

/-- The buffer of a call: whether it is written, its address and its size. -/
def Call.buffer : Call → Option (Bool × Word × Word)
  | .cputs str len => some (false, str, len)
  | .envSetTrapframe _ tf => some (false, tf, 68)
  | .netSend buf size => some (false, buf, size)
  | .netRecv buf size => some (true, buf, size)
  | _ => none

/-- The call accesses user memory only as its caller may, so that none of its accesses faults, and
it returns to a caller that may access the whole buffer. -/
structure CallSafe (k : CpuId) (c : EnvIx) (s : Kernel) (call : Call) : Prop where
  granted : ∀ store va t, Attempts k c s call store va t → t.grants c store va.toNat
  noFault : ∀ store va t, Attempts k c s call store va t →
    ∃ x, walk t.mem (t.cpus k).cr3 (pgnum va) = some x ∧ (store = true → x.writable = true)
  survives : ∀ store va len, call.buffer = some (store, va, len) → Legal s c store va len →
    ∃ r s', syscall k c call s = .ret r s'

/-- The first `i` bytes of the string at `str` are characters that the caller may load. -/
def CharsAt (s : Kernel) (c : EnvIx) (str : Word) (i : Nat) : Prop :=
  ∀ j < i, ∃ b, b ≠ 0 ∧ s.userRead c (str + BitVec.ofNat 32 j) = some b

/-- The caller may load every byte of the string up to the first null byte, or up to the byte behind
the buffer if that comes first. A length from `2 ^ 31` on is no limit. -/
def PutsEnds (s : Kernel) (c : EnvIx) (str len : Word) : Prop :=
  ∀ i, CharsAt s c str i → (len.toInt < 0 ∨ i ≤ len.toNat) →
    s.grants c false (str + BitVec.ofNat 32 i).toNat

/-- The condition on the buffer of a call. -/
def BufferOk (s : Kernel) (c : EnvIx) : Call → Prop
  | .cputs str len => len ≠ 0 ∧ (Legal s c false str len → str ≠ 0 → PutsEnds s c str len)
  | .netSend _ size => size ≠ 0
  | .netRecv buf size => size ≠ 0 ∧ (Legal s c false buf size → s.receives size →
      ∀ i < s.packet.length, s.grants c true (buf + BitVec.ofNat 32 i).toNat)
  | _ => True

/-! ## The check -/

/-- The check of a buffer passes without a change if it is not empty and the caller may load it, and
otherwise the call does not return. -/
theorem user_mem_assert_cases (h : Entered s k c dir) (va len : Word) :
    userMemAssert k c va len pteU s = .ret () s ∧ len ≠ 0 ∧ Legal s c false va len ∨
      (∃ e s', userMemAssert k c va len pteU s = .exit e s') ∧
        (len = 0 ∨ ¬ Legal s c false va len) := by
  have hperm : hasFlag (pteU ||| pteU) pteU = true := by decide
  have hsame : pteU ||| pteU = pteU := BitVec.or_self
  rcases user_mem_check_spec va len h.toDirOk hperm with ⟨hcall, hne, hall⟩ | ⟨hcall, hbad⟩
  · refine .inl ⟨?_, hne, fun a ha => ⟨hsame ▸ hall a ha, fun hstore => (by cases hstore)⟩⟩
    rw [userMemAssert, bind_of_ret hcall]
    rfl
  · refine .inr ⟨?_, ?_⟩
    · have hcur : ({ s with userMemCheckAddr := va } : Kernel).ctl.cpuEnv k = some c := h.cur
      have hdestroy := acts_env_destroy (g := .none) (.inl hcur)
      obtain ⟨e, s', hexit, -⟩ := exit_of_wp (wp_mono_ret hdestroy fun _ _ hne => hne.1 hcur)
      refine ⟨e, s', ?_⟩
      rw [userMemAssert, bind_of_ret hcall, if_pos (by decide)]
      exact hexit
    · rcases hbad with hzero | ⟨a, hin, hnot⟩
      · exact .inl hzero
      · refine .inr fun hlegal => hnot ?_
        rw [hsame]
        exact (hlegal a hin).1

/-! ## Loads -/

theorem Seen.grants (h : Seen s t) (c : EnvIx) (store : Bool) (a : Nat) :
    t.grants c store a ↔ s.grants c store a := by
  unfold Kernel.grants Kernel.accessible
  rw [h.allows, h.mapping]

/-- A byte that may be loaded is there. -/
theorem user_read_of_granted (h : s.grants c false va.toNat) : ∃ b, s.userRead c va = some b := by
  have hallows := accessible_iff.mp h.1
  rw [← pgnum_eq] at hallows
  unfold Kernel.userRead
  rw [if_pos hallows]
  cases hmap : s.mapping c (pgnum va) with
  | none =>
      rw [Kernel.allows, hmap, Bool.and_false] at hallows
      cases hallows
  | some m => exact ⟨_, rfl⟩

/-- The walk of the CPU gives the caller's rights. -/
theorem walk_of_granted {store : Bool} (hdir : (s.envs c).envPgdir = some dir)
    (h : s.grants c store va.toNat) :
    ∃ x, walk s.mem dir (pgnum va) = some x ∧ (store = true → x.writable = true) := by
  have hallows := accessible_iff.mp h.1
  have hwrite := h.2
  rw [← pgnum_eq] at hallows hwrite
  rw [Kernel.allows, Bool.and_eq_true] at hallows
  cases hmap : s.mapping c (pgnum va) with
  | none =>
      rw [hmap] at hallows
      cases hallows.2
  | some m =>
      obtain ⟨pde, pte⟩ := m
      rw [hmap] at hallows hwrite
      have hpte : hasFlag pte pteP = true := ((Bool.and_eq_true _ _).mp hallows.2).1
      refine ⟨_, walk_of_mapping hdir hmap hpte, fun hstore => ?_⟩
      obtain ⟨pde', pte', heq, hw, hw'⟩ := hwrite hstore
      cases heq
      exact Bool.and_eq_true_iff.mpr ⟨hw, hw'⟩

/-- The bytes of a buffer one by one. -/
theorem Legal.byte {store : Bool} (h : Legal s c store va len) {i : Nat} (hi : i < len.toNat) :
    s.grants c store (va + BitVec.ofNat 32 i).toNat := by
  have hgrants := h (va.toNat + i) ⟨Nat.le_add_right _ _, Nat.add_lt_add_left hi _⟩
  have hlow := hgrants.1.1
  rw [ulim_to_nat] at hlow
  rwa [BitVec.toNat_add, BitVec.toNat_ofNat, show (va.toNat + i % 2 ^ 32) % 2 ^ 32 = va.toNat + i by
    omega]

/-- The bytes that the caller may load. -/
theorem bytes_of_granted {n : Nat}
    (h : ∀ i < n, s.grants c false (va + BitVec.ofNat 32 i).toNat) :
    ∃ bytes, bytes.length = n ∧ BytesAt s c va bytes := by
  refine ⟨(List.range n).map fun i => (s.userRead c (va + BitVec.ofNat 32 i)).getD 0, ?_, ?_⟩
  · rw [List.length_map, List.length_range]
  · intro i hi
    rw [List.length_map, List.length_range] at hi
    obtain ⟨b, hb⟩ := user_read_of_granted (h i hi)
    rw [List.getD_eq_getElem _ _ (by simpa using hi), List.getElem_map, List.getElem_range, hb]
    rfl

/-- Loads of bytes that the caller may load return. -/
theorem load_bytes_granted {n : Nat} (hdir : (t.envs c).envPgdir = some dir)
    (hcr3 : (t.cpus k).cr3 = dir) (h : ∀ i < n, t.grants c false (va + BitVec.ofNat 32 i).toNat) :
    ∃ bytes t', loadBytes k n va t = .ret bytes t' ∧ Seen t t' ∧ (t'.cpus k).cr3 = dir := by
  obtain ⟨bytes, rfl, hbytes⟩ := bytes_of_granted h
  obtain ⟨t', hload, hseen, hcr3'⟩ := load_bytes_user hdir hcr3 hbytes
  exact ⟨bytes, t', hload, hseen, hcr3'⟩

/-! ## The formatter -/

/-- The precision that is left after `i` characters. -/
def leftAfter (precision : Int) (i : Nat) : Int :=
  if precision < 0 then precision else precision - i

/-- The precision that the loop goes on with. -/
theorem left_after_succ {precision : Int} {i : Nat}
    (hleft : precision < 0 ∨ 0 ≤ leftAfter precision i)
    (hmore : leftAfter precision i < 0 ∨ 0 ≤ leftAfter precision i - 1) :
    (if leftAfter precision i < 0 then leftAfter precision i else leftAfter precision i - 1) =
      leftAfter precision (i + 1) ∧ (precision < 0 ∨ 0 ≤ leftAfter precision (i + 1)) := by
  unfold leftAfter at hleft hmore ⊢
  by_cases hneg : precision < 0
  · simp only [if_pos hneg, true_and]
    exact .inl hneg
  · simp only [if_neg hneg] at hleft hmore ⊢
    have hpos : ¬ precision - i < 0 := by omega
    rw [if_neg hpos]
    omega

/-- Another character. -/
theorem CharsAt.succ {i : Nat} {b : Byte} (h : CharsAt s c str i) (hne : b ≠ 0)
    (hb : s.userRead c (str + BitVec.ofNat 32 i) = some b) : CharsAt s c str (i + 1) := by
  intro j hj
  by_cases hji : j = i
  · subst hji
    exact ⟨b, hne, hb⟩
  · exact h j (by omega)

theorem next_address (str : Word) (i : Nat) :
    str + BitVec.ofNat 32 i + 1 = str + BitVec.ofNat 32 (i + 1) := by
  rw [BitVec.add_assoc, BitVec.ofNat_add]
  rfl

/-- The limit of the loop after `i` characters. -/
theorem limit_of_left {i : Nat} (h : len.toInt < 0 ∨ 0 ≤ leftAfter len.toInt i) :
    len.toInt < 0 ∨ i ≤ len.toNat := by
  by_cases hneg : len.toInt < 0
  · exact .inl hneg
  · refine .inr ?_
    have hle := h.resolve_left hneg
    rw [leftAfter, if_neg hneg] at hle
    have heq : len.toInt = len.toNat ∨ len.toInt < 0 := by
      rw [BitVec.toInt_eq_toNat_cond]
      split <;> omega
    omega

/-- There is precision left for a character within the limit. -/
theorem left_of_limit {i : Nat} (hlimit : len.toInt < 0 ∨ i + 1 ≤ len.toNat) :
    (len.toInt < 0 ∨ 0 ≤ leftAfter len.toInt i) ∧
      (leftAfter len.toInt i < 0 ∨ 0 ≤ leftAfter len.toInt i - 1) := by
  unfold leftAfter
  by_cases hneg : len.toInt < 0
  · rw [if_pos hneg]
    exact ⟨.inl hneg, .inl hneg⟩
  · have hle := hlimit.resolve_left hneg
    have heq : len.toInt = len.toNat ∨ len.toInt < 0 := by
      rw [BitVec.toInt_eq_toNat_cond]
      split <;> omega
    rw [if_neg hneg]
    omega

/-- What the loop has loaded when it comes to a byte: characters that the caller may load. -/
theorem AtChar.reached {q : Word} {left : Int} (hdir : (s.envs c).envPgdir = some dir)
    (hcr3 : (s.cpus k).cr3 = dir) (hends : PutsEnds s c str len)
    (h : AtChar k str len.toInt s q left t) :
    ∃ i, q = str + BitVec.ofNat 32 i ∧ left = leftAfter len.toInt i ∧ CharsAt s c str i ∧
      (len.toInt < 0 ∨ 0 ≤ leftAfter len.toInt i) ∧ Seen s t ∧ (t.cpus k).cr3 = dir := by
  induction h with
  | first =>
      refine ⟨0, (BitVec.add_zero _).symm, ?_, fun j hj => (by cases hj), ?_, Seen.refl s, hcr3⟩
      · unfold leftAfter
        split <;> simp
      · unfold leftAfter
        split <;> omega
  | @next q left t t' ch hat hload hne hmore ih =>
      obtain ⟨i, rfl, rfl, hchars, hleft, hseen, hcr3'⟩ := ih
      obtain ⟨b, hb⟩ := user_read_of_granted (hends i hchars (limit_of_left hleft))
      rw [← hseen.user_read] at hb
      have hdir' : (t.envs c).envPgdir = some dir := by
        rw [hseen.envs]
        exact hdir
      obtain ⟨t₂, hload', hseen₂, hcr3₂⟩ := load_byte_user hdir' hcr3' hb
      rw [hload] at hload'
      cases hload'
      rw [hseen.user_read] at hb
      obtain ⟨heq, hleft'⟩ := left_after_succ hleft hmore
      exact ⟨i + 1, next_address str i, heq, hchars.succ hne hb, hleft',
        hseen.trans ⟨hseen₂.mem, hseen₂.envs, hseen₂.npages⟩, hcr3₂⟩

/-- The loop comes to every byte behind characters within the limit. -/
theorem at_char_of_chars {i : Nat} (hdir : (s.envs c).envPgdir = some dir)
    (hcr3 : (s.cpus k).cr3 = dir) (hchars : CharsAt s c str i)
    (hlimit : len.toInt < 0 ∨ i ≤ len.toNat) :
    ∃ t, AtChar k str len.toInt s (str + BitVec.ofNat 32 i) (leftAfter len.toInt i) t ∧
      Seen s t ∧ (t.cpus k).cr3 = dir := by
  induction i with
  | zero =>
      have hleft : leftAfter len.toInt 0 = len.toInt := by
        unfold leftAfter
        split <;> simp
      rw [BitVec.add_zero, hleft]
      exact ⟨s, .first, Seen.refl s, hcr3⟩
  | succ i ih =>
      obtain ⟨t, hat, hseen, hcr3'⟩ := ih (fun j hj => hchars j (by omega)) (by omega)
      obtain ⟨b, hne, hb⟩ := hchars i (Nat.lt_succ_self i)
      rw [← hseen.user_read] at hb
      have hdir' : (t.envs c).envPgdir = some dir := by
        rw [hseen.envs]
        exact hdir
      obtain ⟨t', hload, hseen', hcr3''⟩ := load_byte_user hdir' hcr3' hb
      obtain ⟨hleft, hmore⟩ := left_of_limit hlimit
      refine ⟨{ t' with consOut := t'.consOut ++ [b] }, ?_,
        hseen.trans ⟨hseen'.mem, hseen'.envs, hseen'.npages⟩, hcr3''⟩
      have hnext := hat.next hload hne hmore
      rwa [(left_after_succ hleft hmore).1, next_address] at hnext

/-- Characters that the caller may load end below `ULIM`. -/
theorem chars_lt {i : Nat} (hchars : CharsAt s c str i)
    (hnext : s.grants c false (str + BitVec.ofNat 32 i).toNat) : i < 4018143232 := by
  have hread : ∀ j ≤ i, (str + BitVec.ofNat 32 j).toNat < 4018143232 := by
    intro j hj
    by_cases hji : j = i
    · rw [hji, ← ulim_to_nat]
      exact hnext.1.1
    · obtain ⟨b, -, hb⟩ := hchars j (by omega)
      exact user_read_lt hb
  have hfirst := hread 0 (Nat.zero_le i)
  rw [BitVec.add_zero] at hfirst
  by_contra hlong
  -- the byte at `ULIM` would be one of them
  have hlast := hread (4018143232 - str.toNat) (by omega)
  rw [BitVec.toNat_add, BitVec.toNat_ofNat] at hlast
  omega

/-- The loop comes to an end. -/
theorem puts_loop_returns (hends : PutsEnds s c str len) (fuel i : Nat) {t : Kernel}
    (hseen : Seen s t) (hdir : (t.envs c).envPgdir = some dir) (hcr3 : (t.cpus k).cr3 = dir)
    (hchars : CharsAt s c str i) (hleft : len.toInt < 0 ∨ 0 ≤ leftAfter len.toInt i)
    (hfuel : i + fuel = 2 ^ 32) :
    ∃ t', putsLoop k fuel (str + BitVec.ofNat 32 i) (leftAfter len.toInt i) t = .ret () t' := by
  have hgrants := hends i hchars (limit_of_left hleft)
  induction fuel generalizing i t with
  | zero =>
      have hsmall := chars_lt hchars hgrants
      omega
  | succ fuel ih =>
      obtain ⟨b, hb⟩ := user_read_of_granted hgrants
      have hb' := hb
      rw [← hseen.user_read] at hb'
      obtain ⟨t₁, hload, hseen₁, hcr3₁⟩ := load_byte_user hdir hcr3 hb'
      rw [putsLoop, bind_of_ret hload]
      by_cases hmore : b ≠ 0 ∧ (leftAfter len.toInt i < 0 ∨ 0 ≤ leftAfter len.toInt i - 1)
      · obtain ⟨heq, hleft'⟩ := left_after_succ hleft hmore.2
        have hchars' := hchars.succ hmore.1 hb
        have hseen' : Seen s { t₁ with consOut := t₁.consOut ++ [b] } :=
          hseen.trans ⟨hseen₁.mem, hseen₁.envs, hseen₁.npages⟩
        have hdir' : (t₁.envs c).envPgdir = some dir := by
          rw [hseen₁.envs]
          exact hdir
        rw [if_pos hmore, heq, next_address]
        exact ih (i + 1) hseen' hdir' hcr3₁ hchars' hleft' (by omega)
          (hends (i + 1) hchars' (limit_of_left hleft'))
      · rw [if_neg hmore]
        exact ⟨t₁, rfl⟩

/-! ## Stores -/

/-- A store where the caller may store returns, and changes neither its page tables nor its
rights. -/
theorem store_byte_granted (h : Entered s k c dir) (hgrant : s.grants c true va.toNat) (b : Byte) :
    ∃ t, storeByte k va b s = .ret () t ∧ Entered t k c dir ∧
      ∀ store a, t.grants c store a ↔ s.grants c store a := by
  have hallows := accessible_iff.mp hgrant.1
  obtain ⟨pde, pte, hmap, hpde, hpte⟩ := hgrant.2 rfl
  rw [← pgnum_eq] at hallows hmap
  have hpresent : hasFlag pte pteP = true := by
    rw [Kernel.allows, hmap, Bool.and_eq_true] at hallows
    exact ((Bool.and_eq_true _ _).mp hallows.2).1
  obtain ⟨hdir, htables⟩ := h.apart _ pde pte hallows hmap hpde hpte
  have hwalk := walk_of_mapping h.pgdir hmap hpresent
  rw [hpde, hpte] at hwalk
  generalize hlog : ({ s with accesses := ⟨true, va⟩ :: s.accesses } : Kernel) = s₁
  have hmem₁ : s₁.mem = s.mem := by rw [← hlog]
  refine ⟨s₁.setPhysByte (pgnum pte) (pgoff va) b, ?_, ?_⟩
  · rw [storeByte, get_bind, h.cr3, hwalk, ← hlog]
    rfl
  · generalize ht : s₁.setPhysByte (pgnum pte) (pgoff va) b = t
    have hmem : ∀ p, p ≠ pgnum pte → t.mem p = s.mem p := by
      intro p hp
      rw [← ht, ← hmem₁]
      exact Function.update_of_ne hp _ _
    have henvs : t.envs = s.envs := by
      rw [← ht, ← hlog]
      rfl
    have hmaps : ∀ n, n < 1048576 → t.mapping c n = s.mapping c n := by
      intro n hn
      unfold Kernel.mapping
      rw [henvs, h.pgdir]
      dsimp only
      rw [hmem dir (Ne.symm hdir)]
      by_cases hd : hasFlag (s.mem dir (n / 1024)) pteP = true
      · rw [if_pos hd, if_pos hd, hmem _ (Ne.symm (htables (n / 1024) (by omega) hd))]
      · rw [if_neg hd, if_neg hd]
    have hallows : ∀ perm n, t.allows c perm n = s.allows c perm n := by
      intro perm n
      unfold Kernel.allows
      by_cases hn : n < 1048576
      · rw [hmaps n hn]
      · have hhigh : ¬ n < pgnum ulim := by
          rw [pgnum_eq, ulim_to_nat]
          omega
        rw [decide_eq_false hhigh, Bool.false_and, Bool.false_and]
    refine ⟨?_, fun store a => ?_⟩
    · have hcpu : (t.cpus k).cpuEnv = (s.cpus k).cpuEnv ∧ (t.cpus k).cr3 = (s.cpus k).cr3 := by
        rw [← ht, ← hlog]
        exact ⟨rfl, rfl⟩
      refine ⟨⟨by rw [henvs]; exact h.pgdir, fun d hd hp => ?_, fun n pde' pte' hlo hhi hm => ?_⟩,
        hcpu.1.trans h.cur, hcpu.2.trans h.cr3, fun n pde' pte' hall hm hw hw' => ?_⟩
      · rw [hmem dir (Ne.symm hdir)] at hp ⊢
        have hnp : t.npages = s.npages := by
          rw [← ht, ← hlog]
          rfl
        rw [hnp]
        exact h.tables d hd hp
      · rw [hmaps n hhi] at hm
        exact h.kernel n pde' pte' hlo hhi hm
      · have hlow : n < 1048576 := by
          rw [Kernel.allows, Bool.and_eq_true, decide_eq_true_eq, pgnum_eq, ulim_to_nat] at hall
          omega
        rw [hallows] at hall
        rw [hmaps n hlow] at hm
        rw [hmem dir (Ne.symm hdir)]
        exact h.apart n pde' pte' hall hm hw hw'
    · unfold Kernel.grants Kernel.accessible
      rw [hallows]
      by_cases ha : a / 4096 < 1048576
      · rw [hmaps _ ha]
      · have hhigh : ¬ a < ulim.toNat := by
          rw [ulim_to_nat]
          omega
        exact ⟨fun hx => absurd hx.1.1 hhigh, fun hx => absurd hx.1.1 hhigh⟩

/-- Several stores where the caller may store. -/
theorem store_bytes_granted (bytes : List Byte) (va : Word) (h : Entered s k c dir)
    (hgrants : ∀ i < bytes.length, s.grants c true (va + BitVec.ofNat 32 i).toNat) :
    ∃ t, storeBytes k bytes va s = .ret () t ∧ Entered t k c dir ∧
      ∀ store a, t.grants c store a ↔ s.grants c store a := by
  induction bytes generalizing s va with
  | nil => exact ⟨s, rfl, h, fun _ _ => Iff.rfl⟩
  | cons b rest ih =>
      have hfirst := hgrants 0 (Nat.zero_lt_succ _)
      rw [BitVec.add_zero] at hfirst
      obtain ⟨t, hstore, ht, hsame⟩ := store_byte_granted h hfirst b
      have hrest : ∀ i < rest.length, t.grants c true (va + 1 + BitVec.ofNat 32 i).toNat := by
        intro i hi
        have hnext := hgrants (i + 1) (Nat.succ_lt_succ hi)
        rw [hsame]
        rwa [BitVec.ofNat_add, BitVec.add_comm (BitVec.ofNat 32 i), ← BitVec.add_assoc] at hnext
      obtain ⟨u, hstores, hu, hsame'⟩ := ih _ ht hrest
      refine ⟨u, ?_, hu, fun store a => (hsame' store a).trans (hsame store a)⟩
      rw [storeBytes, bind_of_ret hstore]
      exact hstores

/-! ## The calls -/

/-- A check that passes. -/
theorem legal_of_check (h : Entered s k c dir)
    (hcheck : userMemAssert k c va len pteU s = .ret () t) :
    t = s ∧ len ≠ 0 ∧ Legal s c false va len := by
  rcases user_mem_assert_cases h va len with ⟨hret, hne, hlegal⟩ | ⟨⟨e, s', hexit⟩, -⟩
  · rw [hret] at hcheck
    cases hcheck
    exact ⟨rfl, hne, hlegal⟩
  · rw [hexit] at hcheck
    cases hcheck

/-- A buffer that may be loaded and is not empty passes the check. -/
theorem check_of_legal (h : Entered s k c dir) (hne : len ≠ 0) (hlegal : Legal s c false va len) :
    userMemAssert k c va len pteU s = .ret () s := by
  rcases user_mem_assert_cases h va len with ⟨hret, -⟩ | ⟨-, hbad⟩
  · exact hret
  · rcases hbad with hzero | hnot
    · exact absurd hzero hne
    · exact absurd hlegal hnot

/-- An empty buffer does not pass the check. -/
theorem check_empty (h : Entered s k c dir) (va : Word) :
    ∃ e s', userMemAssert k c va 0 pteU s = .exit e s' := by
  rcases user_mem_assert_cases h va 0 with ⟨-, hne, -⟩ | ⟨hexit, -⟩
  · exact absurd rfl hne
  · exact hexit

theorem legal_empty (store : Bool) (va : Word) : Legal s c store va 0 := by
  intro a hin
  obtain ⟨hlo, hhi⟩ := hin
  exact absurd hhi (Nat.not_lt_of_le hlo)

theorem Legal.load {store : Bool} (h : Legal s c store va len) : Legal s c false va len :=
  fun a hin => ⟨(h a hin).1, fun hstore => (by cases hstore)⟩

/-- Claiming a descriptor does not concern the memory. -/
theorem seen_tx_claimed (s : Kernel) : Seen s s.txClaimed := ⟨rfl, rfl, rfl⟩

/-- With a good buffer every access is granted, and the directory of the caller is loaded. -/
theorem Attempts.granted {call : Call} {store : Bool} (h : Entered s k c dir)
    (hok : BufferOk s c call) (hat : Attempts k c s call store va t) :
    t.grants c store va.toNat ∧ (t.envs c).envPgdir = some dir ∧ (t.cpus k).cr3 = dir := by
  have hloads : ∀ {u u' : Kernel} {i n : Nat} {a : Word} {bytes : List Byte}, Seen s u →
      (u.cpus k).cr3 = dir → (∀ j < n, s.grants c false (a + BitVec.ofNat 32 j).toNat) → i < n →
      loadBytes k i a u = .ret bytes u' → u'.grants c false (a + BitVec.ofNat 32 i).toNat ∧
        (u'.envs c).envPgdir = some dir ∧ (u'.cpus k).cr3 = dir := by
    intro u u' i n a bytes hseen hcr3 hall hi hload
    have hdir : (u.envs c).envPgdir = some dir := by
      rw [hseen.envs]
      exact h.pgdir
    obtain ⟨bytes', u₂, hload', hseen', hcr3'⟩ := load_bytes_granted hdir hcr3
      fun j hj => (hseen.grants c false _).2 (hall j (Nat.lt_trans hj hi))
    rw [hload] at hload'
    cases hload'
    refine ⟨((hseen.trans hseen').grants c false _).2 (hall i hi), ?_, hcr3'⟩
    rw [hseen'.envs]
    exact hdir
  cases hat with
  | cputs hcheck hne hchar =>
      obtain ⟨rfl, -, hlegal⟩ := legal_of_check h hcheck
      have hends := hok.2 hlegal hne
      obtain ⟨i, rfl, -, hchars, hleft, hseen, hcr3⟩ := hchar.reached h.pgdir h.cr3 hends
      refine ⟨(hseen.grants c false _).2 (hends i hchars (limit_of_left hleft)), ?_, hcr3⟩
      rw [hseen.envs]
      exact h.pgdir
  | trapframe _ hcheck hi hload =>
      obtain ⟨rfl, -, hlegal⟩ := legal_of_check h hcheck
      exact hloads (Seen.refl _) h.cr3 (fun j hj => hlegal.byte (show j < (68 : Word).toNat from hj)) hi
        hload
  | netSend hcheck _ hi hload =>
      obtain ⟨rfl, -, hlegal⟩ := legal_of_check h hcheck
      exact hloads (seen_tx_claimed _) h.cr3 (fun j hj => hlegal.byte hj) hi hload
  | netRecv hcheck htake hi hstore =>
      obtain ⟨rfl, -, hlegal⟩ := legal_of_check h hcheck
      have hall := hok.2 hlegal htake
      obtain ⟨u, hstores, hu, hsame⟩ := store_bytes_granted _ _ h
        fun j hj => hall j (Nat.lt_of_lt_of_le hj (List.length_take_le' _ _))
      rw [hstore] at hstores
      cases hstores
      exact ⟨(hsame true _).2 (hall _ hi), hu.pgdir, hu.cr3⟩

/-- A good buffer that may be accessed in full does not keep the call from returning. -/
theorem returns_of_legal {call : Call} {store : Bool} (h : Entered s k c dir)
    (hok : BufferOk s c call) (hbuf : call.buffer = some (store, va, len))
    (hlegal : Legal s c store va len) : ∃ r s', syscall k c call s = .ret r s' := by
  cases call with
  | cputs str n =>
      cases hbuf
      obtain ⟨hne, hends⟩ := hok
      have hprint : ∃ s', cprintfString k va len s = .ret () s' := by
        unfold cprintfString
        by_cases hzero : va = 0
        · rw [if_pos hzero]
          exact ⟨_, rfl⟩
        · rw [if_neg hzero]
          have hleft : leftAfter len.toInt 0 = len.toInt := by
            unfold leftAfter
            split <;> simp
          obtain ⟨t, hret⟩ := puts_loop_returns (hends hlegal hzero) (2 ^ 32) 0
            (Seen.refl s) h.pgdir h.cr3 (fun j hj => (by cases hj)) (by rw [hleft]; omega) rfl
          rw [BitVec.add_zero, hleft] at hret
          exact ⟨t, hret⟩
      obtain ⟨s', hret⟩ := hprint
      refine ⟨0, s', ?_⟩
      rw [syscall, sysCputs, bind_of_ret]
      · rfl
      · rw [bind_of_ret (check_of_legal h hne hlegal)]
        exact hret
  | envSetTrapframe envid tf =>
      cases hbuf
      rw [syscall, sysEnvSetTrapframe, get_bind]
      cases envid2env s k envid true with
      | none => exact ⟨_, s, rfl⟩
      | some e =>
          obtain ⟨bytes, t, hload, -⟩ := load_bytes_granted (n := 68) h.pgdir h.cr3
            fun i hi => hlegal.byte (show i < (68 : Word).toNat from hi)
          dsimp only
          rw [bind_of_ret (check_of_legal h (by decide) hlegal), bind_of_ret hload]
          exact ⟨_, _, rfl⟩
  | netSend buf size =>
      cases hbuf
      rw [syscall, sysNetSend, bind_of_ret (check_of_legal h hok hlegal)]
      obtain ⟨bytes, t, hload, -⟩ := load_bytes_granted (n := len.toNat) (t := s.txClaimed) h.pgdir
        h.cr3 fun i hi => ((seen_tx_claimed s).grants c false _).2 (hlegal.byte hi)
      unfold e1000Transmit
      rw [gets_bind]
      split
      · exact ⟨_, s, rfl⟩
      · split
        · exact ⟨_, s, rfl⟩
        · have hclaim : modifyE1000 (fun dev => dev.setTx s.e1000.tdt.toNat fun d =>
              { d with status := d.status &&& ~~~txdStatDd }) s = .ret () s.txClaimed := rfl
          rw [bind_of_ret hclaim, bind_of_ret hload]
          exact ⟨_, _, rfl⟩
  | netRecv buf size =>
      cases hbuf
      rw [syscall, sysNetRecv, bind_of_ret (check_of_legal h hok.1 hlegal.load)]
      unfold e1000Receive
      rw [gets_bind]
      split
      · exact ⟨_, s, rfl⟩
      · split
        · exact ⟨_, s, rfl⟩
        · rename_i hsmall
          have hlen : s.packet.length ≤ len.toNat := by
            unfold Kernel.packet
            dsimp only
            rw [List.length_map, List.length_range]
            rw [BitVec.toInt_eq_toNat_cond] at hsmall
            split at hsmall <;> omega
          obtain ⟨t, hstore, -⟩ := store_bytes_granted s.packet va h
            fun i hi => hlegal.byte (Nat.lt_of_lt_of_le hi hlen)
          have hstore' : storeBytes k ((List.range
              (s.e1000.rxQueue ((s.e1000.rdt.toNat + 1) % nrxdesc)).length.toNat).map
              (s.e1000.rxBuf ((s.e1000.rdt.toNat + 1) % nrxdesc))) va s = .ret () t := hstore
          rw [bind_of_ret hstore']
          exact ⟨_, _, rfl⟩
  | _ => cases hbuf

/-- The accesses of a safe call go through. -/
theorem call_safe_of_ok {call : Call} (h : Entered s k c dir) (hok : BufferOk s c call) :
    CallSafe k c s call where
  granted _ _ _ hat := (hat.granted h hok).1
  noFault _ _ _ hat := by
    obtain ⟨hgrants, hdir, hcr3⟩ := hat.granted h hok
    rw [hcr3]
    exact walk_of_granted hdir hgrants
  survives _ _ _ hbuf hlegal := returns_of_legal h hok hbuf hlegal

/-- A call with an empty buffer does not return. -/
theorem not_safe_empty {call : Call} {store : Bool} (hbuf : call.buffer = some (store, va, 0))
    (hexit : ∃ e s', syscall k c call s = .exit e s') : ¬ CallSafe k c s call := by
  intro hsafe
  obtain ⟨r, s₁, hret⟩ := hsafe.survives _ _ _ hbuf (legal_empty store va)
  obtain ⟨e, s₂, hexit⟩ := hexit
  rw [hret] at hexit
  cases hexit

/-- A safe call has a good buffer. -/
theorem ok_of_call_safe {call : Call} (h : Entered s k c dir) (hsafe : CallSafe k c s call) :
    BufferOk s c call := by
  cases call with
  | cputs str len =>
      have hsize : len ≠ 0 := by
        rintro rfl
        obtain ⟨e, s', hexit⟩ := check_empty h str
        refine not_safe_empty (s := s) rfl ⟨e, s', ?_⟩ hsafe
        rw [syscall, sysCputs, bind_of_exit]
        exact bind_of_exit hexit
      refine ⟨hsize, fun hlegal hne i hchars hlimit => ?_⟩
      have hcheck := check_of_legal h hsize hlegal
      obtain ⟨t, hat, hseen, -⟩ := at_char_of_chars h.pgdir h.cr3 hchars hlimit
      exact (hseen.grants c false _).1 (hsafe.granted _ _ _ (.cputs hcheck hne hat))
  | netSend buf size =>
      rintro rfl
      obtain ⟨e, s', hexit⟩ := check_empty h buf
      refine not_safe_empty (s := s) rfl ⟨e, s', ?_⟩ hsafe
      rw [syscall, sysNetSend]
      exact bind_of_exit hexit
  | netRecv buf size =>
      have hsize : size ≠ 0 := by
        rintro rfl
        obtain ⟨e, s', hexit⟩ := check_empty h buf
        refine not_safe_empty (s := s) rfl ⟨e, s', ?_⟩ hsafe
        rw [syscall, sysNetRecv]
        exact bind_of_exit hexit
      refine ⟨hsize, fun hlegal htake i hi => ?_⟩
      have hcheck := check_of_legal h hsize hlegal
      -- each store is reached when those before it are granted
      induction i using Nat.strongRecOn with
      | ind i ih =>
          obtain ⟨t, hstore, -, hsame⟩ := store_bytes_granted (s.packet.take i) buf
            h fun j hj => ih j (by rw [List.length_take] at hj; omega)
              (by rw [List.length_take] at hj; omega)
          exact (hsame true _).1 (hsafe.granted _ _ _ (.netRecv hcheck htake hi hstore))
  | _ => trivial

/-- A system call of the current environment, whose directory is loaded, is safe exactly when its
buffer is not empty, the formatter finds the end of a printed string where the caller may load, and
a received packet goes where the caller may store. -/
theorem call_safe_iff (s : Kernel) (k : CpuId) (c : EnvIx) (dir : Nat) (call : Call)
    (hentered : Entered s k c dir) (_hexec : ∀ binary argv, call ≠ .exec binary argv) :
    CallSafe k c s call ↔ BufferOk s c call :=
  ⟨ok_of_call_safe hentered, call_safe_of_ok hentered⟩

/-- Environment 0 with one page of characters at address 0, and a packet for it in the network card.
The flags are those of the page. -/
def putsPage (flags : Word) : Kernel :=
  { onePage with
    mem := fun p i =>
      if p = 4 then 0x61616161 else if p = 3 ∧ i = 0 then mkPte 4 flags else onePage.mem p i
    e1000 := { rxQueue := fun _ => { length := 1, status := rxdStatDd } } }

theorem puts_page_pde (flags : Word) (d : Nat) :
    (putsPage flags).mem 1 d = if d = 0 then mkPde 3 else 0 := by
  by_cases hd : d = 0
  · subst hd
    rfl
  · simp [putsPage, onePage, hd]

theorem puts_page_mapping (flags : Word) {n : Nat} {pde pte : Word}
    (h : (putsPage flags).mapping 0 n = some (pde, pte)) : n < 1024 ∧ pde = mkPde 3 ∧
      (pte = mkPte 4 flags ∨ pte = 0) := by
  rw [Kernel.mapping, show ((putsPage flags).envs 0).envPgdir = some 1 from rfl] at h
  dsimp only at h
  rw [puts_page_pde] at h
  by_cases hd : n / 1024 = 0
  · rw [if_pos hd, if_pos (by decide)] at h
    cases h
    refine ⟨by omega, rfl, ?_⟩
    rw [show pgnum (mkPde 3) = 3 by decide]
    by_cases ht : n % 1024 = 0
    · exact .inl (by simp [putsPage, ht])
    · exact .inr (by simp [putsPage, onePage, ht])
  · rw [if_neg hd, if_neg (by decide)] at h
    cases h

theorem puts_page_entered (flags : Word) (hflags : flags.toNat < 4096) :
    Entered (putsPage flags) 0 0 1 := by
  refine ⟨⟨rfl, fun d _ hp => ?_, fun n pde pte hlo _ hm _ => ?_⟩, rfl, rfl,
    fun n pde pte hall hm _ _ => ?_⟩
  · rw [puts_page_pde] at hp ⊢
    by_cases hd : d = 0
    · rw [if_pos hd]
      show pgnum (mkPde 3) < 6
      decide
    · rw [if_neg hd] at hp
      exact absurd hp (by decide)
  · rw [pgnum_eq, ulim_to_nat] at hlo
    have hlow := (puts_page_mapping flags hm).1
    omega
  · obtain ⟨-, -, rfl | rfl⟩ := puts_page_mapping flags hm
    · rw [pgnum_mk_pte (by decide) hflags]
      refine ⟨by decide, fun d _ hp => ?_⟩
      rw [puts_page_pde] at hp ⊢
      by_cases hd : d = 0
      · rw [if_pos hd]
        decide
      · rw [if_neg hd] at hp
        exact absurd hp (by decide)
    · rw [Kernel.allows, hm, Bool.and_eq_true, Bool.and_eq_true] at hall
      exact absurd hall.2.1 (by decide)

/-- The page is readable. -/
theorem puts_page_granted {a : Nat} (ha : a < 4096) :
    (putsPage pteU).grants 0 false a := by
  refine ⟨accessible_iff.mpr ?_, fun hstore => (by cases hstore)⟩
  rw [show a / 4096 = 0 by omega]
  decide +kernel

/-- Printing in the middle of the page. -/
theorem call_safe_iff_puts : CallSafe 0 0 (putsPage pteU) (.cputs 16 4) := by
  refine (call_safe_iff _ 0 0 1 _ (puts_page_entered _ (by decide))
    (fun _ _ heq => Call.noConfusion heq)).2 ⟨by decide, fun _ _ i _ hlimit => puts_page_granted ?_⟩
  have hle : i ≤ 4 := hlimit.resolve_left (by decide)
  rw [BitVec.toNat_add, BitVec.toNat_ofNat, show (16 : Word).toNat = 16 from rfl]
  omega

/-- Printing the last two bytes of the page looks at the byte behind them, a packet is stored in the
page although it is read-only, and an empty buffer is not accepted. -/
theorem calls_not_safe : Entered (putsPage pteU) 0 0 1 ∧
    ¬ CallSafe 0 0 (putsPage pteU) (.cputs 4094 2) ∧
    ¬ CallSafe 0 0 (putsPage pteU) (.netRecv 0 8) ∧
    ¬ CallSafe 0 0 (putsPage pteU) (.netSend 0 0) := by
  have hentered := puts_page_entered pteU (by decide)
  have hlegal : ∀ va len : Word, va.toNat + len.toNat ≤ 4096 →
      Legal (putsPage pteU) 0 false va len := by
    intro va len hle a hin
    obtain ⟨-, hlt⟩ := hin
    exact puts_page_granted (by omega)
  refine ⟨hentered, fun hsafe => ?_, fun hsafe => ?_, fun hsafe => ?_⟩
  · have hends := (ok_of_call_safe hentered hsafe).2 (hlegal 4094 2 (by decide)) (by decide)
    have hbehind := hends 2 (fun j hj => ?_) (.inr (by decide))
    · exact absurd (accessible_iff.mp hbehind.1) (by decide +kernel)
    · obtain rfl | rfl : j = 0 ∨ j = 1 := by omega
      · exact ⟨0x61, by decide, by decide +kernel⟩
      · exact ⟨0x61, by decide, by decide +kernel⟩
  · have hstore := (ok_of_call_safe hentered hsafe).2 (hlegal 0 8 (by decide))
      ⟨by decide, by decide⟩ 0 (by decide)
    obtain ⟨pde, pte, hmap, -, hw⟩ := hstore.2 rfl
    obtain ⟨-, -, rfl | rfl⟩ := puts_page_mapping pteU hmap
    · exact absurd hw (by decide)
    · exact absurd hw (by decide)
  · exact ok_of_call_safe hentered hsafe rfl

end Labs.Jos
