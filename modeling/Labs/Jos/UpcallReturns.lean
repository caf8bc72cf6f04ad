import Labs.Jos.UpcallSpec

/-!
# Page faults are transparent

When the handler of a page fault returns, the environment goes on at the instruction that faulted
with the registers and flags that it had, however deep faults of handlers are nested. What the upcall
needs for it is that the word below the trap-time stack pointer may be written by then. If that is a
fault again, and the trap-time stack is not the exception stack, the record is overwritten.
-/

namespace Labs.Jos.Upcall

open Ia32

variable {m m' m'' : Machine} {u t upcall handler faultVa : Word} {tf : Trapframe} {n : Nat}
  {nested : Machine → Machine → Prop}

/-! ## The record -/

theorem byte_of_eq (w : Word) (j : Nat) : byteOf w j = w.extractLsb' (8 * j) 8 := by
  refine BitVec.eq_of_getElem_eq fun i hi => ?_
  simp [byteOf, BitVec.getElem_setWidth, BitVec.getElem_extractLsb']

theorem flat_map_word_bytes (ws : List Word) {i j : Nat} (hi : i < ws.length) (hj : j < 4) :
    (ws.flatMap wordBytes).getD (4 * i + j) 0 = byteOf ws[i] j := by
  induction ws generalizing i with
  | nil => cases hi
  | cons w ws ih =>
      rw [List.flatMap_cons]
      cases i with
      | zero =>
          rw [List.getD_append _ _ _ _ (by change _ < 4; omega), Nat.mul_zero, Nat.zero_add]
          match j, hj with
          | 0, _ | 1, _ | 2, _ | 3, _ => rfl
      | succ i =>
          have hlen : (wordBytes w).length = 4 := rfl
          rw [List.getD_append_right _ _ _ _ (by omega), hlen,
            show 4 * (i + 1) + j - 4 = 4 * i + j by omega]
          exact ih (Nat.lt_of_succ_lt_succ hi)

theorem flat_map_length (ws : List Word) : (ws.flatMap wordBytes).length = 4 * ws.length := by
  induction ws with
  | nil => rfl
  | cons w ws ih =>
      have hlen : (wordBytes w).length = 4 := rfl
      rw [List.flatMap_cons, List.length_append, ih, hlen, List.length_cons]
      omega

/-- Words that are stored as bytes are read back. -/
theorem load32_store_words (mem : Bytes) (a : Nat) (ws : List Word) {i : Nat} (hi : i < ws.length) :
    (mem.store a (ws.flatMap wordBytes)).load32 (a + 4 * i) = ws[i] := by
  rw [← Bytes.load32_store32 (m := mem) (a := a + 4 * i) ws[i]]
  refine Bytes.load32_congr fun j hj => ?_
  rw [Nat.add_assoc, Bytes.store_add (by rw [flat_map_length]; omega),
    flat_map_word_bytes ws hi hj, byte_of_eq, Bytes.store32, if_pos (by omega),
    show a + (4 * i + j) - (a + 4 * i) = j by omega]

/-- The words of the record that the upcall reads. -/
structure Record (mem : Bytes) (u : Word) (tf : Trapframe) : Prop where
  edi : mem.load32 (u.toNat + 8) = tf.regs.edi
  esi : mem.load32 (u.toNat + 12) = tf.regs.esi
  ebp : mem.load32 (u.toNat + 16) = tf.regs.ebp
  ebx : mem.load32 (u.toNat + 24) = tf.regs.ebx
  edx : mem.load32 (u.toNat + 28) = tf.regs.edx
  ecx : mem.load32 (u.toNat + 32) = tf.regs.ecx
  eax : mem.load32 (u.toNat + 36) = tf.regs.eax
  eip : mem.load32 (u.toNat + 40) = tf.eip
  eflags : mem.load32 (u.toNat + 44) = tf.eflags

theorem encode_length (faultVa : Word) (tf : Trapframe) :
    (encodeUTrapframe faultVa tf).length = 52 :=
  flat_map_length _

theorem record_store (mem : Bytes) (u faultVa : Word) (tf : Trapframe) :
    Record (mem.store u.toNat (encodeUTrapframe faultVa tf)) u tf ∧
      (mem.store u.toNat (encodeUTrapframe faultVa tf)).load32 (u.toNat + 48) = tf.esp := by
  have hword := fun i hi => load32_store_words mem u.toNat [faultVa, tf.err, tf.regs.edi,
    tf.regs.esi, tf.regs.ebp, tf.regs.oesp, tf.regs.ebx, tf.regs.edx, tf.regs.ecx, tf.regs.eax,
    tf.eip, tf.eflags, tf.esp] (i := i) hi
  refine ⟨⟨?_, ?_, ?_, ?_, ?_, ?_, ?_, ?_, ?_⟩, hword 12 (by simp)⟩
  · exact hword 2 (by simp)
  · exact hword 3 (by simp)
  · exact hword 4 (by simp)
  · exact hword 6 (by simp)
  · exact hword 7 (by simp)
  · exact hword 8 (by simp)
  · exact hword 9 (by simp)
  · exact hword 10 (by simp)
  · exact hword 11 (by simp)

theorem Record.congr {mem mem' : Bytes} (h : Record mem u tf)
    (hsame : ∀ k, k + 4 ≤ 48 → mem'.load32 (u.toNat + k) = mem.load32 (u.toNat + k)) :
    Record mem' u tf :=
  ⟨(hsame 8 (by omega)).trans h.edi, (hsame 12 (by omega)).trans h.esi,
    (hsame 16 (by omega)).trans h.ebp, (hsame 24 (by omega)).trans h.ebx,
    (hsame 28 (by omega)).trans h.edx, (hsame 32 (by omega)).trans h.ecx,
    (hsame 36 (by omega)).trans h.eax, (hsame 40 (by omega)).trans h.eip,
    (hsame 44 (by omega)).trans h.eflags⟩

/-! ## Up to the handler -/

/-- The place of the record ends at the top of the exception stack, or a word below a stack pointer
on it. -/
theorem fault_stack_cases (esp : Word) :
    ((uxstack ≤ esp.toNat ∧ esp.toNat < uxstacktop.toNat) ∧
        (faultStack esp).toNat + 56 = esp.toNat) ∨
      (¬ (uxstack ≤ esp.toNat ∧ esp.toNat < uxstacktop.toNat) ∧
        faultStack esp = uxstacktop - 52) := by
  have hcond : uxstacktop - pgsizeW ≤ esp ∧ esp < uxstacktop ↔
      uxstack ≤ esp.toNat ∧ esp.toNat < uxstacktop.toNat := Iff.rfl
  unfold faultStack
  have hstack := uxstack_eq
  by_cases hon : uxstack ≤ esp.toNat ∧ esp.toNat < uxstacktop.toNat
  · have h4 : (4 : Word).toNat = 4 := rfl
    have h52 : (52 : Word).toNat = 52 := rfl
    rw [if_pos (hcond.2 hon)]
    refine .inl ⟨hon, ?_⟩
    rw [BitVec.toNat_sub_of_le (by rw [BitVec.le_def, BitVec.toNat_sub_of_le
      (by rw [BitVec.le_def]; omega)]; omega), BitVec.toNat_sub_of_le (by rw [BitVec.le_def]; omega)]
    omega
  · rw [if_neg fun hyes => hon (hcond.1 hyes)]
    exact .inr ⟨hon, rfl⟩

theorem top_record : (uxstacktop - 52).toNat = 4005560268 := by
  rw [BitVec.toNat_sub, uxstacktop_eq]
  rfl

/-- The machine when a fault has been delivered. -/
structure Delivered (m m' : Machine) (upcall u : Word) (tf : Trapframe) : Prop where
  record : RecordAt m' u
  words : Record m'.mem u tf
  esp_word : m'.mem.load32 (u.toNat + 48) = tf.esp
  esp : m'.reg .esp = u
  eip : m'.eip = upcall
  eflags : m'.eflags = m.eflags
  mem : ∀ a, ¬ (u.toNat ≤ a ∧ a < u.toNat + 52) → m'.mem a = m.mem a
  may : m'.may = m.may

theorem deliver_spec (h : deliver upcall faultVa tf m = some m') :
    Delivered m m' upcall (faultStack tf.esp) tf := by
  unfold deliver at h
  dsimp only at h
  split at h
  case isFalse => cases h
  case isTrue hwrite =>
    obtain ⟨-, hframe⟩ := Bool.and_eq_true_iff.1 hwrite
    have hm' := (Option.some.inj h).symm
    obtain ⟨hwords, hlast⟩ := record_store m.mem (faultStack tf.esp) faultVa tf
    have hmem : m'.mem = m.mem.store (faultStack tf.esp).toNat (encodeUTrapframe faultVa tf) := by
      rw [hm']
      rfl
    refine ⟨⟨?_, fun i hi => ?_⟩, ?_, ?_, ?_, ?_, ?_, fun a ha => ?_, ?_⟩
    · have htop := uxstacktop_eq
      have hrecord := top_record
      rcases fault_stack_cases tf.esp with ⟨hon, hu⟩ | ⟨-, hu⟩
      · omega
      · rw [hu]
        omega
    · rw [hm']
      exact List.all_eq_true.1 hframe i (List.mem_range.2 hi)
    · rw [hmem]
      exact hwords
    · rw [hmem]
      exact hlast
    · rw [hm']
      simp
    · rw [hm']
      rfl
    · rw [hm']
      rfl
    · rw [hmem]
      exact Bytes.store_of_not (by rw [encode_length]; exact ha)
    · rw [hm']
      rfl

/-- What an instruction that pushes a word does. -/
theorem store_below {v w : Word} (h : m.store (v - 4) w = .ok m') (hv : 4 ≤ v.toNat) :
    (∀ a, v.toNat ≤ a → m'.mem a = m.mem a) ∧ m'.reg = m.reg ∧ m'.may = m.may ∧
      m'.eflags = m.eflags := by
  obtain ⟨-, rfl⟩ := Machine.store_ok h
  have hsub : (v - 4).toNat = v.toNat - 4 := by
    rw [BitVec.toNat_sub_of_le (by rw [BitVec.le_def]; exact hv)]
    rfl
  refine ⟨fun a ha => Bytes.store32_of_not w ?_, rfl, rfl, rfl⟩
  rw [hsub]
  omega

theorem code_size_lt (handler : Word) : codeSize (pgfaultUpcall handler) < 2 ^ 32 := by
  have hsize : codeSize (pgfaultUpcall handler) = 40 := rfl
  omega

theorem run_prologue (heip : m.eip = upcall) : run (pgfaultUpcall handler) upcall 3 m = some m' ↔
    m.execAll (prologue handler) = .ok m' := by
  have hcode : pgfaultUpcall handler = [] ++ (prologue handler ++ (findStack ++ restore)) := rfl
  have hbase : m.eip = upcall + BitVec.ofNat 32 (codeSize []) := by
    rw [heip]
    simp [codeSize]
  refine run_block hcode (code_size_lt handler) hbase fun i hi => ?_
  have hin : i = .pushl .esp ∨ i = .loadAbs handler .eax := by simpa [prologue] using hi
  rcases hin with rfl | rfl <;> rfl

theorem run_find_stack (heip : m.eip = upcall + 8) :
    run (pgfaultUpcall handler) upcall 4 m = some m' ↔ m.execAll findStack = .ok m' := by
  have hcode : pgfaultUpcall handler = prologue handler ++ (findStack ++ restore) := rfl
  exact run_block hcode (code_size_lt handler) heip (by decide)

theorem run_rest (heip : m.eip = upcall + 8) :
    run (pgfaultUpcall handler) upcall 14 m = some m' ↔
      m.execAll (findStack ++ restore) = .ok m' := by
  have hcode : pgfaultUpcall handler = prologue handler ++ ((findStack ++ restore) ++ []) := rfl
  exact run_block hcode (code_size_lt handler) heip (by decide)

theorem run_restore (heip : m.eip = upcall + 21) :
    run (pgfaultUpcall handler) upcall 10 m = some m' ↔ m.execAll restore = .ok m' := by
  have hcode : pgfaultUpcall handler = (prologue handler ++ findStack) ++ (restore ++ []) := rfl
  exact run_block hcode (code_size_lt handler) heip (by decide)

/-- The prologue leaves the record alone. -/
theorem prologue_keeps (h : m.execAll (prologue handler) = .ok m') (hesp : m.reg .esp = u)
    (hu : 8 ≤ u.toNat) :
    (∀ a, u.toNat ≤ a → m'.mem a = m.mem a) ∧ m'.may = m.may ∧ m'.eflags = m.eflags := by
  obtain ⟨m₁, hpush, h⟩ := bind_eq_ok.1 h
  obtain ⟨m₂, hload, h⟩ := bind_eq_ok.1 h
  obtain ⟨m₃, hcall, h⟩ := bind_eq_ok.1 h
  cases h
  obtain ⟨n₁, hstore₁, h₁⟩ := bind_eq_ok.1 hpush
  obtain ⟨w, -, h₂⟩ := bind_eq_ok.1 hload
  obtain ⟨n₃, hstore₃, h₃⟩ := bind_eq_ok.1 hcall
  rw [hesp] at hstore₁ h₁
  obtain ⟨hmem₁, -, hmay₁, hflags₁⟩ := store_below hstore₁ (by omega)
  have hm₁ := (Except.ok.inj h₁).symm
  have hm₂ := (Except.ok.inj h₂).symm
  have hm₃ := (Except.ok.inj h₃).symm
  have hesp₂ : m₂.reg .esp = u - 4 := by
    rw [hm₂, hm₁]
    simp [Machine.set_reg_of_ne]
  have hsub : (u - 4).toNat = u.toNat - 4 := by
    rw [BitVec.toNat_sub_of_le (by rw [BitVec.le_def]; exact Nat.le_trans (by decide) hu)]
    rfl
  rw [hesp₂] at hstore₃
  obtain ⟨hmem₃, -, hmay₃, hflags₃⟩ := store_below hstore₃ (by omega)
  refine ⟨fun a ha => ?_, ?_, ?_⟩
  · rw [hm₃]
    refine (hmem₃ a (by omega)).trans ?_
    rw [hm₂, hm₁]
    exact hmem₁ a ha
  · rw [hm₃]
    refine hmay₃.trans ?_
    rw [hm₂, hm₁]
    exact hmay₁
  · rw [hm₃]
    refine hflags₃.trans ?_
    rw [hm₂, hm₁]
    exact hflags₁

/-! ## The handler -/

theorem Follows.refl (top : Nat) (m : Machine) : Follows top m m :=
  ⟨fun _ _ _ => rfl, fun _ _ _ => rfl, rfl⟩

theorem Follows.trans {top : Nat} (h : Follows top m m') (h' : Follows top m' m'') :
    Follows top m m'' :=
  ⟨fun a hlo hhi => (h'.above a hlo hhi).trans (h.above a hlo hhi),
    fun a hlo hhi => (h'.may a hlo hhi).trans (h.may a hlo hhi), h'.flags.trans h.flags⟩

theorem Follows.mono {top top' : Nat} (h : Follows top m m') (hle : top ≤ top') :
    Follows top' m m' :=
  ⟨fun a hlo hhi => h.above a (by omega) hhi, fun a hlo hhi => h.may a (by omega) hhi, h.flags⟩

/-- A handler with faults is like one without, if the faults on the exception stack are. -/
theorem HandlerRun.follows {top : Nat} (h : HandlerRun nested top m m')
    (hnested : ∀ m m', OnStack m → nested m m' → Follows (m.reg .esp).toNat m m') :
    Follows top m m' := by
  induction h with
  | refl m => exact .refl top m
  | code hcode _ ih => exact hcode.trans ih
  | fault hon htop hfault _ ih => exact ((hnested _ _ hon hfault).mono htop).trans ih

/-- The machine when the handler has returned: the record still holds what it held. -/
structure Back (m m' : Machine) (u : Word) (tf : Trapframe) : Prop where
  record : RecordAt m' u
  words : Record m'.mem u tf
  esp_word : m'.mem.load32 (u.toNat + 48) = m.reg .esp
  mem : ∀ a, u.toNat + 52 ≤ a → a < uxstacktop.toNat → m'.mem a = m.mem a
  may : ∀ a, u.toNat ≤ a → a < uxstacktop.toNat → m'.may true a = m.may true a
  flags : m'.eflags &&& ~~~userFlags = m.eflags &&& ~~~userFlags

theorem fault_stack_low (esp : Word) : 8 ≤ (faultStack esp).toNat := by
  have hstack := uxstack_eq
  have htop := top_record
  rcases fault_stack_cases esp with ⟨hon, hu⟩ | ⟨-, hu⟩
  · omega
  · rw [hu]
    omega

theorem Called.back (h : Called upcall handler nested m m')
    (hnested : ∀ m m', OnStack m → nested m m' → Follows (m.reg .esp).toNat m m') :
    ∃ tf, Trapped m tf ∧ Back m m' (faultStack (m.reg .esp)) tf := by
  obtain ⟨faultVa, tf, m₁, m₂, htrap, hdeliver, hpro, hrun⟩ := h.called
  have hdel := deliver_spec hdeliver
  rw [htrap.esp] at hdel
  have hexec := (run_prologue hdel.eip).1 hpro
  obtain ⟨hmem, hmay, hflags⟩ := prologue_keeps hexec hdel.esp (fault_stack_low _)
  have hfollows := hrun.follows hnested
  have hhigh := hdel.record.high
  -- the handler leaves the record alone
  have hsame : Bytes.Same m₁.mem m'.mem (faultStack (m.reg .esp)).toNat 52 := fun a hlo hhi =>
    (hfollows.above a hlo (by omega)).trans (hmem a hlo)
  refine ⟨tf, htrap, ⟨⟨hhigh, fun i hi => ?_⟩, ?_, ?_, fun a hlo hhi => ?_, fun a hlo hhi => ?_, ?_⟩⟩
  · rw [hfollows.may _ (by omega) (by omega), hmay]
    exact hdel.record.may i hi
  · exact hdel.words.congr fun k hk => hsame.load32 (by omega) (by omega)
  · rw [hsame.load32 (by omega) (by omega), hdel.esp_word, htrap.esp]
  · rw [hfollows.above a (by omega) hhi, hmem a (by omega), hdel.mem a (by omega)]
  · rw [hfollows.may a hlo hhi, hmay, hdel.may]
  · rw [hfollows.flags, hflags, hdel.eflags]

/-! ## The return -/

/-- The stack pointer is not at the top of the exception stack, where the record is. -/
def NotTop (m : Machine) : Prop :=
  ¬ (uxstacktop.toNat ≤ (m.reg .esp).toNat ∧ (m.reg .esp).toNat < uxstacktop.toNat + 4)

theorem OnStack.not_top (h : OnStack m) : NotTop m := fun htop => by
  have := h.2
  omega

theorem apart_of_not_top (h : NotTop m) : Apart (faultStack (m.reg .esp)) (m.reg .esp) := by
  unfold NotTop at h
  have htop := uxstacktop_eq
  have hstack := uxstack_eq
  have hrecord := top_record
  have h4 : (4 : Word).toNat = 4 := rfl
  have hlt := (m.reg .esp).isLt
  have hsub := BitVec.toNat_sub (m.reg .esp) 4
  rw [h4] at hsub
  unfold Apart
  rcases fault_stack_cases (m.reg .esp) with ⟨hon, hu⟩ | ⟨hoff, hu⟩
  · omega
  · rw [hu, hrecord, hsub]
    omega

theorem flags_ext {f g : Word} (huser : f &&& userFlags = g &&& userFlags)
    (hsystem : f &&& ~~~userFlags = g &&& ~~~userFlags) : f = g := by
  have hsplit : ∀ w : Word, w = (w &&& userFlags) ||| (w &&& ~~~userFlags) := by
    intro w
    rw [← BitVec.and_or_distrib_left, BitVec.or_not_self, BitVec.and_allOnes]
  rw [hsplit f, hsplit g, huser, hsystem]

/-- The machine `m'` goes on where `m` was interrupted. -/
structure Resumes (m m' : Machine) : Prop where
  reg : ∀ r, m'.reg r = m.reg r
  eip : m'.eip = m.eip
  eflags : m'.eflags = m.eflags

/-- What else a handled fault leaves: on the exception stack nothing has changed from the stack
pointer on, and the record is still there. -/
structure Transparent (m m' : Machine) : Prop extends Resumes m m' where
  follows : OnStack m → Follows (m.reg .esp).toNat m m'
  record : RecordAt m' (faultStack (m.reg .esp))
  words : ∃ tf, Trapped m tf ∧ Record m'.mem (faultStack (m.reg .esp)) tf

theorem restore_legal (h : m.execAll restore = .ok m') : m.Legal true (m.reg .esp - 4) := by
  obtain ⟨m₁, hpush, -⟩ := bind_eq_ok.1 h
  obtain ⟨m₂, hstore, -⟩ := bind_eq_ok.1 hpush
  exact (Machine.store_ok hstore).1

variable {m₃ : Machine}

/-- What the upcall has found when it is about to leave `eip` on the trap-time stack. -/
theorem Back.find (h : Back m m₃ u tf) (htrap : Trapped m tf) (hesp : m₃.reg .esp = u - 4) :
    ∃ m₄, m₃.execAll findStack = .ok m₄ ∧ Found m₃ m₄ u ∧ m₄.reg .esp = m.reg .esp ∧
      m₄.reg .ebx = m.eip := by
  obtain ⟨m₄, hfind, hfound⟩ := find_stack_spec h.record hesp
  refine ⟨m₄, hfind, hfound, ?_, ?_⟩
  · rw [hfound.esp, h.esp_word]
  · rw [hfound.ebx, h.words.eip, htrap.eip]

/-- The registers of the machine that resumes, when the record holds those of `m`. -/
theorem Resumed.resumes {m₄ : Machine} (h : Resumed m₄ m' u t) (hwords : Record m₄.mem u tf)
    (htrap : Trapped m tf) (hapart : Apart u t) (hesp : t = m.reg .esp)
    (heip : m₄.reg .ebx = m.eip)
    (hflags : m₄.eflags &&& ~~~userFlags = m.eflags &&& ~~~userFlags) : Resumes m m' := by
  have hkeep := hwords.congr fun k hk => left_mem_record m₄.mem (m₄.reg .ebx) hapart hk
  refine ⟨fun r => ?_, h.eip.trans heip, flags_ext ?_ ?_⟩
  · cases r with
    | edi => rw [h.edi, hkeep.edi, htrap.edi]
    | esi => rw [h.esi, hkeep.esi, htrap.esi]
    | ebp => rw [h.ebp, hkeep.ebp, htrap.ebp]
    | ebx => rw [h.ebx, hkeep.ebx, htrap.ebx]
    | edx => rw [h.edx, hkeep.edx, htrap.edx]
    | ecx => rw [h.ecx, hkeep.ecx, htrap.ecx]
    | eax => rw [h.eax, hkeep.eax, htrap.eax]
    | esp => rw [h.esp, hesp]
  · rw [h.eflags, hkeep.eflags, htrap.eflags]
  · rw [h.system]
    exact hflags

/-- A store at a word below `t` and one in the record at `u` change nothing from `t` on. -/
theorem left_mem_above (mem : Bytes) (eip : Word) {a : Nat} (ht : u.toNat + 56 = t.toNat)
    (ha : t.toNat ≤ a) : leftMem mem u t eip a = mem a := by
  have h4 : (4 : Word).toNat = 4 := rfl
  have hsub : (t - 4).toNat = t.toNat - 4 := by
    rw [BitVec.toNat_sub_of_le (by rw [BitVec.le_def, h4]; omega)]
    rfl
  unfold leftMem
  rw [Bytes.store32_of_not _ (by omega), Bytes.store32_of_not _ (by rw [hsub]; omega)]

theorem Back.transparent (h : Back m m₃ (faultStack (m.reg .esp)) tf) (htrap : Trapped m tf)
    (hesp : m₃.reg .esp = faultStack (m.reg .esp) - 4) (hnot : NotTop m)
    (hexec : m₃.execAll (findStack ++ restore) = .ok m') : Transparent m m' := by
  obtain ⟨m₄, hfind, hfound, hesp₄, hebx₄⟩ := h.find htrap hesp
  rw [Machine.exec_all_append hfind] at hexec
  have hlegal := restore_legal hexec
  have hapart := apart_of_not_top hnot
  have hrecord : RecordAt m₄ (faultStack (m.reg .esp)) := h.record.congr hfound.may
  rw [hesp₄] at hlegal
  obtain ⟨m₅, hexec₅, hres⟩ := restore_spec hrecord hfound.eax hesp₄ hlegal hapart
  rw [hexec] at hexec₅
  cases hexec₅
  have hwords : Record m₄.mem (faultStack (m.reg .esp)) tf := by
    rw [hfound.mem]
    exact h.words
  have hresumes := hres.resumes hwords htrap hapart rfl hebx₄ (hfound.flags.trans h.flags)
  have hmay : m'.may = m₃.may := hres.may.trans hfound.may
  have hmem := hres.mem
  refine ⟨hresumes, fun hon => ⟨fun a hlo hhi => ?_, fun a hlo hhi => ?_, ?_⟩, ?_, tf, htrap, ?_⟩
  · rcases fault_stack_cases (m.reg .esp) with ⟨-, hu⟩ | ⟨hoff, -⟩
    · rw [hmem]
      refine (left_mem_above m₄.mem _ hu hlo).trans ?_
      rw [hfound.mem]
      exact h.mem a (by omega) hhi
    · exact absurd hon hoff
  · rcases fault_stack_cases (m.reg .esp) with ⟨-, hu⟩ | ⟨hoff, -⟩
    · rw [hmay]
      exact h.may a (by omega) hhi
    · exact absurd hon hoff
  · rw [hresumes.eflags]
  · exact h.record.congr hmay
  · rw [hmem]
    exact hwords.congr fun k hk => left_mem_record m₄.mem (m₄.reg .ebx) hapart hk

/-- Handled faults are transparent, by induction on how deep they are nested. -/
theorem Handled.transparent (h : Handled upcall handler n m m') (hnot : NotTop m) :
    Transparent m m' := by
  induction n generalizing m m' with
  | zero => cases h
  | succ n ih =>
      obtain ⟨m₃, hcalled, hrun⟩ := h
      obtain ⟨tf, htrap, hback⟩ := hcalled.back fun m m' hon hfault =>
        (ih hfault hon.not_top).follows hon
      exact hback.transparent htrap hcalled.esp hnot ((run_rest hcalled.eip).1 hrun)

/-! ## Faults with room on the exception stack -/

/-- What the hardware and `_alltraps` save of a machine at a page fault. -/
def frameOf (m : Machine) : Trapframe where
  regs :=
    { edi := m.reg .edi, esi := m.reg .esi, ebp := m.reg .ebp, ebx := m.reg .ebx,
      edx := m.reg .edx, ecx := m.reg .ecx, eax := m.reg .eax }
  es := gdUd ||| 3
  ds := gdUd ||| 3
  trapno := tPgflt
  eip := m.eip
  cs := gdUt ||| 3
  eflags := m.eflags
  esp := m.reg .esp
  ss := gdUd ||| 3

theorem trapped_frame (m : Machine) : Trapped m (frameOf m) :=
  ⟨rfl, rfl, rfl, rfl, rfl, rfl, rfl, rfl, rfl, rfl⟩

/-- The exception stack may be written, and has room for a record and the words below it. -/
structure Roomy (m : Machine) : Prop where
  may : ∀ a, uxstack ≤ a → a < uxstacktop.toNat → m.may true a = true
  room : OnStack m → uxstack + 64 ≤ (m.reg .esp).toNat

theorem Roomy.record (h : Roomy m) : uxstack + 8 ≤ (faultStack (m.reg .esp)).toNat ∧
    (faultStack (m.reg .esp)).toNat + 52 ≤ uxstacktop.toNat := by
  have htop := uxstacktop_eq
  have hstack := uxstack_eq
  have hrecord := top_record
  rcases fault_stack_cases (m.reg .esp) with ⟨hon, hu⟩ | ⟨-, hu⟩
  · have := h.room hon
    omega
  · rw [hu]
    omega

theorem Roomy.legal (h : Roomy m) {v : Word} (hlo : uxstack ≤ v.toNat)
    (hhi : v.toNat + 4 ≤ uxstacktop.toNat) : m.Legal true v := by
  rw [Machine.legal_iff]
  intro i hi
  have htop := uxstacktop_eq
  exact ⟨by omega, h.may _ (by omega) (by omega)⟩

theorem Roomy.deliver (h : Roomy m) (upcall faultVa : Word) :
    ∃ m₁, Upcall.deliver upcall faultVa (frameOf m) m = some m₁ := by
  have hbounds := h.record
  have htop := uxstacktop_eq
  have hstack := uxstack_eq
  have hpage : writable m uxstack 4096 = true := List.all_eq_true.2 fun i hi => by
    rw [List.mem_range] at hi
    exact h.may _ (by omega) (by omega)
  have hframe : writable m (faultStack (m.reg .esp)).toNat 52 = true :=
    List.all_eq_true.2 fun i hi => by
      rw [List.mem_range] at hi
      exact h.may _ (by omega) (by omega)
  have hboth : (writable m uxstack 4096 && writable m (faultStack (m.reg .esp)).toNat 52) = true := by
    rw [hpage, hframe]
    rfl
  have hesp : (frameOf m).esp = m.reg .esp := rfl
  unfold Upcall.deliver
  dsimp only
  rw [hesp, if_pos hboth]
  exact ⟨_, rfl⟩

/-- The upcall of such a fault calls the handler, two words below the record. -/
theorem exists_entered (h : Roomy m) (upcall handler : Word) (hread : m.Legal false handler) :
    ∃ m₁ m₂, Upcall.deliver upcall 0 (frameOf m) m = some m₁ ∧
      run (pgfaultUpcall handler) upcall 3 m₁ = some m₂ ∧
      m₂.reg .esp = faultStack (m.reg .esp) - 4 - 4 ∧ m₂.may = m.may := by
  obtain ⟨m₁, hdeliver⟩ := h.deliver upcall 0
  have hdel := deliver_spec hdeliver
  have hbounds := h.record
  have hframe : (frameOf m).esp = m.reg .esp := rfl
  rw [hframe] at hdel
  generalize hu : faultStack (m.reg .esp) = u at hdel hbounds
  have hstack := uxstack_eq
  have h4 : (4 : Word).toNat = 4 := rfl
  have hsub : (u - 4).toNat = u.toNat - 4 :=
    BitVec.toNat_sub_of_le (by rw [BitVec.le_def, h4]; omega)
  have hsub' : (u - 4 - 4).toNat = u.toNat - 4 - 4 := by
    rw [BitVec.toNat_sub_of_le (by rw [BitVec.le_def, h4]; omega), hsub, h4]
  have hlegal : ∀ {m' : Machine} {v : Word}, m'.may = m.may → uxstack ≤ v.toNat →
      v.toNat + 4 ≤ uxstacktop.toNat → m'.Legal true v := fun hm hlo hhi =>
    (h.legal hlo hhi).congr hm
  -- the three instructions up to the call
  have hfst := Machine.exec_pushl .esp (m := m₁) (by
    rw [hdel.esp]
    exact hlegal hdel.may (by omega) (by omega))
  obtain ⟨a₁, ha₁⟩ : ∃ a₁, a₁ = (({ m₁ with
      mem := m₁.mem.store32 (m₁.reg .esp - 4).toNat (m₁.reg .esp) } : Machine).set .esp
        (m₁.reg .esp - 4)).setEip (m₁.eip + 1) := ⟨_, rfl⟩
  rw [← ha₁] at hfst
  have hmay₁ : a₁.may = m.may := by
    rw [ha₁]
    exact hdel.may
  have hsnd := Machine.exec_load_abs .eax (m := a₁) (hread.congr hmay₁)
  obtain ⟨a₂, ha₂⟩ : ∃ a₂, a₂ = (a₁.set .eax (a₁.mem.load32 handler.toNat)).setEip
    (a₁.eip + BitVec.ofNat 32 (Instr.loadAbs handler .eax).size) := ⟨_, rfl⟩
  rw [← ha₂] at hsnd
  have hmay₂ : a₂.may = m.may := by
    rw [ha₂]
    exact hmay₁
  have hesp₂ : a₂.reg .esp = u - 4 := by
    rw [ha₂, ha₁, ← hdel.esp]
    simp [Machine.set_reg_of_ne]
  have hthd := Machine.exec_call .eax (m := a₂) (by
    rw [hesp₂]
    exact hlegal hmay₂ (by omega) (by omega))
  obtain ⟨m₂, hm₂⟩ : ∃ m₂, m₂ = (({ a₂ with
      mem := a₂.mem.store32 (a₂.reg .esp - 4).toNat (a₂.eip + 2) } : Machine).set .esp
        (a₂.reg .esp - 4)).setEip (a₂.reg .eax) := ⟨_, rfl⟩
  rw [← hm₂] at hthd
  have hmay₂' : m₂.may = m.may := by
    rw [hm₂]
    exact hmay₂
  have hexec : m₁.execAll (prologue handler) = .ok m₂ := by
    rw [prologue, Machine.exec_all_cons hfst, Machine.exec_all_cons hsnd,
      Machine.exec_all_cons hthd]
    rfl
  refine ⟨m₁, m₂, hdeliver, (run_prologue hdel.eip).2 hexec, ?_, hmay₂'⟩
  rw [hm₂, hesp₂]
  simp

/-- The C handler returns to the upcall. -/
def returned (upcall u : Word) (m : Machine) : Machine := (m.set .esp (u - 4)).setEip (upcall + 8)

theorem follows_returned (top : Nat) (upcall u : Word) (m : Machine) :
    Follows top m (returned upcall u m) :=
  ⟨fun _ _ _ => rfl, fun _ _ _ => rfl, rfl⟩

/-- The handler of such a fault is called; it may return with other rights outside the exception
stack. -/
theorem exists_called (h : Roomy m) (upcall handler : Word) (nested : Machine → Machine → Prop)
    (hread : m.Legal false handler) (may : Bool → Nat → Bool)
    (hmay : ∀ a, may true a = true → may false a = true)
    (hsame : ∀ a, uxstack ≤ a → a < uxstacktop.toNat → may true a = m.may true a) :
    ∃ m₃, Called upcall handler nested m m₃ ∧ m₃.may = may := by
  obtain ⟨m₁, m₂, hdeliver, hentered, -, hmay₂⟩ := exists_entered h upcall handler hread
  obtain ⟨m₂', hm₂'⟩ : ∃ m₂' : Machine, m₂' = { m₂ with may := may, may_read := hmay } := ⟨_, rfl⟩
  have hbounds := h.record
  have hfollows : Follows (faultStack (m.reg .esp)).toNat m₂ m₂' := by
    refine ⟨fun a _ _ => ?_, fun a hlo hhi => ?_, ?_⟩
    · rw [hm₂']
    · rw [hm₂', hmay₂]
      exact hsame a (by omega) hhi
    · rw [hm₂']
  refine ⟨returned upcall (faultStack (m.reg .esp)) m₂', ⟨⟨0, frameOf m, m₁, m₂, trapped_frame m,
    hdeliver, hentered, .code (hfollows.trans (follows_returned _ _ _ _)) (.refl _)⟩, rfl, ?_⟩, ?_⟩
  · simp [returned]
  · rw [hm₂']
    rfl

/-- The upcall runs to its end exactly if it can leave `eip` on the trap-time stack. -/
theorem Back.runs_iff (h : Back m m₃ (faultStack (m.reg .esp)) tf) (htrap : Trapped m tf)
    (hesp : m₃.reg .esp = faultStack (m.reg .esp) - 4) (heip : m₃.eip = upcall + 8)
    (hnot : NotTop m) : (∃ m', run (pgfaultUpcall handler) upcall 14 m₃ = some m') ↔
      m₃.Legal true (m.reg .esp - 4) := by
  obtain ⟨m₄, hfind, hfound, hesp₄, -⟩ := h.find htrap hesp
  have hrun : ∀ m', run (pgfaultUpcall handler) upcall 14 m₃ = some m' ↔
      m₄.execAll restore = .ok m' := fun m' => by
    rw [run_rest heip, Machine.exec_all_append hfind]
  constructor
  · rintro ⟨m', hm'⟩
    have hlegal := restore_legal ((hrun m').1 hm')
    rw [hesp₄] at hlegal
    exact hlegal.congr hfound.may.symm
  · intro hlegal
    obtain ⟨m', hexec, -⟩ := restore_spec (h.record.congr hfound.may) hfound.eax hesp₄
      (hlegal.congr hfound.may) (apart_of_not_top hnot)
    exact ⟨m', (hrun m').2 hexec⟩

/-- When the handler has returned the upcall runs to its end exactly if the word below the trap-time
stack pointer may be written. Then the environment goes on where it was interrupted, and the upcall
has changed nothing but that word and the last one of the record. -/
theorem upcall_returns (upcall handler : Word) (n : Nat) (m m₃ : Machine)
    (hcalled : Called upcall handler (Handled upcall handler n) m m₃) (hnot : NotTop m) :
    ((∃ m', run (pgfaultUpcall handler) upcall 14 m₃ = some m') ↔
        m₃.Legal true (m.reg .esp - 4)) ∧
      ∀ m', run (pgfaultUpcall handler) upcall 14 m₃ = some m' → Resumes m m' ∧
        m'.mem = leftMem m₃.mem (faultStack (m.reg .esp)) (m.reg .esp) m.eip := by
  obtain ⟨tf, htrap, hback⟩ := hcalled.back fun m m' hon hfault =>
    (hfault.transparent hon.not_top).follows hon
  refine ⟨hback.runs_iff htrap hcalled.esp hcalled.eip hnot, fun m' hm' => ?_⟩
  have hexec := (run_rest hcalled.eip).1 hm'
  refine ⟨(hback.transparent htrap hcalled.esp hnot hexec).toResumes, ?_⟩
  obtain ⟨m₄, hfind, hfound, hesp₄, hebx₄⟩ := hback.find htrap hcalled.esp
  rw [Machine.exec_all_append hfind] at hexec
  have hlegal := restore_legal hexec
  rw [hesp₄] at hlegal
  obtain ⟨m₅, hexec₅, hres⟩ := restore_spec (hback.record.congr hfound.may) hfound.eax hesp₄ hlegal
    (apart_of_not_top hnot)
  rw [hexec] at hexec₅
  cases hexec₅
  rw [hres.mem, hebx₄]
  exact congrArg (fun mem => leftMem mem _ _ _) hfound.mem

/-- A machine that runs on a stack of its own, with all its memory. -/
def plain (may : Bool → Nat → Bool) (hmay : ∀ a, may true a = true → may false a = true) :
    Machine where
  reg := fun _ => 0xeebfe000
  eip := 0x00800020
  eflags := 0x202
  mem := fun _ => 0
  may := may
  may_read := hmay

theorem plain_roomy {may : Bool → Nat → Bool} (hmay : ∀ a, may true a = true → may false a = true)
    (hstack : ∀ a, uxstack ≤ a → may true a = true) : Roomy (plain may hmay) := by
  refine ⟨fun a hlo _ => hstack a hlo, fun hon => ?_⟩
  have hesp : ((plain may hmay).reg .esp).toNat = 4005552128 := rfl
  have hlow := hon.1
  rw [uxstack_eq] at hlow
  omega

theorem plain_not_top {may : Bool → Nat → Bool}
    (hmay : ∀ a, may true a = true → may false a = true) : NotTop (plain may hmay) := by
  have hesp : ((plain may hmay).reg .esp).toNat = 4005552128 := rfl
  unfold NotTop
  rw [uxstacktop_eq, hesp]
  omega

theorem plain_stack {may : Bool → Nat → Bool} {hmay : ∀ a, may true a = true → may false a = true} :
    faultStack ((plain may hmay).reg .esp) = uxstacktop - 52 := by
  have hesp : ((plain may hmay).reg .esp).toNat = 4005552128 := rfl
  rcases fault_stack_cases ((plain may hmay).reg .esp) with ⟨hon, -⟩ | ⟨-, hu⟩
  · have hlow := hon.1
    rw [uxstack_eq] at hlow
    omega
  · exact hu

/-- The handler of a fault faults at its first instruction, on the exception stack. That fault is
handled, and then the instruction that faulted first runs again. -/
theorem upcall_returns_nested : ∃ m m₁ m₂ m₂' m₃ m' : Machine,
    deliver 0x00800100 0 (frameOf m) m = some m₁ ∧
      run (pgfaultUpcall 0x00802000) 0x00800100 3 m₁ = some m₂ ∧ OnStack m₂ ∧
      Handled 0x00800100 0x00802000 1 m₂ m₂' ∧
      HandlerRun (Handled 0x00800100 0x00802000 1) (faultStack (m.reg .esp)).toNat m₂' m₃ ∧
      run (pgfaultUpcall 0x00802000) 0x00800100 14 m₃ = some m' ∧ Resumes m m' ∧
      m'.mem = leftMem m₃.mem (faultStack (m.reg .esp)) (m.reg .esp) m.eip := by
  obtain ⟨m, hm⟩ : ∃ m, m = plain (fun _ _ => true) fun _ _ => rfl := ⟨_, rfl⟩
  have hroomy : Roomy m := hm ▸ plain_roomy (fun _ _ => rfl) fun _ _ => rfl
  have hnot : NotTop m := hm ▸ plain_not_top fun _ _ => rfl
  have hstack : faultStack (m.reg .esp) = uxstacktop - 52 := hm ▸ plain_stack
  have hmayAll : m.may = fun _ _ => true := by
    rw [hm]
    rfl
  have hread : ∀ {f : Machine}, f.may = m.may → f.Legal false 0x00802000 := fun hf =>
    Machine.legal_iff.2 fun i hi => ⟨by change 0x802000 + i < _; omega, by rw [hf, hmayAll]⟩
  obtain ⟨m₁, m₂, hdeliver, hentered, hesp₂, hmay₂⟩ :=
    exists_entered hroomy 0x00800100 0x00802000 (hread rfl)
  -- the nested fault, two words below the first record
  have hespNat : (m₂.reg .esp).toNat = 4005560260 := by
    rw [hesp₂, hstack, show uxstacktop - 52 - 4 - 4 = uxstacktop - 60 from by bv_omega,
      BitVec.toNat_sub, uxstacktop_eq]
    rfl
  have hon₂ : OnStack m₂ := by
    unfold OnStack
    rw [uxstack_eq, uxstacktop_eq, hespNat]
    omega
  have hroomy₂ : Roomy m₂ := by
    refine ⟨fun a hlo hhi => hmay₂ ▸ hroomy.may a hlo hhi, fun _ => ?_⟩
    rw [uxstack_eq, hespNat]
    omega
  obtain ⟨f₃, hcalled₂, hmayf⟩ := exists_called hroomy₂ 0x00800100 0x00802000
    (Handled 0x00800100 0x00802000 0) (hread hmay₂) m₂.may m₂.may_read fun _ _ _ => rfl
  obtain ⟨tf, htrap, hback⟩ := hcalled₂.back fun _ _ _ hfault => absurd hfault id
  have hlegal : ∀ {f : Machine} {v : Word}, f.may = m.may → v.toNat + 4 ≤ 2 ^ 32 →
      f.Legal true v := fun hf hv => Machine.legal_iff.2 fun i hi => ⟨by omega, by rw [hf, hmayAll]⟩
  have h4 : (4 : Word).toNat = 4 := rfl
  have hsub₂ : (m₂.reg .esp - 4).toNat = 4005560256 := by
    rw [BitVec.toNat_sub_of_le (by rw [BitVec.le_def, h4]; omega), hespNat]
    rfl
  obtain ⟨m₂', hrun₂⟩ := (hback.runs_iff htrap hcalled₂.esp hcalled₂.eip hon₂.not_top).2
    (hlegal (hmayf.trans hmay₂) (by omega))
  have hhandled : Handled 0x00800100 0x00802000 1 m₂ m₂' := ⟨f₃, hcalled₂, hrun₂⟩
  have hmay₂' : m₂'.may = m.may :=
    (exec_all_may ((run_rest hcalled₂.eip).1 hrun₂)).trans (hmayf.trans hmay₂)
  -- the handler returns
  obtain ⟨m₃, hm₃⟩ : ∃ m₃, m₃ = returned 0x00800100 (faultStack (m.reg .esp)) m₂' := ⟨_, rfl⟩
  have hcode : HandlerRun (Handled 0x00800100 0x00802000 1) (faultStack (m.reg .esp)).toNat m₂' m₃ :=
    hm₃ ▸ .code (follows_returned _ _ _ _) (.refl _)
  have htop : (m₂.reg .esp).toNat ≤ (faultStack (m.reg .esp)).toNat := by
    rw [hstack, top_record, hespNat]
    omega
  have hcalled : Called 0x00800100 0x00802000 (Handled 0x00800100 0x00802000 1) m m₃ := by
    refine ⟨⟨0, frameOf m, m₁, m₂, trapped_frame m, hdeliver, hentered,
      .fault hon₂ htop hhandled hcode⟩, ?_, ?_⟩
    · rw [hm₃]
      rfl
    · rw [hm₃]
      simp [returned]
  obtain ⟨hiff, hresumes⟩ := upcall_returns 0x00800100 0x00802000 1 m m₃ hcalled hnot
  have hespm : (m.reg .esp - 4).toNat = 4005552124 := by
    rw [hm]
    rfl
  obtain ⟨m', hrun⟩ := hiff.2 (hlegal (by rw [hm₃]; exact hmay₂') (by omega))
  exact ⟨m, m₁, m₂, m₂', m₃, m', hdeliver, hentered, hon₂, hhandled, hcode, hrun, hresumes m' hrun⟩

/-- If leaving `eip` on a stack other than the exception stack faults, and that fault is handled, the
environment goes on at its instruction and on its stack, but `eax` is the address of the record,
`ebx` is `eip`, and the other registers are those that the first handler left. -/
theorem upcall_push_faults (upcall handler : Word) (n k : Nat) (m m₃ m₄ m₅ m' : Machine)
    (hcalled : Called upcall handler (Handled upcall handler n) m m₃) (hnot : NotTop m)
    (hoff : ¬ OnStack m) (hfind : run (pgfaultUpcall handler) upcall 4 m₃ = some m₄)
    (hfault : Handled upcall handler k m₄ m₅)
    (hrun : run (pgfaultUpcall handler) upcall 10 m₅ = some m') :
    m'.eip = m.eip ∧ m'.reg .esp = m.reg .esp ∧ m'.reg .eax = uxstacktop - 52 ∧
      m'.reg .ebx = m.eip ∧
      ∀ r, r ≠ .eax → r ≠ .ebx → r ≠ .esp → m'.reg r = m₃.reg r := by
  obtain ⟨tf, htrap, hback⟩ := hcalled.back fun m m' hon hfault =>
    (hfault.transparent hon.not_top).follows hon
  obtain ⟨m₄', hexec, hfound, hesp₄, hebx₄⟩ := hback.find htrap hcalled.esp
  rw [(run_find_stack hcalled.eip).1 hfind] at hexec
  cases hexec
  have hu : faultStack (m.reg .esp) = uxstacktop - 52 := by
    rcases fault_stack_cases (m.reg .esp) with ⟨hon, -⟩ | ⟨-, hu⟩
    · exact absurd hon hoff
    · exact hu
  -- the nested fault is at the same stack pointer, and so its record at the same place
  have hnot₄ : NotTop m₄ := by
    unfold NotTop
    rw [hesp₄]
    exact hnot
  have htransparent := hfault.transparent hnot₄
  obtain ⟨tf₄, htrap₄, hwords₄⟩ := htransparent.words
  have hrecord := htransparent.record
  rw [hesp₄] at hwords₄ hrecord
  have heip₄ : m₄.eip = upcall + 21 := by
    have hfwd := exec_all_eip (by decide) ((run_find_stack hcalled.eip).1 hfind)
    rw [hfwd, hcalled.eip, BitVec.add_assoc]
    rfl
  have hexec := (run_restore (htransparent.eip.trans heip₄)).1 hrun
  have hesp₅ : m₅.reg .esp = m.reg .esp := (htransparent.reg .esp).trans hesp₄
  have heax₅ : m₅.reg .eax = faultStack (m.reg .esp) := (htransparent.reg .eax).trans hfound.eax
  have hlegal := restore_legal hexec
  rw [hesp₅] at hlegal
  have hapart := apart_of_not_top hnot
  obtain ⟨m₆, hexec₆, hres⟩ := restore_spec hrecord heax₅ hesp₅ hlegal hapart
  rw [hexec] at hexec₆
  cases hexec₆
  have hkeep := hwords₄.congr fun k hk => left_mem_record m₅.mem (m₅.reg .ebx) hapart hk
  refine ⟨?_, hres.esp, ?_, ?_, fun r heax hebx hesp => ?_⟩
  · rw [hres.eip, htransparent.reg, hebx₄]
  · rw [hres.eax, hkeep.eax, htrap₄.eax, hfound.eax, hu]
  · rw [hres.ebx, hkeep.ebx, htrap₄.ebx, hebx₄]
  · rw [← hfound.others r heax hebx hesp]
    cases r with
    | edi => rw [hres.edi, hkeep.edi, htrap₄.edi]
    | esi => rw [hres.esi, hkeep.esi, htrap₄.esi]
    | ebp => rw [hres.ebp, hkeep.ebp, htrap₄.ebp]
    | edx => rw [hres.edx, hkeep.edx, htrap₄.edx]
    | ecx => rw [hres.ecx, hkeep.ecx, htrap₄.ecx]
    | eax => exact absurd rfl heax
    | ebx => exact absurd rfl hebx
    | esp => exact absurd rfl hesp

/-- A stack that may not be written when the handler returns first. -/
theorem upcall_push_faults_plain : ∃ m m₃ m₄ m₅ m' : Machine,
    Called 0x00800100 0x00802000 (Handled 0x00800100 0x00802000 0) m m₃ ∧
      run (pgfaultUpcall 0x00802000) 0x00800100 4 m₃ = some m₄ ∧
      ¬ m₄.Legal true (m₄.reg .esp - 4) ∧ Handled 0x00800100 0x00802000 1 m₄ m₅ ∧
      run (pgfaultUpcall 0x00802000) 0x00800100 10 m₅ = some m' ∧
      m'.eip = m.eip ∧ m'.reg .esp = m.reg .esp ∧ m'.reg .eax = uxstacktop - 52 ∧
      m'.reg .ebx = m.eip ∧ ∀ r, r ≠ .eax → r ≠ .ebx → r ≠ .esp → m'.reg r = m₃.reg r := by
  have hmay : ∀ a, (fun write a => !write || decide (uxstack ≤ a)) true a = true →
      (fun write a => !write || decide (uxstack ≤ a)) false a = true := fun _ _ => rfl
  obtain ⟨m, hm⟩ : ∃ m, m = plain (fun write a => !write || decide (uxstack ≤ a)) hmay := ⟨_, rfl⟩
  have hroomy : Roomy m := by
    rw [hm]
    exact plain_roomy hmay fun a ha => by simpa using ha
  have hnot : NotTop m := hm ▸ plain_not_top hmay
  have hespNat : (m.reg .esp).toNat = 4005552128 := by
    rw [hm]
    rfl
  have hoff : ¬ OnStack m := fun hon => by
    have hlow := hon.1
    rw [uxstack_eq] at hlow
    omega
  have hread : ∀ m' : Machine, m'.may = m.may → m'.Legal false 0x00802000 := fun m' hm' =>
    Machine.legal_iff.2 fun i hi => ⟨by change 0x802000 + i < _; omega, by rw [hm', hm]; rfl⟩
  obtain ⟨m₃, hcalled, hmay₃⟩ := exists_called hroomy 0x00800100 0x00802000
    (Handled 0x00800100 0x00802000 0) (hread m rfl) m.may m.may_read fun _ _ _ => rfl
  obtain ⟨tf, htrap, hback⟩ := hcalled.back fun _ _ _ hfault => absurd hfault id
  obtain ⟨m₄, hfind, hfound, hesp₄, -⟩ := hback.find htrap hcalled.esp
  -- the second fault: now the handler makes the stack writable
  have hmay₄ : m₄.may = m.may := hfound.may.trans hmay₃
  have hroomy₄ : Roomy m₄ := by
    refine ⟨fun a hlo hhi => hmay₄ ▸ hroomy.may a hlo hhi, fun hon => ?_⟩
    unfold OnStack at hon
    rw [hesp₄] at hon
    exact absurd hon hoff
  have hnot₄ : NotTop m₄ := by
    unfold NotTop
    rw [hesp₄]
    exact hnot
  obtain ⟨m₃', hcalled', hmay₃'⟩ := exists_called hroomy₄ 0x00800100 0x00802000
    (Handled 0x00800100 0x00802000 0) (hread m₄ hmay₄) (fun _ _ => true) (fun _ _ => rfl)
    fun a hlo hhi => (hroomy₄.may a hlo hhi).symm
  obtain ⟨tf', htrap', hback'⟩ := hcalled'.back fun _ _ _ hfault => absurd hfault id
  have h4 : (4 : Word).toNat = 4 := rfl
  have hsub : (m.reg .esp - 4).toNat = 4005552124 := by
    rw [BitVec.toNat_sub_of_le (by rw [BitVec.le_def, h4]; omega)]
    omega
  have hlegal : ∀ m' : Machine, m'.may = (fun _ _ => true) → m'.Legal true (m.reg .esp - 4) :=
    fun m' hm' => Machine.legal_iff.2 fun i hi => ⟨by omega, by rw [hm']⟩
  obtain ⟨m₅, hrun₅⟩ := (hback'.runs_iff htrap' hcalled'.esp hcalled'.eip hnot₄).2
    (hesp₄ ▸ hlegal m₃' hmay₃')
  have hfault : Handled 0x00800100 0x00802000 1 m₄ m₅ := ⟨m₃', hcalled', hrun₅⟩
  have htransparent := hfault.transparent hnot₄
  have hrecord := htransparent.record
  rw [hesp₄] at hrecord
  have heip₄ : m₄.eip = 0x00800100 + 21 := by
    rw [exec_all_eip (by decide) hfind, hcalled.eip, BitVec.add_assoc]
    rfl
  have hmay₅ : m₅.may = fun _ _ => true :=
    (exec_all_may ((run_rest hcalled'.eip).1 hrun₅)).trans hmay₃'
  obtain ⟨m', hexec, -⟩ := restore_spec hrecord ((htransparent.reg .eax).trans hfound.eax)
    ((htransparent.reg .esp).trans hesp₄) (hlegal m₅ hmay₅) (apart_of_not_top hnot)
  have hrun₄ : run (pgfaultUpcall 0x00802000) 0x00800100 4 m₃ = some m₄ :=
    (run_find_stack hcalled.eip).2 hfind
  have hrun' : run (pgfaultUpcall 0x00802000) 0x00800100 10 m₅ = some m' :=
    (run_restore (htransparent.eip.trans heip₄)).2 hexec
  have hillegal : ¬ m₄.Legal true (m₄.reg .esp - 4) := by
    intro hyes
    have hwrite := ((Machine.legal_iff.1 hyes) 0 (by omega)).2
    rw [hesp₄, hsub, hmay₄, hm] at hwrite
    have hstack := uxstack_eq
    have hle : uxstack ≤ 4005552124 := by simpa [plain] using hwrite
    omega
  exact ⟨m, m₃, m₄, m₅, m', hcalled, hrun₄, hillegal, hfault, hrun',
    upcall_push_faults 0x00800100 0x00802000 0 1 m m₃ m₄ m₅ m' hcalled hnot hoff hrun₄ hfault hrun'⟩

end Labs.Jos.Upcall
