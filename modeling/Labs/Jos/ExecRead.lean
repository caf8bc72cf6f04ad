import Labs.Jos.ArgBuf
import Labs.Jos.TrapRefines

/-!
# What exec reads

`sys_exec` reads the header of the image, the program headers and the arguments before it changes
anything. Up to there only the logs and the address space of the CPU are different, and what it has
read is what lies in the memory of the caller. The statements are about calls that return: a check
that fails destroys the caller.
-/

namespace Labs.Jos

open Prog

variable {s s' s₁ t u : Kernel} {k : CpuId} {c : EnvIx} {dir : Nat} {argv binary str va : Word}

/-! ## States that look the same -/

/-- CPU `k` has loaded the directory in page `dir`. -/
def Kernel.loaded (s : Kernel) (k : CpuId) (dir : Nat) : Kernel :=
  s.setCpu k fun cpu => { cpu with cr3 := dir, tlb := fun _ _ => False }

theorem lcr3_eq (k : CpuId) (dir : Nat) (s : Kernel) : lcr3 k dir s = .ret () (s.loaded k dir) :=
  rfl

/-- Only the logs and the address spaces of the CPUs differ, and CPU `k` has the same current
environment. -/
structure Browsed (k : CpuId) (s s' : Kernel) : Prop extends Seen s s' where
  pages : s'.pages = s.pages
  free : s'.pageFreeList = s.pageFreeList
  cur : (s'.cpus k).cpuEnv = (s.cpus k).cpuEnv

namespace Browsed

theorem refl (k : CpuId) (s : Kernel) : Browsed k s s := ⟨Seen.refl s, rfl, rfl, rfl⟩

theorem trans (h : Browsed k s t) (h' : Browsed k t u) : Browsed k s u :=
  ⟨h.toSeen.trans h'.toSeen, h'.pages.trans h.pages, h'.free.trans h.free, h'.cur.trans h.cur⟩

theorem of_looked (h : Looked s s') : Browsed k s s' := by
  obtain ⟨log, addr, rfl⟩ := h
  exact ⟨⟨rfl, rfl, rfl⟩, rfl, rfl, rfl⟩

theorem loaded (k : CpuId) (s : Kernel) (dir : Nat) : Browsed k s (s.loaded k dir) := by
  refine ⟨⟨rfl, rfl, rfl⟩, rfl, rfl, ?_⟩
  show (Function.update s.cpus k _ k).cpuEnv = _
  rw [Function.update_self]

end Browsed

/-- What lies in user memory depends on the memory and on the loaded directory only. -/
theorem user_bytes_congr (hmem : t.mem = s.mem) (hcr3 : (t.cpus k).cr3 = (s.cpus k).cr3) (n : Nat)
    (va : Word) : t.userBytes k n va = s.userBytes k n va := by
  have hbyte : ∀ a, t.userByte k a = s.userByte k a := by
    intro a
    unfold Kernel.userByte Kernel.physByte
    rw [hmem, hcr3]
  induction n generalizing va with
  | zero => rfl
  | succ n ih =>
      show (do let b ← t.userByte k va; let rest ← t.userBytes k n (va + 1); some (b :: rest)) = _
      rw [hbyte, ih]
      rfl

theorem loaded_cr3 (s : Kernel) (k : CpuId) (dir : Nat) : ((s.loaded k dir).cpus k).cr3 = dir := by
  show (Function.update s.cpus k _ k).cr3 = dir
  rw [Function.update_self]

/-- A state that looks the same has the same bytes in the address space `dir`. -/
theorem Seen.user_bytes (h : Seen s s') (hcr3 : (s'.cpus k).cr3 = dir) (n : Nat) (va : Word) :
    s'.userBytes k n va = (s.loaded k dir).userBytes k n va :=
  user_bytes_congr (s := s.loaded k dir) h.mem (hcr3.trans (loaded_cr3 s k dir).symm) n va

theorem Seen.user_bytes_loaded (h : Seen s s') (n : Nat) (va : Word) :
    (s'.loaded k dir).userBytes k n va = (s.loaded k dir).userBytes k n va :=
  user_bytes_congr (s := s.loaded k dir) (t := s'.loaded k dir) h.mem
    ((loaded_cr3 s' k dir).trans (loaded_cr3 s k dir).symm) n va

/-- The bytes one by one. -/
theorem user_bytes_iff {n : Nat} {bytes : List Byte} : s.userBytes k n va = some bytes ↔
    bytes.length = n ∧ ∀ i < n, s.userByte k (va + BitVec.ofNat 32 i) = some (bytes.getD i 0) := by
  induction n generalizing va bytes with
  | zero =>
      refine ⟨fun h => ?_, fun h => ?_⟩
      · cases h
        exact ⟨rfl, fun i hi => (by cases hi)⟩
      · rw [List.length_eq_zero_iff.mp h.1]
        rfl
  | succ n ih =>
      have hnext : ∀ i, va + BitVec.ofNat 32 (i + 1) = va + 1 + BitVec.ofNat 32 i := by
        intro i
        rw [BitVec.add_assoc, BitVec.ofNat_add, BitVec.add_comm (BitVec.ofNat 32 i)]
        rfl
      have hunfold : s.userBytes k (n + 1) va = some bytes ↔
          ∃ b rest, s.userByte k va = some b ∧ s.userBytes k n (va + 1) = some rest ∧
            b :: rest = bytes := by
        show (do let b ← s.userByte k va; let rest ← s.userBytes k n (va + 1); some (b :: rest)) =
          some bytes ↔ _
        simp [Option.bind_eq_some_iff]
      rw [hunfold]
      constructor
      · rintro ⟨b, rest, hb, hrest, rfl⟩
        obtain ⟨hlen, hall⟩ := ih.mp hrest
        refine ⟨by rw [List.length_cons, hlen], fun i hi => ?_⟩
        cases i with
        | zero =>
            rw [BitVec.add_zero]
            exact hb
        | succ i =>
            rw [hnext]
            exact hall i (Nat.lt_of_succ_lt_succ hi)
      · intro h
        obtain ⟨hlen, hall⟩ := h
        cases bytes with
        | nil => cases hlen
        | cons b rest =>
            have hfirst := hall 0 (Nat.zero_lt_succ n)
            rw [BitVec.add_zero] at hfirst
            refine ⟨b, rest, hfirst, ih.mpr ⟨Nat.succ.inj hlen, fun i hi => ?_⟩, rfl⟩
            have hbyte := hall (i + 1) (Nat.succ_lt_succ hi)
            rwa [hnext] at hbyte

/-! ## Strings -/

/-- The string `arg`, with its terminator, lies at `str` in the loaded address space. -/
structure CStringIn (u : Kernel) (k : CpuId) (str : Word) (arg : List Byte) : Prop where
  bytes : u.userBytes k arg.length str = some arg
  ends : ∃ chars : List Byte, arg = chars ++ [0] ∧ (0 : Byte) ∉ chars

/-- The bytes from offset `n` of `str` up to offset `m` are characters. -/
def CharsIn (u : Kernel) (k : CpuId) (str : Word) (n m : Nat) : Prop :=
  ∀ i, n ≤ i → i < m → ∃ b, b ≠ 0 ∧ u.userByte k (str + BitVec.ofNat 32 i) = some b

/-- The string ends at offset `m`. -/
theorem CStringIn.length_eq {arg : List Byte} (h : CStringIn u k str arg) {m : Nat}
    (hchars : CharsIn u k str 0 m) (hend : u.userByte k (str + BitVec.ofNat 32 m) = some 0) :
    arg.length = m + 1 := by
  obtain ⟨chars, rfl, hno⟩ := h.ends
  have hlen : (chars ++ [0]).length = chars.length + 1 := List.length_append
  obtain ⟨-, hall⟩ := user_bytes_iff.mp h.bytes
  rw [hlen] at hall
  rw [hlen]
  congr 1
  rcases Nat.lt_trichotomy chars.length m with hlt | heq | hgt
  · -- the terminator would be a character
    obtain ⟨b, hne, hb⟩ := hchars chars.length (Nat.zero_le _) hlt
    rw [hall chars.length (Nat.lt_succ_self _), List.getD_append_right _ _ _ _ (Nat.le_refl _),
      Nat.sub_self] at hb
    exact absurd (Option.some.inj hb).symm hne
  · exact heq
  · -- the end would be a character
    rw [hall m (by omega), List.getD_append _ _ _ _ hgt, List.getD_eq_getElem _ _ hgt] at hend
    exact absurd (Option.some.inj hend ▸ List.getElem_mem hgt) hno

/-- A string is longer than its characters read so far. -/
theorem CStringIn.lt_length {arg : List Byte} (h : CStringIn u k str arg) {m : Nat}
    (hchars : CharsIn u k str 0 m) : m < arg.length := by
  obtain ⟨chars, rfl, hno⟩ := h.ends
  have hlen : (chars ++ [0]).length = chars.length + 1 := List.length_append
  obtain ⟨-, hall⟩ := user_bytes_iff.mp h.bytes
  rw [hlen] at hall ⊢
  by_contra hge
  obtain ⟨b, hne, hb⟩ := hchars chars.length (Nat.zero_le _) (by omega)
  rw [hall chars.length (Nat.lt_succ_self _), List.getD_append_right _ _ _ _ (Nat.le_refl _),
    Nat.sub_self] at hb
  exact absurd (Option.some.inj hb).symm hne

/-- Characters up to a terminator are a string. -/
theorem c_string_of_chars {m : Nat} {bytes : List Byte} (hchars : CharsIn u k str 0 m)
    (hend : u.userByte k (str + BitVec.ofNat 32 m) = some 0)
    (hbytes : u.userBytes k (m + 1) str = some bytes) : CStringIn u k str bytes := by
  obtain ⟨hlen, hall⟩ := user_bytes_iff.mp hbytes
  refine ⟨by rw [hlen]; exact hbytes, bytes.take m, ?_, fun hzero => ?_⟩
  · have hlast : bytes.getD m 0 = 0 :=
      Option.some.inj ((hall m (Nat.lt_succ_self m)).symm.trans hend)
    rw [List.getD_eq_getElem _ _ (by omega)] at hlast
    have hsplit : bytes = bytes.take m ++ bytes.drop m := (List.take_append_drop m bytes).symm
    have hdrop : bytes.drop m = [0] := by
      rw [List.drop_eq_getElem_cons (by omega), hlast, List.drop_eq_nil_of_le (by omega)]
    rwa [hdrop] at hsplit
  · obtain ⟨i, hi, hget⟩ := List.getElem_of_mem hzero
    rw [List.length_take] at hi
    obtain ⟨b, hne, hb⟩ := hchars i (Nat.zero_le _) (by omega)
    rw [List.getElem_take] at hget
    rw [hall i (by omega), List.getD_eq_getElem _ _ (by omega), hget] at hb
    exact absurd (Option.some.inj hb).symm hne

/-! ## The argument loop -/

/-- Any postcondition of an exit. -/
theorem returns_of_leaves {α : Type} {x : Kern α} {Q : α → Kernel → Prop} {E : Exit → Kernel → Prop}
    (h : wp x Q E s) : wp x Q (fun _ _ => True) s :=
  wp_mono h (fun _ _ h => h) fun _ _ _ => trivial

/-- A check of the current environment that returns has changed the log only. -/
theorem user_mem_assert_returns (hcur : (s.cpus k).cpuEnv = some c) (va len perm : Word) :
    wp (userMemAssert k c va len perm) (fun _ s' => Browsed k s s') (fun _ _ => True) s :=
  wp_mono (user_mem_assert_spec (g := .none) hcur va len perm) (fun _ _ h => Browsed.of_looked h)
    fun _ _ _ => trivial

/-- The pointer `argv[n]` is `p`. -/
def SlotIn (u : Kernel) (k : CpuId) (argv : Word) (n : Nat) (p : Word) : Prop :=
  ∃ bytes, u.userBytes k 4 (argv + BitVec.ofNat 32 (4 * n)) = some bytes ∧ wordAt bytes 0 = p

/-- The beginning of an iteration reads the pointer. -/
theorem exec_slot_returns (hcur : (s.cpus k).cpuEnv = some c) (h : Browsed k s₁ s) (n : Nat) :
    wp (execSlot k c dir argv n)
      (fun p s' => Browsed k s₁ s' ∧ SlotIn (s₁.loaded k dir) k argv n p) (fun _ _ => True) s := by
  rw [execSlot, wp_bind]
  refine wp_mono_ret (user_mem_assert_returns hcur _ _ _) fun _ t ht => ?_
  rw [wp_bind, wp_of_ret (lcr3_eq k dir t), wp_bind]
  refine wp_mono_ret (returns_of_leaves (load_bytes_spec (g := .none) 4 _ _))
    fun bytes t₂ hres => ?_
  obtain ⟨hlook, hbytes⟩ := hres
  rw [wp_bind, wp_gets, wp_bind, wp_of_ret (lcr3_eq k _ t₂), wp_pure]
  have h₁ := h.trans ht
  have h₂ := (h₁.trans (Browsed.loaded k t dir)).trans (Browsed.of_looked hlook)
  refine ⟨h₂.trans (Browsed.loaded k t₂ _), bytes, ?_, rfl⟩
  rw [← h₁.user_bytes_loaded]
  exact hbytes

/-- What the loop that measures a string from offset `n` on finds out: the offset of the terminator,
or more characters than the limit. -/
def Measured (u : Kernel) (k : CpuId) (str limit : Word) (n : Nat) : Option Word → Prop
  | some len => ∃ m, len = BitVec.ofNat 32 m ∧ n ≤ m ∧ m < 2 ^ 32 ∧ CharsIn u k str n m ∧
      u.userByte k (str + BitVec.ofNat 32 m) = some 0 ∧ (m = n ∨ m < limit.toNat)
  | none => ∃ m, n < m ∧ limit.toNat ≤ m ∧ CharsIn u k str n m

/-- One more character in front. -/
theorem Measured.cons {limit : Word} {n : Nat} {r : Option Word} {b : Byte}
    (h : Measured u k str limit (n + 1) r) (hne : b ≠ 0)
    (hb : u.userByte k (str + BitVec.ofNat 32 n) = some b) (hlimit : n + 1 < 2 ^ 32 →
      n + 1 < limit.toNat) : Measured u k str limit n r := by
  have hchars : ∀ m, CharsIn u k str (n + 1) m → CharsIn u k str n m := by
    intro m hm i hi hlt
    by_cases hin : i = n
    · subst hin
      exact ⟨b, hne, hb⟩
    · exact hm i (by omega) hlt
  cases r with
  | none =>
      obtain ⟨m, hlt, hle, hm⟩ := h
      exact ⟨m, by omega, hle, hchars m hm⟩
  | some len =>
      obtain ⟨m, hlen, hle, hsmall, hm, hend, hcase⟩ := h
      refine ⟨m, hlen, by omega, hsmall, hchars m hm, hend, .inr ?_⟩
      rcases hcase with rfl | hlt
      · exact hlimit hsmall
      · exact hlt

/-- The byte that a load returns. -/
theorem load_byte_returns (h : Browsed k s₁ s) (hcr3 : (s.cpus k).cr3 = dir) (va : Word) :
    wp (loadByte k va) (fun b s' => Browsed k s₁ s' ∧ (s'.cpus k).cr3 = dir ∧
      (s₁.loaded k dir).userByte k va = some b) (fun _ _ => True) s := by
  refine wp_mono (load_byte_spec (g := .none) va s) (fun b s' ⟨hlook, hbyte⟩ => ?_)
    fun _ _ _ => trivial
  refine ⟨h.trans (Browsed.of_looked hlook), ?_, ?_⟩
  · obtain ⟨log, addr, rfl⟩ := hlook
    exact hcr3
  · rw [← hbyte]
    unfold Kernel.userByte Kernel.physByte
    rw [loaded_cr3, hcr3, h.mem]
    rfl

/-- The loop that measures a string. After a string that passes, its address space is loaded. -/
theorem exec_strlen_returns {limit : Word} (hcur : (s.cpus k).cpuEnv = some c) (h : Browsed k s₁ s)
    {fuel n : Nat} (hfuel : n + fuel = 2 ^ 32) :
    wp (execStrlen k c dir str limit fuel (BitVec.ofNat 32 n))
      (fun r s' => Browsed k s₁ s' ∧ Measured (s₁.loaded k dir) k str limit n r ∧
        (r ≠ none → (s'.cpus k).cr3 = dir)) (fun _ _ => True) s := by
  induction fuel generalizing n s with
  | zero => trivial
  | succ fuel ih =>
      rw [execStrlen, wp_bind]
      refine wp_mono_ret (user_mem_assert_returns hcur _ _ _) fun _ t ht => ?_
      rw [wp_bind, wp_of_ret (lcr3_eq k dir t), wp_bind]
      refine wp_mono_ret (load_byte_returns ((h.trans ht).trans (Browsed.loaded k t dir))
        (loaded_cr3 t k dir) _) fun b t₂ hres => ?_
      obtain ⟨h₂, hcr3, hb⟩ := hres
      rw [wp_ite]
      refine ⟨fun hzero => ⟨h₂, ⟨n, rfl, Nat.le_refl n, by omega, ?_, ?_, .inl rfl⟩,
        fun _ => hcr3⟩, fun hne => ?_⟩
      · exact fun i hle hlt => absurd hle (Nat.not_le_of_lt hlt)
      · rw [← hzero]
        exact hb
      · rw [wp_bind, wp_gets, wp_bind, wp_of_ret (lcr3_eq k _ t₂), wp_ite]
        have h₃ := h₂.trans (Browsed.loaded k t₂ t₂.kernPgdir)
        have hstep : (BitVec.ofNat 32 n + 1 : Word) = BitVec.ofNat 32 (n + 1) :=
          (BitVec.ofNat_add n 1).symm
        rw [hstep]
        refine ⟨fun hlimit => ⟨h₃, ⟨n + 1, Nat.lt_succ_self n, ?_, ?_⟩, fun h => absurd rfl h⟩,
          fun hlimit => ?_⟩
        · have hcmp : limit.toNat ≤ (BitVec.ofNat 32 (n + 1)).toNat := hlimit
          rw [BitVec.toNat_ofNat] at hcmp
          exact Nat.le_trans hcmp (Nat.mod_le _ _)
        · intro i hle hlt
          obtain rfl : i = n := by omega
          exact ⟨b, hne, hb⟩
        · have hcur₃ : ((t₂.loaded k t₂.kernPgdir).cpus k).cpuEnv = some c := by
            rw [h₃.cur, ← h.cur]
            exact hcur
          refine wp_mono_ret (ih hcur₃ h₃ (by omega)) fun r t₄ hres => ?_
          obtain ⟨h₄, hmeas, hcr3'⟩ := hres
          refine ⟨h₄, hmeas.cons hne hb fun hlt => ?_, hcr3'⟩
          have hcmp : ¬ limit.toNat ≤ (BitVec.ofNat 32 (n + 1)).toNat := hlimit
          rw [BitVec.toNat_ofNat, Nat.mod_eq_of_lt hlt] at hcmp
          omega

/-! ## All arguments -/

/-- The string `arg` is accepted with `args` in `argbuf`. -/
def ArgFits (args : List (List Byte)) (arg : List Byte) : Prop :=
  arg.length = 1 ∨ stringSize args + arg.length < 512

/-- The pointers of `argv` up to `args.length` are pointers to `args`, each of which is accepted
behind those before it. -/
def ArgsRead (u : Kernel) (k : CpuId) (argv : Word) (args : List (List Byte)) : Prop :=
  ∀ i arg, args[i]? = some arg → ArgFits (args.take i) arg ∧
    ∃ p, p ≠ 0 ∧ SlotIn u k argv i p ∧ CStringIn u k p arg

/-- The array `argv` of the arguments `args`, all of which `sys_exec` accepts. -/
structure ArgsIn (u : Kernel) (k : CpuId) (argv : Word) (args : List (List Byte)) : Prop where
  count : args.length ≤ 32
  room : stringSize args ≤ 512
  read : ArgsRead u k argv args
  last : SlotIn u k argv args.length 0

/-- A pointer is read in one way only. -/
theorem SlotIn.unique {n : Nat} {p q : Word} (h : SlotIn u k argv n p) (h' : SlotIn u k argv n q) :
    p = q := by
  obtain ⟨bytes, hbytes, rfl⟩ := h
  obtain ⟨bytes', hbytes', rfl⟩ := h'
  rw [Option.some.inj (hbytes.symm.trans hbytes')]

/-- A string is read in one way only. -/
theorem CStringIn.unique {arg arg' : List Byte} (h : CStringIn u k str arg)
    (h' : CStringIn u k str arg') : arg = arg' := by
  have hmeasure : ∃ m, CharsIn u k str 0 m ∧ u.userByte k (str + BitVec.ofNat 32 m) = some 0 := by
    obtain ⟨chars, rfl, hno⟩ := h.ends
    have hlen : (chars ++ [0]).length = chars.length + 1 := List.length_append
    obtain ⟨-, hall⟩ := user_bytes_iff.mp h.bytes
    rw [hlen] at hall
    refine ⟨chars.length, fun i _ hi => ⟨_, ?_, hall i (by omega)⟩, ?_⟩
    · rw [List.getD_append _ _ _ _ hi, List.getD_eq_getElem _ _ hi]
      exact fun hzero => hno (hzero ▸ List.getElem_mem hi)
    · rw [hall chars.length (Nat.lt_succ_self _), List.getD_append_right _ _ _ _ (Nat.le_refl _),
        Nat.sub_self]
      rfl
  obtain ⟨m, hchars, hend⟩ := hmeasure
  have hlen : arg.length = arg'.length :=
    (h.length_eq hchars hend).trans (h'.length_eq hchars hend).symm
  have hbytes := h'.bytes
  rw [← hlen, h.bytes] at hbytes
  exact Option.some.inj hbytes

/-- The size of the arguments with one more. -/
theorem string_size_append (args : List (List Byte)) (arg : List Byte) :
    stringSize (args ++ [arg]) = stringSize args + arg.length := by
  unfold stringSize
  rw [List.map_append, List.sum_append, List.map_singleton, List.sum_singleton]

/-- Another argument is read. -/
theorem ArgsRead.snoc {args : List (List Byte)} {arg : List Byte} {p : Word}
    (h : ArgsRead u k argv args) (hfits : ArgFits args arg) (hne : p ≠ 0)
    (hslot : SlotIn u k argv args.length p) (hstr : CStringIn u k p arg) :
    ArgsRead u k argv (args ++ [arg]) := by
  intro i a ha
  rcases Nat.lt_trichotomy i args.length with hlt | heq | hgt
  · rw [List.getElem?_append_left hlt] at ha
    rw [List.take_append_of_le_length (Nat.le_of_lt hlt)]
    exact h i a ha
  · subst heq
    rw [List.getElem?_append_right (Nat.le_refl _), Nat.sub_self] at ha
    cases ha
    rw [List.take_append_of_le_length (Nat.le_refl _), List.take_length]
    exact ⟨hfits, p, hne, hslot, hstr⟩
  · rw [List.getElem?_eq_none (by simp; omega)] at ha
    cases ha

/-- A string that was measured and copied. -/
theorem Measured.c_string {limit len : Word} {bytes : List Byte}
    (h : Measured u k str limit 0 (some len))
    (hbytes : u.userBytes k (len.toNat + 1) str = some bytes) :
    CStringIn u k str bytes ∧ (bytes.length = 1 ∨ bytes.length ≤ limit.toNat) := by
  obtain ⟨m, rfl, -, hsmall, hchars, hend, hcase⟩ := h
  rw [BitVec.toNat_ofNat, Nat.mod_eq_of_lt hsmall] at hbytes
  have hstr := c_string_of_chars hchars hend hbytes
  refine ⟨hstr, ?_⟩
  rw [hstr.length_eq hchars hend]
  omega

/-- The argument loop accepts exactly the arrays that `ArgsIn` describes. -/
theorem exec_args_returns_args (hcur : (s.cpus k).cpuEnv = some c) (h : Browsed k s₁ s) {fuel : Nat}
    {args : List (List Byte)} (hread : ArgsRead (s₁.loaded k dir) k argv args)
    (hroom : stringSize args ≤ 512) (hfuel : fuel + args.length = 33) :
    wp (execArgs k c dir argv fuel args)
      (fun r s' => Browsed k s₁ s' ∧ match r with
        | .ok all => ArgsIn (s₁.loaded k dir) k argv all
        | .error _ => ∀ all, args <+: all → ¬ ArgsIn (s₁.loaded k dir) k argv all)
      (fun _ _ => True) s := by
  induction fuel generalizing s args with
  | zero =>
      refine ⟨h, fun all hpre hall => ?_⟩
      have hcount := hall.count
      have hle := hpre.length_le
      omega
  | succ fuel ih =>
      rw [exec_args_succ, wp_bind]
      refine wp_mono_ret (exec_slot_returns hcur h args.length) fun p t ⟨ht, hslot⟩ => ?_
      have hcur₁ : (t.cpus k).cpuEnv = some c := by
        rw [ht.cur, ← h.cur]
        exact hcur
      -- an array of more arguments has the one that the pointer points to
      have hmore : p ≠ 0 → ∀ all, args <+: all → ArgsIn (s₁.loaded k dir) k argv all →
          ∃ arg, all[args.length]? = some arg ∧ args.length < 32 ∧ ArgFits args arg ∧
            CStringIn (s₁.loaded k dir) k p arg := by
        intro hne all hpre hall
        have hlt : args.length < all.length := by
          refine Nat.lt_of_le_of_ne hpre.length_le fun heq => hne ?_
          exact (heq ▸ hslot).unique hall.last
        have hcount := hall.count
        have hget : all[args.length]? = some all[args.length] := List.getElem?_eq_getElem hlt
        obtain ⟨hfits, q, -, hslot', hstr⟩ := hall.read _ _ hget
        rw [← List.prefix_iff_eq_take.mp hpre] at hfits
        rw [← hslot.unique hslot'] at hstr
        exact ⟨_, hget, by omega, hfits, hstr⟩
      rw [wp_ite]
      refine ⟨fun hzero => ⟨ht, ⟨by omega, hroom, hread, hzero ▸ hslot⟩⟩, fun hne => ?_⟩
      rw [wp_ite]
      refine ⟨fun hmany => ⟨ht, fun all hpre hall => ?_⟩, fun hfew => ?_⟩
      · obtain ⟨_, -, hlt, -⟩ := hmore hne all hpre hall
        omega
      · rw [wp_bind]
        refine wp_mono_ret (exec_strlen_returns hcur₁ ht (by rfl)) fun r t₂ ⟨h₂, hmeas, hcr3⟩ => ?_
        cases r with
        | none =>
            obtain ⟨m, hpos, hle, hchars⟩ := hmeas
            refine ⟨h₂, fun all hpre hall => ?_⟩
            obtain ⟨arg, -, -, hfits, hstr⟩ := hmore hne all hpre hall
            have hlong := hstr.lt_length hchars
            have hfree : stringSize args + arg.length < 512 := hfits.resolve_left (by omega)
            rw [arg_limit_to_nat (by omega)] at hle
            omega
        | some len =>
            have hcur₂ : (t₂.cpus k).cpuEnv = some c := by
              rw [h₂.cur, ← h.cur]
              exact hcur
            rw [wp_bind]
            refine wp_mono_ret (returns_of_leaves (load_bytes_spec (g := .none) _ _ _))
              fun bytes t₃ ⟨hlook, hbytes⟩ => ?_
            rw [h₂.user_bytes (hcr3 (by simp))] at hbytes
            obtain ⟨hstr, hlen⟩ := hmeas.c_string hbytes
            have h₃ := h₂.trans (Browsed.of_looked hlook)
            have hcur₃ : (t₃.cpus k).cpuEnv = some c := by
              rw [h₃.cur, ← h.cur]
              exact hcur
            rw [wp_ite]
            refine ⟨fun _ => trivial, fun hover => ?_⟩
            have hpos : 0 < bytes.length := by
              obtain ⟨chars, rfl, -⟩ := hstr.ends
              rw [List.length_append]
              exact Nat.lt_add_left _ Nat.one_pos
            have hfits : ArgFits args bytes := by
              rw [arg_limit_to_nat (by omega)] at hlen
              rcases hlen with hone | hle
              · exact .inl hone
              · exact .inr (by omega)
            refine wp_mono_ret (ih hcur₃ h₃ (hread.snoc hfits hne hslot hstr) ?_ ?_)
              fun r t₄ ⟨h₄, hr⟩ => ⟨h₄, ?_⟩
            · rw [string_size_append]
              omega
            · rw [List.length_append, List.length_singleton]
              omega
            · cases r with
              | ok all => exact hr
              | error e =>
                  intro all hpre hall
                  obtain ⟨arg, hget, -, -, hstr'⟩ := hmore hne all hpre hall
                  refine hr all ?_ hall
                  rw [hstr.unique hstr', List.prefix_iff_eq_take, List.length_append,
                    List.length_singleton, List.take_add_one, hget]
                  exact congrArg (· ++ [arg]) (List.prefix_iff_eq_take.mp hpre)

/-! ## The header -/

/-- The header of the image at `binary` and its loadable segments. -/
def Kernel.execHeader (u : Kernel) (k : CpuId) (binary : Word) : Option (Elf × List Proghdr) := do
  let elf := decodeElf (← u.userBytes k 52 binary)
  let bytes ← u.userBytes k (32 * elf.ePhnum.toNat) (binary + elf.ePhoff)
  some (elf, loadSegments elf.ePhnum.toNat bytes)

/-- `sys_exec` accepts its arguments, and the image has the magic number: the address space is
replaced. -/
structure ExecAccepts (u : Kernel) (k : CpuId) (binary argv : Word) (segs : List Proghdr) :
    Prop where
  header : ∃ elf, u.execHeader k binary = some (elf, segs) ∧ elf.eMagic = elfMagic
  args : ∃ args, ArgsIn u k argv args

/-- The part of `sys_exec` that reads the caller's memory: the directory of the caller, the header,
the loadable segments and the arguments, or the error. -/
def execPrepare (k : CpuId) (c : EnvIx) (binary argv : Word) :
    Kern (Except Int (Nat × Elf × List Proghdr × List (List Byte))) := do
  userMemAssert k c binary 52 pteU
  let pgdir ← deref (← gets fun s => (s.envs c).envPgdir)
  lcr3 k pgdir
  let elf := decodeElf (← loadBytes k 52 binary)
  let phnum := elf.ePhnum.toNat
  if 32 < phnum then panic "sys_exec: too many phdrs"
  else
    let segs := loadSegments phnum (← loadBytes k (32 * phnum) (binary + elf.ePhoff))
    match ← execArgs k c pgdir argv 33 [] with
    | .error r => pure (.error r)
    | .ok args =>
        if elf.eMagic ≠ elfMagic then pure (.error (-eNotExec))
        else pure (.ok (pgdir, elf, segs, args))

/-- `sys_exec` reads, and then it replaces the address space. -/
theorem sys_exec_eq (k : CpuId) (c : EnvIx) (binary argv : Word) :
    sysExec k c binary argv = (do
      match ← execPrepare k c binary argv with
      | .error r => pure r
      | .ok (pgdir, elf, segs, args) => execReplace k c pgdir binary elf segs args) := by
  unfold sysExec execPrepare
  simp only [bind_assoc]
  congr 1
  funext _
  congr 1
  funext dir?
  congr 1
  funext pgdir
  congr 1
  funext _
  congr 1
  funext bytes
  split
  · rfl
  · rw [bind_assoc]
    congr 1
    funext pbytes
    rw [bind_assoc]
    congr 1
    funext r
    cases r with
    | error e => rfl
    | ok args =>
        dsimp only
        split <;> rfl

/-- What `sys_exec` has read when it goes on, and that it could not go on when it fails. -/
theorem exec_prepare_spec (hcur : (s.cpus k).cpuEnv = some c) (binary argv : Word) :
    wp (execPrepare k c binary argv) (fun r s' => Browsed k s s' ∧ match r with
      | .error _ => ∃ dir, (s.envs c).envPgdir = some dir ∧
          ∀ segs, ¬ ExecAccepts (s.loaded k dir) k binary argv segs
      | .ok (dir, _, segs, args) => (s.envs c).envPgdir = some dir ∧
          ExecAccepts (s.loaded k dir) k binary argv segs ∧ ArgsIn (s.loaded k dir) k argv args)
      (fun _ _ => True) s := by
  rw [execPrepare, wp_bind]
  refine wp_mono_ret (user_mem_assert_returns hcur _ _ _) fun _ t ht => ?_
  rw [wp_bind, wp_gets, wp_bind, ht.envs]
  cases hdir : (s.envs c).envPgdir with
  | none => trivial
  | some dir =>
      rw [wp_deref_some, wp_bind, wp_of_ret (lcr3_eq k dir t), wp_bind]
      have h₁ := ht.trans (Browsed.loaded k t dir)
      refine wp_mono_ret (returns_of_leaves (load_bytes_spec (g := .none) 52 _ _))
        fun bytes t₂ ⟨hlook, hbytes⟩ => ?_
      have h₂ := h₁.trans (Browsed.of_looked hlook)
      have hcr3 : (t₂.cpus k).cr3 = dir := by
        obtain ⟨log, addr, rfl⟩ := hlook
        exact loaded_cr3 t k dir
      rw [h₁.user_bytes (loaded_cr3 t k dir)] at hbytes
      dsimp only
      generalize helf : decodeElf bytes = elf
      rw [wp_ite]
      refine ⟨fun _ => trivial, fun _ => ?_⟩
      rw [wp_bind]
      refine wp_mono_ret (returns_of_leaves (load_bytes_spec (g := .none) _ _ _))
        fun pbytes t₃ ⟨hlook₃, hpbytes⟩ => ?_
      rw [h₂.user_bytes hcr3] at hpbytes
      have h₃ := h₂.trans (Browsed.of_looked hlook₃)
      have hheader : (s.loaded k dir).execHeader k binary =
          some (elf, loadSegments elf.ePhnum.toNat pbytes) := by
        unfold Kernel.execHeader
        rw [hbytes]
        show (do
          let b ← (s.loaded k dir).userBytes k (32 * (decodeElf bytes).ePhnum.toNat)
            (binary + (decodeElf bytes).ePhoff)
          some (decodeElf bytes, loadSegments (decodeElf bytes).ePhnum.toNat b)) = _
        rw [helf, hpbytes]
        rfl
      rw [wp_bind]
      have hcur₃ : (t₃.cpus k).cpuEnv = some c := h₃.cur.trans hcur
      refine wp_mono_ret (exec_args_returns_args hcur₃ h₃ (fun i a ha => (by cases ha))
        (Nat.zero_le _) rfl) fun r t₄ ⟨h₄, hr⟩ => ?_
      cases r with
      | error e =>
          refine ⟨h₄, dir, rfl, fun segs hacc => ?_⟩
          obtain ⟨args, hargs⟩ := hacc.args
          exact hr args (List.nil_prefix) hargs
      | ok args =>
          dsimp only
          rw [wp_ite]
          refine ⟨fun hmagic => ⟨h₄, dir, rfl, fun segs hacc => ?_⟩, fun hmagic => ?_⟩
          · obtain ⟨elf', hheader', hmagic'⟩ := hacc.header
            rw [hheader] at hheader'
            cases hheader'
            exact hmagic hmagic'
          · exact ⟨h₄, rfl, ⟨⟨elf, hheader, not_not.1 hmagic⟩, args, hr⟩, hr⟩

end Labs.Jos
