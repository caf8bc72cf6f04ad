import Labs.Jos.Exec
import Labs.Jos.UserRead

/-!
# The arguments of exec

`sys_exec` copies the strings of `argv` one behind the other into `argbuf`. The limit for the next
string is computed from the bytes that are left, and compared with the length after each character.
The offsets that the loop comes to are described here for every array that the caller can read.
-/

namespace Labs.Jos

open Prog

/-- User code of `e` reads the string `str` at `va`. -/
structure StringAt (s : Kernel) (e : EnvIx) (va : Word) (str : List Byte) : Prop where
  chars : (0 : Byte) ∉ str
  bytes : BytesAt s e va (str ++ [0])

/-- The array `argv` of the strings `strs`, as user code of `e` reads it. -/
structure ArgvAt (s : Kernel) (e : EnvIx) (argv : Word) (strs : List (List Byte)) : Prop where
  arg : ∀ i str, strs[i]? = some str → ∃ p, p ≠ 0 ∧
    BytesAt s e (argv + BitVec.ofNat 32 (4 * i)) (wordBytes p) ∧ StringAt s e p str
  last : BytesAt s e (argv + BitVec.ofNat 32 (4 * strs.length)) (wordBytes 0)

/-- The beginning of an iteration of the argument loop: the pointer `argv[n]`. -/
def execSlot (k : CpuId) (c : EnvIx) (pgdir : Nat) (argv : Word) (n : Nat) : Kern Word := do
  let slot := argv + BitVec.ofNat 32 (4 * n)
  userMemAssert k c slot 4 pteU
  lcr3 k pgdir
  let bytes ← loadBytes k 4 slot
  lcr3 k (← gets Kernel.kernPgdir)
  pure (wordAt bytes 0)

/-- `sizeof(argbuf) - string_size - 1`. -/
def argLimit (args : List (List Byte)) : Word := 512 - BitVec.ofNat 32 (stringSize args) - 1

/-- An iteration of the loop begins with the pointer. -/
theorem exec_args_succ (k : CpuId) (c : EnvIx) (pgdir : Nat) (argv : Word) (fuel : Nat)
    (args : List (List Byte)) :
    execArgs k c pgdir argv (fuel + 1) args = (do
      let str ← execSlot k c pgdir argv args.length
      if str = 0 then pure (.ok args)
      else if 32 ≤ args.length then pure (.error (-eInval))
      else
        match ← execStrlen k c pgdir str (argLimit args) (2 ^ 32) 0 with
        | none => pure (.error (-eNoMem))
        | some len =>
            let bytes ← loadBytes k (len.toNat + 1) str
            if 512 < stringSize args + bytes.length then Prog.exit .undefined
            else execArgs k c pgdir argv fuel (args ++ [bytes])) := by
  rw [execArgs, execSlot]
  simp only [bind_assoc, pure_bind]
  rfl

/-- In a run of the loop from `s` on, a string at `str` is measured with `args` in `argbuf`. -/
inductive AtArg (k : CpuId) (c : EnvIx) (pgdir : Nat) (argv : Word) (s : Kernel) :
    List (List Byte) → Word → Kernel → Prop where
  | first {str : Word} {s' : Kernel} (hslot : execSlot k c pgdir argv 0 s = .ret str s')
      (hne : str ≠ 0) : AtArg k c pgdir argv s [] str s'
  | next {args : List (List Byte)} {str str' len : Word} {bytes : List Byte}
      {s₁ s₂ s₃ s' : Kernel} (hat : AtArg k c pgdir argv s args str s₁)
      (hlen : execStrlen k c pgdir str (argLimit args) (2 ^ 32) 0 s₁ = .ret (some len) s₂)
      (hcopy : loadBytes k (len.toNat + 1) str s₂ = .ret bytes s₃)
      (hslot : execSlot k c pgdir argv (args.length + 1) s₃ = .ret str' s')
      (hne : str' ≠ 0) (hlt : args.length + 1 < 32) :
      AtArg k c pgdir argv s (args ++ [bytes]) str' s'

/-- The limits that the loop computes do not underflow, and it stores inside `argbuf`. -/
structure ArgbufSafe (k : CpuId) (c : EnvIx) (pgdir : Nat) (argv : Word) (s : Kernel) : Prop where
  limit : ∀ args str s', AtArg k c pgdir argv s args str s' → stringSize args + 1 ≤ 512
  store : ∀ args str s' len s'', AtArg k c pgdir argv s args str s' →
    execStrlen k c pgdir str (argLimit args) (2 ^ 32) 0 s' = .ret (some len) s'' →
      stringSize args + len.toNat + 1 ≤ 512

/-- The size of strings with their terminators. -/
def argSize (strs : List (List Byte)) : Nat := (strs.map fun str => str.length + 1).sum

/-- An empty string takes the last byte of `argbuf`, and another string follows. -/
def Overruns (strs : List (List Byte)) : Prop :=
  ∃ i, i + 1 < 32 ∧ i + 1 < strs.length ∧ strs[i]? = some [] ∧ argSize (strs.take i) = 511

variable {s s' : Kernel} {k : CpuId} {c : EnvIx} {dir : Nat} {argv va str limit : Word}
  {strs args : List (List Byte)}

/-! ## One string -/

/-- A bit of a byte of a word, moved to its place in the word. -/
theorem byte_of_bit (w : Word) (n i : Nat) (hi : i < 32) :
    ((byteOf w n).setWidth 32 <<< (8 * n)).getLsbD i =
      (decide (8 * n ≤ i ∧ i < 8 * n + 8) && w.getLsbD i) := by
  unfold byteOf
  by_cases hlo : 8 * n ≤ i
  · have hsum : 8 * n + (i - 8 * n) = i := by omega
    have hin : i - 8 * n < 32 := by omega
    have hiff : i - 8 * n < 8 ↔ i < 8 * n + 8 := by omega
    simp [BitVec.getLsbD_setWidth, hsum, hin, hi, hlo, hiff]
  · simp [BitVec.getLsbD_shiftLeft, hlo, Nat.lt_of_not_le hlo]

/-- The word of four bytes. -/
theorem word_at_word_bytes (w : Word) : wordAt (wordBytes w) 0 = w := by
  have hfirst : (byteOf w 0).setWidth 32 = (byteOf w 0).setWidth 32 <<< (8 * 0) :=
    (BitVec.shiftLeft_zero _).symm
  have hword : wordAt (wordBytes w) 0 = (byteOf w 0).setWidth 32 |||
      (byteOf w 1).setWidth 32 <<< (8 * 1) ||| (byteOf w 2).setWidth 32 <<< (8 * 2) |||
      (byteOf w 3).setWidth 32 <<< (8 * 3) := rfl
  rw [hword, hfirst]
  ext i hi
  rw [← BitVec.getLsbD_eq_getElem, ← BitVec.getLsbD_eq_getElem]
  simp only [BitVec.getLsbD_or, byte_of_bit w _ i hi]
  rw [← Bool.and_or_distrib_right, ← Bool.and_or_distrib_right, ← Bool.and_or_distrib_right]
  simp only [← Bool.decide_or]
  rw [decide_eq_true (by omega), Bool.true_and]
/-- The pointer that is read. -/
theorem exec_slot_user (hok : DirOk s c dir) {n : Nat} {p : Word}
    (hp : BytesAt s c (argv + BitVec.ofNat 32 (4 * n)) (wordBytes p)) :
    ∃ s', execSlot k c dir argv n s = .ret p s' ∧ Seen s s' := by
  have hassert : userMemAssert k c (argv + BitVec.ofNat 32 (4 * n)) 4 pteU s = .ret () s := by
    refine user_mem_assert_accessible hok (by decide) fun a hin => ?_
    rw [BitVec.or_self]
    exact hp.accessible (show (wordBytes p).length < 2 ^ 28 by simp [wordBytes]) hin
  obtain ⟨s₁, hcr3, hseen, hloaded⟩ := lcr3_seen k dir s
  have hok₁ := hseen.dir_ok hok
  obtain ⟨s₂, hload, hseen₂, -⟩ := load_bytes_user hok₁.pgdir hloaded (hseen.bytes_at hp)
  obtain ⟨s₃, hcr3', hseen₃, -⟩ := lcr3_seen k s₂.kernPgdir s₂
  refine ⟨s₃, ?_, (hseen.trans hseen₂).trans hseen₃⟩
  have hkern : gets Kernel.kernPgdir s₂ = (.ret s₂.kernPgdir s₂ : Outcome _ Exit _) := rfl
  have hload' : loadBytes k 4 (argv + BitVec.ofNat 32 (4 * n)) s₁ = .ret (wordBytes p) s₂ := hload
  rw [execSlot, bind_of_ret hassert, bind_of_ret hcr3, bind_of_ret hload', bind_of_ret hkern,
    bind_of_ret hcr3', word_at_word_bytes]
  rfl

/-- A string ends below `ULIM`. -/
theorem StringAt.length_lt {x : List Byte} (h : StringAt s c va x) : x.length < 4018143232 := by
  have hlen : (x ++ [0]).length = x.length + 1 := List.length_append
  have hfirst := h.bytes 0 (by omega)
  rw [BitVec.add_zero] at hfirst
  have hva := user_read_lt hfirst
  by_contra hlong
  -- the byte at `ULIM` would be one of the string
  have hlast := user_read_lt (h.bytes (4018143232 - va.toNat) (by omega))
  rw [BitVec.toNat_add, BitVec.toNat_ofNat] at hlast
  omega

/-- The loop that measures a string, from offset `len` on: the string is measured when it ends there
or its length stays below the limit. -/
theorem exec_strlen_user {x : List Byte} (hok : DirOk s c dir) (h : StringAt s c va x) {fuel len : Nat}
    (hle : len ≤ x.length) (hfuel : x.length < fuel + len) :
    ∃ s', execStrlen k c dir va limit fuel (BitVec.ofNat 32 len) s =
        .ret (if x.length = len ∨ x.length < limit.toNat then some (BitVec.ofNat 32 x.length)
          else none) s' ∧ Seen s s' ∧
        (x.length = len ∨ x.length < limit.toNat → (s'.cpus k).cr3 = dir) := by
  have hsmall := h.length_lt
  have hlength : (x ++ [0]).length = x.length + 1 := List.length_append
  induction fuel generalizing len s with
  | zero => omega
  | succ fuel ih =>
      have hbyte := h.bytes len (by omega)
      have hassert : userMemAssert k c (va + BitVec.ofNat 32 len) 1 pteU s = .ret () s := by
        refine user_mem_assert_accessible hok (by decide) fun a hin => ?_
        have haddr : a = (va + BitVec.ofNat 32 len).toNat := by
          obtain ⟨hlo, hhi⟩ := hin
          have hone : (1 : Word).toNat = 1 := rfl
          omega
        rw [BitVec.or_self, haddr]
        exact accessible_of_user_read hbyte
      obtain ⟨s₁, hcr3, hseen, hloaded⟩ := lcr3_seen k dir s
      have hok₁ := hseen.dir_ok hok
      rw [← hseen.user_read] at hbyte
      obtain ⟨s₂, hload, hseen₂, hcr3₂⟩ := load_byte_user hok₁.pgdir hloaded hbyte
      rw [execStrlen, bind_of_ret hassert, bind_of_ret hcr3, bind_of_ret hload]
      by_cases hend : x.length = len
      · subst hend
        have hzero : (x ++ [0]).getD x.length 0 = 0 := by
          rw [List.getD_append_right _ _ _ _ (Nat.le_refl _), Nat.sub_self]
          rfl
        rw [if_pos hzero, if_pos (.inl rfl)]
        exact ⟨s₂, rfl, hseen.trans hseen₂, fun _ => hcr3₂⟩
      · have hin : len < x.length := by omega
        have hchar : (x ++ [0]).getD len 0 ≠ 0 := by
          rw [List.getD_append _ _ _ _ hin, List.getD_eq_getElem _ _ hin]
          exact fun hzero => h.chars (hzero ▸ List.getElem_mem hin)
        obtain ⟨s₃, hcr3₃, hseen₃, -⟩ := lcr3_seen k s₂.kernPgdir s₂
        have hkern : gets Kernel.kernPgdir s₂ = (.ret s₂.kernPgdir s₂ : Outcome _ Exit _) := rfl
        have hstep : (BitVec.ofNat 32 len + 1 : Word) = BitVec.ofNat 32 (len + 1) :=
          (BitVec.ofNat_add len 1).symm
        have hseen' : Seen s s₃ := (hseen.trans hseen₂).trans hseen₃
        rw [if_neg hchar, bind_of_ret hkern, bind_of_ret hcr3₃, hstep]
        by_cases hlimit : limit ≤ BitVec.ofNat 32 (len + 1)
        · have hle' : limit.toNat ≤ len + 1 := by
            have hcmp : limit.toNat ≤ (BitVec.ofNat 32 (len + 1)).toNat := hlimit
            rw [BitVec.toNat_ofNat] at hcmp
            omega
          rw [if_pos hlimit, if_neg (by omega)]
          exact ⟨s₃, rfl, hseen', fun hcase => by omega⟩
        · have hlt : len + 1 < limit.toNat := by
            have hcmp : ¬ limit.toNat ≤ (BitVec.ofNat 32 (len + 1)).toNat := hlimit
            rw [BitVec.toNat_ofNat] at hcmp
            omega
          rw [if_neg hlimit]
          have hstr : StringAt s₃ c va x := ⟨h.chars, hseen'.bytes_at h.bytes⟩
          obtain ⟨s₄, hrest, hseen₄, hcr3₄⟩ := ih (hseen'.dir_ok hok) hstr hin (by omega)
          have hsame : (x.length = len + 1 ∨ x.length < limit.toNat) ↔
              (x.length = len ∨ x.length < limit.toNat) := by omega
          rw [hsame] at hcr3₄
          simp only [hsame] at hrest
          exact ⟨s₄, hrest, hseen'.trans hseen₄, hcr3₄⟩

/-- The length of a whole string. -/
theorem arg_measured {x : List Byte} (hok : DirOk s c dir) (h : StringAt s c va x) (limit : Word) :
    ∃ s', execStrlen k c dir va limit (2 ^ 32) 0 s =
        .ret (if x.length = 0 ∨ x.length < limit.toNat then some (BitVec.ofNat 32 x.length)
          else none) s' ∧ Seen s s' ∧
        (x.length = 0 ∨ x.length < limit.toNat → (s'.cpus k).cr3 = dir) := by
  have hsmall := h.length_lt
  exact exec_strlen_user hok h (Nat.zero_le _) (by omega)

/-- A string that is accepted, and its copy. -/
theorem arg_copied {x : List Byte} (hok : DirOk s c dir) (h : StringAt s c va x)
    (hpass : x.length = 0 ∨ x.length < limit.toNat) :
    ∃ s₁ s₂, execStrlen k c dir va limit (2 ^ 32) 0 s = .ret (some (BitVec.ofNat 32 x.length)) s₁ ∧
      loadBytes k ((BitVec.ofNat 32 x.length).toNat + 1) va s₁ = .ret (x ++ [0]) s₂ ∧
      Seen s s₂ := by
  obtain ⟨s₁, hret, hseen, hcr3⟩ := arg_measured (k := k) hok h limit
  rw [if_pos hpass] at hret
  have hsmall := h.length_lt
  have hlength : (BitVec.ofNat 32 x.length).toNat + 1 = (x ++ [0]).length := by
    rw [BitVec.toNat_ofNat, List.length_append, List.length_singleton]
    omega
  obtain ⟨s₂, hload, hseen₂, -⟩ := load_bytes_user (hseen.dir_ok hok).pgdir (hcr3 hpass)
    (hseen.bytes_at h.bytes)
  rw [← hlength] at hload
  exact ⟨s₁, s₂, hret, hload, hseen.trans hseen₂⟩

/-- Only the strings that pass are given a length. -/
theorem arg_length {x : List Byte} {len : Word} (hok : DirOk s c dir) (h : StringAt s c va x)
    (hlen : execStrlen k c dir va limit (2 ^ 32) 0 s = .ret (some len) s') :
    (x.length = 0 ∨ x.length < limit.toNat) ∧ len = BitVec.ofNat 32 x.length := by
  obtain ⟨s₁, hret, -⟩ := arg_measured (k := k) hok h limit
  rw [hlen] at hret
  split at hret
  case isTrue hpass =>
    cases hret
    exact ⟨hpass, rfl⟩
  case isFalse => cases hret

/-! ## All strings -/

/-- The strings as they lie in `argbuf`. -/
def terminated (strs : List (List Byte)) : List (List Byte) := strs.map (· ++ [0])

theorem string_size_terminated (strs : List (List Byte)) :
    stringSize (terminated strs) = argSize strs := by
  unfold stringSize terminated argSize
  rw [List.map_map]
  congr 2
  funext str
  exact List.length_append

theorem arg_size_take_succ {n : Nat} {x : List Byte} (hx : strs[n]? = some x) :
    argSize (strs.take (n + 1)) = argSize (strs.take n) + (x.length + 1) := by
  unfold argSize
  rw [List.take_add_one, hx]
  simp

theorem terminated_take_succ {n : Nat} {x : List Byte} (hx : strs[n]? = some x) :
    terminated (strs.take (n + 1)) = terminated (strs.take n) ++ [x ++ [0]] := by
  unfold terminated
  rw [List.take_add_one, hx]
  simp

/-- The sizes grow with the number of strings. -/
theorem arg_size_take_le {n i : Nat} (hle : n ≤ i) :
    argSize (strs.take n) ≤ argSize (strs.take i) := by
  induction i, hle using Nat.le_induction with
  | base => exact Nat.le_refl _
  | succ i _ ih =>
      cases hx : strs[i]? with
      | none =>
          rw [List.take_add_one, hx]
          simpa using ih
      | some x =>
          rw [arg_size_take_succ hx]
          omega

theorem ArgvAt.seen (h : Seen s s') (hargv : ArgvAt s c argv strs) : ArgvAt s' c argv strs where
  arg i x hx := by
    obtain ⟨p, hne, hp, hstr⟩ := hargv.arg i x hx
    exact ⟨p, hne, h.bytes_at hp, hstr.chars, h.bytes_at hstr.bytes⟩
  last := h.bytes_at hargv.last

/-- The pointer to a string, or the null pointer behind the strings. -/
theorem ArgvAt.slot (hargv : ArgvAt s c argv strs) (hok : DirOk s c dir) {n : Nat}
    (hn : n ≤ strs.length) :
    ∃ p s', execSlot k c dir argv n s = .ret p s' ∧ Seen s s' ∧
      ((p = 0 ∧ strs[n]? = none) ∨ p ≠ 0 ∧ ∃ x, strs[n]? = some x ∧ StringAt s c p x) := by
  by_cases hlast : n = strs.length
  · obtain ⟨s', hslot, hseen⟩ := exec_slot_user (k := k) hok (hlast ▸ hargv.last)
    exact ⟨0, s', hslot, hseen, .inl ⟨rfl, List.getElem?_eq_none (by omega)⟩⟩
  · have hin : strs[n]? = some strs[n] := List.getElem?_eq_getElem (by omega)
    obtain ⟨p, hne, hp, hstr⟩ := hargv.arg n _ hin
    obtain ⟨s', hslot, hseen⟩ := exec_slot_user (k := k) hok hp
    exact ⟨p, s', hslot, hseen, .inr ⟨hne, _, hin, hstr⟩⟩

/-- The limit while `argbuf` has room. -/
theorem arg_limit_to_nat (h : stringSize args ≤ 511) :
    (argLimit args).toNat = 511 - stringSize args := by
  have hsize : (BitVec.ofNat 32 (stringSize args)).toNat = stringSize args := by
    rw [BitVec.toNat_ofNat]
    omega
  have hone : (1 : Word).toNat = 1 := rfl
  have hall : (512 : Word).toNat = 512 := rfl
  unfold argLimit
  rw [BitVec.toNat_sub, BitVec.toNat_sub, hsize, hone, hall]
  omega

/-- The string that is measured is one of `strs`, with those before it in `argbuf`. -/
theorem AtArg.string (hargv : ArgvAt s c argv strs) (hok : DirOk s c dir)
    (h : AtArg k c dir argv s args str s') :
    ∃ n x, n < 32 ∧ strs[n]? = some x ∧ args = terminated (strs.take n) ∧ Seen s s' ∧
      StringAt s c str x ∧ (¬ Overruns strs → stringSize args ≤ 511) := by
  induction h with
  | first hslot hne =>
      obtain ⟨p, s₁, hret, hseen, hcase⟩ := hargv.slot (k := k) hok (Nat.zero_le _)
      rw [hslot] at hret
      cases hret
      obtain ⟨-, x, hx, hstr⟩ := hcase.resolve_left fun hzero => hne hzero.1
      exact ⟨0, x, by decide, hx, rfl, hseen, hstr, fun _ => Nat.zero_le _⟩
  | @next args str str' len bytes s₁ s₂ s₃ s' hat hlen hcopy hslot hne hlt ih =>
      obtain ⟨n, x, hn, hx, rfl, hseen, hstr, hsize⟩ := ih
      have hin : n < strs.length := (List.getElem?_eq_some_iff.mp hx).1
      have hcount : (terminated (strs.take n)).length = n := by
        unfold terminated
        rw [List.length_map, List.length_take]
        omega
      have hstr₁ : StringAt s₁ c str x := ⟨hstr.chars, hseen.bytes_at hstr.bytes⟩
      obtain ⟨hpass, rfl⟩ := arg_length (hseen.dir_ok hok) hstr₁ hlen
      obtain ⟨t, u, hret, hload, hseen₂⟩ := arg_copied (k := k) (hseen.dir_ok hok) hstr₁ hpass
      rw [hlen] at hret
      cases hret
      rw [hload] at hcopy
      cases hcopy
      have hseen₃' := hseen.trans hseen₂
      rw [hcount] at hslot hlt
      obtain ⟨p, v, hret', hseen₄, hcase⟩ := (hargv.seen hseen₃').slot (k := k)
        (hseen₃'.dir_ok hok) (show n + 1 ≤ strs.length from hin)
      rw [hslot] at hret'
      cases hret'
      obtain ⟨-, x', hx', hstr'⟩ := hcase.resolve_left fun hzero => hne hzero.1
      have hstr'' : StringAt s c str' x' := by
        refine ⟨hstr'.chars, fun i hi => ?_⟩
        rw [← hseen₃'.user_read]
        exact hstr'.bytes i hi
      refine ⟨n + 1, x', hlt, hx', (terminated_take_succ hx).symm, hseen₃'.trans hseen₄, hstr'',
        fun hover => ?_⟩
      have hbefore := hsize hover
      rw [arg_limit_to_nat hbefore] at hpass
      rw [← terminated_take_succ hx, string_size_terminated, arg_size_take_succ hx]
      rw [string_size_terminated] at hbefore hpass
      -- only an empty string may take the last byte, and then none follows
      by_contra hfull
      have hempty : x.length = 0 := by omega
      refine hover ⟨n, hlt, (List.getElem?_eq_some_iff.mp hx').1, ?_, by omega⟩
      rw [hx, List.length_eq_zero_iff.mp hempty]

/-- The strings up to the one behind an overrun are copied. -/
theorem at_arg_reached (hargv : ArgvAt s c argv strs) (hok : DirOk s c dir) {i n : Nat}
    (hi : i + 1 < 32) (hin : i + 1 < strs.length) (hempty : strs[i]? = some [])
    (hsize : argSize (strs.take i) = 511) (hn : n ≤ i + 1) :
    ∃ x str s', strs[n]? = some x ∧ AtArg k c dir argv s (terminated (strs.take n)) str s' ∧
      Seen s s' ∧ StringAt s c str x := by
  induction n with
  | zero =>
      obtain ⟨p, s₁, hslot, hseen, hcase⟩ := hargv.slot (k := k) hok (Nat.zero_le _)
      have hsome : strs[0]? ≠ none := by
        rw [List.getElem?_eq_getElem (show 0 < strs.length by omega)]
        simp
      obtain ⟨hne, x, hx, hstr⟩ := hcase.resolve_left fun hzero => hsome hzero.2
      exact ⟨x, p, s₁, hx, .first hslot hne, hseen, hstr⟩
  | succ n ih =>
      obtain ⟨x, str, s₁, hx, hat, hseen, hstr⟩ := ih (by omega)
      have hstr₁ : StringAt s₁ c str x := ⟨hstr.chars, hseen.bytes_at hstr.bytes⟩
      have hbefore : argSize (strs.take n) ≤ 511 := by
        rw [← hsize]
        exact arg_size_take_le (by omega)
      have hpass : x.length = 0 ∨ x.length < (argLimit (terminated (strs.take n))).toNat := by
        rw [arg_limit_to_nat (by rwa [string_size_terminated]), string_size_terminated]
        by_cases hlast : n = i
        · subst hlast
          rw [hx] at hempty
          exact .inl (congrArg List.length (Option.some.inj hempty))
        · have hnext : argSize (strs.take (n + 1)) ≤ argSize (strs.take i) :=
            arg_size_take_le (by omega)
          rw [hsize, arg_size_take_succ hx] at hnext
          omega
      obtain ⟨s₂, s₃, hlen, hcopy, hseen₃⟩ := arg_copied (k := k) (hseen.dir_ok hok) hstr₁ hpass
      have hseen₃' := hseen.trans hseen₃
      have hcount : (terminated (strs.take n)).length = n := by
        unfold terminated
        rw [List.length_map, List.length_take]
        omega
      obtain ⟨p, s₄, hslot, hseen₄, hcase⟩ := (hargv.seen hseen₃').slot (k := k)
        (hseen₃'.dir_ok hok) (show n + 1 ≤ strs.length by omega)
      have hsome : strs[n + 1]? ≠ none := by
        rw [List.getElem?_eq_getElem (show n + 1 < strs.length by omega)]
        simp
      obtain ⟨hne, y, hy, hstr'⟩ := hcase.resolve_left fun hzero => hsome hzero.2
      refine ⟨y, p, s₄, hy, ?_, hseen₃'.trans hseen₄, hstr'.chars, fun j hj => ?_⟩
      · rw [terminated_take_succ hx]
        refine hat.next hlen hcopy ?_ hne ?_
        · rw [hcount]
          exact hslot
        · rw [hcount]
          omega
      · rw [← hseen₃'.user_read]
        exact hstr'.bytes j hj

/-- Behind an overrun the limit underflows. -/
theorem not_argbuf_safe (hargv : ArgvAt s c argv strs) (hok : DirOk s c dir)
    (hover : Overruns strs) : ¬ ArgbufSafe k c dir argv s := by
  obtain ⟨i, hi, hin, hempty, hsize⟩ := hover
  intro hsafe
  obtain ⟨x, str, s', -, hat, -⟩ := at_arg_reached (k := k) hargv hok hi hin hempty hsize
    (Nat.le_refl _)
  have hlimit := hsafe.limit _ _ _ hat
  rw [string_size_terminated, arg_size_take_succ hempty, hsize] at hlimit
  exact absurd hlimit (by decide)

/-- Without an overrun the loop comes to an end, whatever the strings are. -/
theorem exec_args_returns (hargv : ArgvAt s c argv strs) (hok : DirOk s c dir)
    (hover : ¬ Overruns strs) {fuel n : Nat} (hn : n ≤ strs.length)
    (hsize : argSize (strs.take n) ≤ 511 ∨
      argSize (strs.take n) = 512 ∧ (strs[n]? = none ∨ 32 ≤ n)) :
    ∃ r s', execArgs k c dir argv fuel (terminated (strs.take n)) s = .ret r s' := by
  induction fuel generalizing n s with
  | zero => exact ⟨_, s, rfl⟩
  | succ fuel ih =>
      have hcount : (terminated (strs.take n)).length = n := by
        unfold terminated
        rw [List.length_map, List.length_take]
        omega
      obtain ⟨p, s₁, hslot, hseen, hcase⟩ := hargv.slot (k := k) hok hn
      rw [exec_args_succ, hcount, bind_of_ret hslot]
      rcases hcase with ⟨rfl, -⟩ | ⟨hne, x, hx, hstr⟩
      · exact ⟨_, s₁, rfl⟩
      rw [if_neg hne]
      by_cases hmany : 32 ≤ n
      · rw [if_pos hmany]
        exact ⟨_, s₁, rfl⟩
      rw [if_neg hmany]
      have hroom : argSize (strs.take n) ≤ 511 := by
        refine hsize.resolve_right fun hfull => ?_
        rcases hfull.2 with hnone | hlate
        · rw [hx] at hnone
          cases hnone
        · exact hmany hlate
      have hok₁ := hseen.dir_ok hok
      have hstr₁ : StringAt s₁ c p x := ⟨hstr.chars, hseen.bytes_at hstr.bytes⟩
      have hin : n < strs.length := (List.getElem?_eq_some_iff.mp hx).1
      have hlimit : (argLimit (terminated (strs.take n))).toNat = 511 - argSize (strs.take n) := by
        rw [arg_limit_to_nat (by rwa [string_size_terminated]), string_size_terminated]
      by_cases hpass : x.length = 0 ∨ x.length < (argLimit (terminated (strs.take n))).toNat
      · obtain ⟨s₂, s₃, hlen, hcopy, hseen₃⟩ := arg_copied (k := k) hok₁ hstr₁ hpass
        have hseen₃' := hseen.trans hseen₃
        have hnext := arg_size_take_succ hx
        have hlast : (x ++ [0]).length = x.length + 1 := List.length_append
        rw [hlimit] at hpass
        have hfits : ¬ 512 < stringSize (terminated (strs.take n)) + (x ++ [0]).length := by
          rw [string_size_terminated, hlast]
          omega
        rw [bind_of_ret hlen]
        dsimp only
        rw [bind_of_ret hcopy, if_neg hfits, ← terminated_take_succ hx]
        refine ih (hargv.seen hseen₃') (hseen₃'.dir_ok hok) hin ?_
        rw [hnext]
        by_cases hfull : argSize (strs.take n) + (x.length + 1) ≤ 511
        · exact .inl hfull
        · -- the last byte is taken by an empty string, and so none follows
          have hempty : x.length = 0 := by omega
          refine .inr ⟨by omega, ?_⟩
          by_contra hmore
          rw [not_or] at hmore
          have hlt : n + 1 < strs.length := by
            by_contra hend
            exact hmore.1 (List.getElem?_eq_none (by omega))
          refine hover ⟨n, by omega, hlt, ?_, by omega⟩
          rw [hx, List.length_eq_zero_iff.mp hempty]
      · obtain ⟨s₂, hret, -⟩ := arg_measured (k := k) hok₁ hstr₁
          (argLimit (terminated (strs.take n)))
        rw [if_neg hpass] at hret
        rw [bind_of_ret hret]
        exact ⟨_, s₂, rfl⟩

/-- The strings stay inside `argbuf`, and the limits do not underflow, exactly when no empty string
takes the last byte in front of another string. -/
theorem argbuf_safe_iff (s : Kernel) (k : CpuId) (c : EnvIx) (dir : Nat) (argv : Word)
    (strs : List (List Byte)) (hok : DirOk s c dir) (hargv : ArgvAt s c argv strs) :
    ArgbufSafe k c dir argv s ↔ ¬ Overruns strs := by
  refine ⟨fun hsafe hover => not_argbuf_safe hargv hok hover hsafe, fun hover => ⟨?_, ?_⟩⟩
  · intro args str s' hat
    obtain ⟨n, x, -, -, -, -, -, hsize⟩ := hat.string hargv hok
    exact Nat.succ_le_succ (hsize hover)
  · intro args str s' len s'' hat hlen
    obtain ⟨n, x, -, -, -, hseen, hstr, hsize⟩ := hat.string hargv hok
    have hstr' : StringAt s' c str x := ⟨hstr.chars, hseen.bytes_at hstr.bytes⟩
    obtain ⟨hpass, rfl⟩ := arg_length (hseen.dir_ok hok) hstr' hlen
    rw [arg_limit_to_nat (hsize hover)] at hpass
    have hle := hsize hover
    have hsmall := hstr.length_lt
    rw [BitVec.toNat_ofNat]
    omega

/-- Environment 0 with one page at address 0. It begins with an array of pointers to a string of 510
characters, to an empty string and to the same empty string again, and with the strings. At 1024 is
the array of `{ "sh", "", "-c" }`. -/
def argPage : Kernel :=
  { onePage with
    mem := fun p i =>
      if p = 4 then
        if i = 0 then 16 else if i ≤ 2 then 526 else if i = 3 then 0
        else if i < 131 then 0x61616161 else if i = 131 then 0x6161
        else if i = 256 then 1040 else if i = 257 then 526 else if i = 258 then 1044
        else if i = 260 then 0x6873 else if i = 261 then 0x632d else 0
      else onePage.mem p i }

theorem arg_page_dir_ok : DirOk argPage 0 1 := by
  have hmem : ∀ p i, p ≠ 4 → argPage.mem p i = onePage.mem p i := fun p i hp => if_neg hp
  have hok := one_page_dir_ok
  refine ⟨rfl, fun d hd hpresent => ?_, fun n pde pte hlo hhi hmap hpte => ?_⟩
  · rw [hmem 1 d (by decide)] at hpresent ⊢
    exact hok.tables d hd hpresent
  · rw [pgnum_eq, ulim_to_nat] at hlo
    have hzero : onePage.mem 1 (n / 1024) = 0 := by
      have hd : n / 1024 ≠ 0 := by omega
      simp [onePage, hd]
    unfold Kernel.mapping at hmap
    have hdir : (argPage.envs 0).envPgdir = some 1 := rfl
    rw [hdir] at hmap
    dsimp only at hmap
    rw [hmem 1 _ (by decide), hzero] at hmap
    cases hmap

theorem arg_page_bytes {va : Word} {bytes : List Byte}
    (h : (List.range bytes.length).all (fun i =>
      argPage.userRead 0 (va + BitVec.ofNat 32 i) == some (bytes.getD i 0)) = true) :
    BytesAt argPage 0 va bytes := by
  intro i hi
  rw [List.all_eq_true] at h
  exact eq_of_beq (h i (List.mem_range.mpr hi))

theorem arg_page_empty : StringAt argPage 0 526 [] :=
  ⟨by decide, arg_page_bytes (by decide +kernel)⟩

/-- The strings of the second array fit, with the empty one between the others. -/
theorem argbuf_safe_iff_sh : ArgbufSafe 0 0 1 1024 argPage := by
  have hsh : StringAt argPage 0 1040 [0x73, 0x68] :=
    ⟨by decide, arg_page_bytes (by decide +kernel)⟩
  have hc : StringAt argPage 0 1044 [0x2d, 0x63] :=
    ⟨by decide, arg_page_bytes (by decide +kernel)⟩
  have hargv : ArgvAt argPage 0 1024 [[0x73, 0x68], [], [0x2d, 0x63]] := by
    refine ⟨fun i str hi => ?_, arg_page_bytes (by decide +kernel)⟩
    have hlt : i < 3 := (List.getElem?_eq_some_iff.mp hi).1
    obtain rfl | rfl | rfl : i = 0 ∨ i = 1 ∨ i = 2 := by omega
    · cases hi
      exact ⟨1040, by decide, arg_page_bytes (by decide +kernel), hsh⟩
    · cases hi
      exact ⟨526, by decide, arg_page_bytes (by decide +kernel), arg_page_empty⟩
    · cases hi
      exact ⟨1044, by decide, arg_page_bytes (by decide +kernel), hc⟩
  refine (argbuf_safe_iff argPage 0 0 1 1024 _ arg_page_dir_ok hargv).2 ?_
  -- the strings take 7 bytes in all, so none of them begins at offset 511
  rintro ⟨i, -, hlt, -, hsize⟩
  have hfew : i = 0 ∨ i = 1 := by
    have hlen : i + 1 < 3 := hlt
    omega
  rcases hfew with rfl | rfl
  · exact absurd hsize (by decide)
  · exact absurd hsize (by decide)

/-- The bytes of the page. -/
theorem arg_page_read {a : Nat} (ha : a < 4096) :
    argPage.userRead 0 (BitVec.ofNat 32 a) = some (byteOf (argPage.mem 4 (a / 4)) (a % 4)) := by
  have haddr : (BitVec.ofNat 32 a).toNat = a := by
    rw [BitVec.toNat_ofNat]
    omega
  have hpage : pgnum (BitVec.ofNat 32 a) = 0 := by
    rw [pgnum_eq, haddr]
    omega
  have hoff : pgoff (BitVec.ofNat 32 a) = a := by
    rw [pgoff_eq, haddr]
    omega
  have hmap : argPage.mapping 0 0 = some (mkPde 3, mkPte 4 (pteU ||| pteW)) := rfl
  have hallows : argPage.allows 0 pteU 0 = true := by decide +kernel
  have hnum : pgnum (mkPte 4 (pteU ||| pteW)) = 4 := by decide
  unfold Kernel.userRead
  rw [hpage, if_pos hallows, hmap, hoff]
  show some (argPage.physByte (pgnum (mkPte 4 (pteU ||| pteW))) a) = _
  rw [hnum]
  rfl

/-- The string of 510 characters. -/
theorem arg_page_long : StringAt argPage 0 16 (List.replicate 510 0x61) := by
  refine ⟨fun h => absurd (List.eq_of_mem_replicate h) (by decide), fun i hi => ?_⟩
  rw [List.length_append, List.length_replicate, List.length_singleton] at hi
  have haddr : (16 : Word) + BitVec.ofNat 32 i = BitVec.ofNat 32 (16 + i) :=
    (BitVec.ofNat_add 16 i).symm
  rw [haddr, arg_page_read (by omega)]
  by_cases hend : i = 510
  · subst hend
    decide +kernel
  · have hchar : (List.replicate 510 (0x61 : Byte) ++ [0]).getD i 0 = 0x61 := by
      rw [List.getD_append _ _ _ _ (by rw [List.length_replicate]; omega),
        List.getD_eq_getElem _ _ (by rw [List.length_replicate]; omega), List.getElem_replicate]
    rw [hchar]
    congr 1
    by_cases hlast : (16 + i) / 4 = 131
    · have hword : argPage.mem 4 131 = 0x6161 := rfl
      rw [hlast, hword]
      obtain h | h : (16 + i) % 4 = 0 ∨ (16 + i) % 4 = 1 := by omega
      · rw [h]
        decide
      · rw [h]
        decide
    · have hword : argPage.mem 4 ((16 + i) / 4) = 0x61616161 := by
        show (if (16 + i) / 4 = 0 then (16 : Word) else if (16 + i) / 4 ≤ 2 then 526
          else if (16 + i) / 4 = 3 then 0 else if (16 + i) / 4 < 131 then 0x61616161
          else if (16 + i) / 4 = 131 then 0x6161
          else if (16 + i) / 4 = 256 then 1040 else if (16 + i) / 4 = 257 then 526
          else if (16 + i) / 4 = 258 then 1044 else if (16 + i) / 4 = 260 then 0x6873
          else if (16 + i) / 4 = 261 then 0x632d else 0) = _
        rw [if_neg (by omega), if_neg (by omega), if_neg (by omega), if_pos (by omega)]
      rw [hword]
      have hlt : (16 + i) % 4 < 4 := Nat.mod_lt _ (by decide)
      generalize (16 + i) % 4 = j at hlt
      revert j
      decide

/-- From the first pointer on the last empty string lies behind `argbuf`. -/
theorem argbuf_overrun : ∃ strs, DirOk argPage 0 1 ∧ ArgvAt argPage 0 0 strs ∧
    ¬ ArgbufSafe 0 0 1 0 argPage := by
  have hargv : ArgvAt argPage 0 0 [List.replicate 510 0x61, [], []] := by
    refine ⟨fun i str hi => ?_, arg_page_bytes (by decide +kernel)⟩
    have hlt : i < 3 := (List.getElem?_eq_some_iff.mp hi).1
    obtain rfl | rfl | rfl : i = 0 ∨ i = 1 ∨ i = 2 := by omega
    · cases hi
      exact ⟨16, by decide, arg_page_bytes (by decide +kernel), arg_page_long⟩
    · cases hi
      exact ⟨526, by decide, arg_page_bytes (by decide +kernel), arg_page_empty⟩
    · cases hi
      exact ⟨526, by decide, arg_page_bytes (by decide +kernel), arg_page_empty⟩
  have hsize : argSize [List.replicate 510 0x61] = 511 := by
    unfold argSize
    rw [List.map_singleton, List.sum_singleton, List.length_replicate]
  have hover : Overruns [List.replicate 510 0x61, [], []] :=
    ⟨1, by decide, by decide, rfl, hsize⟩
  exact ⟨_, arg_page_dir_ok, hargv, not_argbuf_safe hargv arg_page_dir_ok hover⟩

end Labs.Jos
