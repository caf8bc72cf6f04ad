import Labs.Base.Copy
import Labs.Jos.Mmu

/-!
# memmove

The function `memmove` of `lib/string.c`: the version in assembly, which copies with string
instructions, upwards or downwards and by words or by bytes, and the portable version in C.
Addresses are words, and pointer arithmetic wraps around.
-/

namespace Labs.Jos.Memmove

open Copy

/-- The bytes of an address space. -/
abbrev Memory := Word → Byte

/-- The units of the string instructions: `movsb` and `movsl`. -/
inductive Movs where
  | b
  | l

/-- The bytes that one instruction moves. It reads all of them before it writes. -/
def Movs.size : Movs → Nat
  | .b => 1
  | .l => 4

/-- The instruction `rep movs`, with the direction flag `df`: the memory after `ecx` moves from
`esi` to `edi`. -/
def repMovs (unit : Movs) (df : Bool) (edi esi : Word) (ecx : Nat) (m : Memory) : Memory :=
  if df then down unit.size ecx edi esi m else up unit.size ecx edi esi m

/-- `(int)s%4 == 0 && (int)d%4 == 0 && n%4 == 0`. -/
def aligned (d s n : Word) : Bool := s.srem 4 = 0 ∧ d.srem 4 = 0 ∧ n % 4 = 0

/-- The copy with falling addresses, from the ends of the ranges. -/
def backward (unit : Movs) (d s n : Word) (m : Memory) : Memory :=
  match unit with
  | .l => repMovs .l true (d - 4) (s - 4) (n / 4).toNat m
  | .b => repMovs .b true (d - 1) (s - 1) n.toNat m

/-- The copy with rising addresses. -/
def forward (unit : Movs) (d s n : Word) (m : Memory) : Memory :=
  match unit with
  | .l => repMovs .l false d s (n / 4).toNat m
  | .b => repMovs .b false d s n.toNat m

/-- The destination starts inside the source. -/
def overlaps (d s n : Word) : Bool := s < d ∧ d < s + n

/-- The unit that is chosen. -/
def unitFor (d s n : Word) : Movs := if aligned d s n then .l else .b

/-- The function `memmove`, with assembly: what it returns, and the memory it leaves. -/
def memmove (m : Memory) (dst src n : Word) : Word × Memory :=
  if overlaps dst src n then
    (dst, backward (unitFor (dst + n) (src + n) n) (dst + n) (src + n) n m)
  else
    (dst, forward (unitFor dst src n) dst src n m)

/-- `while (n-- > 0) *--d = *--s;`. -/
def copyDown : Nat → Word → Word → Memory → Memory
  | 0, _, _, m => m
  | n + 1, d, s, m => copyDown n (d - 1) (s - 1) (Function.update m (d - 1) (m (s - 1)))

/-- `while (n-- > 0) *d++ = *s++;`. -/
def copyUp : Nat → Word → Word → Memory → Memory
  | 0, _, _, m => m
  | n + 1, d, s, m => copyUp n (d + 1) (s + 1) (Function.update m d (m s))

/-- The function `memmove` without assembly. -/
def memmoveC (m : Memory) (dst src n : Word) : Word × Memory :=
  if overlaps dst src n then (dst, copyDown n.toNat (dst + n) (src + n) m)
  else (dst, copyUp n.toNat dst src m)

variable {m : Memory} {d s dst src n x : Word}

/-! ## The loops -/

/-- A move of one byte. -/
theorem move_one : move m d s 1 = Function.update m d (m s) := by
  funext x
  by_cases hx : x = d
  · subst hx
    rw [Function.update_self, move, BitVec.sub_self, if_pos (by decide), BitVec.add_zero]
  · have hout : ¬ (x - d).toNat < 1 := by
      intro hlt
      have hzero : x - d = 0#32 := BitVec.eq_of_toNat_eq (by simpa using hlt)
      exact hx (by rw [← BitVec.sub_add_cancel x d, hzero, BitVec.zero_add])
    rw [Function.update_of_ne hx, move, if_neg hout]

theorem copy_up_eq (n : Nat) : copyUp n d s m = up 1 n d s m := by
  induction n generalizing d s m with
  | zero => rfl
  | succ n ih =>
      rw [copyUp, up, move_one]
      exact ih

/-- The loop of the source decrements its pointers first. -/
theorem copy_down_eq (n : Nat) : copyDown n d s m = down 1 n (d - 1) (s - 1) m := by
  induction n generalizing d s m with
  | zero => rfl
  | succ n ih =>
      rw [copyDown, down, move_one]
      exact ih

/-- Neither range wraps around. -/
structure Ranges (dst src n : Word) : Prop where
  dst : dst.toNat + n.toNat ≤ 2 ^ 32
  src : src.toNat + n.toNat ≤ 2 ^ 32

/-- The number of the byte with index `k` of a range that does not wrap around. -/
theorem index_to_nat {k : Nat} (h : d.toNat + n.toNat ≤ 2 ^ 32) (hk : k < n.toNat) :
    (d + BitVec.ofNat 32 k).toNat = d.toNat + k := by
  rw [BitVec.toNat_add, BitVec.toNat_ofNat, Nat.add_mod_mod, Nat.mod_eq_of_lt (by omega)]

/-- The test for an overlap, in numbers: when the destination is above the source, the end of the
source has not wrapped around. -/
theorem overlaps_iff (h : Ranges dst src n) :
    overlaps dst src n = true ↔ src.toNat < dst.toNat ∧ dst.toNat < src.toNat + n.toNat := by
  have hd := dst.isLt
  have hdst := h.dst
  simp only [overlaps, decide_eq_true_eq, BitVec.lt_def, BitVec.toNat_add]
  refine and_congr_right fun hlt => ?_
  rw [Nat.mod_eq_of_lt (by omega)]

/-- No byte is written upwards before it is read, unless the destination starts inside the
source. -/
theorem unread_up (h : Ranges dst src n) (hover : overlaps dst src n = false) {k j : Nat}
    (hkj : k < j) (hj : j < n.toNat) :
    dst + BitVec.ofNat 32 k ≠ src + BitVec.ofNat 32 j := by
  have hapart : ¬ (src.toNat < dst.toNat ∧ dst.toNat < src.toNat + n.toNat) := by
    rw [← overlaps_iff h, hover]
    exact Bool.false_ne_true
  intro heq
  have hnum := congrArg BitVec.toNat heq
  rw [index_to_nat h.dst (by omega), index_to_nat h.src hj] at hnum
  omega

/-- No byte is written downwards before it is read, if the destination is above the source. -/
theorem unread_down (h : Ranges dst src n) (hover : overlaps dst src n = true) {k j : Nat}
    (hjk : j < k) (hk : k < n.toNat) :
    dst + BitVec.ofNat 32 k ≠ src + BitVec.ofNat 32 j := by
  have hup := ((overlaps_iff h).1 hover).1
  intro heq
  have hnum := congrArg BitVec.toNat heq
  rw [index_to_nat h.dst hk, index_to_nat h.src (by omega)] at hnum
  omega

/-- With a length that is a multiple of four, the words cover all bytes. -/
theorem words_to_nat (hn : n % 4 = 0) : (n / 4).toNat * 4 = n.toNat := by
  have hmod : n.toNat % 4 = 0 := congrArg BitVec.toNat hn
  have hdiv : (n / 4).toNat = n.toNat / 4 := rfl
  omega

/-- Upwards, each unit copies the block. -/
theorem forward_eq (h : Ranges dst src n) (hover : overlaps dst src n = false) (unit : Movs)
    (hunit : unit = .l → n % 4 = 0) : forward unit dst src n m = move m dst src n.toNat := by
  have hfit : n.toNat ≤ 2 ^ 32 := Nat.le_of_lt n.isLt
  cases unit with
  | l =>
      have hwords := words_to_nat (hunit rfl)
      have hloop := @up_eq_move 32 Byte m dst src (n / 4).toNat 4 (by omega)
        fun k j hkj hj => unread_up h hover hkj (by omega)
      rw [hwords] at hloop
      exact hloop
  | b =>
      have hloop := @up_eq_move 32 Byte m dst src n.toNat 1 (by omega)
        fun k j hkj hj => unread_up h hover hkj (by omega)
      rw [Nat.mul_one] at hloop
      exact hloop

/-- Downwards, each unit copies the block. -/
theorem backward_eq (h : Ranges dst src n) (hover : overlaps dst src n = true) (unit : Movs)
    (hunit : unit = .l → n % 4 = 0) :
    backward unit (dst + n) (src + n) n m = move m dst src n.toNat := by
  have hfit : n.toNat ≤ 2 ^ 32 := Nat.le_of_lt n.isLt
  have hnum : BitVec.ofNat 32 n.toNat = n := by rw [BitVec.ofNat_toNat, BitVec.setWidth_eq]
  cases unit with
  | l =>
      have hwords := words_to_nat (hunit rfl)
      have hloop := @down_eq_move 32 Byte m dst src (n / 4).toNat 4 (by omega)
        fun k j hjk hk => unread_down h hover hjk (by omega)
      rw [hwords, hnum] at hloop
      exact hloop
  | b =>
      have hloop := @down_eq_move 32 Byte m dst src n.toNat 1 (by omega)
        fun k j hjk hk => unread_down h hover hjk (by omega)
      rw [Nat.mul_one, hnum] at hloop
      exact hloop

/-- Words are chosen only when the length is a multiple of four. -/
theorem unit_for_words (h : unitFor d s n = .l) : n % 4 = 0 := by
  unfold unitFor at h
  split at h
  case isTrue haligned => exact (of_decide_eq_true haligned).2.2
  case isFalse => cases h

theorem memmove_eq (h : Ranges dst src n) :
    memmove m dst src n = (dst, move m dst src n.toNat) := by
  unfold memmove
  split
  case isTrue hover => rw [backward_eq h hover _ unit_for_words]
  case isFalse hover =>
    rw [forward_eq h (by simpa using hover) _ unit_for_words]

/-- The version in C is the copy by bytes. -/
theorem memmove_c_eq : memmoveC m dst src n =
    if overlaps dst src n then (dst, backward .b (dst + n) (src + n) n m)
    else (dst, forward .b dst src n m) := by
  unfold memmoveC
  rw [copy_down_eq, copy_up_eq]
  rfl

/-- `memmove` copies the bytes as they were and changes no other byte, and so do the copy by words,
the copy by bytes and the version in C: whichever unit the loop that is chosen uses, if the length
is a multiple of it, the outcome is the same. -/
theorem memmove_copies (m : Memory) (dst src n : Word) (h : Ranges dst src n) :
    (memmove m dst src n).1 = dst ∧
      (∀ i < n.toNat, (memmove m dst src n).2 (dst + BitVec.ofNat 32 i) =
        m (src + BitVec.ofNat 32 i)) ∧
      (∀ x, (∀ i < n.toNat, x ≠ dst + BitVec.ofNat 32 i) → (memmove m dst src n).2 x = m x) ∧
      memmoveC m dst src n = memmove m dst src n ∧
      ∀ unit : Movs, (unit = .l → n % 4 = 0) → (memmove m dst src n).2 =
        if overlaps dst src n then backward unit (dst + n) (src + n) n m
        else forward unit dst src n m := by
  have hloop : ∀ unit : Movs, (unit = .l → n % 4 = 0) → move m dst src n.toNat =
      if overlaps dst src n then backward unit (dst + n) (src + n) n m
      else forward unit dst src n m := by
    intro unit hunit
    split
    case isTrue hover => rw [backward_eq h hover unit hunit]
    case isFalse hover => rw [forward_eq h (by simpa using hover) unit hunit]
  have hbytes := hloop .b (fun hb => by cases hb)
  rw [memmove_eq h, memmove_c_eq]
  refine ⟨rfl, fun i hi => move_add hi (Nat.le_of_lt n.isLt), fun x hx => move_of_not hx, ?_, hloop⟩
  rw [hbytes]
  split <;> rfl

/-- Eight bytes are moved up by four. -/
theorem memmove_copies_overlap : Ranges 0x1004 0x1000 8 ∧
    ∀ m : Memory, (memmove m 0x1004 0x1000 8).2 0x1008 = m 0x1004 := by
  have h : Ranges 0x1004 0x1000 8 := ⟨by decide, by decide⟩
  exact ⟨h, fun m => (memmove_copies m 0x1004 0x1000 8 h).2.1 4 (by decide)⟩

end Labs.Jos.Memmove
