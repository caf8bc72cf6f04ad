import Labs.Base.ArgVec
import Labs.Jos.ArgBuf
import Labs.Jos.Fork

/-!
# The stack page of a new program

`spawn` and `sys_exec` both put a page below `USTACKTOP` that holds the arguments. It is said here
what the page is for given arguments, as an instance of the argument vectors of the library, and how
bytes lie in the words of a page.
-/

namespace Labs.Jos

open ArgVec (Fits)

/-- The address of the page below `USTACKTOP`. -/
def stackPage : Word := ustacktop - pgsizeW

theorem stack_page_to_nat : stackPage.toNat = 4005548032 := by decide +kernel

theorem ustacktop_to_nat : ustacktop.toNat = 4005552128 := by decide +kernel

/-- The contents of the page for the arguments `strs`. -/
def stackImage (strs : List (List Byte)) : Bytes := ArgVec.image 4096 stackPage strs

/-- The stack pointer of the new program. -/
def stackStart (strs : List (List Byte)) : Word := ArgVec.startAt 4096 stackPage strs

/-! ## Bytes of a page -/

/-- The byte at offset `off` of a page of words. -/
def pageByte (words : Nat → Word) (off : Nat) : Byte := byteOf (words (off / 4)) (off % 4)

/-- The words after a byte has been stored at offset `off`. -/
def setPageByte (words : Nat → Word) (off : Nat) (b : Byte) : Nat → Word :=
  Function.update words (off / 4) (setByteOf (words (off / 4)) (off % 4) b)

/-- The bytes of a word after one has been stored. -/
theorem byte_of_set_byte_of (w : Word) (b : Byte) {i j : Nat} (hi : i < 4) (hj : j < 4) :
    byteOf (setByteOf w i b) j = if j = i then b else byteOf w j := by
  unfold byteOf setByteOf
  split
  case isTrue heq =>
    subst heq
    ext x hx
    simp only [BitVec.getElem_setWidth, BitVec.getLsbD_ushiftRight, BitVec.getLsbD_or,
      BitVec.getLsbD_and, BitVec.getLsbD_not, BitVec.getLsbD_shiftLeft, BitVec.getLsbD_setWidth]
    have hmask : (0xFF#32).getLsbD (8 * j + x - 8 * j) = true := by
      rw [Nat.add_sub_cancel_left]
      exact (by decide : ∀ y : Fin 8, (0xFF#32).getLsbD y = true) ⟨x, hx⟩
    rw [hmask, Nat.add_sub_cancel_left]
    have hlt : 8 * j + x < 32 := by omega
    have hlt' : x < 32 := by omega
    have hnot : ¬ 8 * j + x < 8 * j := Nat.not_lt.2 (Nat.le_add_right _ _)
    simp [hlt, hlt', hx, hnot]
  case isFalse hne =>
    ext x hx
    simp only [BitVec.getElem_setWidth, BitVec.getLsbD_ushiftRight, BitVec.getLsbD_or,
      BitVec.getLsbD_and, BitVec.getLsbD_not, BitVec.getLsbD_shiftLeft, BitVec.getLsbD_setWidth]
    have hlt : 8 * j + x < 32 := by omega
    by_cases hbelow : 8 * j + x < 8 * i
    · simp [hlt, hbelow]
    · -- the bit lies above the byte that is stored
      have habove : 8 ≤ 8 * j + x - 8 * i := by omega
      have hmask : (0xFF#32).getLsbD (8 * j + x - 8 * i) = false := by
        refine Nat.testBit_lt_two_pow ?_
        exact Nat.lt_of_lt_of_le (by decide : 255 < 2 ^ 8) (Nat.pow_le_pow_right (by decide) habove)
      have hbyte : b.getLsbD (8 * j + x - 8 * i) = false := BitVec.getLsbD_of_ge _ _ habove
      rw [hmask, hbyte]
      simp [hlt]

/-- A store changes one byte of the page. -/
theorem page_byte_set (words : Nat → Word) (off : Nat) (b : Byte) :
    pageByte (setPageByte words off b) = Function.update (pageByte words) off b := by
  funext x
  unfold pageByte setPageByte
  by_cases hword : x / 4 = off / 4
  · rw [hword, Function.update_self,
      byte_of_set_byte_of _ _ (Nat.mod_lt _ (by decide)) (Nat.mod_lt _ (by decide))]
    by_cases hx : x = off
    · subst hx
      rw [Function.update_self, if_pos rfl]
    · rw [Function.update_of_ne hx, if_neg (by omega), hword]
  · rw [Function.update_of_ne hword, Function.update_of_ne fun heq => hword (by rw [heq])]

/-- Storing a byte string one byte after the other. -/
theorem store_cons (m : Bytes) (a : Nat) (b : Byte) (rest : List Byte) :
    m.store a (b :: rest) = Bytes.store (Function.update m a b) (a + 1) rest := by
  funext x
  unfold Bytes.store
  rw [List.length_cons]
  by_cases hx : x = a
  · subst hx
    rw [if_pos ⟨Nat.le_refl x, by omega⟩, if_neg (by omega), Function.update_self, Nat.sub_self]
    rfl
  · rw [Function.update_of_ne hx]
    by_cases hin : a + 1 ≤ x ∧ x < a + 1 + rest.length
    · rw [if_pos (by omega), if_pos hin, show x - a = x - (a + 1) + 1 by omega]
      rfl
    · rw [if_neg (by omega), if_neg hin]

theorem word_bytes_eq (w : Word) : wordBytes w = ArgVec.wordBytes w := by
  have hbyte : ∀ i, byteOf w i = w.extractLsb' (8 * i) 8 := by
    intro i
    apply BitVec.eq_of_toNat_eq
    simp [byteOf]
  unfold wordBytes
  rw [hbyte, hbyte, hbyte, hbyte]
  rfl

/-! ## Reading arguments -/

variable {s : Kernel} {e : EnvIx} {argv va : Word} {str : List Byte} {strs : List (List Byte)}

theorem arg_size_eq (strs : List (List Byte)) : argSize strs = ArgVec.size strs := rfl

theorem string_at_iff : StringAt s e va str ↔ ArgVec.IsString (s.userRead e) va str :=
  ⟨fun h => ⟨h.chars, h.bytes⟩, fun h => ⟨h.chars, h.bytes⟩⟩

/-- The array that user code reads is an argument vector. -/
theorem argv_at_iff : ArgvAt s e argv strs ↔ ArgVec.Holds (s.userRead e) argv strs := by
  constructor
  · intro h
    refine ⟨fun i str hstr => ?_, ?_⟩
    · obtain ⟨p, hne, hp, hbytes⟩ := h.arg i str hstr
      exact ⟨p, hne, word_bytes_eq p ▸ hp, string_at_iff.1 hbytes⟩
    · exact word_bytes_eq 0 ▸ h.last
  · intro h
    refine ⟨fun i str hstr => ?_, ?_⟩
    · obtain ⟨p, hne, hp, hbytes⟩ := h.arg i str hstr
      exact ⟨p, hne, (word_bytes_eq p).symm ▸ hp, string_at_iff.2 hbytes⟩
    · exact (word_bytes_eq 0).symm ▸ h.last

/-- The strings of an array are strings. -/
theorem chars_of_holds {mem : ArgVec.View} (h : ArgVec.Holds mem argv strs) :
    ∀ str ∈ strs, (0 : Byte) ∉ str := by
  intro str hstr
  obtain ⟨i, hi, hget⟩ := List.getElem_of_mem hstr
  obtain ⟨_, -, -, hbytes⟩ := h.arg i str (by rw [List.getElem?_eq_getElem hi, hget])
  exact hbytes.chars

/-- Where the page of the arguments is mapped, the new program finds them. -/
theorem stack_image_starts {mem : ArgVec.View} (hfits : Fits 4096 strs)
    (hchars : ∀ str ∈ strs, (0 : Byte) ∉ str)
    (hmem : ∀ x < 4096, mem (stackPage + BitVec.ofNat 32 x) = some (stackImage strs x)) :
    ArgVec.Starts mem (stackStart strs) strs :=
  ArgVec.image_starts hfits hchars (by rw [stack_page_to_nat]; decide)
    (by rw [stack_page_to_nat]; decide) hmem

/-- An address of the stack page. -/
theorem pgnum_stack_page {x : Nat} (hx : x < 4096) :
    pgnum (stackPage + BitVec.ofNat 32 x) = Fork.ustackPn ∧
      pgoff (stackPage + BitVec.ofNat 32 x) = x := by
  have hsum : (stackPage + BitVec.ofNat 32 x).toNat = 4005548032 + x := by
    rw [BitVec.toNat_add, BitVec.toNat_ofNat, stack_page_to_nat]
    omega
  rw [pgnum_eq, pgoff_eq, hsum, Fork.ustack_pn_eq]
  omega

end Labs.Jos
