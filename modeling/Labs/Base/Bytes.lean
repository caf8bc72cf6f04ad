import Mathlib.Data.Nat.Notation

/-!
# Memories of bytes

A memory gives a byte for each address. Words of 32 bits lie in it with their lowest byte first.
Each operation that writes has a lemma for the bytes that it writes and one for all others, and
words are read back through the bytes they lie in.
-/

namespace Labs

/-- A memory of bytes. -/
abbrev Bytes := Nat → BitVec 8

namespace Bytes

/-- The word at `a`. -/
def load32 (m : Bytes) (a : Nat) : BitVec 32 := m (a + 3) ++ m (a + 2) ++ m (a + 1) ++ m a

/-- The `n` bytes from `a` on. -/
def load (m : Bytes) (a n : Nat) : List (BitVec 8) := (List.range n).map fun i => m (a + i)

/-- The word `v` is stored at `a`. -/
def store32 (m : Bytes) (a : Nat) (v : BitVec 32) : Bytes := fun x =>
  if a ≤ x ∧ x < a + 4 then v.extractLsb' (8 * (x - a)) 8 else m x

/-- The bytes of a list are stored from `a` on. -/
def store (m : Bytes) (a : Nat) (bytes : List (BitVec 8)) : Bytes := fun x =>
  if a ≤ x ∧ x < a + bytes.length then bytes.getD (x - a) 0 else m x

/-- `memset`. -/
def fill (m : Bytes) (a n : Nat) (b : BitVec 8) : Bytes := fun x =>
  if a ≤ x ∧ x < a + n then b else m x

/-- `memmove`. -/
def move (m : Bytes) (dst src n : Nat) : Bytes := fun x =>
  if dst ≤ x ∧ x < dst + n then m (src + (x - dst)) else m x

variable {m m' : Bytes} {a b n x : Nat}

/-- Two memories agree on the `n` bytes from `a` on. -/
def Same (m m' : Bytes) (a n : Nat) : Prop := ∀ x, a ≤ x → x < a + n → m' x = m x

theorem Same.refl : Same m m a n := fun _ _ _ => rfl

theorem Same.trans {m'' : Bytes} (h : Same m m' a n) (h' : Same m' m'' a n) : Same m m'' a n :=
  fun x hlo hhi => (h' x hlo hhi).trans (h x hlo hhi)

/-- A part of a range on which two memories agree. -/
theorem Same.mono {k : Nat} (h : Same m m' a n) (hlo : a ≤ b) (hhi : b + k ≤ a + n) :
    Same m m' b k :=
  fun x hx hx' => h x (by omega) (by omega)

theorem Same.load32 (h : Same m m' a n) (hlo : a ≤ b) (hhi : b + 4 ≤ a + n) :
    m'.load32 b = m.load32 b := by
  unfold Bytes.load32
  rw [h b (by omega) (by omega), h (b + 1) (by omega) (by omega), h (b + 2) (by omega) (by omega),
    h (b + 3) (by omega) (by omega)]

theorem store32_of_not (v : BitVec 32) (hx : ¬ (a ≤ x ∧ x < a + 4)) : m.store32 a v x = m x :=
  if_neg hx

theorem store32_same (v : BitVec 32) (hdisj : b + n ≤ a ∨ a + 4 ≤ b) :
    Same m (m.store32 a v) b n :=
  fun _ _ _ => store32_of_not v (by omega)

theorem load32_store32 (v : BitVec 32) : (m.store32 a v).load32 a = v := by
  have hbyte : ∀ i, i < 4 → m.store32 a v (a + i) = v.extractLsb' (8 * i) 8 := by
    intro i hi
    unfold store32
    rw [if_pos (by omega), Nat.add_sub_cancel_left]
  have h₀ : m.store32 a v a = v.extractLsb' 0 8 := hbyte 0 (by omega)
  unfold load32
  rw [hbyte 3 (by omega), hbyte 2 (by omega), hbyte 1 (by omega), h₀]
  ext i hi
  simp only [BitVec.getElem_append, BitVec.getElem_extractLsb']
  split
  · rw [Nat.zero_add]
    exact BitVec.getLsbD_eq_getElem hi
  · split
    · rw [BitVec.getLsbD_eq_getElem (by omega)]
      congr 1
      omega
    · split
      · rw [BitVec.getLsbD_eq_getElem (by omega)]
        congr 1
        omega
      · rw [BitVec.getLsbD_eq_getElem (by omega)]
        congr 1
        omega

theorem load32_store32_of_ne (v : BitVec 32) (hdisj : b + 4 ≤ a ∨ a + 4 ≤ b) :
    (m.store32 a v).load32 b = m.load32 b :=
  (store32_same v hdisj).load32 (Nat.le_refl b) (Nat.le_refl (b + 4))

theorem store_of_not {bytes : List (BitVec 8)} (hx : ¬ (a ≤ x ∧ x < a + bytes.length)) :
    m.store a bytes x = m x :=
  if_neg hx

theorem store_same {bytes : List (BitVec 8)} (hdisj : b + n ≤ a ∨ a + bytes.length ≤ b) :
    Same m (m.store a bytes) b n :=
  fun _ _ _ => store_of_not (by omega)

theorem store_add {bytes : List (BitVec 8)} {i : Nat} (hi : i < bytes.length) :
    m.store a bytes (a + i) = bytes.getD i 0 := by
  unfold store
  rw [if_pos (by omega), Nat.add_sub_cancel_left]

theorem fill_of_not {v : BitVec 8} (hx : ¬ (a ≤ x ∧ x < a + n)) : m.fill a n v x = m x :=
  if_neg hx

theorem fill_of_mem {v : BitVec 8} (hlo : a ≤ x) (hhi : x < a + n) : m.fill a n v x = v :=
  if_pos ⟨hlo, hhi⟩

theorem move_of_not (hx : ¬ (a ≤ x ∧ x < a + n)) : m.move a b n x = m x := if_neg hx

theorem move_add {i : Nat} (hi : i < n) : m.move a b n (a + i) = m (b + i) := by
  unfold move
  rw [if_pos (by omega), Nat.add_sub_cancel_left]

/-- A word whose bytes are all zero. -/
theorem load32_eq_zero (hzero : ∀ i, i < 4 → m (a + i) = 0) : m.load32 a = 0 := by
  have h₀ : m a = 0 := hzero 0 (by omega)
  unfold load32
  rw [h₀, hzero 1 (by omega), hzero 2 (by omega), hzero 3 (by omega)]
  rfl

/-- Words read at two places with the same bytes. -/
theorem load32_congr (hsame : ∀ i, i < 4 → m' (b + i) = m (a + i)) :
    m'.load32 b = m.load32 a := by
  have h₀ : m' b = m a := hsame 0 (by omega)
  unfold load32
  rw [h₀, hsame 1 (by omega), hsame 2 (by omega), hsame 3 (by omega)]

theorem load_length : (m.load a n).length = n := by
  simp [load]

/-- Bytes that lie in a list. -/
theorem load_eq {bytes : List (BitVec 8)} (hlen : bytes.length = n)
    (hbytes : ∀ i, i < n → m (a + i) = bytes.getD i 0) : m.load a n = bytes := by
  refine List.ext_getElem (by rw [load_length, hlen]) fun i hi hi' => ?_
  have hin : i < n := by
    rw [load_length] at hi
    exact hi
  simp [load, hbytes i hin, hi']

end Bytes

end Labs
