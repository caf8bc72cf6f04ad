import Labs.Base.Bytes
import Mathlib.Algebra.BigOperators.Group.List.Basic
import Mathlib.Algebra.GroupWithZero.Nat

/-!
# Argument vectors

A memory holds an argument vector where it has an array of pointers to strings with a null pointer
at the end. `image` is the stack page that a loader makes for a new program: the strings at its end,
the array below them, and below that the two words that the program finds at its stack pointer. The
vector can be read back from the page wherever the page is mapped.
-/

namespace Labs.ArgVec

/-- A memory in which some addresses can be read. -/
abbrev View := BitVec 32 → Option (BitVec 8)

/-- The bytes of a word, the lowest first. -/
def wordBytes (w : BitVec 32) : List (BitVec 8) :=
  [w.extractLsb' 0 8, w.extractLsb' 8 8, w.extractLsb' 16 8, w.extractLsb' 24 8]

theorem word_bytes_length (w : BitVec 32) : (wordBytes w).length = 4 := rfl

/-- The bytes `bytes` are read from `va` on. -/
def Reads (mem : View) (va : BitVec 32) (bytes : List (BitVec 8)) : Prop :=
  ∀ i < bytes.length, mem (va + BitVec.ofNat 32 i) = some (bytes.getD i 0)

/-- The string `str` is read at `va`. -/
structure IsString (mem : View) (va : BitVec 32) (str : List (BitVec 8)) : Prop where
  chars : (0 : BitVec 8) ∉ str
  bytes : Reads mem va (str ++ [0])

/-- The array at `argv` is that of the strings `strs`. -/
structure Holds (mem : View) (argv : BitVec 32) (strs : List (List (BitVec 8))) : Prop where
  arg : ∀ i str, strs[i]? = some str → ∃ p, p ≠ 0 ∧
    Reads mem (argv + BitVec.ofNat 32 (4 * i)) (wordBytes p) ∧ IsString mem p str
  last : Reads mem (argv + BitVec.ofNat 32 (4 * strs.length)) (wordBytes 0)

/-- A program whose stack pointer is `esp` finds the number of the strings there, and the address of
their array behind it. -/
structure Starts (mem : View) (esp : BitVec 32) (strs : List (List (BitVec 8))) : Prop where
  argc : Reads mem esp (wordBytes (BitVec.ofNat 32 strs.length))
  argv : ∃ argv, Reads mem (esp + 4) (wordBytes argv) ∧ Holds mem argv strs

/-! ## The page -/

/-- The size of the strings with their terminators. -/
def size (strs : List (List (BitVec 8))) : Nat := (strs.map fun str => str.length + 1).sum

/-- The offset of the strings in a page of `n` bytes. -/
def stringsAt (n : Nat) (strs : List (List (BitVec 8))) : Nat := n - size strs

/-- The offset of the array. -/
def slotsAt (n : Nat) (strs : List (List (BitVec 8))) : Nat :=
  stringsAt n strs / 4 * 4 - 4 * (strs.length + 1)

/-- The page has room for the strings, the array and the two words. -/
def Fits (n : Nat) (strs : List (List (BitVec 8))) : Prop :=
  size strs ≤ n ∧ 4 * (strs.length + 1) + 8 ≤ stringsAt n strs / 4 * 4

instance (n : Nat) (strs : List (List (BitVec 8))) : Decidable (Fits n strs) :=
  inferInstanceAs (Decidable (_ ∧ _))

/-- The strings are stored from offset `off` on and their addresses from offset `slot` on, in the
order of the strings. -/
def storeArgs (page : BitVec 32) : List (List (BitVec 8)) → Nat → Nat → Bytes → Bytes
  | [], _, _, m => m
  | str :: rest, slot, off, m =>
      storeArgs page rest (slot + 4) (off + (str.length + 1))
        ((m.store slot (wordBytes (page + BitVec.ofNat 32 off))).store off (str ++ [0]))

/-- The null pointer and the two words are stored around the array. -/
def storeEnds (page : BitVec 32) (argc slot : Nat) (m : Bytes) : Bytes :=
  ((m.store (slot + 4 * argc) (wordBytes 0)).store (slot - 4)
    (wordBytes (page + BitVec.ofNat 32 slot))).store (slot - 8) (wordBytes (BitVec.ofNat 32 argc))

/-- The contents of the page at `page`. -/
def image (n : Nat) (page : BitVec 32) (strs : List (List (BitVec 8))) : Bytes :=
  storeEnds page strs.length (slotsAt n strs)
    (storeArgs page strs (slotsAt n strs) (stringsAt n strs) fun _ => 0)

/-- The stack pointer of the new program. -/
def startAt (n : Nat) (page : BitVec 32) (strs : List (List (BitVec 8))) : BitVec 32 :=
  page + BitVec.ofNat 32 (slotsAt n strs - 8)

/-! ## Reading the page -/

/-- The bytes `bytes` lie at offset `a`. -/
def At (m : Bytes) (a : Nat) (bytes : List (BitVec 8)) : Prop :=
  ∀ i < bytes.length, m (a + i) = bytes.getD i 0

variable {m m' : Bytes} {mem mem' : View} {a b n slot off i : Nat} {page va argv : BitVec 32}
  {bytes str : List (BitVec 8)} {strs : List (List (BitVec 8))}

theorem at_store (m : Bytes) (a : Nat) (bytes : List (BitVec 8)) : At (m.store a bytes) a bytes :=
  fun _ hi => Bytes.store_add hi

theorem At.same (h : At m a bytes) (hsame : Bytes.Same m m' a bytes.length) : At m' a bytes :=
  fun i hi => (hsame (a + i) (Nat.le_add_right a i) (Nat.add_lt_add_left hi a)).trans (h i hi)

/-- What lies beside the bytes that are stored stays there. -/
theorem At.store (h : At m a bytes) (hdisj : a + bytes.length ≤ b ∨ b + str.length ≤ a) :
    At (m.store b str) a bytes :=
  h.same (Bytes.store_same hdisj)

theorem size_cons (str : List (BitVec 8)) (strs : List (List (BitVec 8))) :
    size (str :: strs) = str.length + 1 + size strs := rfl

/-- Storing the strings changes nothing but the array and the strings. -/
theorem store_args_same (page : BitVec 32) (m : Bytes)
    (hdisj : ∀ x, a ≤ x → x < a + n →
      x < slot ∨ slot + 4 * strs.length ≤ x ∧ x < off ∨ off + size strs ≤ x)
    (hle : slot + 4 * strs.length ≤ off) :
    Bytes.Same m (storeArgs page strs slot off m) a n := by
  induction strs generalizing slot off m with
  | nil => exact Bytes.Same.refl
  | cons str rest ih =>
      rw [List.length_cons] at hdisj hle
      simp only [size_cons] at hdisj
      refine Bytes.Same.trans (fun x hlo hhi => ?_) (ih _ (fun x hlo hhi => ?_) (by omega))
      · have hout := hdisj x hlo hhi
        rw [Bytes.store_of_not, Bytes.store_of_not]
        · rw [word_bytes_length]
          omega
        · rw [List.length_append, List.length_singleton]
          omega
      · have hout := hdisj x hlo hhi
        omega

/-- The pointers and the strings that are stored. -/
theorem store_args_at (page : BitVec 32) (m : Bytes) (hle : slot + 4 * strs.length ≤ off)
    (hstr : strs[i]? = some str) :
    At (storeArgs page strs slot off m) (slot + 4 * i)
        (wordBytes (page + BitVec.ofNat 32 (off + size (strs.take i)))) ∧
      At (storeArgs page strs slot off m) (off + size (strs.take i)) (str ++ [0]) := by
  induction strs generalizing slot off i m with
  | nil => cases hstr
  | cons first rest ih =>
      rw [List.length_cons] at hle
      cases i with
      | zero =>
          cases hstr
          have hlen : (str ++ [0]).length = str.length + 1 := List.length_append
          have hslot : At ((m.store slot (wordBytes (page + BitVec.ofNat 32 off))).store off
              (str ++ [0])) slot (wordBytes (page + BitVec.ofNat 32 off)) :=
            (at_store _ _ _).store (.inl (by rw [word_bytes_length]; omega))
          refine ⟨hslot.same (store_args_same _ _ (fun x hlo hhi => ?_) (by omega)),
            (at_store _ _ _).same (store_args_same _ _ (fun x hlo hhi => ?_) (by omega))⟩
          · rw [word_bytes_length] at hhi
            exact .inl hhi
          · have hnone : size ((str :: rest).take 0) = 0 := rfl
            rw [hlen] at hhi
            exact .inr (.inl ⟨by omega, by omega⟩)
      | succ i =>
          have hrest := ih ((m.store slot (wordBytes (page + BitVec.ofNat 32 off))).store off
            (first ++ [0]))
            (show slot + 4 + 4 * rest.length ≤ off + (first.length + 1) by omega) hstr
          have hsize : off + size ((first :: rest).take (i + 1)) =
              off + (first.length + 1) + size (rest.take i) := by
            rw [List.take_succ_cons, size_cons]
            omega
          rw [hsize, show slot + 4 * (i + 1) = slot + 4 + 4 * i by omega]
          exact hrest

/-- The strings up to one of them take no more room than all. -/
theorem size_take_lt (hstr : strs[i]? = some str) :
    size (strs.take i) + (str.length + 1) ≤ size strs := by
  induction strs generalizing i with
  | nil => cases hstr
  | cons first rest ih =>
      cases i with
      | zero =>
          cases hstr
          rw [size_cons]
          exact Nat.le_trans (Nat.le_of_eq (Nat.zero_add _)) (Nat.le_add_right _ _)
      | succ i =>
          have hrest := ih hstr
          rw [List.take_succ_cons, size_cons, size_cons]
          omega

/-- What is stored around the array does not touch what lies beside it. -/
theorem At.store_ends {argc : Nat} (h : At m a bytes)
    (hdisj : slot ≤ a ∧ a + bytes.length ≤ slot + 4 * argc ∨ slot + 4 * argc + 4 ≤ a)
    (hslot : 8 ≤ slot) : At (storeEnds page argc slot m) a bytes := by
  refine ((h.store ?_).store ?_).store ?_
  · rw [word_bytes_length]
    omega
  · rw [word_bytes_length]
    omega
  · rw [word_bytes_length]
    omega

theorem Reads.of_at (hmem : ∀ x < n, mem (page + BitVec.ofNat 32 x) = some (m x))
    (h : At m a bytes) (hle : a + bytes.length ≤ n) :
    Reads mem (page + BitVec.ofNat 32 a) bytes := by
  intro i hi
  rw [BitVec.add_assoc, ← BitVec.ofNat_add, hmem (a + i) (by omega), h i hi]

theorem Fits.slots_at (h : Fits n strs) : 8 ≤ slotsAt n strs ∧
    slotsAt n strs + 4 * strs.length + 4 ≤ stringsAt n strs ∧ stringsAt n strs + size strs = n := by
  obtain ⟨hsize, hroom⟩ := h
  unfold slotsAt
  unfold stringsAt at *
  omega

/-- Where the page is mapped, the program reads its arguments from its stack pointer on. -/
theorem image_starts (hfits : Fits n strs) (hchars : ∀ str ∈ strs, (0 : BitVec 8) ∉ str)
    (hpage : 0 < page.toNat) (hend : page.toNat + n ≤ 2 ^ 32)
    (hmem : ∀ x < n, mem (page + BitVec.ofNat 32 x) = some (image n page strs x)) :
    Starts mem (startAt n page strs) strs := by
  obtain ⟨hslot, hle, htop⟩ := hfits.slots_at
  have hargc : At (image n page strs) (slotsAt n strs - 8)
      (wordBytes (BitVec.ofNat 32 strs.length)) := at_store _ _ _
  have hargv : At (image n page strs) (slotsAt n strs - 4)
      (wordBytes (page + BitVec.ofNat 32 (slotsAt n strs))) :=
    (at_store _ _ _).store (.inr (by rw [word_bytes_length]; omega))
  have hlast : At (image n page strs) (slotsAt n strs + 4 * strs.length) (wordBytes 0) := by
    refine ((at_store _ _ _).store (.inr ?_)).store (.inr ?_)
    · rw [word_bytes_length]
      omega
    · rw [word_bytes_length]
      omega
  have hnext : startAt n page strs + 4 = page + BitVec.ofNat 32 (slotsAt n strs - 4) := by
    rw [startAt, BitVec.add_assoc, show (4 : BitVec 32) = BitVec.ofNat 32 4 from rfl,
      ← BitVec.ofNat_add, show slotsAt n strs - 8 + 4 = slotsAt n strs - 4 by omega]
  refine ⟨.of_at hmem hargc (by rw [word_bytes_length]; omega),
    page + BitVec.ofNat 32 (slotsAt n strs), ?_, fun i str hstr => ?_, ?_⟩
  · rw [hnext]
    exact .of_at hmem hargv (by rw [word_bytes_length]; omega)
  · obtain ⟨hi, hget⟩ := List.getElem?_eq_some_iff.mp hstr
    have hlen : (str ++ [0]).length = str.length + 1 := List.length_append
    have hin := size_take_lt hstr
    obtain ⟨hptr, hbytes⟩ := store_args_at page (fun _ => 0)
      (show slotsAt n strs + 4 * strs.length ≤ stringsAt n strs by omega) hstr
    refine ⟨page + BitVec.ofNat 32 (stringsAt n strs + size (strs.take i)), fun hzero => ?_, ?_, ?_⟩
    · -- the string lies in the page, which does not reach around to address 0
      have hzero' := congrArg BitVec.toNat hzero
      rw [BitVec.toNat_add, BitVec.toNat_ofNat, Nat.add_mod_mod, Nat.mod_eq_of_lt (by omega)]
        at hzero'
      have hnull : (0 : BitVec 32).toNat = 0 := rfl
      omega
    · rw [BitVec.add_assoc, ← BitVec.ofNat_add]
      refine .of_at hmem (hptr.store_ends (.inl ⟨?_, ?_⟩) hslot) ?_
      · omega
      · rw [word_bytes_length]
        omega
      · rw [word_bytes_length]
        omega
    · refine ⟨hchars str (hget ▸ List.getElem_mem hi), ?_⟩
      refine .of_at hmem (hbytes.store_ends (.inr ?_) hslot) ?_
      · omega
      · rw [hlen]
        omega
  · rw [BitVec.add_assoc, ← BitVec.ofNat_add]
    exact .of_at hmem hlast (by rw [word_bytes_length]; omega)

/-- The first byte, and the others. -/
theorem reads_cons {c : BitVec 8} : Reads mem va (c :: bytes) ↔
    mem va = some c ∧ Reads mem (va + 1) bytes := by
  have hnext : ∀ i, va + BitVec.ofNat 32 (i + 1) = va + 1 + BitVec.ofNat 32 i := by
    intro i
    rw [BitVec.add_assoc, BitVec.ofNat_add, BitVec.add_comm (BitVec.ofNat 32 i)]
    rfl
  constructor
  · intro h
    have hfirst := h 0 (Nat.zero_lt_succ _)
    rw [BitVec.add_zero] at hfirst
    refine ⟨hfirst, fun i hi => ?_⟩
    have hbyte := h (i + 1) (Nat.succ_lt_succ hi)
    rwa [hnext] at hbyte
  · rintro ⟨hfirst, hrest⟩ i hi
    cases i with
    | zero =>
        rw [BitVec.add_zero]
        exact hfirst
    | succ i =>
        rw [hnext]
        exact hrest i (Nat.lt_of_succ_lt_succ hi)

/-- A memory in which more can be read. -/
theorem Reads.mono (h : Reads mem va bytes)
    (hmore : ∀ x b, mem x = some b → mem' x = some b) : Reads mem' va bytes :=
  fun i hi => hmore _ _ (h i hi)

theorem IsString.mono (h : IsString mem va str) (hmore : ∀ x b, mem x = some b → mem' x = some b) :
    IsString mem' va str :=
  ⟨h.chars, h.bytes.mono hmore⟩

end Labs.ArgVec
