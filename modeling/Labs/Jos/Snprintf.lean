import Labs.Jos.PrintfmtOutput

/-!
# Printing into a buffer

`sprintputch` and `vsnprintf` of `lib/printfmt.c`, over arrays that end a program which leaves
them. `vsnprintf_exact` says that the buffer holds what fits of the output, and that the result
counts all of it.
-/

namespace Labs.Jos.Printfmt

open Prog CArray

/-- `struct sprintbuf`. The pointers are indices of the array that the buffer lies in. -/
structure Sprintbuf where
  buf : Nat
  ebuf : Nat
  cnt : BitVec 32

/-- The arrays, and the variable `b` of `vsnprintf`. -/
structure State (A : Type) where
  mem : Arrays A
  b : Sprintbuf

section Model

variable {A : Type} [DecidableEq A]

/-- `*b->buf = ch`. -/
def storeChar (a : A) (ch : UInt8) : Prog (State A) (Fault A) Unit := do
  let st ← get
  zoom State.mem (fun m st => { st with mem := m }) (store a st.b.buf ch)

/-- The function `sprintputch`. -/
def sprintputch (a : A) (ch : UInt8) : Prog (State A) (Fault A) Unit := do
  modify fun st => { st with b := { st.b with cnt := st.b.cnt + 1 } }
  let st ← get
  if st.b.buf < st.b.ebuf then
    storeChar a ch
    modify fun st => { st with b := { st.b with buf := st.b.buf + 1 } }
  else
    return ()

/-- The function `vsnprintf`. The buffer is a place of an array, or NULL. -/
def vsnprintf (buf : Option (A × Nat)) (n : BitVec 32) (c : Call) :
    Prog (State A) (Fault A) (BitVec 32) :=
  match buf with
  | none => return -eInval
  | some (a, p) =>
      if n.toInt < 1 then return -eInval
      else do
        modify fun st => { st with b := ⟨p, p + n.toNat - 1, 0⟩ }
        let done ← vprintfmt (sprintputch a) 2 c
        if done = true then
          storeChar a 0
          let st ← get
          return st.b.cnt
        else exit .fuel

end Model

section Buffer

variable {A : Type} [DecidableEq A] {a : A} {p n : Nat} {old : Arrays A} {st : State A}
  {done : List UInt8} {c : UInt8} {E : Fault A → State A → Prop}

/-- `done` has been printed to a buffer of `n` bytes: what fits is in the buffer. All of it is
counted. -/
structure Printed (a : A) (p n : Nat) (old : Arrays A) (done : List UInt8) (st : State A) :
    Prop where
  mem : st.mem = Function.update old a (overwrite (old a) p (done.take (n - 1)))
  buf : st.b.buf = p + (done.take (n - 1)).length
  ebuf : st.b.ebuf = p + n - 1
  cnt : st.b.cnt = BitVec.ofNat 32 done.length

/-- Nothing has been printed yet. -/
theorem printed_nil : Printed a p n old [] ⟨old, ⟨p, p + n - 1, 0⟩⟩ where
  mem := by
    have hsame : overwrite (old a) p [] = old a := by
      simp [overwrite]
    rw [List.take_nil, hsame, Function.update_eq_self]
  buf := by rw [List.take_nil, List.length_nil, Nat.add_zero]
  ebuf := rfl
  cnt := rfl

/-- Store a character behind what is in the buffer. -/
theorem wp_store_char {Q : Unit → State A → Prop} {bytes : List UInt8}
    (hmem : st.mem = Function.update old a (overwrite (old a) p bytes))
    (hbuf : st.b.buf = p + bytes.length) (hplace : p + bytes.length < (old a).length)
    (hQ : Q () ⟨Function.update old a (overwrite (old a) p (bytes ++ [c])), st.b⟩) :
    wp (storeChar a c) Q E st := by
  have harray : st.mem a = overwrite (old a) p bytes := by
    rw [hmem, Function.update_self]
  unfold storeChar
  rw [wp_bind, wp_get, wp_zoom]
  refine wp_store ?_ ?_
  · rw [harray, length_overwrite hplace.le, hbuf]
    exact hplace
  · rw [harray, hbuf, set_overwrite hplace, hmem, Function.update_idem]
    exact hQ

/-- The callback counts every character, and stores those that leave room for the terminator. -/
theorem Printed.sprintputch (h : Printed a p n old done st) (hroom : p + n ≤ (old a).length) :
    wp (sprintputch a c) (fun _ st' => Printed a p n old (done ++ [c]) st') E st := by
  have hlength : (done.take (n - 1)).length = min (n - 1) done.length := List.length_take
  have hcnt : st.b.cnt + 1 = BitVec.ofNat 32 (done ++ [c]).length := by
    rw [h.cnt, List.length_append, List.length_singleton, BitVec.ofNat_add]
    rfl
  unfold Printfmt.sprintputch
  rw [wp_bind, wp_modify, wp_bind, wp_get, wp_ite]
  constructor
  · intro hlt
    dsimp only at hlt
    rw [h.buf, h.ebuf] at hlt
    -- the character is one of the first `n - 1`
    have htake : (done ++ [c]).take (n - 1) = done.take (n - 1) ++ [c] := by
      have hlong : (done ++ [c]).length ≤ n - 1 := by
        rw [List.length_append, List.length_singleton]
        omega
      rw [List.take_of_length_le hlong, List.take_of_length_le (by omega)]
    rw [wp_bind]
    refine wp_store_char h.mem h.buf (by omega) ?_
    rw [wp_modify]
    refine ⟨?_, ?_, h.ebuf, hcnt⟩
    · rw [htake]
    · rw [htake, List.length_append, List.length_singleton, ← Nat.add_assoc, ← h.buf]
  · intro hge
    dsimp only at hge
    rw [h.buf, h.ebuf] at hge
    have htake : (done ++ [c]).take (n - 1) = done.take (n - 1) :=
      List.take_append_of_le_length (by omega)
    rw [wp_pure]
    refine ⟨?_, ?_, h.ebuf, hcnt⟩
    · rw [htake]
      exact h.mem
    · rw [htake]
      exact h.buf

end Buffer

variable {A : Type} [DecidableEq A]

/-- `vprintfmt` returns for every format, having handed its output to the callback; and `vsnprintf`
returns the length of that output and leaves as much of it in the buffer as fits in front of a
terminator, with nothing else changed. -/
theorem vsnprintf_exact {call : Call} (hfmt : 0 ∈ call.fmt) :
    (∀ (σ ε : Type) (putch : UInt8 → Prog σ ε Unit),
      vprintfmt putch 2 call = do { forEach (output call) putch; return true }) ∧
    ∀ (a : A) (p : Nat) (n : BitVec 32) (st : State A), 1 ≤ n.toInt →
      p + n.toNat ≤ (st.mem a).length → (output call).length < 2 ^ 31 →
      wp (vsnprintf (some (a, p)) n call)
        (fun r st' => r.toInt = (output call).length ∧
          st'.mem = Function.update st.mem a
            (overwrite (st.mem a) p ((output call).take (n.toNat - 1) ++ [0])))
        (fun _ _ => False) st := by
  have hprints := prints_vprintfmt hfmt
  refine ⟨hprints, fun a p n st hn hroom hlength => ?_⟩
  have hpos : 1 ≤ n.toNat := by
    rw [BitVec.toInt_eq_toNat_cond] at hn
    split at hn <;> omega
  unfold vsnprintf
  dsimp only
  rw [if_neg (by omega), wp_bind, wp_modify, wp_bind]
  refine wp_mono_ret (wp_of_prints (I := Printed a p n.toNat st.mem) hprints printed_nil
    fun done c t ht => ht.sprintputch hroom) fun r st' h => ?_
  obtain ⟨hdone, hprinted⟩ := h
  have htake : ((output call).take (n.toNat - 1)).length ≤ n.toNat - 1 := List.length_take_le _ _
  -- the terminator goes behind the characters that were kept
  rw [if_pos hdone, wp_bind]
  refine wp_store_char hprinted.mem hprinted.buf (by omega) ?_
  rw [wp_bind, wp_get, wp_pure]
  refine ⟨?_, rfl⟩
  dsimp only
  have hcount : (BitVec.ofNat 32 (output call).length).toNat = (output call).length :=
    Nat.mod_eq_of_lt (by omega)
  rw [hprinted.cnt, BitVec.toInt_eq_toNat_of_lt (by omega), hcount]

/-- A character, a padded number and a string with a precision. -/
def mixedCall : Call where
  fmt := ascii "a%03d%.2s" ++ [0]
  args := fun i => if i = 0 then 7 else 100
  text := fun _ => ascii "xyz" ++ [0]

/-- All three, printed to a buffer of six bytes in an array of eight. -/
theorem vsnprintf_cut_off :
    wp (vsnprintf (some ((), 1)) 6 mixedCall)
      (fun r st' => r.toInt = 6 ∧ st'.mem = Function.update (fun _ => List.replicate 8 7) ()
        ([7] ++ ascii "a007x" ++ [0, 7]))
      (fun _ _ => False) ⟨fun _ => List.replicate 8 7, ⟨0, 0, 0⟩⟩ := by
  have hout : output mixedCall = ascii "a007xy" := by decide +kernel
  have h := (vsnprintf_exact (A := Unit) (show 0 ∈ mixedCall.fmt by decide)).2 () 1 6
    ⟨fun _ => List.replicate 8 7, ⟨0, 0, 0⟩⟩ (by decide) (by decide) (by rw [hout]; decide)
  rw [hout] at h
  exact h

end Labs.Jos.Printfmt
