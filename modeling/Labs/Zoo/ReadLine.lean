import Labs.Zoo.Zookd

/-!
# Reading lines

What the calls of `http_read_line` make of a stream, one after the other until one fails. A call
drops the carriage returns, and ends at a newline or when its buffer is full. In the latter case it
has read one byte more than it keeps.
-/

namespace Labs.Zoo.ReadLine

open Prog CArray Zookd

/-- What a call has done: the bytes that it took from the stream, and the buffer that it left. -/
structure Taken where
  consumed : List UInt8
  buf : List UInt8

/-- A stream without its carriage returns. -/
def strip (l : List UInt8) : List UInt8 := l.filter (· ≠ byte '\r')

namespace Taken

/-- The call ended at a newline. -/
def ended (t : Taken) : Bool := t.consumed.getLast? = some (byte '\n')

/-- The bytes in front of the terminator that the call stored. -/
def bytes (t : Taken) : List UInt8 := t.buf.take ((strip t.consumed).length - 1)

/-- The string in the buffer. -/
def string (t : Taken) : List UInt8 := cstr t.buf

end Taken

/-- Lines one after the other, with a newline after each that ended at one. -/
def joined (line : Taken → List UInt8) (ts : List Taken) : List UInt8 :=
  ts.flatMap fun t => line t ++ if t.ended then [byte '\n'] else []

/-- The stream up to the last completed line, without its carriage returns. -/
def completed (ts : List Taken) : List UInt8 := strip (ts.flatMap Taken.consumed)

/-- Calls of `http_read_line` with a buffer of `size` bytes, until one fails. -/
def readLines (a : Arr) (size : Nat) : Nat → HttpM (List Taken)
  | 0 => exit .fuel
  | fuel + 1 => do
      let input ← gets State.input
      let r ← httpReadLine a size
      if r < 0 then
        return []
      else
        let s ← get
        let rest ← readLines a size fuel
        return ⟨input.take (input.length - s.input.length), s.mem a⟩ :: rest

/-- Every line of the stream is shorter than the buffer, the last one without a newline as well. -/
def Short (size : Nat) (input : List UInt8) : Prop :=
  ∀ piece ∈ (strip input).splitOn (byte '\n'), piece.length < size

/-- No line that a newline ends has a zero byte. -/
def Text (input : List UInt8) : Prop := ∀ piece ∈ lines (byte '\n') (strip input), 0 ∉ piece

/-! ## One call -/

variable {size : Nat} {input buf rest done : List UInt8}

theorem strip_append (l m : List UInt8) : strip (l ++ m) = strip l ++ strip m :=
  List.filter_append ..

theorem strip_cr (l : List UInt8) : strip (byte '\r' :: l) = strip l := by
  simp [strip]

theorem strip_cons {c : UInt8} (hc : c ≠ byte '\r') (l : List UInt8) :
    strip (c :: l) = c :: strip l := by
  simp [strip, hc]

/-- A successful call took `consumed`: without its carriage returns these are the bytes that it
kept, and then one byte more, which is a newline unless the buffer is full. -/
structure Call (size : Nat) (done input buf rest consumed piece : List UInt8) (c : UInt8) :
    Prop where
  input : input = consumed ++ rest
  kept : buf = done ++ piece
  strip : strip consumed = piece ++ [c]
  last : consumed.getLast? = some c
  plain : byte '\n' ∉ piece
  room : buf.length ≤ size - 1
  full : c ≠ byte '\n' → buf.length = size - 1

theorem call_of_some (hdone : done.length ≤ size - 1)
    (h : Http.httpReadLine size done input = some (buf, rest)) :
    ∃ consumed piece c, Call size done input buf rest consumed piece c := by
  induction input generalizing done with
  | nil => cases h
  | cons c input ih =>
      rw [Http.httpReadLine] at h
      by_cases hcr : c = byte '\r'
      · -- a carriage return is taken, but not kept
        rw [if_pos hcr] at h
        obtain ⟨consumed, piece, c', hcall⟩ := ih hdone h
        refine ⟨c :: consumed, piece, c', ?_, hcall.kept, ?_, ?_, hcall.plain, hcall.room,
          hcall.full⟩
        · rw [hcall.input, List.cons_append]
        · rw [hcr, strip_cr, hcall.strip]
        · rw [List.getLast?_cons, hcall.last]
          rfl
      · rw [if_neg hcr] at h
        by_cases hnl : c = byte '\n'
        · rw [if_pos hnl] at h
          cases h
          refine ⟨[c], [], c, rfl, (List.append_nil _).symm, ?_, rfl, List.not_mem_nil, hdone,
            fun hne => absurd hnl hne⟩
          rw [strip_cons hcr]
          rfl
        · rw [if_neg hnl] at h
          by_cases hfull : size - 1 ≤ done.length
          · -- the buffer is full, and the byte is lost
            rw [if_pos hfull] at h
            cases h
            refine ⟨[c], [], c, rfl, (List.append_nil _).symm, ?_, rfl, List.not_mem_nil, hdone,
              fun _ => by omega⟩
            rw [strip_cons hcr]
            rfl
          · rw [if_neg hfull] at h
            have hroom : (done ++ [c]).length ≤ size - 1 := by
              rw [List.length_append, List.length_singleton]
              omega
            obtain ⟨consumed, piece, c', hcall⟩ := ih hroom h
            refine ⟨c :: consumed, c :: piece, c', ?_, ?_, ?_, ?_, ?_, hcall.room, hcall.full⟩
            · rw [hcall.input, List.cons_append]
            · rw [hcall.kept, List.append_assoc]
              rfl
            · rw [strip_cons hcr, hcall.strip]
              rfl
            · rw [List.getLast?_cons, hcall.last]
              rfl
            · rw [List.mem_cons, not_or]
              exact ⟨Ne.symm hnl, hcall.plain⟩

/-- A call that fails has seen no newline, and its buffer was not full. -/
theorem rest_of_none (hdone : done.length ≤ size - 1) (hsize : 0 < size)
    (h : Http.httpReadLine size done input = none) :
    byte '\n' ∉ strip input ∧ done.length + (strip input).length < size := by
  induction input generalizing done with
  | nil => exact ⟨List.not_mem_nil, show done.length + 0 < size by omega⟩
  | cons c input ih =>
      rw [Http.httpReadLine] at h
      by_cases hcr : c = byte '\r'
      · rw [if_pos hcr] at h
        rw [hcr, strip_cr]
        exact ih hdone h
      · rw [if_neg hcr] at h
        by_cases hnl : c = byte '\n'
        · rw [if_pos hnl] at h
          cases h
        · rw [if_neg hnl] at h
          by_cases hfull : size - 1 ≤ done.length
          · rw [if_pos hfull] at h
            cases h
          · rw [if_neg hfull] at h
            have hroom : (done ++ [c]).length ≤ size - 1 := by
              rw [List.length_append, List.length_singleton]
              omega
            obtain ⟨hmem, hlen⟩ := ih hroom h
            rw [strip_cons hcr, List.mem_cons, not_or, List.length_cons]
            rw [List.length_append, List.length_singleton] at hlen
            exact ⟨⟨Ne.symm hnl, hmem⟩, by omega⟩

/-! ## All calls -/

/-- What is known of a call that has been made: the bytes that it kept, the byte behind them, and
what lies behind the terminator. -/
structure Taken.Of (size : Nat) (t : Taken) (piece : List UInt8) (c : UInt8) : Prop where
  strip : ReadLine.strip t.consumed = piece ++ [c]
  bytes : t.bytes = piece
  string : t.string = cstr piece
  ended : t.ended = true ↔ c = byte '\n'
  plain : byte '\n' ∉ piece
  room : piece.length ≤ size - 1
  full : c ≠ byte '\n' → piece.length = size - 1

theorem Call.taken {consumed piece junk : List UInt8} {c : UInt8}
    (h : Call size [] input buf rest consumed piece c) :
    Taken.Of size ⟨consumed, buf ++ 0 :: junk⟩ piece c := by
  have hbuf : buf = piece := h.kept
  refine ⟨h.strip, ?_, ?_, ?_, h.plain, hbuf ▸ h.room, fun hc => hbuf ▸ h.full hc⟩
  · rw [Taken.bytes, h.strip, List.length_append, List.length_singleton, Nat.add_sub_cancel, hbuf]
    exact List.take_left
  · rw [Taken.string, hbuf, cstr_append_stop]
  · rw [Taken.ended, h.last]
    simp

/-- The calls take the stream apart: each has taken a line, and nothing complete is left. -/
inductive Reads (size : Nat) : List UInt8 → List Taken → Prop where
  | done {input : List UInt8} (hplain : byte '\n' ∉ strip input)
      (hroom : (strip input).length < size) : Reads size input []
  | line {input rest : List UInt8} {t : Taken} {ts : List Taken} {piece : List UInt8} {c : UInt8}
      (hinput : input = t.consumed ++ rest) (ht : t.Of size piece c) (hrest : Reads size rest ts) :
      Reads size input (t :: ts)

/-- The calls return, with enough fuel, and take the stream apart. -/
theorem read_lines_spec {a : Arr} (hsize : 0 < size) {fuel : Nat} {s : State}
    (hlen : (s.mem a).length = size) (hfuel : s.input.length < fuel) :
    ∃ ts s', readLines a size fuel s = .ret ts s' ∧ Reads size s.input ts := by
  induction fuel generalizing s with
  | zero => omega
  | succ fuel ih =>
      refine ret_of_wp (Q := fun ts _ => Reads size s.input ts) ?_
      rw [readLines, wp_bind, wp_gets, wp_bind, httpReadLine, wp_bind, wp_gets]
      refine read_line_loop_spec (List.nil_append _).symm rfl hlen hsize ?_ ?_
      · intro hnone l _
        obtain ⟨hplain, hroom⟩ := rest_of_none (Nat.zero_le _) hsize hnone
        rw [if_pos (by decide)]
        exact .done hplain (by simpa using hroom)
      · intro buf rest junk hsome hfull
        obtain ⟨consumed, piece, c, hcall⟩ := call_of_some (Nat.zero_le _) hsome
        have hshort := read_line_length hsome
        have htake : s.input.take (s.input.length - rest.length) = consumed := by
          rw [hcall.input, List.length_append, Nat.add_sub_cancel]
          exact List.take_left
        obtain ⟨ts, s', hret, hreads⟩ := @ih
          { s with mem := Function.update s.mem a (buf ++ 0 :: junk), input := rest }
          (show (Function.update s.mem a (buf ++ 0 :: junk) a).length = size by
            rw [Function.update_self, hfull])
          (show rest.length < fuel by omega)
        rw [if_neg (by decide), wp_bind, wp_get, wp_bind, wp_of_ret hret, wp_pure]
        have htaken : Taken.Of size ⟨s.input.take (s.input.length - rest.length),
            Function.update s.mem a (buf ++ 0 :: junk) a⟩ piece c := by
          rw [htake, Function.update_self]
          exact hcall.taken
        have hinput : s.input = s.input.take (s.input.length - rest.length) ++ rest := by
          rw [htake]
          exact hcall.input
        exact .line hinput htaken hreads

namespace Reads

variable {ts : List Taken}

/-- Nothing complete is left of the stream. -/
theorem split (h : Reads size input ts) :
    ∃ rest, input = ts.flatMap Taken.consumed ++ rest ∧ byte '\n' ∉ rest := by
  induction h with
  | @done input hplain hroom =>
      refine ⟨input, rfl, fun hmem => hplain ?_⟩
      exact List.mem_filter.2 ⟨hmem, by decide⟩
  | line hinput ht hrest ih =>
      obtain ⟨rest', hrest', hplain⟩ := ih
      refine ⟨rest', ?_, hplain⟩
      rw [hinput, hrest', List.flatMap_cons, List.append_assoc]

/-- The lines are short when each call has ended at a newline. -/
theorem short_iff (hsize : 0 < size) (h : Reads size input ts) :
    Short size input ↔ ∀ t ∈ ts, t.ended = true := by
  induction h with
  | done hplain hroom =>
      refine iff_of_true (fun piece hpiece => ?_) fun t ht => (by cases ht)
      rw [List.splitOn_eq_singleton hplain, List.mem_singleton] at hpiece
      rw [hpiece]
      exact hroom
  | @line input rest t ts piece c hinput ht hrest ih =>
      have hstrip : strip input = piece ++ c :: strip rest := by
        rw [hinput, strip_append, ht.strip, List.append_assoc]
        rfl
      have hroom := ht.room
      rw [List.forall_mem_cons, ht.ended]
      by_cases hc : c = byte '\n'
      · rw [Short, hstrip, hc, List.splitOn_append_cons_self_of_not_mem ht.plain,
          List.forall_mem_cons]
        refine and_congr (iff_of_true (by omega) rfl) ih
      · -- the first line goes on behind the full buffer
        have hfull := ht.full hc
        refine iff_of_false (fun hshort => ?_) fun hall => hc hall.1
        have hplain : ∀ more, byte '\n' ∉ more → byte '\n' ∉ piece ++ c :: more := by
          intro more hmore
          rw [List.mem_append, List.mem_cons, not_or, not_or]
          exact ⟨ht.plain, Ne.symm hc, hmore⟩
        have hlong : ∀ more : List UInt8, ¬ (piece ++ c :: more).length < size := by
          intro more
          rw [List.length_append, List.length_cons]
          omega
        rw [Short, hstrip] at hshort
        cases hcut : cut (byte '\n') (strip rest) with
        | none =>
            rw [List.splitOn_eq_singleton (hplain _ (cut_eq_none.1 hcut))] at hshort
            exact hlong _ (hshort _ (List.mem_singleton_self _))
        | some found =>
            obtain ⟨hsplit, hmore⟩ := cut_eq_some.1 hcut
            rw [hsplit, ← List.cons_append, ← List.append_assoc,
              List.splitOn_append_cons_self_of_not_mem (hplain _ hmore)] at hshort
            exact hlong _ (hshort _ List.mem_cons_self)

/-- A line that is no longer than what its call kept adds at most what the call took. -/
theorem joined_length {line : Taken → List UInt8} (h : Reads size input ts)
    (hle : ∀ t ∈ ts, (line t).length ≤ t.bytes.length) :
    (joined line ts).length ≤ (completed ts).length := by
  induction h with
  | done => exact Nat.le_refl _
  | @line input rest t ts piece c hinput ht hrest ih =>
      obtain ⟨hhead, htail⟩ := List.forall_mem_cons.1 hle
      have hrec := ih htail
      have hnl : (if t.ended = true then [byte '\n'] else []).length ≤ 1 := by
        split <;> simp
      rw [ht.bytes] at hhead
      rw [completed] at hrec ⊢
      rw [joined, List.flatMap_cons, List.flatMap_cons, strip_append, ht.strip]
      rw [joined] at hrec
      simp only [List.length_append, List.length_singleton] at *
      omega

/-- Lines that are no longer than what their calls kept make up the stream exactly when they are
what the calls kept and each call has ended at a newline. -/
theorem joined_iff {line : Taken → List UInt8} (h : Reads size input ts)
    (hle : ∀ t ∈ ts, (line t).length ≤ t.bytes.length) :
    joined line ts = completed ts ↔ ∀ t ∈ ts, t.ended = true ∧ line t = t.bytes := by
  induction h with
  | done => exact iff_of_true rfl fun t ht => (by cases ht)
  | @line input rest t ts piece c hinput ht hrest ih =>
      obtain ⟨hhead, htail⟩ := List.forall_mem_cons.1 hle
      have hlen := hrest.joined_length htail
      have hcompleted : completed (t :: ts) = (piece ++ [c]) ++ completed ts := by
        rw [completed, List.flatMap_cons, strip_append, ht.strip, completed]
      have hjoined : joined line (t :: ts) =
          (line t ++ if t.ended = true then [byte '\n'] else []) ++ joined line ts :=
        List.flatMap_cons ..
      rw [List.forall_mem_cons, hjoined, hcompleted, ht.bytes]
      rw [ht.bytes] at hhead
      constructor
      · intro heq
        -- the lengths leave no slack
        have htotal := congrArg List.length heq
        have hnl : (if t.ended = true then [byte '\n'] else []).length ≤ 1 := by
          split <;> simp
        simp only [List.length_append, List.length_singleton] at htotal
        obtain ⟨hfirst, hothers⟩ := List.append_inj heq (by
          simp only [List.length_append, List.length_singleton]
          omega)
        have hended : t.ended = true := by
          by_contra hnot
          rw [if_neg hnot, List.append_nil] at hfirst
          rw [hfirst, List.length_append, List.length_singleton] at hhead
          omega
        rw [if_pos hended] at hfirst
        exact ⟨⟨hended, (List.append_inj' hfirst rfl).1⟩, (ih htail).1 hothers⟩
      · rintro ⟨⟨hended, hline⟩, hothers⟩
        rw [if_pos hended, hline, ht.ended.1 hended, (ih htail).2 hothers]

/-- What the calls kept are the lines of the stream, if each has ended at a newline. -/
theorem lines_eq (h : Reads size input ts) (hended : ∀ t ∈ ts, t.ended = true) :
    lines (byte '\n') (strip input) = ts.map Taken.bytes := by
  induction h with
  | done hplain => exact lines_of_not_mem hplain
  | @line input rest t ts piece c hinput ht hrest ih =>
      obtain ⟨hhead, htail⟩ := List.forall_mem_cons.1 hended
      have hcut : cut (byte '\n') (strip input) = some (piece, strip rest) := by
        refine cut_eq_some.2 ⟨?_, ht.plain⟩
        rw [hinput, strip_append, ht.strip, ht.ended.1 hhead, List.append_assoc]
        rfl
      rw [lines_of_cut hcut, ih htail, List.map_cons, ht.bytes]

/-- The string in the buffer is what the call kept, up to a zero byte. -/
theorem string_eq (h : Reads size input ts) : ∀ t ∈ ts, t.string = cstr t.bytes := by
  induction h with
  | done => exact fun t ht => (by cases ht)
  | line hinput ht hrest ih =>
      rw [List.forall_mem_cons, ht.string, ht.bytes]
      exact ⟨rfl, ih⟩

/-- The bytes that the calls kept make up the stream when its lines are short. -/
theorem bytes_iff (hsize : 0 < size) (h : Reads size input ts) :
    joined Taken.bytes ts = completed ts ↔ Short size input := by
  rw [h.joined_iff fun t _ => Nat.le_refl _, h.short_iff hsize]
  exact forall₂_congr fun t _ => and_iff_left rfl

/-- The strings make up the stream when its lines are short and have no zero byte. -/
theorem strings_iff (hsize : 0 < size) (h : Reads size input ts) :
    joined Taken.string ts = completed ts ↔ Short size input ∧ Text input := by
  have hle : ∀ t ∈ ts, t.string.length ≤ t.bytes.length := by
    intro t ht
    rw [h.string_eq t ht]
    exact (List.takeWhile_prefix _).length_le
  have hwhole : ∀ t ∈ ts, (t.string = t.bytes ↔ 0 ∉ t.bytes) := by
    intro t ht
    rw [h.string_eq t ht]
    refine ⟨fun heq => heq ▸ zero_not_mem_cstr, cstr_of_not_mem⟩
  rw [h.joined_iff hle, h.short_iff hsize]
  constructor
  · intro hall
    have hended : ∀ t ∈ ts, t.ended = true := fun t ht => (hall t ht).1
    refine ⟨hended, fun piece hpiece => ?_⟩
    rw [h.lines_eq hended, List.mem_map] at hpiece
    obtain ⟨t, ht, rfl⟩ := hpiece
    exact (hwhole t ht).1 (hall t ht).2
  · rintro ⟨hended, htext⟩ t ht
    refine ⟨hended t ht, (hwhole t ht).2 (htext _ ?_)⟩
    rw [h.lines_eq hended]
    exact List.mem_map_of_mem ht

end Reads

/-- The lines that the calls return, with a newline after each that ended at one, are the stream up
to the last completed line without its carriage returns exactly when each line of the stream is
shorter than the buffer and none has a zero byte. The bytes that are kept in the buffer, beyond a
zero byte as well, are so exactly when each line is shorter than the buffer. -/
theorem lines_lossless_iff (a : Arr) (size : Nat) (hsize : 2 ≤ size) (s : State)
    (hlen : (s.mem a).length = size) :
    ∃ ts s' rest, readLines a size (s.input.length + 1) s = .ret ts s' ∧
      s.input = ts.flatMap Taken.consumed ++ rest ∧ byte '\n' ∉ rest ∧
      (joined Taken.string ts = completed ts ↔ Short size s.input ∧ Text s.input) ∧
      (joined Taken.bytes ts = completed ts ↔ Short size s.input) := by
  have hpos : 0 < size := by omega
  obtain ⟨ts, s', hret, hreads⟩ := read_lines_spec hpos hlen (Nat.lt_succ_self _)
  obtain ⟨rest, hinput, hplain⟩ := hreads.split
  exact ⟨ts, s', rest, hret, hinput, hplain, hreads.strings_iff hpos, hreads.bytes_iff hpos⟩

/-- Arrays of zeros, and a stream. -/
def blank (input : List UInt8) : State where
  mem a := List.replicate a.size 0
  input := input
  environ _ := none
  envLen := 0

theorem blank_sized (input : List UInt8) : Sized (blank input).mem :=
  fun _ => List.length_replicate

/-- For the buffer of `http_request_line` and a stream of two short lines. -/
theorem lines_lossless_iff_short : ∃ ts s' rest,
    readLines .line 8192 8 (blank (ascii "ab\r\ncd\n")) = .ret ts s' ∧
      ascii "ab\r\ncd\n" = ts.flatMap Taken.consumed ++ rest ∧ byte '\n' ∉ rest ∧
      (joined Taken.string ts = completed ts ↔
        Short 8192 (ascii "ab\r\ncd\n") ∧ Text (ascii "ab\r\ncd\n")) ∧
      (joined Taken.bytes ts = completed ts ↔ Short 8192 (ascii "ab\r\ncd\n")) :=
  lines_lossless_iff .line 8192 (by decide) (blank (ascii "ab\r\ncd\n")) (blank_sized _ .line)

/-- A line that fills the buffer of `http_request_line`. -/
def longLine : List UInt8 := List.replicate 8192 (byte 'a') ++ [byte '\n']

theorem not_short_long_line : ¬ Short 8192 longLine := by
  have hplain : byte '\n' ∉ List.replicate 8192 (byte 'a') := fun hmem =>
    absurd (List.eq_of_mem_replicate hmem) (by decide)
  have hstrip : strip longLine = List.replicate 8192 (byte 'a') ++ byte '\n' :: [] := by
    rw [longLine, strip_append, strip, List.filter_replicate, if_pos (by decide)]
    rfl
  intro hshort
  rw [Short, hstrip, List.splitOn_append_cons_self_of_not_mem hplain] at hshort
  have hlt := hshort _ List.mem_cons_self
  rw [List.length_replicate] at hlt
  omega

/-- A stream with a line that is too long is not read as it is. -/
theorem loses_of_not_short (hlong : ¬ Short 8192 input) : ∃ ts s',
    readLines .line 8192 (input.length + 1) (blank input) = .ret ts s' ∧
      joined Taken.string ts ≠ completed ts ∧ joined Taken.bytes ts ≠ completed ts := by
  obtain ⟨ts, s', hret, hreads⟩ := @read_lines_spec 8192 .line (by decide) (input.length + 1)
    (blank input) (blank_sized input .line) (Nat.lt_succ_self _)
  refine ⟨ts, s', hret, fun hstring => hlong ?_, fun hbytes => hlong ?_⟩
  · exact ((hreads.strings_iff (by decide)).1 hstring).1
  · exact (hreads.bytes_iff (by decide)).1 hbytes

/-- Such a line comes in two, and its last byte does not come at all. -/
theorem long_line_loses : ∃ ts s',
    readLines .line 8192 (longLine.length + 1) (blank longLine) = .ret ts s' ∧
      joined Taken.string ts ≠ completed ts ∧ joined Taken.bytes ts ≠ completed ts :=
  loses_of_not_short not_short_long_line

end Labs.Zoo.ReadLine
