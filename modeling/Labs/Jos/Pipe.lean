import Labs.Base.Ring
import Labs.Jos.Mmu

/-!
# The pipe

`devpipe_read` and `devpipe_write` of `lib/pipe.c`, one load or store of the shared `struct Pipe`
at a time, for one reader and one writer. The positions are signed 32-bit counters that are
compared as unsigned numbers and never reset; incrementing the largest one wraps, as the machine
does. Histories record the bytes that the reader took and the writer published, and the indices
into `p_buf`.
-/

namespace Labs.Jos

/-- `PIPEBUFSIZ`. -/
def pipebufsiz : Nat := 32

/-- `pos % PIPEBUFSIZ`, which has the sign of `pos`. -/
def pipeIndex (pos : Word) : Int := pos.toInt.tmod pipebufsiz

/-- The index lies in `p_buf`. -/
def InBuf (i : Int) : Prop := 0 ≤ i ∧ i < pipebufsiz

instance (i : Int) : Decidable (InBuf i) := inferInstanceAs (Decidable (_ ∧ _))

/-- Where the reader stands in a call of `devpipe_read` for `n` bytes, with `i` bytes read. -/
inductive PipeReader where
  /-- Out of the function, which returned `r`. -/
  | returned (r : Nat)
  /-- At the loop `i < n`. -/
  | loop (i n : Nat)
  /-- At the load of `p_rpos` in `p->p_rpos == p->p_wpos`. -/
  | empty (i n : Nat)
  /-- At the load of `p_wpos`. -/
  | emptyW (i n : Nat) (rpos : Word)
  /-- In `_pipeisclosed` or `sys_yield`. -/
  | closed (n : Nat)
  /-- At the load of `p_rpos` in `p->p_rpos % PIPEBUFSIZ`. -/
  | take (i n : Nat)
  /-- At the load of the byte. -/
  | load (i n : Nat) (index : Int)
  /-- At the load of `p_rpos` in `p->p_rpos++`. -/
  | bump (i n : Nat)
  /-- At the store to `p_rpos`. -/
  | advance (i n : Nat) (rpos : Word)
  /-- An index was outside `p_buf`; nothing is said about what follows. -/
  | stray

/-- Where the writer stands in a call of `devpipe_write`, with `data` left to write and `i` bytes
written. -/
inductive PipeWriter where
  | returned (r : Nat)
  | loop (i : Nat) (data : List Byte)
  /-- At the load of `p_wpos` in `p->p_wpos >= p->p_rpos + sizeof(p->p_buf)`. -/
  | full (i : Nat) (byte : Byte) (data : List Byte)
  /-- At the load of `p_rpos`. -/
  | fullR (i : Nat) (byte : Byte) (data : List Byte) (wpos : Word)
  | closed (i : Nat) (byte : Byte) (data : List Byte)
  /-- At the load of `p_wpos` in `p->p_wpos % PIPEBUFSIZ`. -/
  | put (i : Nat) (byte : Byte) (data : List Byte)
  /-- At the store of the byte. -/
  | store (i : Nat) (byte : Byte) (data : List Byte) (index : Int)
  /-- At the load of `p_wpos` in `p->p_wpos++`. -/
  | bump (i : Nat) (byte : Byte) (data : List Byte)
  /-- At the store to `p_wpos`. -/
  | advance (i : Nat) (byte : Byte) (data : List Byte) (wpos : Word)
  | stray

/-- The pipe, its reader and its writer. `freed` counts the increments of `p_rpos`. -/
structure PipeSystem where
  rpos : Word
  wpos : Word
  buf : Int → Byte
  reader : PipeReader
  writer : PipeWriter
  read : List Byte
  written : List Byte
  freed : Nat
  indices : List Int

namespace PipeSystem

/-- A new pipe: `sys_page_alloc` zeroes the page. -/
def boot : PipeSystem where
  rpos := 0
  wpos := 0
  buf := fun _ => 0
  reader := .returned 0
  writer := .returned 0
  read := []
  written := []
  freed := 0
  indices := []

/-- The reader executes its next load or store. -/
def readerNext (s : PipeSystem) : PipeSystem :=
  match s.reader with
  | .returned _ => s
  | .loop i n => { s with reader := if i < n then .empty i n else .returned i }
  | .empty i n => { s with reader := .emptyW i n s.rpos }
  | .emptyW i n rpos =>
      if rpos = s.wpos then { s with reader := if 0 < i then .returned i else .closed n }
      else { s with reader := .take i n }
  | .closed _ => s
  | .take i n => { s with reader := .load i n (pipeIndex s.rpos) }
  | .load i n index =>
      if InBuf index then
        { s with
          reader := .bump i n
          read := s.read ++ [s.buf index]
          indices := s.indices ++ [index] }
      else { s with reader := .stray, indices := s.indices ++ [index] }
  | .bump i n => { s with reader := .advance i n (s.rpos + 1) }
  | .advance i n rpos => { s with rpos := rpos, freed := s.freed + 1, reader := .loop (i + 1) n }
  | .stray => s

/-- The writer executes its next load or store. -/
def writerNext (s : PipeSystem) : PipeSystem :=
  match s.writer with
  | .returned _ => s
  | .loop i [] => { s with writer := .returned i }
  | .loop i (byte :: data) => { s with writer := .full i byte data }
  | .full i byte data => { s with writer := .fullR i byte data s.wpos }
  | .fullR i byte data wpos =>
      if s.rpos + BitVec.ofNat 32 pipebufsiz ≤ wpos then { s with writer := .closed i byte data }
      else { s with writer := .put i byte data }
  | .closed _ _ _ => s
  | .put i byte data => { s with writer := .store i byte data (pipeIndex s.wpos) }
  | .store i byte data index =>
      if InBuf index then
        { s with
          writer := .bump i byte data
          buf := Function.update s.buf index byte
          indices := s.indices ++ [index] }
      else { s with writer := .stray, indices := s.indices ++ [index] }
  | .bump i byte data => { s with writer := .advance i byte data (s.wpos + 1) }
  | .advance i byte data wpos =>
      { s with wpos := wpos, written := s.written ++ [byte], writer := .loop (i + 1) data }
  | .stray => s

/-- The bytes in the buffer: stored, and not given back by an increment of `p_rpos`. -/
def buffered (s : PipeSystem) : Nat :=
  match s.writer with
  | .bump _ _ _ => s.written.length + 1 - s.freed
  | .advance _ _ _ _ => s.written.length + 1 - s.freed
  | _ => s.written.length - s.freed

end PipeSystem

/-- One step of the reader or the writer. -/
inductive PipeStep : PipeSystem → PipeSystem → Prop where
  | callRead {s : PipeSystem} {r : Nat} (n : Nat) (hrest : s.reader = .returned r) :
      PipeStep s { s with reader := .loop 0 n }
  | callWrite {s : PipeSystem} {r : Nat} (data : List Byte) (hrest : s.writer = .returned r) :
      PipeStep s { s with writer := .loop 0 data }
  | reader {s : PipeSystem} : PipeStep s s.readerNext
  | writer {s : PipeSystem} : PipeStep s s.writerNext
  /-- `_pipeisclosed` is true. -/
  | readEof {s : PipeSystem} {n : Nat} (hclosed : s.reader = .closed n) :
      PipeStep s { s with reader := .returned 0 }
  /-- `_pipeisclosed` is false, and `sys_yield` returns. -/
  | readAgain {s : PipeSystem} {n : Nat} (hclosed : s.reader = .closed n) :
      PipeStep s { s with reader := .empty 0 n }
  | writeEof {s : PipeSystem} {i : Nat} {byte : Byte} {data : List Byte}
      (hclosed : s.writer = .closed i byte data) : PipeStep s { s with writer := .returned 0 }
  | writeAgain {s : PipeSystem} {i : Nat} {byte : Byte} {data : List Byte}
      (hclosed : s.writer = .closed i byte data) :
      PipeStep s { s with writer := .full i byte data }

/-- The writer computes an index only while at most `2 ^ 31` bytes have been written. -/
def PipeFits (s : PipeSystem) : Prop :=
  ∀ i byte data, s.writer = .put i byte data → s.written.length ≤ 2 ^ 31

/-- The states reached from a new pipe through states that meet `ok`. -/
inductive PipeRun (ok : PipeSystem → Prop) : PipeSystem → Prop where
  | boot : PipeRun ok .boot
  | step {s s' : PipeSystem} (hrun : PipeRun ok s) (hok : ok s) (hstep : PipeStep s s') :
      PipeRun ok s'

/-- The bytes read are a prefix of the bytes written, at most `PIPEBUFSIZ` bytes are buffered, and
every index lies in `p_buf`. -/
structure PipeSystem.Fifo (s : PipeSystem) : Prop where
  order : s.read <+: s.written
  bound : s.buffered ≤ pipebufsiz
  index : ∀ i ∈ s.indices, InBuf i

/-! ## Positions -/

/-- Where a position below `2 ^ 31 + 1` points. At `2 ^ 31` the position is negative but its
remainder is zero. -/
theorem pipe_index_of_nat {k : Nat} (hk : k ≤ 2 ^ 31) :
    pipeIndex (BitVec.ofNat 32 k) = (k % pipebufsiz : Nat) := by
  have hnat : (BitVec.ofNat 32 k).toNat = k := by
    rw [BitVec.toNat_ofNat]
    omega
  rw [pipeIndex, BitVec.toInt_eq_toNat_cond, hnat, pipebufsiz]
  by_cases hlt : k < 2 ^ 31
  · rw [if_pos (by omega), Int.tmod_eq_emod_of_nonneg (by omega)]
    omega
  · obtain rfl : k = 2 ^ 31 := by omega
    rfl

theorem in_buf_mod (k : Nat) : InBuf ((k % pipebufsiz : Nat) : Int) := by
  have hlt : k % pipebufsiz < pipebufsiz := Nat.mod_lt k (by decide)
  exact ⟨by omega, by omega⟩

/-- Positions are equal if the counts are. -/
theorem pos_eq_iff {j k : Nat} (hj : j < 2 ^ 32) (hk : k < 2 ^ 32) :
    BitVec.ofNat 32 j = BitVec.ofNat 32 k ↔ j = k := by
  constructor
  · intro h
    have hnat := congrArg BitVec.toNat h
    rw [BitVec.toNat_ofNat, BitVec.toNat_ofNat, Nat.mod_eq_of_lt hj, Nat.mod_eq_of_lt hk] at hnat
    exact hnat
  · intro h
    rw [h]

/-- The test for a full pipe, with no lap lost. -/
theorem pos_full_iff {j k : Nat} (hj : j ≤ 2 ^ 31 + 1) (hk : k ≤ 2 ^ 31 + 1) :
    BitVec.ofNat 32 j + BitVec.ofNat 32 pipebufsiz ≤ BitVec.ofNat 32 k ↔ j + pipebufsiz ≤ k := by
  rw [← BitVec.ofNat_add, BitVec.le_def, BitVec.toNat_ofNat, BitVec.toNat_ofNat, pipebufsiz,
    Nat.mod_eq_of_lt (by omega), Nat.mod_eq_of_lt (by omega)]

theorem pos_succ (k : Nat) : BitVec.ofNat 32 k + 1 = BitVec.ofNat 32 (k + 1) :=
  (BitVec.ofNat_add k 1).symm

/-! ## The invariant -/

/-- What the reader has found out stays true while the writer goes on: `total` bytes are written,
`freed` given back and `count` read. -/
def PipeReader.Ok (rpos : Word) (total freed count : Nat) : PipeReader → Prop
  | .returned _ => count = freed
  | .loop _ _ => count = freed
  | .empty _ _ => count = freed
  | .emptyW _ _ r => r = rpos ∧ count = freed
  | .closed _ => count = freed
  | .take _ _ => count = freed ∧ freed < total
  | .load _ _ index => count = freed ∧ freed < total ∧ index = (freed % pipebufsiz : Nat)
  | .bump _ _ => count = freed + 1 ∧ freed < total
  | .advance _ _ r => count = freed + 1 ∧ freed < total ∧ r = rpos + 1
  | .stray => False

/-- What the writer has found out stays true while the reader goes on. -/
def PipeWriter.Ok (wpos : Word) (buf : Int → Byte) (total freed : Nat) : PipeWriter → Prop
  | .returned _ => True
  | .loop _ _ => True
  | .full _ _ _ => True
  | .fullR _ _ _ w => w = wpos
  | .closed _ _ _ => True
  | .put _ _ _ => total < freed + pipebufsiz
  | .store _ _ _ index =>
      total < freed + pipebufsiz ∧ total ≤ 2 ^ 31 ∧ index = (total % pipebufsiz : Nat)
  | .bump _ byte _ => total < freed + pipebufsiz ∧ total ≤ 2 ^ 31 ∧
      buf (total % pipebufsiz : Nat) = byte
  | .advance _ byte _ w => total < freed + pipebufsiz ∧ total ≤ 2 ^ 31 ∧
      buf (total % pipebufsiz : Nat) = byte ∧ w = wpos + 1
  | .stray => False

/-- The positions count bytes, and the bytes between them lie in the buffer. -/
structure PipeSystem.Ok (s : PipeSystem) : Prop where
  rpos : s.rpos = BitVec.ofNat 32 s.freed
  wpos : s.wpos = BitVec.ofNat 32 s.written.length
  total : s.written.length ≤ 2 ^ 31 + 1
  le : s.freed ≤ s.written.length
  window : s.written.length ≤ s.freed + pipebufsiz
  holds : RingHolds pipebufsiz (fun i byte => s.buf (i : Nat) = byte) s.written s.freed
  order : s.read <+: s.written
  reader : s.reader.Ok s.rpos s.written.length s.freed s.read.length
  writer : s.writer.Ok s.wpos s.buf s.written.length s.freed
  index : ∀ i ∈ s.indices, InBuf i

/-- More bytes are written. -/
theorem PipeReader.Ok.mono {rpos : Word} {total total' freed count : Nat} {reader : PipeReader}
    (h : reader.Ok rpos total freed count) (hle : total ≤ total') :
    reader.Ok rpos total' freed count := by
  cases reader with
  | returned => exact h
  | loop => exact h
  | empty => exact h
  | emptyW => exact h
  | closed => exact h
  | take => exact ⟨h.1, Nat.lt_of_lt_of_le h.2 hle⟩
  | load => exact ⟨h.1, Nat.lt_of_lt_of_le h.2.1 hle, h.2.2⟩
  | bump => exact ⟨h.1, Nat.lt_of_lt_of_le h.2 hle⟩
  | advance => exact ⟨h.1, Nat.lt_of_lt_of_le h.2.1 hle, h.2.2⟩
  | stray => exact h

/-- A byte is given back. -/
theorem PipeWriter.Ok.mono {wpos : Word} {buf : Int → Byte} {total freed : Nat}
    {writer : PipeWriter} (h : writer.Ok wpos buf total freed) :
    writer.Ok wpos buf total (freed + 1) := by
  have hroom : total < freed + pipebufsiz → total < freed + 1 + pipebufsiz := by omega
  cases writer with
  | returned => trivial
  | loop => trivial
  | full => trivial
  | fullR => exact h
  | closed => trivial
  | put => exact hroom h
  | store => exact ⟨hroom h.1, h.2⟩
  | bump => exact ⟨hroom h.1, h.2⟩
  | advance => exact ⟨hroom h.1, h.2⟩
  | stray => exact h

namespace PipeSystem

variable {s : PipeSystem}

theorem boot_ok : boot.Ok where
  rpos := rfl
  wpos := rfl
  total := Nat.zero_le _
  le := le_rfl
  window := Nat.zero_le _
  holds := RingHolds.nil
  order := List.prefix_rfl
  reader := rfl
  writer := trivial
  index := fun _ hi => absurd hi List.not_mem_nil

/-- The byte that the reader takes is the next byte written. -/
theorem Ok.take_byte (h : s.Ok) (hcount : s.read.length = s.freed)
    (hlt : s.freed < s.written.length) :
    s.read ++ [s.buf (s.freed % pipebufsiz : Nat)] <+: s.written := by
  have hbyte := h.holds s.freed _ le_rfl (List.getElem?_eq_getElem hlt)
  have hread : s.read = s.written.take s.freed := by
    rw [← hcount]
    exact List.prefix_iff_eq_take.1 h.order
  rw [hbyte, hread, ← List.take_succ_eq_append_getElem hlt]
  exact List.take_prefix _ _

/-- A load or store of the reader. -/
theorem Ok.reader_next (h : s.Ok) : s.readerNext.Ok := by
  have hreader := h.reader
  unfold readerNext
  cases hpoint : s.reader with
  | returned r => exact h
  | loop i n =>
      rw [hpoint] at hreader
      have hloop : (if i < n then PipeReader.empty i n else .returned i).Ok s.rpos
          s.written.length s.freed s.read.length := by
        split
        · exact hreader
        · exact hreader
      exact { h with reader := hloop }
  | empty i n =>
      rw [hpoint] at hreader
      exact { h with reader := ⟨rfl, hreader⟩ }
  | emptyW i n rpos =>
      rw [hpoint] at hreader
      obtain ⟨rfl, hcount⟩ := hreader
      dsimp only
      split
      · have hempty : (if 0 < i then PipeReader.returned i else .closed n).Ok s.rpos
            s.written.length s.freed s.read.length := by
          split
          · exact hcount
          · exact hcount
        exact { h with reader := hempty }
      · rename_i hne
        have htotal := h.total
        have hle := h.le
        rw [h.rpos, h.wpos, pos_eq_iff (by omega) (by omega)] at hne
        have hlt : s.freed < s.written.length := by omega
        exact { h with reader := ⟨hcount, hlt⟩ }
  | closed n => exact h
  | take i n =>
      rw [hpoint] at hreader
      obtain ⟨hcount, hlt⟩ := hreader
      have htotal := h.total
      have hindex : pipeIndex s.rpos = (s.freed % pipebufsiz : Nat) := by
        rw [h.rpos]
        exact pipe_index_of_nat (by omega)
      exact { h with reader := ⟨hcount, hlt, hindex⟩ }
  | load i n index =>
      rw [hpoint] at hreader
      obtain ⟨hcount, hlt, rfl⟩ := hreader
      dsimp only
      rw [if_pos (in_buf_mod s.freed)]
      refine { h with order := h.take_byte hcount hlt, reader := ⟨?_, hlt⟩, index := ?_ }
      · rw [List.length_append, hcount]
        rfl
      · intro j hj
        rcases List.mem_append.1 hj with hold | hnew
        · exact h.index j hold
        · rw [List.mem_singleton.1 hnew]
          exact in_buf_mod s.freed
  | bump i n =>
      rw [hpoint] at hreader
      exact { h with reader := ⟨hreader.1, hreader.2, rfl⟩ }
  | advance i n rpos =>
      rw [hpoint] at hreader
      obtain ⟨hcount, hlt, rfl⟩ := hreader
      have hwindow := h.window
      refine { h with rpos := ?_, le := hlt, window := ?_, holds := ?_, reader := hcount,
                      writer := h.writer.mono }
      · rw [h.rpos]
        exact pos_succ s.freed
      · show s.written.length ≤ s.freed + 1 + pipebufsiz
        omega
      · exact h.holds.pop hwindow fun _ _ _ hitem => hitem
  | stray =>
      rw [hpoint] at hreader
      exact hreader.elim

/-- A load or store of the writer. -/
theorem Ok.writer_next (h : s.Ok) (hfits : PipeFits s) : s.writerNext.Ok := by
  have hwriter := h.writer
  unfold writerNext
  cases hpoint : s.writer with
  | returned r => exact h
  | loop i data =>
      cases data with
      | nil => exact { h with writer := trivial }
      | cons byte data => exact { h with writer := trivial }
  | full i byte data => exact { h with writer := rfl }
  | fullR i byte data wpos =>
      rw [hpoint] at hwriter
      obtain rfl : wpos = s.wpos := hwriter
      dsimp only
      split
      · exact { h with writer := trivial }
      · rename_i hroom
        have htotal := h.total
        have hle := h.le
        rw [h.rpos, h.wpos, pos_full_iff (by omega) htotal] at hroom
        exact { h with writer := Nat.lt_of_not_le hroom }
  | closed i byte data => exact h
  | put i byte data =>
      rw [hpoint] at hwriter
      have hle := hfits i byte data hpoint
      refine { h with writer := ⟨hwriter, hle, ?_⟩ }
      rw [h.wpos]
      exact pipe_index_of_nat hle
  | store i byte data index =>
      rw [hpoint] at hwriter
      obtain ⟨hlt, hle, rfl⟩ := hwriter
      dsimp only
      rw [if_pos (in_buf_mod s.written.length)]
      refine { h with
        holds := ?_, writer := ⟨hlt, hle, Function.update_self _ _ _⟩, index := ?_ }
      · refine h.holds.edit_next hlt fun i item hne hitem => ?_
        have hne' : (i : Int) ≠ (s.written.length % pipebufsiz : Nat) :=
          fun heq => hne (Int.ofNat.inj heq)
        show Function.update s.buf _ byte (i : Int) = item
        rw [Function.update_of_ne hne']
        exact hitem
      · intro j hj
        rcases List.mem_append.1 hj with hold | hnew
        · exact h.index j hold
        · rw [List.mem_singleton.1 hnew]
          exact in_buf_mod s.written.length
  | bump i byte data =>
      rw [hpoint] at hwriter
      exact { h with writer := ⟨hwriter.1, hwriter.2.1, hwriter.2.2, rfl⟩ }
  | advance i byte data wpos =>
      rw [hpoint] at hwriter
      obtain ⟨hlt, hle, hbyte, rfl⟩ := hwriter
      have hlen : (s.written ++ [byte]).length = s.written.length + 1 := List.length_append
      have hfreed := h.le
      have hwpos : s.wpos + 1 = BitVec.ofNat 32 (s.written ++ [byte]).length := by
        rw [hlen, h.wpos]
        exact pos_succ s.written.length
      have hbelow : s.freed ≤ (s.written ++ [byte]).length := by omega
      have hwindow : (s.written ++ [byte]).length ≤ s.freed + pipebufsiz := by omega
      have htotal : (s.written ++ [byte]).length ≤ 2 ^ 31 + 1 := by omega
      have hmore : s.written.length ≤ (s.written ++ [byte]).length := by omega
      exact { h with
        wpos := hwpos
        total := htotal
        le := hbelow
        window := hwindow
        holds := h.holds.push hbyte
        order := h.order.trans (List.prefix_append _ _)
        reader := h.reader.mono hmore
        writer := trivial }
  | stray =>
      rw [hpoint] at hwriter
      exact hwriter.elim

/-- The reader and the writer are where they may call or wait. -/
theorem Ok.set_reader (h : s.Ok) {reader : PipeReader}
    (hreader : reader.Ok s.rpos s.written.length s.freed s.read.length) :
    ({ s with reader := reader } : PipeSystem).Ok :=
  { h with reader := hreader }

theorem Ok.set_writer (h : s.Ok) {writer : PipeWriter}
    (hwriter : writer.Ok s.wpos s.buf s.written.length s.freed) :
    ({ s with writer := writer } : PipeSystem).Ok :=
  { h with writer := hwriter }

/-- The bytes are in order, and the buffer and the indices keep their bounds. -/
theorem Ok.fifo (h : s.Ok) : s.Fifo := by
  refine ⟨h.order, ?_, h.index⟩
  have hwindow := h.window
  have hwriter := h.writer
  unfold buffered
  split
  · rename_i hpoint
    rw [hpoint] at hwriter
    have hlt := hwriter.1
    omega
  · rename_i hpoint
    rw [hpoint] at hwriter
    have hlt := hwriter.1
    omega
  · omega

end PipeSystem

/-- Every step keeps the invariant. -/
theorem PipeStep.ok {s s' : PipeSystem} (hstep : PipeStep s s') (h : s.Ok) (hfits : PipeFits s) :
    s'.Ok := by
  have hreader := h.reader
  cases hstep with
  | callRead n hrest =>
      rw [hrest] at hreader
      exact h.set_reader hreader
  | callWrite data hrest => exact h.set_writer trivial
  | reader => exact h.reader_next
  | writer => exact h.writer_next hfits
  | readEof hclosed =>
      rw [hclosed] at hreader
      exact h.set_reader hreader
  | readAgain hclosed =>
      rw [hclosed] at hreader
      exact h.set_reader hreader
  | writeEof => exact h.set_writer trivial
  | writeAgain => exact h.set_writer trivial

/-- In every run that writes no byte after the first `2 ^ 31 + 1`, the pipe is a bounded queue. -/
theorem pipe_fifo {s : PipeSystem} (hrun : PipeRun PipeFits s) : s.Fifo := by
  have hok : s.Ok := by
    induction hrun with
    | boot => exact PipeSystem.boot_ok
    | step hrun hfits hstep ih => exact hstep.ok ih hfits
  exact hok.fifo

/-! ## Runs in a given order -/

namespace PipeSystem

/-- The next load or store of the writer, or of the reader. -/
def turn (s : PipeSystem) (writes : Bool) : PipeSystem :=
  if writes then s.writerNext else s.readerNext

/-- A turn publishes one byte at most. -/
theorem turn_written (s : PipeSystem) (writes : Bool) :
    (s.turn writes).written.length ≤ s.written.length + 1 := by
  unfold turn
  split
  · unfold writerNext
    split <;> try split
    all_goals simp
  · unfold readerNext
    split <;> try split
    all_goals simp

end PipeSystem

/-- Few bytes are written so far. -/
theorem pipe_fits_of_written {s : PipeSystem} (hle : s.written.length ≤ 2 ^ 31) : PipeFits s :=
  fun _ _ _ _ => hle

/-- Turns that are too few to write `2 ^ 31` bytes. -/
theorem PipeRun.turns {s : PipeSystem} (hrun : PipeRun PipeFits s) (order : List Bool)
    (hle : s.written.length + order.length ≤ 2 ^ 31) :
    PipeRun PipeFits (order.foldl PipeSystem.turn s) := by
  induction order generalizing s with
  | nil => exact hrun
  | cons writes order ih =>
      rw [List.length_cons] at hle
      have hwritten := s.turn_written writes
      have hstep : PipeStep s (s.turn writes) := by
        cases writes with
        | true => exact .writer
        | false => exact .reader
      exact ih (hrun.step (pipe_fits_of_written (by omega)) hstep) (by omega)

/-- `pipe_fifo` where the reader finds the pipe empty and waits, takes the first of two bytes while
the writer looks for room for the second, and takes the second in another call. -/
theorem pipe_fifo_two_bytes : ∃ s, PipeRun PipeFits s ∧ s.written = [7, 9] ∧ s.read = [7, 9] ∧
    s.indices = [0, 0, 1, 1] ∧ s.reader = .returned 1 ∧ s.writer = .returned 2 ∧ s.Fifo := by
  have hread := PipeRun.boot.step (pipe_fits_of_written (by decide)) (.callRead 2 rfl)
  have hwaits := hread.turns [false, false, false] (by decide)
  have hwrite := hwaits.step (pipe_fits_of_written (by decide)) (.callWrite [7, 9] rfl)
  have hfirst := hwrite.turns (List.replicate 7 true) (by decide)
  have hwakes := hfirst.step (pipe_fits_of_written (by decide)) (.readAgain rfl)
  have htakes := hwakes.turns
    [false, false, false, true, false, true, false, true, false, false, false, false] (by decide)
  have hsecond := htakes.turns (List.replicate 5 true) (by decide)
  have hagain := hsecond.step (pipe_fits_of_written (by decide)) (.callRead 2 rfl)
  have hrest := hagain.turns (List.replicate 11 false) (by decide)
  exact ⟨_, hrest, rfl, rfl, rfl, rfl, rfl, pipe_fifo hrest⟩

/-! ## Positions that wrap -/

/-- An idle pipe through which `k` bytes have gone. -/
def PipeSystem.Idle (s : PipeSystem) (k : Nat) : Prop :=
  s.rpos = BitVec.ofNat 32 k ∧ s.wpos = BitVec.ofNat 32 k ∧ s.written.length = k ∧
    (∃ r, s.reader = .returned r) ∧ ∃ r, s.writer = .returned r

/-- The writer's next step, computed. -/
theorem PipeRun.writer_to {s s' : PipeSystem} (hrun : PipeRun (fun _ => True) s)
    (hnext : s.writerNext = s') : PipeRun (fun _ => True) s' := by
  rw [← hnext]
  exact hrun.step trivial .writer

/-- The reader's next step, computed. -/
theorem PipeRun.reader_to {s s' : PipeSystem} (hrun : PipeRun (fun _ => True) s)
    (hnext : s.readerNext = s') : PipeRun (fun _ => True) s' := by
  rw [← hnext]
  exact hrun.step trivial .reader

/-- The writer finds room in an idle pipe. -/
theorem PipeRun.idle_put {s : PipeSystem} {k : Nat} (hrun : PipeRun (fun _ => True) s)
    (hidle : s.Idle k) (hk : k ≤ 2 ^ 31 + 1) :
    PipeRun (fun _ => True) { s with writer := .store 0 7 [] (pipeIndex s.wpos) } := by
  obtain ⟨hrpos, hwpos, -, -, r, hwriter⟩ := hidle
  have hroom : ¬ s.rpos + BitVec.ofNat 32 pipebufsiz ≤ s.wpos := by
    rw [hrpos, hwpos, pos_full_iff hk hk, pipebufsiz]
    omega
  have hcall := hrun.step trivial (.callWrite [7] hwriter)
  have hfull : PipeRun (fun _ => True) { s with writer := .full 0 7 [] } := hcall.writer_to rfl
  have hfullR : PipeRun (fun _ => True) { s with writer := .fullR 0 7 [] s.wpos } :=
    hfull.writer_to rfl
  have hput : PipeRun (fun _ => True) { s with writer := .put 0 7 [] } :=
    hfullR.writer_to (if_neg hroom)
  exact hput.writer_to rfl

/-- One byte is written. -/
theorem PipeRun.write_one {s : PipeSystem} {k : Nat} (hrun : PipeRun (fun _ => True) s)
    (hidle : s.Idle k) (hk : k ≤ 2 ^ 31) : ∃ s', PipeRun (fun _ => True) s' ∧
      s'.rpos = s.rpos ∧ s'.wpos = BitVec.ofNat 32 (k + 1) ∧ s'.written.length = k + 1 ∧
      s'.reader = s.reader ∧ s'.writer = .returned 1 := by
  have hstore := hrun.idle_put hidle (by omega)
  obtain ⟨-, hwpos, hlen, -⟩ := hidle
  have hin : InBuf (pipeIndex s.wpos) := by
    rw [hwpos, pipe_index_of_nat hk]
    exact in_buf_mod k
  have hbump := hstore.writer_to (if_pos hin)
  have hadvance := hbump.writer_to rfl
  have hloop := hadvance.writer_to rfl
  have hreturn := hloop.writer_to rfl
  refine ⟨_, hreturn, rfl, ?_, ?_, rfl, rfl⟩
  · show s.wpos + 1 = _
    rw [hwpos]
    exact pos_succ k
  · show (s.written ++ [7]).length = k + 1
    rw [List.length_append, hlen]
    rfl

/-- One byte is read. -/
theorem PipeRun.read_one {s : PipeSystem} {k r : Nat} (hrun : PipeRun (fun _ => True) s)
    (hrpos : s.rpos = BitVec.ofNat 32 k) (hwpos : s.wpos = BitVec.ofNat 32 (k + 1))
    (hreader : s.reader = .returned r) (hk : k ≤ 2 ^ 31) : ∃ s', PipeRun (fun _ => True) s' ∧
      s'.rpos = BitVec.ofNat 32 (k + 1) ∧ s'.wpos = s.wpos ∧ s'.written = s.written ∧
      s'.reader = .returned 1 ∧ s'.writer = s.writer := by
  have hne : s.rpos ≠ s.wpos := by
    rw [hrpos, hwpos]
    intro heq
    rw [pos_eq_iff (by omega) (by omega)] at heq
    omega
  have hin : InBuf (pipeIndex s.rpos) := by
    rw [hrpos, pipe_index_of_nat hk]
    exact in_buf_mod k
  have hcall := hrun.step trivial (.callRead 1 hreader)
  have hempty : PipeRun (fun _ => True) { s with reader := .empty 0 1 } := hcall.reader_to rfl
  have hemptyW : PipeRun (fun _ => True) { s with reader := .emptyW 0 1 s.rpos } :=
    hempty.reader_to rfl
  have htake : PipeRun (fun _ => True) { s with reader := .take 0 1 } :=
    hemptyW.reader_to (if_neg hne)
  have hload : PipeRun (fun _ => True) { s with reader := .load 0 1 (pipeIndex s.rpos) } :=
    htake.reader_to rfl
  have hbump := hload.reader_to (if_pos hin)
  have hadvance := hbump.reader_to rfl
  have hloop := hadvance.reader_to rfl
  have hreturn := hloop.reader_to rfl
  refine ⟨_, hreturn, ?_, rfl, rfl, rfl, rfl⟩
  show s.rpos + 1 = _
  rw [hrpos]
  exact pos_succ k

/-- Byte after byte goes through the pipe. -/
theorem exists_idle (k : Nat) (hk : k ≤ 2 ^ 31 + 1) :
    ∃ s, PipeRun (fun _ => True) s ∧ s.Idle k := by
  induction k with
  | zero => exact ⟨.boot, .boot, rfl, rfl, rfl, ⟨0, rfl⟩, 0, rfl⟩
  | succ k ih =>
      obtain ⟨s, hrun, hidle⟩ := ih (by omega)
      obtain ⟨s₁, hrun₁, hrpos₁, hwpos₁, hlen₁, hreader₁, hwriter₁⟩ :=
        hrun.write_one hidle (by omega)
      obtain ⟨hrpos, -, -, ⟨r, hreader⟩, -⟩ := hidle
      obtain ⟨s₂, hrun₂, hrpos₂, hwpos₂, hwritten₂, hreader₂, hwriter₂⟩ :=
        hrun₁.read_one (hrpos₁.trans hrpos) hwpos₁ (hreader₁.trans hreader) (by omega)
      exact ⟨s₂, hrun₂, hrpos₂, hwpos₂.trans hwpos₁, by rw [hwritten₂]; exact hlen₁,
        ⟨1, hreader₂⟩, 1, hwriter₂.trans hwriter₁⟩

/-- After `2 ^ 31 + 1` bytes `p_wpos % PIPEBUFSIZ` is -31. -/
theorem pipe_index_negative : ∃ s, PipeRun (fun _ => True) s ∧ ¬ s.Fifo := by
  obtain ⟨s, hrun, hidle⟩ := exists_idle (2 ^ 31 + 1) le_rfl
  have hstore := hrun.idle_put hidle le_rfl
  have hindex : pipeIndex s.wpos = -31 := by
    rw [hidle.2.1]
    rfl
  have hout : ¬ InBuf (pipeIndex s.wpos) := by
    rw [hindex]
    decide
  have hstray := hstore.writer_to (if_neg hout)
  refine ⟨_, hstray, fun hfifo => ?_⟩
  exact hout (hfifo.index _ (List.mem_append_right _ (List.mem_singleton_self _)))

end Labs.Jos
