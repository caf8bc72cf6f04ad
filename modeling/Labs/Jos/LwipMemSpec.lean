import Labs.Jos.LwipMem

/-!
# The cells of the heap of lwIP

What the headers in memory say about the cells, and how each function changes the cells.
-/

namespace Labs.Jos.LwipMem

open Prog Tiling

variable {h h' : Heap} {o o' p : Nat} {cells pre post mid mid' : List Cell} {c d : Cell}

/-! ## Headers -/

/-- The address at an offset of the heap. -/
def Heap.at (h : Heap) (o : Nat) : Word := h.ram + BitVec.ofNat 32 o

/-- The `struct mem` at an offset of the heap. -/
def Heap.headAt (h : Heap) (o : Nat) : Header := h.header (h.ram.toNat + o)

/-- The heap lies in the address space, and `ram_end` is at its end. -/
structure Heap.Placed (h : Heap) : Prop where
  room : h.ram.toNat + 2228236 ≤ 4294967296
  aligned : h.ram.toNat % 4 = 0
  ramEnd : h.ramEnd = h.at 2228224

theorem at_to_nat (hplaced : h.Placed) (ho : o ≤ 2228224) : (h.at o).toNat = h.ram.toNat + o := by
  have := hplaced.room
  rw [Heap.at, BitVec.toNat_add, BitVec.toNat_ofNat]
  omega

theorem at_inj (hplaced : h.Placed) (ho : o ≤ 2228224) (ho' : o' ≤ 2228224) :
    h.at o = h.at o' ↔ o = o' := by
  constructor
  · intro heq
    have := congrArg BitVec.toNat heq
    rw [at_to_nat hplaced ho, at_to_nat hplaced ho'] at this
    omega
  · intro heq
    rw [heq]

theorem at_sub_ram (h : Heap) (o : Nat) : h.at o - h.ram = BitVec.ofNat 32 o := by
  rw [Heap.at, BitVec.add_comm, BitVec.add_sub_cancel]

theorem next_at (hplaced : h.Placed) (ho : o ≤ 2228224) : h.next (h.at o) = (h.headAt o).next := by
  rw [Heap.next, at_to_nat hplaced ho]
  rfl

theorem prev_at (hplaced : h.Placed) (ho : o ≤ 2228224) : h.prev (h.at o) = (h.headAt o).prev := by
  rw [Heap.prev, at_to_nat hplaced ho]
  rfl

theorem used_at (hplaced : h.Placed) (ho : o ≤ 2228224) : h.used (h.at o) = (h.headAt o).used := by
  rw [Heap.used, at_to_nat hplaced ho]
  rfl

/-- The memories of two heaps differ only in the headers at the given places. -/
structure Heap.Edits (h h' : Heap) (places : List Nat) : Prop where
  ram : h'.ram = h.ram
  ramEnd : h'.ramEnd = h.ramEnd
  bytes : ∀ x, (∀ o ∈ places, x < h.ram.toNat + o ∨ h.ram.toNat + o + 12 ≤ x) →
    h'.bytes x = h.bytes x

theorem Heap.Edits.refl (h : Heap) (places : List Nat) : h.Edits h places := ⟨rfl, rfl, fun _ _ => rfl⟩

theorem Heap.Edits.trans {h'' : Heap} {places places' : List Nat} (hfst : h.Edits h' places)
    (hsnd : h'.Edits h'' places') : h.Edits h'' (places ++ places') := by
  refine ⟨hsnd.ram.trans hfst.ram, hsnd.ramEnd.trans hfst.ramEnd, fun x hx => ?_⟩
  rw [hsnd.bytes x, hfst.bytes x]
  · exact fun o ho => hx o (List.mem_append_left _ ho)
  · intro o ho
    rw [hfst.ram]
    exact hx o (List.mem_append_right _ ho)

theorem Heap.Edits.mono {places places' : List Nat} (hedits : h.Edits h' places)
    (hsub : places ⊆ places') : h.Edits h' places' :=
  ⟨hedits.ram, hedits.ramEnd, fun x hx => hedits.bytes x fun o ho => hx o (hsub ho)⟩

theorem Heap.Edits.placed {places : List Nat} (hedits : h.Edits h' places) (hplaced : h.Placed) :
    h'.Placed := by
  refine ⟨?_, ?_, ?_⟩
  · rw [hedits.ram]
    exact hplaced.room
  · rw [hedits.ram]
    exact hplaced.aligned
  · rw [hedits.ramEnd, hplaced.ramEnd, Heap.at, Heap.at, hedits.ram]

/-- A header apart from the places is the same. -/
theorem Heap.Edits.head_at {places : List Nat} (hedits : h.Edits h' places)
    (hapart : ∀ q ∈ places, o + 12 ≤ q ∨ q + 12 ≤ o) : h'.headAt o = h.headAt o := by
  have hsame : Bytes.Same h.bytes h'.bytes (h.ram.toNat + o) 12 := by
    intro x hlo hhi
    refine hedits.bytes x fun q hq => ?_
    have := hapart q hq
    omega
  rw [Heap.headAt, Heap.headAt, hedits.ram, Heap.header, Heap.header,
    hsame.load32 (Nat.le_refl _) (by omega), hsame.load32 (by omega) (by omega),
    hsame _ (by omega) (by omega)]

section Sets

variable (hplaced : h.Placed) (ho : o ≤ 2228224) (v : Word)

include hplaced ho

theorem set_next_at :
    h.setNext (h.at o) v = { h with bytes := h.bytes.store32 (h.ram.toNat + o) v } := by
  rw [Heap.setNext, at_to_nat hplaced ho]

theorem set_prev_at :
    h.setPrev (h.at o) v = { h with bytes := h.bytes.store32 (h.ram.toNat + o + 4) v } := by
  rw [Heap.setPrev, at_to_nat hplaced ho]

theorem set_used_at (b : Byte) : h.setUsed (h.at o) b =
    { h with bytes := Function.update h.bytes (h.ram.toNat + o + 8) b } := by
  rw [Heap.setUsed, at_to_nat hplaced ho]

theorem edits_set_next : h.Edits (h.setNext (h.at o) v) [o] := by
  rw [set_next_at hplaced ho]
  refine ⟨rfl, rfl, fun x hx => Bytes.store32_of_not v ?_⟩
  have := hx o List.mem_cons_self
  omega

theorem edits_set_prev : h.Edits (h.setPrev (h.at o) v) [o] := by
  rw [set_prev_at hplaced ho]
  refine ⟨rfl, rfl, fun x hx => Bytes.store32_of_not v ?_⟩
  have := hx o List.mem_cons_self
  omega

theorem edits_set_used (b : Byte) : h.Edits (h.setUsed (h.at o) b) [o] := by
  rw [set_used_at hplaced ho]
  refine ⟨rfl, rfl, fun x hx => Function.update_of_ne ?_ _ _⟩
  have := hx o List.mem_cons_self
  omega

theorem head_at_set_next :
    (h.setNext (h.at o) v).headAt o = { h.headAt o with next := v } := by
  rw [set_next_at hplaced ho]
  show Header.mk (Bytes.load32 _ (h.ram.toNat + o)) (Bytes.load32 _ (h.ram.toNat + o + 4))
    (Bytes.store32 _ _ _ (h.ram.toNat + o + 8)) = _
  rw [Bytes.load32_store32, Bytes.load32_store32_of_ne v (by omega),
    Bytes.store32_of_not v (by omega)]
  rfl

theorem head_at_set_prev :
    (h.setPrev (h.at o) v).headAt o = { h.headAt o with prev := v } := by
  rw [set_prev_at hplaced ho]
  show Header.mk (Bytes.load32 _ (h.ram.toNat + o)) (Bytes.load32 _ (h.ram.toNat + o + 4))
    (Bytes.store32 _ _ _ (h.ram.toNat + o + 8)) = _
  rw [Bytes.load32_store32, Bytes.load32_store32_of_ne v (by omega),
    Bytes.store32_of_not v (by omega)]
  rfl

theorem head_at_set_used (b : Byte) :
    (h.setUsed (h.at o) b).headAt o = { h.headAt o with used := b } := by
  have hsame : Bytes.Same h.bytes (Function.update h.bytes (h.ram.toNat + o + 8) b)
      (h.ram.toNat + o) 8 :=
    fun x _ hhi => Function.update_of_ne (by omega) _ _
  rw [set_used_at hplaced ho]
  show Header.mk (Bytes.load32 _ (h.ram.toNat + o)) (Bytes.load32 _ (h.ram.toNat + o + 4))
    (Function.update h.bytes (h.ram.toNat + o + 8) b (h.ram.toNat + o + 8)) = _
  rw [hsame.load32 (Nat.le_refl _) (by omega), hsame.load32 (by omega) (by omega),
    Function.update_self]
  rfl

end Sets

/-! ## The chain of headers -/

/-- `used` of a cell. -/
def usedByte (used : Bool) : Byte := if used then 1 else 0

theorem used_byte_eq_zero {used : Bool} : usedByte used = 0 ↔ used = false := by
  cases used <;> simp [usedByte]

/-- The header of a cell at the offset `o`, when the header before it is at `p`. -/
def cellHeader (p o : Nat) (c : Cell) : Header :=
  ⟨BitVec.ofNat 32 (o + c.size), BitVec.ofNat 32 p, usedByte c.used⟩

/-- The headers from the offset `o` on are those of the cells, when the header before them is at
`p`. -/
def Heap.Segment (h : Heap) : Nat → Nat → List Cell → Prop
  | _, _, [] => True
  | p, o, c :: cells => h.headAt o = cellHeader p o c ∧ h.Segment o (o + c.size) cells

/-- The offset of the last of the cells from `o` on, or `p` if there is none. -/
def lastOff : Nat → Nat → List Cell → Nat
  | p, _, [] => p
  | _, o, c :: cells => lastOff o (o + c.size) cells

theorem last_off_append (p o : Nat) (pre post : List Cell) :
    lastOff p o (pre ++ post) = lastOff (lastOff p o pre) (o + extent pre) post := by
  induction pre generalizing p o with
  | nil => rfl
  | cons c pre ih =>
      rw [List.cons_append, lastOff, ih, extent_cons, lastOff, Nat.add_assoc]

theorem segment_append : h.Segment p o (pre ++ post) ↔
    h.Segment p o pre ∧ h.Segment (lastOff p o pre) (o + extent pre) post := by
  induction pre generalizing p o with
  | nil => exact (true_and _).symm ▸ Iff.rfl
  | cons c pre ih =>
      rw [List.cons_append, Heap.Segment, Heap.Segment, ih, extent_cons, lastOff, Nat.add_assoc,
        and_assoc]

/-- Cells apart from the places of an edit. -/
theorem Heap.Segment.edits {places : List Nat} (hseg : h.Segment p o cells)
    (hedits : h.Edits h' places) (hroomy : Roomy 12 12 cells)
    (hapart : ∀ q ∈ places, q + 12 ≤ o ∨ o + extent cells ≤ q) : h'.Segment p o cells := by
  induction cells generalizing p o with
  | nil => exact trivial
  | cons c cells ih =>
      have hsize := hroomy c List.mem_cons_self
      rw [extent_cons] at hapart
      refine ⟨?_, ih hseg.2 (fun d hd => hroomy d (List.mem_cons_of_mem _ hd)) fun q hq => ?_⟩
      · rw [hedits.head_at fun q hq => by have := hapart q hq; omega]
        exact hseg.1
      · have := hapart q hq
        omega

/-- The header behind the last cell changes. -/
theorem Heap.Segment.relink {places : List Nat} {q : Nat} (hseg : h.Segment p o cells)
    (hedits : h.Edits h' places) (hroomy : Roomy 12 12 cells)
    (hapart : ∀ r ∈ places, r + 12 ≤ o ∨ r = o ∨ o + extent cells ≤ r)
    (hhead : cells ≠ [] → h'.headAt o = { h.headAt o with prev := BitVec.ofNat 32 q }) :
    h'.Segment q o cells := by
  cases cells with
  | nil => exact trivial
  | cons c cells =>
      have hsize := hroomy c List.mem_cons_self
      rw [extent_cons] at hapart
      refine ⟨?_, hseg.2.edits hedits (fun d hd => hroomy d (List.mem_cons_of_mem _ hd)) ?_⟩
      · rw [hhead (List.cons_ne_nil _ _), hseg.1]
        rfl
      · intro r hr
        have := hapart r hr
        omega

/-- The cells of the heap, from `ram` to `ram_end`. -/
structure Heap.Tiled (h : Heap) (cells : List Cell) : Prop where
  placed : h.Placed
  extent : extent cells = 2228224
  roomy : Roomy 12 12 cells
  words : ∀ c ∈ cells, c.size % 4 = 0
  segment : h.Segment 0 0 cells
  last : (h.headAt 2228224).next = memSizeAligned ∧ (h.headAt 2228224).used = 1

/-- The tiling is coalesced, and `lfree` points to its first free cell. -/
structure Heap.Laid (h : Heap) (cells : List Cell) : Prop extends h.Tiled cells where
  coalesced : Coalesced cells
  lfree : h.lfree = h.at (firstFree 0 cells)

/-- The cells `mid` are replaced by others of the same size. -/
theorem Heap.Tiled.replace {places : List Nat} {q : Word} (ht : h.Tiled (pre ++ (mid ++ post)))
    (hedits : h.Edits h' places) (hextent : Tiling.extent mid' = Tiling.extent mid)
    (hroomy : Roomy 12 12 mid') (hwords : ∀ c ∈ mid', c.size % 4 = 0)
    (hseg : h'.Segment (lastOff 0 0 pre) (Tiling.extent pre) mid')
    (hhead : h'.headAt (Tiling.extent pre + Tiling.extent mid) =
      { h.headAt (Tiling.extent pre + Tiling.extent mid) with prev := q })
    (hq : post ≠ [] → q = BitVec.ofNat 32 (lastOff (lastOff 0 0 pre) (Tiling.extent pre) mid'))
    (hplaces : ∀ r ∈ places, Tiling.extent pre ≤ r ∧
      (r + 12 ≤ Tiling.extent pre + Tiling.extent mid ∨
        r = Tiling.extent pre + Tiling.extent mid)) :
    h'.Tiled (pre ++ (mid' ++ post)) := by
  have hseg₀ := segment_append.1 ht.segment
  have hsegpost := (segment_append.1 hseg₀.2).2
  rw [Nat.zero_add] at hsegpost
  have hsum := ht.extent
  simp only [extent_append] at hsum
  have hpre : Roomy 12 12 pre := fun e he => ht.roomy e (by simp [he])
  have hpost : Roomy 12 12 post := fun e he => ht.roomy e (by simp [he])
  refine ⟨hedits.placed ht.placed, ?_, ?_, ?_, ?_, ?_⟩
  · simp only [extent_append, hextent]
    exact hsum
  · intro e he
    simp only [List.mem_append] at he
    rcases he with he | he | he
    · exact hpre e he
    · exact hroomy e he
    · exact hpost e he
  · intro e he
    simp only [List.mem_append] at he
    rcases he with he | he | he
    · exact ht.words e (by simp [he])
    · exact hwords e he
    · exact ht.words e (by simp [he])
  · rw [segment_append, segment_append, Nat.zero_add, hextent]
    refine ⟨hseg₀.1.edits hedits hpre fun r hr => .inr ?_, hseg, ?_⟩
    · have := hplaces r hr
      omega
    · refine hsegpost.relink hedits hpost (fun r hr => ?_) fun hne => ?_
      · have := hplaces r hr
        omega
      · rw [hhead, hq hne]
  · -- the last header is the one behind `mid`, or far from it
    cases post with
    | nil =>
        rw [extent_nil, Nat.add_zero] at hsum
        rw [hsum] at hhead
        rw [hhead]
        exact ht.last
    | cons f post =>
        have hsize := hpost f List.mem_cons_self
        rw [extent_cons] at hsum
        rw [hedits.head_at fun r hr => by have := hplaces r hr; omega]
        exact ht.last

/-- The header of a cell. -/
theorem Heap.Tiled.head (ht : h.Tiled (pre ++ c :: post)) :
    h.headAt (Tiling.extent pre) = cellHeader (lastOff 0 0 pre) (Tiling.extent pre) c := by
  have hseg := (segment_append.1 ht.segment).2
  rw [Nat.zero_add] at hseg
  exact hseg.1

/-- The header behind a cell links back to it, if it is not the last one. -/
theorem Heap.Tiled.head_next (ht : h.Tiled (pre ++ c :: post)) (hne : post ≠ []) :
    (h.headAt (Tiling.extent pre + c.size)).prev = BitVec.ofNat 32 (Tiling.extent pre) := by
  have hseg := (segment_append.1 ht.segment).2.2
  rw [Nat.zero_add] at hseg
  cases post with
  | nil => exact absurd rfl hne
  | cons f post =>
      rw [hseg.1]
      rfl

/-- Where a cell lies. -/
theorem Heap.Tiled.bounds (ht : h.Tiled (pre ++ c :: post)) :
    24 ≤ c.size ∧ Tiling.extent pre + c.size + Tiling.extent post = 2228224 := by
  have hsize : 12 + 12 ≤ c.size := ht.roomy c (by simp)
  have hextent := ht.extent
  rw [extent_append, extent_cons] at hextent
  omega

/-- A place that an allocator call leaves alone: a byte of a block, or outside the heap. -/
def Heap.Foreign (h : Heap) (cells : List Cell) (x : Nat) : Prop :=
  x < h.ram.toNat ∨ h.ram.toNat + 2228236 ≤ x ∨
    ∃ b ∈ blocks 12 0 cells, h.ram.toNat + b.1 ≤ x ∧ x < h.ram.toNat + b.1 + b.2

/-- The heap gets the cells `cells`, and nothing else in memory changes. -/
structure Heap.Becomes (h h' : Heap) (cells : List Cell) : Prop where
  tiled : h'.Tiled cells
  ram : h'.ram = h.ram
  ramEnd : h'.ramEnd = h.ramEnd
  bytes : ∀ x, h.Foreign cells x → h'.bytes x = h.bytes x

/-- A change of headers. -/
theorem Heap.Tiled.becomes {places : List Nat} (ht : h'.Tiled cells) (hedits : h.Edits h' places)
    (hplaces : ∀ q ∈ places, Border cells q) : h.Becomes h' cells := by
  refine ⟨ht, hedits.ram, hedits.ramEnd, fun x hx => hedits.bytes x fun q hq => ?_⟩
  have hle : q ≤ 2228224 := by
    obtain ⟨pre, post, rfl, rfl⟩ := hplaces q hq
    have := ht.extent
    rw [extent_append] at this
    omega
  rcases hx with hx | hx | ⟨b, hb, hlo, hhi⟩
  · omega
  · omega
  · have := border_apart ht.roomy (hplaces q hq) hb
    omega

/-- Two changes, when the blocks that are left after the second are there after the first. -/
theorem Heap.Becomes.trans {h'' : Heap} {cells' : List Cell} (hfst : h.Becomes h' cells)
    (hsnd : h'.Becomes h'' cells') (hsub : blocks 12 0 cells' ⊆ blocks 12 0 cells) :
    h.Becomes h'' cells' := by
  refine ⟨hsnd.tiled, hsnd.ram.trans hfst.ram, hsnd.ramEnd.trans hfst.ramEnd, fun x hx => ?_⟩
  rw [hsnd.bytes x, hfst.bytes x]
  · exact hx.imp_right (Or.imp_right fun ⟨b, hb, hin⟩ => ⟨b, hsub hb, hin⟩)
  · rw [Heap.Foreign, hfst.ram]
    exact hx

/-- A change of a heap with the same memory. -/
theorem Heap.Becomes.of_same {h₀ : Heap} (hb : h₀.Becomes h' cells) (hram : h₀.ram = h.ram)
    (hend : h₀.ramEnd = h.ramEnd) (hbytes : h₀.bytes = h.bytes) : h.Becomes h' cells := by
  refine ⟨hb.tiled, hb.ram.trans hram, hb.ramEnd.trans hend, fun x hx => ?_⟩
  rw [hb.bytes x, hbytes]
  rw [Heap.Foreign, hram]
  exact hx

/-! ## Changes of the chain -/

/-- `used` of a cell changes. -/
theorem Heap.Tiled.setUsed (ht : h.Tiled (pre ++ c :: post)) (used : Bool) :
    h.Becomes (h.setUsed (h.at (Tiling.extent pre)) (usedByte used))
      (pre ++ ⟨c.size, used⟩ :: post) := by
  obtain ⟨hsize, hsum⟩ := ht.bounds
  have ho : Tiling.extent pre ≤ 2228224 := by omega
  have hedits := edits_set_used ht.placed ho (usedByte used)
  have hnext := hedits.head_at (o := Tiling.extent pre + c.size) (by simp; omega)
  refine Heap.Tiled.becomes ?_ hedits ?_
  · have hmid : Tiling.extent [⟨c.size, used⟩] = Tiling.extent [c] := rfl
    refine Heap.Tiled.replace (q := (h.headAt (Tiling.extent pre + c.size)).prev) ht hedits hmid
      ?_ ?_ ⟨?_, trivial⟩ ?_ ?_ ?_
    · intro d hd
      rw [List.mem_singleton.1 hd]
      exact ht.roomy c (by simp)
    · intro d hd
      rw [List.mem_singleton.1 hd]
      exact ht.words c (by simp)
    · rw [head_at_set_used ht.placed ho, ht.head]
      rfl
    · exact hnext
    · exact ht.head_next
    · simp
      omega
  · intro q hq
    rw [List.mem_singleton.1 hq]
    exact border_extent _ _

section Insert

variable {n o2 e : Nat} (hplaced : h.Placed)

include hplaced

theorem insert_spec (ho : o ≤ 2228224) (ho2 : o2 ≤ 2228224) (hapart : o + 12 ≤ o2) :
    let h₁ := h.insert (BitVec.ofNat 32 o) (BitVec.ofNat 32 o2)
    h.Edits h₁ [o, o2] ∧ h₁.headAt o = { h.headAt o with next := BitVec.ofNat 32 o2 } ∧
      h₁.headAt o2 = ⟨(h.headAt o).next, BitVec.ofNat 32 o, 0⟩ := by
  have hfst := edits_set_used hplaced ho2 0
  have hhead₁ := head_at_set_used hplaced ho2 0
  have hfar₁ := hfst.head_at (o := o) (by simp; omega)
  have hp₁ := hfst.placed hplaced
  have hsnd := edits_set_next hp₁ ho2 (h.headAt o).next
  have hhead₂ := head_at_set_next hp₁ ho2 (h.headAt o).next
  have hfar₂ := hsnd.head_at (o := o) (by simp; omega)
  have hp₂ := hsnd.placed hp₁
  have hthd := edits_set_prev hp₂ ho2 (BitVec.ofNat 32 o)
  have hhead₃ := head_at_set_prev hp₂ ho2 (BitVec.ofNat 32 o)
  have hfar₃ := hthd.head_at (o := o) (by simp; omega)
  have hp₃ := hthd.placed hp₂
  have hfth := edits_set_next hp₃ ho (BitVec.ofNat 32 o2)
  have hhead₄ := head_at_set_next hp₃ ho (BitVec.ofNat 32 o2)
  have hfar₄ := hfth.head_at (o := o2) (by simp; omega)
  have hnext : (h.setUsed (h.at o2) 0).next (h.at o) = (h.headAt o).next := by
    rw [← hfar₁]
    exact next_at hp₁ ho
  have heq : h.insert (BitVec.ofNat 32 o) (BitVec.ofNat 32 o2) =
      (((h.setUsed (h.at o2) 0).setNext (h.at o2) (h.headAt o).next).setPrev (h.at o2)
        (BitVec.ofNat 32 o)).setNext (h.at o) (BitVec.ofNat 32 o2) := by
    rw [← hnext]
    rfl
  dsimp only
  rw [heq]
  refine ⟨((hfst.trans hsnd).trans (hthd.trans hfth)).mono (by simp), ?_, ?_⟩
  · exact hhead₄.trans (by rw [hfar₃, hfar₂, hfar₁])
  · exact hfar₄.trans (hhead₃.trans (by rw [hhead₂, hhead₁]))

theorem relink_eq (ho2 : o2 ≤ 2228224) (he : e ≤ 2228224)
    (hnext : (h.headAt o2).next = BitVec.ofNat 32 e) : h.relink (BitVec.ofNat 32 o2) =
      if e = 2228224 then h else h.setPrev (h.at e) (BitVec.ofNat 32 o2) := by
  have hread : h.next (h.at o2) = BitVec.ofNat 32 e := (next_at hplaced ho2).trans hnext
  have hend : BitVec.ofNat 32 e ≠ memSizeAligned ↔ ¬ e = 2228224 := by
    rw [Ne, ← BitVec.toNat_inj, BitVec.toNat_ofNat, memSizeAligned]
    simp
    omega
  show (if h.next (h.at o2) ≠ memSizeAligned then
    h.setPrev (h.ram + h.next (h.at o2)) (BitVec.ofNat 32 o2) else h) = _
  rw [hread, ite_congr (propext hend) (fun _ => rfl) (fun _ => rfl), ite_not]
  rfl

end Insert

/-- The cells `mid` become two: the first has room for `n` bytes and the second is free. The links
back to them are made last. -/
theorem Heap.Tiled.relinked {n rest : Nat} {used : Bool} {h₂ : Heap} {places : List Nat}
    (ht : h.Tiled (pre ++ (mid ++ post))) (hedits : h.Edits h₂ places)
    (hplaces : places ⊆ [Tiling.extent pre, Tiling.extent pre + 12 + n])
    (hleast : 12 ≤ n) (hword : n % 4 = 0) (hroom : 24 ≤ rest)
    (hsize : Tiling.extent mid = 12 + n + rest)
    (hhead : h₂.headAt (Tiling.extent pre) =
      cellHeader (lastOff 0 0 pre) (Tiling.extent pre) ⟨12 + n, used⟩)
    (hhead2 : h₂.headAt (Tiling.extent pre + 12 + n) =
      cellHeader (Tiling.extent pre) (Tiling.extent pre + 12 + n) ⟨rest, false⟩) :
    h.Becomes (h₂.relink (BitVec.ofNat 32 (Tiling.extent pre + 12 + n)))
      (pre ++ ⟨12 + n, used⟩ :: ⟨rest, false⟩ :: post) := by
  have hsum := ht.extent
  simp only [extent_append] at hsum
  have hp₂ := hedits.placed ht.placed
  have he : Tiling.extent pre + Tiling.extent mid ≤ 2228224 := by omega
  have hrest : Tiling.extent pre + 12 + n + rest = Tiling.extent pre + Tiling.extent mid := by omega
  have hin : ∀ q ∈ places, q = Tiling.extent pre ∨ q = Tiling.extent pre + 12 + n := fun q hq => by
    simpa using hplaces hq
  have hfar : h₂.headAt (Tiling.extent pre + Tiling.extent mid) =
      h.headAt (Tiling.extent pre + Tiling.extent mid) := by
    refine hedits.head_at fun q hq => ?_
    have := hin q hq
    omega
  have hnext₂ : (h₂.headAt (Tiling.extent pre + 12 + n)).next =
      BitVec.ofNat 32 (Tiling.extent pre + Tiling.extent mid) := by
    rw [hhead2, ← hrest]
    rfl
  have heq := relink_eq hp₂ (by omega) he hnext₂
  have hseg : ∀ {h₃ : Heap}, h₃.headAt (Tiling.extent pre) = h₂.headAt (Tiling.extent pre) →
      h₃.headAt (Tiling.extent pre + 12 + n) = h₂.headAt (Tiling.extent pre + 12 + n) →
      h₃.Segment (lastOff 0 0 pre) (Tiling.extent pre) [⟨12 + n, used⟩, ⟨rest, false⟩] := by
    intro h₃ hfst hsnd
    refine ⟨hfst.trans hhead, ?_, trivial⟩
    rw [← Nat.add_assoc]
    exact hsnd.trans hhead2
  have hextent : Tiling.extent [⟨12 + n, used⟩, ⟨rest, false⟩] = Tiling.extent mid := by
    simp
    omega
  have hroomy : Roomy 12 12 [⟨12 + n, used⟩, ⟨rest, false⟩] := by
    intro d hd
    simp only [List.mem_cons, List.not_mem_nil, or_false] at hd
    rcases hd with rfl | rfl <;> dsimp only <;> omega
  have hmid : Tiling.extent mid % 4 = 0 := by
    have hwords : ∀ d ∈ mid, d.size % 4 = 0 := fun d hd => ht.words d (by simp [hd])
    exact extent_mod hwords
  have hwords : ∀ d ∈ [(⟨12 + n, used⟩ : Cell), ⟨rest, false⟩], d.size % 4 = 0 := by
    intro d hd
    simp only [List.mem_cons, List.not_mem_nil, or_false] at hd
    rcases hd with rfl | rfl <;> dsimp only <;> omega
  have hborder : ∀ q, q = Tiling.extent pre ∨ q = Tiling.extent pre + 12 + n ∨
      q = Tiling.extent pre + Tiling.extent mid →
      Border (pre ++ ⟨12 + n, used⟩ :: ⟨rest, false⟩ :: post) q := by
    intro q hq
    rcases hq with rfl | rfl | rfl
    · exact border_extent _ _
    · refine ⟨pre ++ [⟨12 + n, used⟩], ⟨rest, false⟩ :: post, by simp, ?_⟩
      simp
      omega
    · refine ⟨pre ++ [⟨12 + n, used⟩, ⟨rest, false⟩], post, by simp, ?_⟩
      simp
      omega
  rw [heq]
  split
  case isTrue hend =>
    -- no cell follows
    have hnil : post = [] := by
      cases post with
      | nil => rfl
      | cons f post =>
          have : 12 + 12 ≤ f.size := ht.roomy f (by simp)
          rw [extent_cons] at hsum
          omega
    refine Heap.Tiled.becomes ?_ hedits fun q hq => hborder q ?_
    · refine ht.replace (q := (h.headAt (Tiling.extent pre + Tiling.extent mid)).prev) hedits
        hextent hroomy hwords (hseg rfl rfl) hfar (fun hne => absurd hnil hne) fun q hq => ?_
      have := hin q hq
      omega
    · exact (hin q hq).imp_right Or.inl
  case isFalse =>
    have hlink := edits_set_prev hp₂ he (BitVec.ofNat 32 (Tiling.extent pre + 12 + n))
    have hedits₃ := hedits.trans hlink
    have hin₃ : ∀ q ∈ places ++ [Tiling.extent pre + Tiling.extent mid],
        q = Tiling.extent pre ∨ q = Tiling.extent pre + 12 + n ∨
          q = Tiling.extent pre + Tiling.extent mid := by
      intro q hq
      rcases List.mem_append.1 hq with hq | hq
      · exact (hin q hq).imp_right Or.inl
      · exact .inr (.inr (List.mem_singleton.1 hq))
    refine Heap.Tiled.becomes ?_ hedits₃ fun q hq => hborder q (hin₃ q hq)
    refine ht.replace (q := BitVec.ofNat 32 (Tiling.extent pre + 12 + n)) hedits₃ hextent hroomy hwords
      (hseg (hlink.head_at (by simp; omega)) (hlink.head_at (by simp; omega))) ?_ (fun _ => ?_)
      fun q hq => ?_
    · refine (head_at_set_prev hp₂ he _).trans ?_
      rw [hfar]
    · simp only [lastOff, Nat.add_assoc]
    · have := hin₃ q hq
      omega

/-- A cell is cut in two. What follows the insertion may change `used` of the first part. -/
theorem Heap.Tiled.split {n : Nat} {h₂ : Heap} (ht : h.Tiled (pre ++ c :: post)) (used : Bool)
    (hleast : 12 ≤ n) (hword : n % 4 = 0) (hsize : 12 + n + 24 ≤ c.size)
    (hedits : (h.insert (BitVec.ofNat 32 (Tiling.extent pre))
      (BitVec.ofNat 32 (Tiling.extent pre + 12 + n))).Edits h₂ [Tiling.extent pre])
    (hhead : h₂.headAt (Tiling.extent pre) =
      { (h.insert (BitVec.ofNat 32 (Tiling.extent pre))
        (BitVec.ofNat 32 (Tiling.extent pre + 12 + n))).headAt (Tiling.extent pre) with
        used := usedByte used }) :
    h.Becomes (h₂.relink (BitVec.ofNat 32 (Tiling.extent pre + 12 + n)))
      (pre ++ ⟨12 + n, used⟩ :: ⟨c.size - (12 + n), false⟩ :: post) := by
  obtain ⟨-, hsum⟩ := ht.bounds
  have ho : Tiling.extent pre ≤ 2228224 := by omega
  have ho2 : Tiling.extent pre + 12 + n ≤ 2228224 := by omega
  obtain ⟨hins, hheado, hheado2⟩ := insert_spec ht.placed ho ho2 (by omega)
  have ht' : h.Tiled (pre ++ ([c] ++ post)) := ht
  refine ht'.relinked (hins.trans hedits) (by simp) hleast hword (by omega)
    (by simp; omega) ?_ ?_
  · rw [hhead, hheado, ht.head]
    dsimp only [cellHeader]
    rw [Nat.add_assoc]
  · rw [hedits.head_at (by simp), hheado2, ht.head]
    dsimp only [cellHeader]
    congr 2
    omega

/-- Changes of `lfree` and of the semaphore are no edits. -/
theorem edits_lfree (h : Heap) (lfree : Word) : h.Edits { h with lfree := lfree } [] :=
  ⟨rfl, rfl, fun _ _ => rfl⟩

theorem Heap.Tiled.congr {h' : Heap} (ht : h.Tiled cells) (hram : h'.ram = h.ram)
    (hend : h'.ramEnd = h.ramEnd) (hbytes : h'.bytes = h.bytes) : h'.Tiled cells := by
  have hedits : h.Edits h' [] := ⟨hram, hend, fun _ _ => by rw [hbytes]⟩
  refine ⟨hedits.placed ht.placed, ht.extent, ht.roomy, ht.words,
    ht.segment.edits hedits ht.roomy (by simp), ?_⟩
  rw [hedits.head_at (by simp)]
  exact ht.last

theorem Heap.Segment.congr (hseg : h.Segment p o cells)
    (hheads : ∀ pre post, cells = pre ++ post →
      h'.headAt (o + Tiling.extent pre) = h.headAt (o + Tiling.extent pre)) :
    h'.Segment p o cells := by
  induction cells generalizing p o with
  | nil => exact trivial
  | cons c cells ih =>
      refine ⟨?_, ih hseg.2 fun pre post hcells => ?_⟩
      · have hhead := hheads [] (c :: cells) rfl
        rw [extent_nil, Nat.add_zero] at hhead
        rw [hhead]
        exact hseg.1
      · have hhead := hheads (c :: pre) post (by rw [hcells]; rfl)
        rw [extent_cons, ← Nat.add_assoc] at hhead
        exact hhead

/-- What is stored outside the headers does not change the cells. -/
theorem Heap.Tiled.stored {bytes : Bytes} (ht : h.Tiled cells)
    (hbytes : ∀ o, Border cells o → ∀ x, h.ram.toNat + o ≤ x → x < h.ram.toNat + o + 12 →
      bytes x = h.bytes x) : Heap.Tiled { h with bytes := bytes } cells := by
  have hheads : ∀ o, Border cells o →
      Heap.headAt { h with bytes := bytes } o = h.headAt o := by
    intro o ho
    have hsame : Bytes.Same h.bytes bytes (h.ram.toNat + o) 12 := fun x hlo hhi =>
      hbytes o ho x hlo hhi
    show Header.mk (bytes.load32 (h.ram.toNat + o)) (bytes.load32 (h.ram.toNat + o + 4))
      (bytes (h.ram.toNat + o + 8)) = _
    rw [hsame.load32 (Nat.le_refl _) (by omega), hsame.load32 (by omega) (by omega),
      hsame _ (by omega) (by omega)]
    rfl
  refine ⟨⟨ht.placed.room, ht.placed.aligned, ht.placed.ramEnd⟩, ht.extent, ht.roomy, ht.words,
    ht.segment.congr fun pre post hcells => ?_, ?_⟩
  · rw [Nat.zero_add]
    exact hheads _ ⟨pre, post, hcells, rfl⟩
  · rw [hheads _ ⟨cells, [], (List.append_nil cells).symm, ht.extent.symm⟩]
    exact ht.last

/-- The free cell behind a cell moves to the front, when only `n` bytes of the first are kept. -/
theorem Heap.Tiled.moveNext {n : Nat} (ht : h.Tiled (pre ++ c :: d :: post))
    (hleast : 12 ≤ n) (hword : n % 4 = 0) (hsize : 12 + n ≤ c.size) :
    h.Becomes (h.moveNext (BitVec.ofNat 32 (Tiling.extent pre))
        (BitVec.ofNat 32 (Tiling.extent pre + 12 + n)))
      (pre ++ ⟨12 + n, c.used⟩ :: ⟨d.size + (c.size - (12 + n)), false⟩ :: post) := by
  have ht' : h.Tiled ((pre ++ [c]) ++ d :: post) := by simpa using ht
  have hd := ht'.bounds
  have hheadd := ht'.head
  simp only [extent_append, extent_cons, extent_nil, Nat.add_zero] at hd hheadd
  have ho : Tiling.extent pre ≤ 2228224 := by omega
  have hm : Tiling.extent pre + c.size ≤ 2228224 := by omega
  have ho2 : Tiling.extent pre + 12 + n ≤ 2228224 := by omega
  -- what is read before the free cell moves
  have hmem2 : h.ram + h.next (h.at (Tiling.extent pre)) = h.at (Tiling.extent pre + c.size) := by
    rw [next_at ht.placed ho, ht.head]
    rfl
  have hnext : h.next (h.at (Tiling.extent pre + c.size)) =
      BitVec.ofNat 32 (Tiling.extent pre + c.size + d.size) := by
    rw [next_at ht.placed hm, hheadd]
    rfl
  obtain ⟨h₀, hh₀, hedits₀⟩ : ∃ h₀ : Heap,
      h₀ = (if h.lfree = h.at (Tiling.extent pre + c.size) then
        { h with lfree := h.at (Tiling.extent pre + 12 + n) } else h) ∧ h.Edits h₀ [] := by
    refine ⟨_, rfl, ?_⟩
    split
    · exact edits_lfree h _
    · exact .refl h []
  have hat : ∀ o, h₀.at o = h.at o := fun o => by rw [Heap.at, Heap.at, hedits₀.ram]
  have hp₀ := hedits₀.placed ht.placed
  have hfst := edits_set_used hp₀ ho2 0
  have hhead₁ := head_at_set_used hp₀ ho2 0
  have hp₁ := hfst.placed hp₀
  have hsnd := edits_set_next hp₁ ho2 (BitVec.ofNat 32 (Tiling.extent pre + c.size + d.size))
  have hhead₂ := head_at_set_next hp₁ ho2
    (BitVec.ofNat 32 (Tiling.extent pre + c.size + d.size))
  have hp₂ := hsnd.placed hp₁
  have hthd := edits_set_prev hp₂ ho2 (BitVec.ofNat 32 (Tiling.extent pre))
  have hhead₃ := head_at_set_prev hp₂ ho2 (BitVec.ofNat 32 (Tiling.extent pre))
  have hp₃ := hthd.placed hp₂
  have hfth := edits_set_next hp₃ ho (BitVec.ofNat 32 (Tiling.extent pre + 12 + n))
  have hhead₄ := head_at_set_next hp₃ ho (BitVec.ofNat 32 (Tiling.extent pre + 12 + n))
  have heq : h.moveNext (BitVec.ofNat 32 (Tiling.extent pre))
      (BitVec.ofNat 32 (Tiling.extent pre + 12 + n)) =
      ((((h₀.setUsed (h₀.at (Tiling.extent pre + 12 + n)) 0).setNext
        (h₀.at (Tiling.extent pre + 12 + n))
        (BitVec.ofNat 32 (Tiling.extent pre + c.size + d.size))).setPrev
        (h₀.at (Tiling.extent pre + 12 + n)) (BitVec.ofNat 32 (Tiling.extent pre))).setNext
        (h.at (Tiling.extent pre)) (BitVec.ofNat 32 (Tiling.extent pre + 12 + n))).relink
        (BitVec.ofNat 32 (Tiling.extent pre + 12 + n)) := by
    rw [← hnext, ← hmem2, hh₀, ← hmem2]
    rfl
  rw [heq, ← hat]
  have hboth : h.Tiled (pre ++ ([c, d] ++ post)) := ht
  refine hboth.relinked ((hedits₀.trans (hfst.trans hsnd)).trans (hthd.trans hfth))
    (by simp) hleast hword (by omega) (by simp; omega) ?_ ?_
  · refine hhead₄.trans ?_
    rw [hthd.head_at (by simp), hsnd.head_at (by simp), hfst.head_at (by simp),
      hedits₀.head_at (by simp), ht.head]
    dsimp only [cellHeader]
    rw [Nat.add_assoc]
  · refine (hfth.head_at (by simp)).trans (hhead₃.trans ?_)
    rw [hhead₂, hhead₁]
    dsimp only [cellHeader]
    congr 2
    omega

theorem Heap.Becomes.refl (ht : h.Tiled cells) : h.Becomes h cells := ⟨ht, rfl, rfl, fun _ _ => rfl⟩

/-- A free cell takes in the one behind it. -/
theorem Heap.Tiled.merged {h₀ : Heap} (ht : h.Tiled (pre ++ c :: d :: post))
    (hedits : h.Edits h₀ []) (hfree : c.used = false) :
    h.Becomes ((h₀.setNext (h.at (Tiling.extent pre))
        (BitVec.ofNat 32 (Tiling.extent pre + c.size + d.size))).setPrev
        (h.at (Tiling.extent pre + c.size + d.size)) (BitVec.ofNat 32 (Tiling.extent pre)))
      (pre ++ ⟨c.size + d.size, false⟩ :: post) := by
  have ht' : h.Tiled ((pre ++ [c]) ++ d :: post) := by simpa using ht
  have hd := ht'.bounds
  simp only [extent_append, extent_cons, extent_nil, Nat.add_zero] at hd
  obtain ⟨hsize, -⟩ := ht.bounds
  have hwordc := ht.words c (by simp)
  have hwordd := ht.words d (by simp)
  have hat : ∀ o, h₀.at o = h.at o := fun o => by rw [Heap.at, Heap.at, hedits.ram]
  have hp₀ := hedits.placed ht.placed
  have ho : Tiling.extent pre ≤ 2228224 := by omega
  have he : Tiling.extent pre + c.size + d.size ≤ 2228224 := by omega
  have hfst := edits_set_next hp₀ ho (BitVec.ofNat 32 (Tiling.extent pre + c.size + d.size))
  have hhead₁ := head_at_set_next hp₀ ho
    (BitVec.ofNat 32 (Tiling.extent pre + c.size + d.size))
  have hp₁ := hfst.placed hp₀
  have hsnd := edits_set_prev hp₁ he (BitVec.ofNat 32 (Tiling.extent pre))
  have hhead₂ := head_at_set_prev hp₁ he (BitVec.ofNat 32 (Tiling.extent pre))
  have hall := hedits.trans (hfst.trans hsnd)
  have hsum : Tiling.extent [c, d] = c.size + d.size := by simp
  rw [← hat, ← hat]
  refine Heap.Tiled.becomes ?_ hall fun q hq => ?_
  · have hboth : h.Tiled (pre ++ ([c, d] ++ post)) := ht
    have hmid : Tiling.extent [⟨c.size + d.size, false⟩] = Tiling.extent [c, d] := by simp
    refine Heap.Tiled.replace (q := BitVec.ofNat 32 (Tiling.extent pre)) hboth hall hmid ?_ ?_ ⟨?_, trivial⟩ ?_ (fun _ => rfl) ?_
    · intro f hf
      rw [List.mem_singleton.1 hf]
      dsimp only
      omega
    · intro f hf
      rw [List.mem_singleton.1 hf]
      dsimp only
      omega
    · refine (hsnd.head_at (by simp; omega)).trans (hhead₁.trans ?_)
      rw [hedits.head_at (by simp), ht.head]
      dsimp only [cellHeader]
      rw [hfree, Nat.add_assoc]
    · rw [hsum, ← Nat.add_assoc]
      refine hhead₂.trans ?_
      rw [hfst.head_at (by simp; omega), hedits.head_at (by simp)]
    · simp
      omega
  · simp only [List.nil_append, List.cons_append, List.mem_cons, List.not_mem_nil, or_false] at hq
    rcases hq with rfl | rfl
    · exact border_extent _ _
    · refine ⟨pre ++ [⟨c.size + d.size, false⟩], post, by simp, ?_⟩
      simp
      omega

/-- The writes of one half of `plug_holes`. -/
theorem Heap.Tiled.joined {h₀ : Heap} (ht : h.Tiled (pre ++ c :: d :: post))
    (hedits : h.Edits h₀ []) (hfree : c.used = false) :
    h.Becomes ((h₀.setNext (h.at (Tiling.extent pre))
        (h₀.next (h.at (Tiling.extent pre + c.size)))).setPrev
        (h₀.ram + (h₀.setNext (h.at (Tiling.extent pre))
          (h₀.next (h.at (Tiling.extent pre + c.size)))).next (h.at (Tiling.extent pre + c.size)))
        (h.at (Tiling.extent pre) - h₀.ram))
      (pre ++ ⟨c.size + d.size, false⟩ :: post) := by
  have ht' : h.Tiled ((pre ++ [c]) ++ d :: post) := by simpa using ht
  have hd := ht'.bounds
  have hheadd := ht'.head
  simp only [extent_append, extent_cons, extent_nil, Nat.add_zero] at hd hheadd
  obtain ⟨hsize, -⟩ := ht.bounds
  have ho : Tiling.extent pre ≤ 2228224 := by omega
  have hm : Tiling.extent pre + c.size ≤ 2228224 := by omega
  have hat : ∀ o, h₀.at o = h.at o := fun o => by rw [Heap.at, Heap.at, hedits.ram]
  have hp₀ := hedits.placed ht.placed
  have hnext : h₀.next (h.at (Tiling.extent pre + c.size)) =
      BitVec.ofNat 32 (Tiling.extent pre + c.size + d.size) := by
    rw [← hat, next_at hp₀ hm, hedits.head_at (by simp), hheadd]
    rfl
  have hfst := edits_set_next hp₀ ho (BitVec.ofNat 32 (Tiling.extent pre + c.size + d.size))
  have hnext₁ : (h₀.setNext (h₀.at (Tiling.extent pre))
      (BitVec.ofNat 32 (Tiling.extent pre + c.size + d.size))).next
      (h₀.at (Tiling.extent pre + c.size)) =
      BitVec.ofNat 32 (Tiling.extent pre + c.size + d.size) := by
    refine (next_at (hfst.placed hp₀) hm).trans ?_
    rw [hfst.head_at (by simp; omega), hedits.head_at (by simp), hheadd]
    rfl
  rw [hat, hat] at hnext₁
  have hmerged := ht.merged hedits hfree
  rw [hnext, hnext₁, hedits.ram, at_sub_ram]
  exact hmerged

theorem plug_forward_eq {mem nmem : Word} (hnmem : h.ram + h.next mem = nmem) :
    h.plugForward mem = if mem ≠ nmem ∧ h.used nmem = 0 ∧ nmem ≠ h.ramEnd then
      let h₀ := if h.lfree = nmem then { h with lfree := mem } else h
      (h₀.setNext mem (h₀.next nmem)).setPrev (h₀.ram + (h₀.setNext mem (h₀.next nmem)).next nmem)
        (mem - h₀.ram)
    else h := by
  rw [← hnmem]
  rfl

theorem Heap.Tiled.plugForward (ht : h.Tiled (pre ++ c :: post)) (hfree : c.used = false) :
    h.Becomes (h.plugForward (h.at (Tiling.extent pre))) (pre ++ join c post) := by
  obtain ⟨hsize, hsum⟩ := ht.bounds
  have ho : Tiling.extent pre ≤ 2228224 := by omega
  have hn : Tiling.extent pre + c.size ≤ 2228224 := by omega
  have hnmem : h.ram + h.next (h.at (Tiling.extent pre)) = h.at (Tiling.extent pre + c.size) := by
    rw [next_at ht.placed ho, ht.head]
    rfl
  rw [plug_forward_eq hnmem]
  cases post with
  | nil =>
      -- the last header
      rw [extent_nil, Nat.add_zero] at hsum
      rw [hsum, if_neg fun hnot => hnot.2.2 ht.placed.ramEnd.symm]
      exact .refl ht
  | cons d post =>
      have ht' : h.Tiled ((pre ++ [c]) ++ d :: post) := by simpa using ht
      have hheadd := ht'.head
      have hd : 12 + 12 ≤ d.size := ht.roomy d (by simp)
      rw [extent_cons] at hsum
      simp only [extent_append, extent_cons, extent_nil, Nat.add_zero] at hheadd
      have hused : h.used (h.at (Tiling.extent pre + c.size)) = 0 ↔ d.used = false := by
        rw [used_at ht.placed hn, hheadd]
        exact used_byte_eq_zero
      rw [join_cons]
      cases hdused : d.used with
      | true =>
          have hnot : ¬ h.used (h.at (Tiling.extent pre + c.size)) = 0 := fun hzero => by
            rw [hused.1 hzero] at hdused
            cases hdused
          rw [if_neg fun hcond => hnot hcond.2.1, if_neg (by simp)]
          exact .refl ht
      | false =>
          have hne : h.at (Tiling.extent pre) ≠ h.at (Tiling.extent pre + c.size) := by
            rw [Ne, at_inj ht.placed ho hn]
            omega
          have hend : h.at (Tiling.extent pre + c.size) ≠ h.ramEnd := by
            rw [ht.placed.ramEnd, Ne, at_inj ht.placed hn (Nat.le_refl _)]
            omega
          have hboth : c.used = false ∧ false = false := ⟨hfree, rfl⟩
          rw [if_pos hboth, if_pos ⟨hne, hused.2 hdused, hend⟩]
          refine ht.joined ?_ hfree
          split
          · exact edits_lfree h _
          · exact .refl h []

theorem plug_backward_eq {mem pmem : Word} (hpmem : h.ram + h.prev mem = pmem) :
    h.plugBackward mem = if pmem ≠ mem ∧ h.used pmem = 0 then
      let h₀ := if h.lfree = mem then { h with lfree := pmem } else h
      (h₀.setNext pmem (h₀.next mem)).setPrev (h₀.ram + (h₀.setNext pmem (h₀.next mem)).next mem)
        (pmem - h₀.ram)
    else h := by
  rw [← hpmem]
  rfl

theorem last_off_concat (p o : Nat) (pre : List Cell) (d : Cell) :
    lastOff p o (pre ++ [d]) = o + Tiling.extent pre := by
  rw [last_off_append]
  rfl

theorem Heap.Tiled.plugBackward (ht : h.Tiled (pre ++ c :: post)) (hfree : c.used = false) :
    h.Becomes (h.plugBackward (h.at (Tiling.extent pre))) (attach pre (c :: post)) := by
  obtain ⟨hsize, hsum⟩ := ht.bounds
  have ho : Tiling.extent pre ≤ 2228224 := by omega
  have hpmem : h.ram + h.prev (h.at (Tiling.extent pre)) = h.at (lastOff 0 0 pre) := by
    rw [prev_at ht.placed ho, ht.head]
    rfl
  rw [plug_backward_eq hpmem]
  rcases List.eq_nil_or_concat pre with rfl | ⟨pre, d, rfl⟩
  · -- the first header links to itself
    rw [if_neg fun hnot => hnot.1 rfl, attach_nil]
    exact .refl ht
  · rw [List.concat_eq_append] at *
    have ht' : h.Tiled (pre ++ d :: c :: post) := by simpa using ht
    have hd : 12 + 12 ≤ d.size := ht.roomy d (by simp)
    rw [last_off_concat, Nat.zero_add, attach_concat, join_cons]
    simp only [extent_append, extent_cons, extent_nil, Nat.add_zero] at ho ⊢
    have hp : Tiling.extent pre ≤ 2228224 := by omega
    have hused : h.used (h.at (Tiling.extent pre)) = 0 ↔ d.used = false := by
      rw [used_at ht.placed hp, ht'.head]
      exact used_byte_eq_zero
    cases hdused : d.used with
    | true =>
        have hnot : ¬ h.used (h.at (Tiling.extent pre)) = 0 := fun hzero => by
          rw [hused.1 hzero] at hdused
          cases hdused
        rw [if_neg fun hcond => hnot hcond.2, if_neg (by simp)]
        exact .refl ht'
    | false =>
        have hne : h.at (Tiling.extent pre) ≠ h.at (Tiling.extent pre + d.size) := by
          rw [Ne, at_inj ht.placed hp ho]
          omega
        have hboth : false = false ∧ c.used = false := ⟨rfl, hfree⟩
        rw [if_pos hboth, if_pos ⟨hne, hused.2 hdused⟩]
        refine ht'.joined ?_ hdused
        split
        · exact edits_lfree h _
        · exact .refl h []

end Labs.Jos.LwipMem
