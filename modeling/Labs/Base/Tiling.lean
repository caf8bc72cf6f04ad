import Mathlib.Algebra.BigOperators.Group.List.Basic
import Mathlib.Data.List.Chain
import Mathlib.Tactic.Ring

/-!
# Tilings of a region by cells

A region is cut into cells that lie one behind the other. A cell begins with a header of `hdr`
bytes, and the room behind the header is a block when the cell is in use. Memory is allocated by
cutting a used cell off a free one, and freed by joining a cell with its free neighbours, so that
no two free cells are adjacent.
-/

namespace Labs

/-- A cell with its size, header included. -/
structure Cell where
  size : Nat
  used : Bool
  deriving DecidableEq

namespace Tiling

variable {hdr least need off : Nat} {c d : Cell} {pre post cells : List Cell}

/-- The size of the region. -/
def extent (cells : List Cell) : Nat := (cells.map Cell.size).sum

@[simp] theorem extent_nil : extent [] = 0 := rfl

@[simp] theorem extent_cons (c : Cell) (cells : List Cell) :
    extent (c :: cells) = c.size + extent cells := by
  simp [extent]

@[simp] theorem extent_append (pre post : List Cell) :
    extent (pre ++ post) = extent pre + extent post := by
  simp [extent]

/-- The extent of cells whose sizes are multiples of `k`. -/
theorem extent_mod {k : Nat} (hsizes : ∀ c ∈ cells, c.size % k = 0) : extent cells % k = 0 := by
  induction cells with
  | nil => exact Nat.zero_mod k
  | cons c cells ih =>
      rw [extent_cons, Nat.add_mod, hsizes c List.mem_cons_self,
        ih fun d hd => hsizes d (List.mem_cons_of_mem _ hd), Nat.zero_add, Nat.zero_mod]

theorem size_le_extent (hc : c ∈ cells) : c.size ≤ extent cells := by
  obtain ⟨pre, post, rfl⟩ := List.append_of_mem hc
  rw [extent_append, extent_cons]
  omega

/-- The blocks of the used cells, as places and sizes, when the first cell lies at `off`. -/
def blocks (hdr : Nat) : Nat → List Cell → List (Nat × Nat)
  | _, [] => []
  | off, c :: cells =>
      if c.used then (off + hdr, c.size - hdr) :: blocks hdr (off + c.size) cells
      else blocks hdr (off + c.size) cells

@[simp] theorem blocks_nil (hdr off : Nat) : blocks hdr off [] = [] := rfl

theorem blocks_used (hused : c.used = true) :
    blocks hdr off (c :: cells) =
      (off + hdr, c.size - hdr) :: blocks hdr (off + c.size) cells := by
  rw [blocks, if_pos hused]

theorem blocks_free (hfree : c.used = false) :
    blocks hdr off (c :: cells) = blocks hdr (off + c.size) cells := by
  rw [blocks, if_neg (by simp [hfree])]

theorem blocks_append (hdr off : Nat) (pre post : List Cell) :
    blocks hdr off (pre ++ post) = blocks hdr off pre ++ blocks hdr (off + extent pre) post := by
  induction pre generalizing off with
  | nil => simp
  | cons c pre ih =>
      rw [List.cons_append]
      cases hused : c.used with
      | true =>
          rw [blocks_used hused, blocks_used hused, ih, extent_cons, List.cons_append, Nat.add_assoc]
      | false => rw [blocks_free hused, blocks_free hused, ih, extent_cons, Nat.add_assoc]

/-! ## Well-formed tilings -/

/-- Every cell has room for at least `least` bytes. -/
def Roomy (hdr least : Nat) (cells : List Cell) : Prop := ∀ c ∈ cells, hdr + least ≤ c.size

/-- No two free cells are adjacent. -/
def Coalesced (cells : List Cell) : Prop := cells.IsChain fun c d => c.used = true ∨ d.used = true

/-- Blocks lie inside the region, behind their headers. -/
theorem block_inside (hroomy : Roomy hdr least cells) {b : Nat × Nat}
    (hb : b ∈ blocks hdr off cells) : off + hdr ≤ b.1 ∧ b.1 + b.2 ≤ off + extent cells := by
  induction cells generalizing off with
  | nil => cases hb
  | cons c cells ih =>
      have hsize := hroomy c List.mem_cons_self
      have hrest := fun hmem => @ih (off + c.size) (fun d hd => hroomy d (List.mem_cons_of_mem _ hd)) hmem
      rw [extent_cons]
      cases hused : c.used with
      | true =>
          rw [blocks_used hused] at hb
          rcases List.mem_cons.1 hb with rfl | hmem
          · dsimp only
            omega
          · have := hrest hmem
            omega
      | false =>
          rw [blocks_free hused] at hb
          have := hrest hb
          omega

/-- A block ends in front of the header of the next one. -/
theorem blocks_apart (hroomy : Roomy hdr least cells) :
    (blocks hdr off cells).Pairwise fun b b' => b.1 + b.2 + hdr ≤ b'.1 := by
  induction cells generalizing off with
  | nil => exact .nil
  | cons c cells ih =>
      have hsize := hroomy c List.mem_cons_self
      have hroomy' : Roomy hdr least cells := fun d hd => hroomy d (List.mem_cons_of_mem _ hd)
      cases hused : c.used with
      | true =>
          rw [blocks_used hused]
          refine List.pairwise_cons.2 ⟨fun b hb => ?_, ih hroomy'⟩
          have := block_inside hroomy' hb
          dsimp only
          omega
      | false =>
          rw [blocks_free hused]
          exact ih hroomy'

/-- The cell of a block. -/
theorem cell_of_block {b : Nat × Nat} (hb : b ∈ blocks hdr off cells) : ∃ pre c post,
    cells = pre ++ c :: post ∧ c.used = true ∧ b = (off + extent pre + hdr, c.size - hdr) := by
  induction cells generalizing off with
  | nil => cases hb
  | cons c cells ih =>
      have hrest : b ∈ blocks hdr (off + c.size) cells → ∃ pre d post,
          c :: cells = pre ++ d :: post ∧ d.used = true ∧
          b = (off + extent pre + hdr, d.size - hdr) := by
        intro hmem
        obtain ⟨pre, d, post, hcells, hused, heq⟩ := ih hmem
        refine ⟨c :: pre, d, post, by rw [hcells]; rfl, hused, ?_⟩
        rw [heq, extent_cons, Nat.add_assoc off]
      cases hused : c.used with
      | true =>
          rw [blocks_used hused] at hb
          rcases List.mem_cons.1 hb with rfl | hmem
          · exact ⟨[], c, cells, rfl, hused, rfl⟩
          · exact hrest hmem
      | false =>
          rw [blocks_free hused] at hb
          exact hrest hb

/-- The blocks around a cell. -/
theorem blocks_around (hused : c.used = true) : blocks hdr 0 (pre ++ c :: post) =
    blocks hdr 0 pre ++ (extent pre + hdr, c.size - hdr) :: blocks hdr (extent pre + c.size) post := by
  rw [blocks_append, blocks_used hused, Nat.zero_add]

/-- The place of the header of a cell, or the end of the region. -/
def Border (cells : List Cell) (place : Nat) : Prop :=
  ∃ pre post, cells = pre ++ post ∧ place = extent pre

theorem border_extent (pre post : List Cell) : Border (pre ++ post) (extent pre) :=
  ⟨pre, post, rfl, rfl⟩

/-- A block ends in front of a header, or begins behind it. -/
theorem border_apart (hroomy : Roomy hdr least cells) {place : Nat} (hplace : Border cells place)
    {b : Nat × Nat} (hb : b ∈ blocks hdr 0 cells) :
    b.1 + b.2 ≤ place ∨ place + hdr ≤ b.1 := by
  obtain ⟨pre, post, rfl, rfl⟩ := hplace
  have hpre : Roomy hdr least pre := fun d hd => hroomy d (List.mem_append_left _ hd)
  have hpost : Roomy hdr least post := fun d hd => hroomy d (List.mem_append_right _ hd)
  rw [blocks_append, List.mem_append, Nat.zero_add] at hb
  rcases hb with hb | hb
  · have := block_inside hpre hb
    omega
  · have := block_inside hpost hb
    omega

/-- There are no more cells than fit into the region. -/
theorem length_le_extent (hroomy : Roomy hdr least cells) :
    cells.length * (hdr + least) ≤ extent cells := by
  induction cells with
  | nil => simp
  | cons c cells ih =>
      have hsize := hroomy c List.mem_cons_self
      have hrest := ih fun d hd => hroomy d (List.mem_cons_of_mem _ hd)
      rw [List.length_cons, extent_cons, Nat.succ_mul]
      omega

/-- Without blocks no cell is in use. -/
theorem blocks_eq_nil (h : blocks hdr off cells = []) : ∀ c ∈ cells, c.used = false := by
  induction cells generalizing off with
  | nil => exact fun _ hc => (by cases hc)
  | cons c cells ih =>
      cases hused : c.used with
      | true =>
          rw [blocks_used hused] at h
          cases h
      | false =>
          rw [blocks_free hused] at h
          intro d hd
          rcases List.mem_cons.1 hd with rfl | hd
          · exact hused
          · exact ih h d hd

/-- Without blocks a coalesced region is one free cell. -/
theorem single_of_no_blocks (hcoalesced : Coalesced cells) (hne : cells ≠ [])
    (h : blocks hdr off cells = []) : cells = [⟨extent cells, false⟩] := by
  have hfree := blocks_eq_nil h
  match cells with
  | [] => exact absurd rfl hne
  | [c] =>
      have hused := hfree c List.mem_cons_self
      cases c
      simp_all
  | c :: d :: rest =>
      have hc := hfree c List.mem_cons_self
      have hd := hfree d (by simp)
      rcases (List.isChain_cons_cons.1 hcoalesced).1 with hused | hused <;> simp_all

/-! ## The first free cell -/

/-- The place of the first free cell, or the end of the region. -/
def firstFree : Nat → List Cell → Nat
  | off, [] => off
  | off, c :: cells => if c.used then firstFree (off + c.size) cells else off

theorem first_free_used (hused : c.used = true) :
    firstFree off (c :: cells) = firstFree (off + c.size) cells := by
  rw [firstFree, if_pos hused]

theorem first_free_free (hfree : c.used = false) : firstFree off (c :: cells) = off := by
  rw [firstFree, if_neg (by simp [hfree])]

theorem le_first_free (off : Nat) (cells : List Cell) : off ≤ firstFree off cells := by
  induction cells generalizing off with
  | nil => exact Nat.le_refl off
  | cons c cells ih =>
      cases hused : c.used with
      | true =>
          rw [first_free_used hused]
          have := ih (off + c.size)
          omega
      | false => rw [first_free_free hused]

theorem first_free_le_extent (off : Nat) (cells : List Cell) :
    firstFree off cells ≤ off + extent cells := by
  induction cells generalizing off with
  | nil => exact Nat.le_refl _
  | cons c cells ih =>
      have := ih (off + c.size)
      rw [firstFree, extent_cons]
      split <;> omega

/-- Behind cells that are all in use. -/
theorem first_free_append_used (hused : ∀ c ∈ pre, c.used = true) :
    firstFree off (pre ++ post) = firstFree (off + extent pre) post := by
  induction pre generalizing off with
  | nil => rfl
  | cons c pre ih =>
      rw [List.cons_append, first_free_used (hused c List.mem_cons_self),
        ih fun d hd => hused d (List.mem_cons_of_mem _ hd), extent_cons, Nat.add_assoc]

/-- In front of the rest there is a free cell. -/
theorem first_free_append_free (hfree : ∃ c ∈ pre, c.used = false) :
    firstFree off (pre ++ post) = firstFree off pre := by
  induction pre generalizing off with
  | nil =>
      obtain ⟨c, hc, -⟩ := hfree
      cases hc
  | cons c pre ih =>
      rw [List.cons_append]
      cases hused : c.used with
      | true =>
          rw [first_free_used hused, first_free_used hused]
          refine ih ?_
          obtain ⟨d, hd, hdfree⟩ := hfree
          rcases List.mem_cons.1 hd with rfl | hd
          · rw [hused] at hdfree
            cases hdfree
          · exact ⟨d, hd, hdfree⟩
      | false => rw [first_free_free hused, first_free_free hused]

/-- Cells are all in use, or one of them is free. -/
theorem all_used_or_free (cells : List Cell) :
    (∀ c ∈ cells, c.used = true) ∨ ∃ c ∈ cells, c.used = false := by
  by_cases h : ∀ c ∈ cells, c.used = true
  · exact .inl h
  · push Not at h
    obtain ⟨c, hc, hne⟩ := h
    exact .inr ⟨c, hc, by simpa using hne⟩

/-- The first free cell is not behind a free cell. -/
theorem first_free_le (hfree : c.used = false) (off : Nat) (pre post : List Cell) :
    firstFree off (pre ++ c :: post) ≤ off + extent pre := by
  induction pre generalizing off with
  | nil =>
      rw [List.nil_append, first_free_free hfree]
      omega
  | cons d pre ih =>
      rw [List.cons_append, extent_cons, firstFree]
      have := ih (off + d.size)
      split <;> omega

theorem first_free_lt (hroomy : Roomy hdr least cells) (hpos : 0 < hdr + least)
    (hfree : ∃ c ∈ cells, c.used = false) : firstFree off cells < off + extent cells := by
  induction cells generalizing off with
  | nil =>
      obtain ⟨c, hc, -⟩ := hfree
      cases hc
  | cons c cells ih =>
      have hsize := hroomy c List.mem_cons_self
      rw [extent_cons]
      cases hused : c.used with
      | true =>
          rw [first_free_used hused]
          have hrest : ∃ d ∈ cells, d.used = false := by
            obtain ⟨d, hd, hdfree⟩ := hfree
            rcases List.mem_cons.1 hd with rfl | hd
            · rw [hused] at hdfree
              cases hdfree
            · exact ⟨d, hd, hdfree⟩
          have := @ih (off + c.size) (fun d hd => hroomy d (List.mem_cons_of_mem _ hd)) hrest
          omega
      | false =>
          rw [first_free_free hused]
          omega

/-- In front of the rest all cells are in use, or the first free one is among them. -/
theorem first_free_append (hroomy : Roomy hdr least pre) (hpos : 0 < hdr + least) (off : Nat) :
    ((∀ c ∈ pre, c.used = true) ∧
      ∀ post, firstFree off (pre ++ post) = firstFree (off + extent pre) post) ∨
    (firstFree off pre < off + extent pre ∧
      ∀ post, firstFree off (pre ++ post) = firstFree off pre) := by
  rcases all_used_or_free pre with hused | hfree
  · exact .inl ⟨hused, fun _ => first_free_append_used hused⟩
  · exact .inr ⟨first_free_lt hroomy hpos hfree, fun _ => first_free_append_free hfree⟩

/-- Cells that are in use lie in front of the first free one. -/
theorem split_first_free (cells : List Cell) : ∃ pre post, cells = pre ++ post ∧
    (∀ c ∈ pre, c.used = true) ∧ firstFree 0 cells = extent pre ∧
    ∀ c ∈ post.head?, c.used = false := by
  suffices hgen : ∀ off, ∃ pre post, cells = pre ++ post ∧ (∀ c ∈ pre, c.used = true) ∧
      firstFree off cells = off + extent pre ∧ ∀ c ∈ post.head?, c.used = false by
    obtain ⟨pre, post, hcells, hused, hfirst, hpost⟩ := hgen 0
    exact ⟨pre, post, hcells, hused, by rw [hfirst, Nat.zero_add], hpost⟩
  induction cells with
  | nil => exact fun off => ⟨[], [], rfl, by simp, rfl, by simp⟩
  | cons c cells ih =>
      intro off
      cases hused : c.used with
      | true =>
          obtain ⟨pre, post, hcells, hpre, hfirst, hpost⟩ := ih (off + c.size)
          refine ⟨c :: pre, post, by rw [hcells]; rfl, List.forall_mem_cons.2 ⟨hused, hpre⟩, ?_,
            hpost⟩
          rw [first_free_used hused, hfirst, extent_cons, Nat.add_assoc]
      | false =>
          refine ⟨[], c :: cells, rfl, by simp, by rw [first_free_free hused]; rfl, ?_⟩
          intro d hd
          cases hd
          exact hused

/-- The first free cell depends on the rest through the first free cell of the rest. -/
theorem first_free_append_congr {cells' : List Cell}
    (h : ∀ off, firstFree off cells = firstFree off cells') (off : Nat) (pre : List Cell) :
    firstFree off (pre ++ cells) = firstFree off (pre ++ cells') := by
  induction pre generalizing off with
  | nil => exact h off
  | cons c pre ih =>
      rw [List.cons_append, List.cons_append, firstFree, firstFree, ih]

/-! ## Allocation -/

/-- The cell is free and has room for `need` bytes. -/
def Fits (hdr need : Nat) (c : Cell) : Prop := c.used = false ∧ hdr + need ≤ c.size

instance (hdr need : Nat) (c : Cell) : Decidable (Fits hdr need c) :=
  inferInstanceAs (Decidable (_ ∧ _))

/-- What becomes of a cell in which `need` bytes are allocated: the rest of it is a free cell if it
has room for `least` bytes. -/
def cut (hdr least need : Nat) (c : Cell) : List Cell :=
  if hdr + need + (hdr + least) ≤ c.size then
    [⟨hdr + need, true⟩, ⟨c.size - (hdr + need), false⟩]
  else [⟨c.size, true⟩]

theorem extent_cut (hdr least need : Nat) (c : Cell) : extent (cut hdr least need c) = c.size := by
  unfold cut
  split
  · simp only [extent_cons, extent_nil]
    omega
  · simp

/-- The new block has at least the room that is needed. -/
theorem blocks_cut (hfits : Fits hdr need c) (least : Nat) : ∃ size, need ≤ size ∧
    ∀ off, blocks hdr off (cut hdr least need c) = [(off + hdr, size)] := by
  have hsize := hfits.2
  unfold cut
  split
  · refine ⟨need, Nat.le_refl need, fun off => ?_⟩
    rw [blocks_used rfl, blocks_free rfl, Nat.add_sub_cancel_left]
    rfl
  · refine ⟨c.size - hdr, by omega, fun off => ?_⟩
    rw [blocks_used rfl]
    rfl

/-- Allocation adds a block. -/
theorem blocks_cut_perm (hfits : Fits hdr need c) (least : Nat) (pre post : List Cell) :
    ∃ size, need ≤ size ∧ (blocks hdr 0 (pre ++ (cut hdr least need c ++ post))).Perm
      ((extent pre + hdr, size) :: blocks hdr 0 (pre ++ c :: post)) := by
  obtain ⟨size, hsize, hblocks⟩ := blocks_cut hfits least
  refine ⟨size, hsize, ?_⟩
  rw [blocks_append, blocks_append _ _ (cut hdr least need c), hblocks, extent_cut, blocks_append,
    blocks_free hfits.1, Nat.zero_add]
  exact List.perm_middle

/-- Allocation in a free cell keeps the tiling coalesced. -/
theorem Coalesced.cut (h : Coalesced (pre ++ c :: post)) (hfree : c.used = false) :
    Coalesced (pre ++ (cut hdr least need c ++ post)) := by
  have hparts := List.isChain_append.1 h
  have hpost : Coalesced post := (List.isChain_cons.1 hparts.2.1).2
  have hnext : ∀ d ∈ post.head?, d.used = true := fun d hd => by
    have hor := (List.isChain_cons.1 hparts.2.1).1 d hd
    simpa [hfree] using hor
  refine List.isChain_append.2 ⟨hparts.1, ?_, ?_⟩
  · unfold Tiling.cut
    split
    · refine List.isChain_cons_cons.2 ⟨.inl rfl, List.isChain_cons.2 ⟨fun d hd => ?_, hpost⟩⟩
      exact .inr (hnext d hd)
    · exact List.isChain_cons.2 ⟨fun _ _ => .inl rfl, hpost⟩
  · intro d _ d' hd'
    right
    unfold Tiling.cut at hd'
    split at hd' <;>
    · simp only [List.cons_append, List.head?_cons, Option.mem_some_iff] at hd'
      rw [← hd']

/-! ## Freeing -/

/-- Put a cell in front of others, joined with the first of them if both are free. -/
def join (c : Cell) : List Cell → List Cell
  | [] => [c]
  | d :: cells =>
      if c.used = false ∧ d.used = false then ⟨c.size + d.size, false⟩ :: cells
      else c :: d :: cells

theorem join_cons (c d : Cell) (cells : List Cell) :
    join c (d :: cells) =
      if c.used = false ∧ d.used = false then ⟨c.size + d.size, false⟩ :: cells
      else c :: d :: cells := rfl

/-- Joining free cells changes no block. -/
theorem blocks_join (hdr off : Nat) (c : Cell) (cells : List Cell) :
    blocks hdr off (join c cells) = blocks hdr off (c :: cells) := by
  cases cells with
  | nil => rfl
  | cons d cells =>
      rw [join_cons]
      split
      case isTrue hfree =>
        rw [blocks_free rfl, blocks_free hfree.1, blocks_free hfree.2, Nat.add_assoc]
      case isFalse => rfl

/-- A free cell stays in front. -/
theorem join_eq_cons (hfree : c.used = false) (cells : List Cell) :
    ∃ d rest, join c cells = d :: rest ∧ d.used = false := by
  cases cells with
  | nil => exact ⟨c, [], rfl, hfree⟩
  | cons e cells =>
      rw [join_cons]
      split
      · exact ⟨_, _, rfl, rfl⟩
      · exact ⟨_, _, rfl, hfree⟩

theorem first_free_join (off : Nat) (c : Cell) (cells : List Cell) :
    firstFree off (join c cells) = firstFree off (c :: cells) := by
  cases cells with
  | nil => rfl
  | cons d cells =>
      rw [join_cons]
      split
      case isTrue hfree => rw [first_free_free rfl, first_free_free hfree.1]
      case isFalse => rfl

theorem Coalesced.join (h : Coalesced cells) (c : Cell) : Coalesced (join c cells) := by
  cases cells with
  | nil => exact List.isChain_singleton c
  | cons d cells =>
      rw [join_cons]
      split
      case isTrue hfree =>
        have hparts := List.isChain_cons.1 h
        refine List.isChain_cons.2 ⟨fun e he => .inr ?_, hparts.2⟩
        have hor := hparts.1 e he
        simpa [hfree.2] using hor
      case isFalse hnot =>
        refine List.isChain_cons_cons.2 ⟨?_, h⟩
        by_contra hne
        push Not at hne
        exact hnot ⟨by simpa using hne.1, by simpa using hne.2⟩

/-- Put cells in front of others, the last of them joined. -/
def attach (pre cells : List Cell) : List Cell :=
  match pre.getLast? with
  | none => cells
  | some c => pre.dropLast ++ join c cells

@[simp] theorem attach_nil (cells : List Cell) : attach [] cells = cells := rfl

@[simp] theorem attach_concat (pre : List Cell) (c : Cell) (cells : List Cell) :
    attach (pre ++ [c]) cells = pre ++ join c cells := by
  simp [attach]

theorem blocks_attach (hdr off : Nat) (pre cells : List Cell) :
    blocks hdr off (attach pre cells) = blocks hdr off (pre ++ cells) := by
  rcases List.eq_nil_or_concat pre with rfl | ⟨pre, d, rfl⟩
  · rfl
  · rw [List.concat_eq_append, attach_concat, List.append_assoc, blocks_append, blocks_append,
      blocks_join]
    rfl

theorem first_free_attach (off : Nat) (pre cells : List Cell) :
    firstFree off (attach pre cells) = firstFree off (pre ++ cells) := by
  rcases List.eq_nil_or_concat pre with rfl | ⟨pre, d, rfl⟩
  · rfl
  · rw [List.concat_eq_append, attach_concat, List.append_assoc]
    exact first_free_append_congr (fun off => first_free_join off d cells) off pre

/-- The cell `c` between `pre` and `post` becomes free. -/
def release (pre : List Cell) (c : Cell) (post : List Cell) : List Cell :=
  attach pre (join ⟨c.size, false⟩ post)

/-- Only the block of the cell is gone. -/
theorem blocks_release (hdr : Nat) (pre : List Cell) (c : Cell) (post : List Cell) :
    blocks hdr 0 (release pre c post) =
      blocks hdr 0 pre ++ blocks hdr (extent pre + c.size) post := by
  rw [release, blocks_attach, blocks_append, blocks_join, blocks_free rfl, Nat.zero_add]

theorem blocks_release_perm (hused : c.used = true) (pre post : List Cell) :
    (blocks hdr 0 (pre ++ c :: post)).Perm
      ((extent pre + hdr, c.size - hdr) :: blocks hdr 0 (release pre c post)) := by
  rw [blocks_around hused, blocks_release]
  exact List.perm_middle

theorem Coalesced.release (h : Coalesced (pre ++ c :: post)) : Coalesced (release pre c post) := by
  have hparts := List.isChain_append.1 h
  have hpost : Coalesced post := (List.isChain_cons.1 hparts.2.1).2
  have hjoin : Coalesced (Tiling.join ⟨c.size, false⟩ post) := hpost.join _
  unfold Tiling.release
  rcases List.eq_nil_or_concat pre with rfl | ⟨pre, d, rfl⟩
  · exact hjoin
  · rw [List.concat_eq_append] at hparts ⊢
    rw [attach_concat]
    have hpre := List.isChain_append.1 hparts.1
    refine List.isChain_append.2 ⟨hpre.1, hjoin.join d, fun e he e' he' => ?_⟩
    -- the first cell of the joined part is free only if `d` is
    have hor := hpre.2.2 e he d (by simp)
    rcases hor with hused | hused
    · exact .inl hused
    · right
      cases hj : Tiling.join ⟨c.size, false⟩ post with
      | nil =>
          rw [hj] at he'
          simp only [Tiling.join, List.head?_cons, Option.mem_some_iff] at he'
          rw [← he', hused]
      | cons f rest =>
          rw [hj] at he'
          rw [join_cons] at he'
          simp only [hused, Bool.true_eq_false, false_and, if_false, List.head?_cons,
            Option.mem_some_iff] at he'
          rw [← he', hused]

/-! ## Shrinking -/

/-- The cells from `c` on when only `n` bytes of its block are kept: the rest goes to the free cell
behind it, or becomes a free cell if it has room for `least` bytes. -/
def shrink (hdr least n : Nat) (c : Cell) : List Cell → List Cell
  | [] => cut hdr least n c
  | d :: post =>
      if d.used = false then ⟨hdr + n, true⟩ :: ⟨d.size + (c.size - (hdr + n)), false⟩ :: post
      else cut hdr least n c ++ d :: post

theorem shrink_cons (hdr least n : Nat) (c d : Cell) (post : List Cell) :
    shrink hdr least n c (d :: post) =
      if d.used = false then ⟨hdr + n, true⟩ :: ⟨d.size + (c.size - (hdr + n)), false⟩ :: post
      else cut hdr least n c ++ d :: post := rfl

/-- The whole block is kept. -/
theorem shrink_self {n : Nat} (hused : c.used = true) (hn : c.size = hdr + n)
    (hpos : 0 < hdr + least) (post : List Cell) : shrink hdr least n c post = c :: post := by
  have hcell : (⟨hdr + n, true⟩ : Cell) = c := by rw [← hn, ← hused]
  have hcut : cut hdr least n c = [c] := by
    rw [cut, if_neg (by omega), hn, hcell]
  cases post with
  | nil => exact hcut
  | cons d post =>
      rw [shrink_cons, hcut, hcell]
      split
      case isTrue hfree =>
        have hd : (⟨d.size + (c.size - (hdr + n)), false⟩ : Cell) = d := by
          rw [hn, Nat.sub_self, Nat.add_zero, ← hfree]
        rw [hd]
      case isFalse => rfl

/-- The block keeps its place, and at least `n` bytes of its room. -/
theorem blocks_shrink {n : Nat} (hn : hdr + n ≤ c.size) (least : Nat) (post : List Cell) :
    ∃ size, n ≤ size ∧ hdr + size ≤ c.size ∧ ∀ off, blocks hdr off (shrink hdr least n c post) =
      (off + hdr, size) :: blocks hdr (off + c.size) post := by
  have hcut : ∃ size, n ≤ size ∧ hdr + size ≤ c.size ∧ ∀ off, blocks hdr off (cut hdr least n c) =
      [(off + hdr, size)] := by
    unfold cut
    split
    · refine ⟨n, Nat.le_refl n, hn, fun off => ?_⟩
      rw [blocks_used rfl, blocks_free rfl, Nat.add_sub_cancel_left]
      rfl
    · refine ⟨c.size - hdr, by omega, by omega, fun off => ?_⟩
      rw [blocks_used rfl]
      rfl
  cases post with
  | nil =>
      obtain ⟨size, hle, hfit, hblocks⟩ := hcut
      exact ⟨size, hle, hfit, fun off => hblocks off⟩
  | cons d post =>
      rw [shrink_cons]
      split
      case isTrue hfree =>
        refine ⟨n, Nat.le_refl n, hn, fun off => ?_⟩
        rw [blocks_used rfl, blocks_free rfl, blocks_free hfree, Nat.add_sub_cancel_left]
        have hplace : off + (hdr + n) + (d.size + (c.size - (hdr + n))) = off + c.size + d.size := by
          omega
        rw [hplace]
      case isFalse =>
        obtain ⟨size, hle, hfit, hblocks⟩ := hcut
        refine ⟨size, hle, hfit, fun off => ?_⟩
        rw [blocks_append, hblocks, extent_cut]
        rfl

theorem blocks_shrink_perm {n : Nat} (hn : hdr + n ≤ c.size) (least : Nat) (pre post : List Cell) :
    ∃ size, n ≤ size ∧ (blocks hdr 0 (pre ++ shrink hdr least n c post)).Perm
      ((extent pre + hdr, size) :: blocks hdr 0 (release pre c post)) := by
  obtain ⟨size, hsize, -, hblocks⟩ := blocks_shrink hn least post
  refine ⟨size, hsize, ?_⟩
  rw [blocks_append, hblocks, blocks_release, Nat.zero_add]
  exact List.perm_middle

theorem Coalesced.shrink {n : Nat} (h : Coalesced (pre ++ c :: post)) :
    Coalesced (pre ++ shrink hdr least n c post) := by
  have hparts := List.isChain_append.1 h
  have hpost : Coalesced post := (List.isChain_cons.1 hparts.2.1).2
  refine List.isChain_append.2 ⟨hparts.1, ?_, fun e he e' he' => .inr ?_⟩
  · cases post with
    | nil =>
        rw [Tiling.shrink]
        unfold Tiling.cut
        split
        · exact List.isChain_cons_cons.2 ⟨.inl rfl, List.isChain_singleton _⟩
        · exact List.isChain_singleton _
    | cons d post =>
        have hd := List.isChain_cons.1 hpost
        rw [shrink_cons]
        split
        case isTrue hfree =>
          refine List.isChain_cons_cons.2 ⟨.inl rfl, List.isChain_cons.2 ⟨fun f hf => .inr ?_, hd.2⟩⟩
          have hor := hd.1 f hf
          simpa [hfree] using hor
        case isFalse hnot =>
          unfold Tiling.cut
          split
          · refine List.isChain_cons_cons.2 ⟨.inl rfl, List.isChain_cons_cons.2 ⟨.inr ?_, hpost⟩⟩
            simpa using hnot
          · exact List.isChain_cons_cons.2 ⟨.inl rfl, hpost⟩
  · -- the first cell is in use, as `c` was
    have hcut : ∀ (cells : List Cell) (f : Cell),
        f ∈ (Tiling.cut hdr least n c ++ cells).head? → f.used = true := by
      intro cells f hf
      unfold Tiling.cut at hf
      split at hf <;>
      · simp only [List.cons_append, List.head?_cons, Option.mem_some_iff] at hf
        rw [← hf]
    cases post with
    | nil => exact hcut [] e' (by simpa [Tiling.shrink] using he')
    | cons d post =>
        rw [shrink_cons] at he'
        split at he'
        · simp only [List.head?_cons, Option.mem_some_iff] at he'
          rw [← he']
        · exact hcut (d :: post) e' he'

end Tiling

end Labs
