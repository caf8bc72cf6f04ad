import Mathlib.Data.List.Basic

/-!
# Separated pieces of a stream

A stream carries pieces that each end in a separator. `cut` takes the first piece off, `lines` is
the list of all terminated pieces, and `frame` writes a list of pieces out.
-/

namespace Labs

variable {α : Type} {sep : α} {l m piece rest : List α}

/-- Write pieces out, each with its separator. -/
def frame (sep : α) (pieces : List (List α)) : List α := pieces.flatMap fun piece => piece ++ [sep]

@[simp] theorem frame_nil : frame sep [] = [] := rfl

@[simp] theorem frame_cons {pieces : List (List α)} :
    frame sep (piece :: pieces) = piece ++ sep :: frame sep pieces := by
  simp [frame]

theorem frame_append {pieces pieces' : List (List α)} :
    frame sep (pieces ++ pieces') = frame sep pieces ++ frame sep pieces' := by
  simp [frame]

variable [DecidableEq α]

/-- Split a list at its first separator, if it has one. -/
def cut (sep : α) : List α → Option (List α × List α)
  | [] => none
  | x :: xs => if x = sep then some ([], xs) else (cut sep xs).map fun (a, b) => (x :: a, b)

theorem cut_eq_none : cut sep l = none ↔ sep ∉ l := by
  induction l with
  | nil => simp [cut]
  | cons x xs ih =>
      by_cases hx : x = sep
      · simp [cut, hx]
      · simp [cut, hx, Ne.symm hx, ih]

theorem cut_eq_some : cut sep l = some (piece, rest) ↔ l = piece ++ sep :: rest ∧ sep ∉ piece := by
  induction l generalizing piece with
  | nil => simp [cut]
  | cons x xs ih =>
      by_cases hx : x = sep
      · subst hx
        cases piece with
        | nil => simp [cut]
        | cons y ys =>
            simp only [cut, if_true, Option.some.injEq, Prod.mk.injEq, List.cons_append,
              List.cons.injEq, List.mem_cons, not_or]
            constructor
            · rintro ⟨h, _⟩
              cases h
            · rintro ⟨⟨rfl, _⟩, h, _⟩
              exact absurd rfl h
      · cases piece with
        | nil => simp [cut, hx, Option.map_eq_some_iff]
        | cons y ys =>
            simp only [cut, if_neg hx, Option.map_eq_some_iff, Prod.exists, Prod.mk.injEq,
              List.cons.injEq, List.cons_append, List.mem_cons, not_or]
            constructor
            · rintro ⟨a, b, h, ⟨rfl, rfl⟩, rfl⟩
              obtain ⟨h, hsep⟩ := ih.1 h
              exact ⟨⟨rfl, h⟩, Ne.symm hx, hsep⟩
            · rintro ⟨⟨rfl, h⟩, _, hsep⟩
              exact ⟨ys, rest, ih.2 ⟨h, hsep⟩, ⟨rfl, rfl⟩, rfl⟩

/-- More input behind the first separator stays behind it. -/
theorem cut_append (h : cut sep l = some (piece, rest)) :
    cut sep (l ++ m) = some (piece, rest ++ m) := by
  obtain ⟨rfl, hsep⟩ := cut_eq_some.1 h
  exact cut_eq_some.2 ⟨by simp, hsep⟩

theorem cut_length (h : cut sep l = some (piece, rest)) : rest.length < l.length := by
  obtain ⟨rfl, _⟩ := cut_eq_some.1 h
  simp only [List.length_append, List.length_cons]
  omega

/-- The maximal pieces between separators that a separator ends. What follows the last separator
is dropped. -/
def lines (sep : α) (l : List α) : List (List α) := (l.splitOn sep).dropLast

theorem lines_of_not_mem (h : sep ∉ l) : lines sep l = [] := by
  rw [lines, List.splitOn_eq_singleton h]
  rfl

/-- The first piece, and then the pieces of the rest. -/
theorem lines_of_cut (h : cut sep l = some (piece, rest)) :
    lines sep l = piece :: lines sep rest := by
  obtain ⟨rfl, hsep⟩ := cut_eq_some.1 h
  rw [lines, lines, List.splitOn_append_cons_self_of_not_mem hsep,
    List.dropLast_cons_of_ne_nil (List.splitOn_ne_nil _ _)]

/-- The lines of a framed list are its pieces. -/
theorem lines_frame {pieces : List (List α)} (h : ∀ piece ∈ pieces, sep ∉ piece) :
    lines sep (frame sep pieces) = pieces := by
  induction pieces with
  | nil => exact lines_of_not_mem List.not_mem_nil
  | cons piece pieces ih =>
      obtain ⟨hpiece, hpieces⟩ := List.forall_mem_cons.1 h
      rw [lines_of_cut (cut_eq_some.2 ⟨frame_cons, hpiece⟩), ih hpieces]

/-- A receiver that holds the first part `l` of a framed stream finds the first piece in it. -/
theorem cut_of_frame {first : List α} {pieces : List (List α)}
    (hcut : cut sep l = some (piece, rest)) (hframe : l ++ m = frame sep (first :: pieces))
    (hsep : sep ∉ first) : piece = first ∧ rest ++ m = frame sep pieces := by
  have hfirst : cut sep (frame sep (first :: pieces)) = some (first, frame sep pieces) :=
    cut_eq_some.2 ⟨frame_cons, hsep⟩
  have hpiece := cut_append (m := m) hcut
  rw [hframe, hfirst, Option.some.injEq, Prod.mk.injEq] at hpiece
  exact ⟨hpiece.1.symm, hpiece.2.symm⟩

/-- A separator in the first part of a framed stream shows that a piece is left. -/
theorem frame_ne_nil_of_cut {pieces : List (List α)} (hcut : cut sep l = some (piece, rest))
    (hframe : l ++ m = frame sep pieces) : pieces ≠ [] := by
  rintro rfl
  obtain ⟨rfl, _⟩ := cut_eq_some.1 hcut
  simp at hframe

end Labs
