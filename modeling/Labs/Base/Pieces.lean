import Mathlib.Data.List.Chain
import Mathlib.Data.List.Sort

/-!
# Putting pieces together

A text is cut into `n` pieces, which arrive in any order and more than once. They are kept sorted
until the text seems complete. The test looks for gaps below the piece that has arrived and above
it, but for one between this piece and those below only if there are none above: then a gap may
remain.
-/

namespace Labs.Pieces

/-! ## Sorted numbers -/

/-- The numbers below `j`. -/
def below (j : Nat) (l : List Nat) : List Nat := l.filter (· < j)

/-- The numbers above `j`. -/
def above (j : Nat) (l : List Nat) : List Nat := l.filter (j < ·)

/-- Insert into a sorted list. -/
def put (j : Nat) (l : List Nat) : List Nat := below j l ++ j :: above j l

variable {i j n a : Nat} {l : List Nat}

theorem mem_below {x : Nat} : x ∈ below j l ↔ x ∈ l ∧ x < j := by simp [below]

theorem mem_above {x : Nat} : x ∈ above j l ↔ x ∈ l ∧ j < x := by simp [above]

theorem mem_put {x : Nat} : x ∈ put j l ↔ x = j ∨ x ∈ l ∧ x ≠ j := by
  rw [put, List.mem_append, List.mem_cons, mem_below, mem_above]
  by_cases hl : x ∈ l
  · simp only [hl, true_and]
    omega
  · simp [hl]

theorem sorted_put (h : l.Pairwise (· < ·)) : (put j l).Pairwise (· < ·) := by
  refine List.pairwise_append.2 ⟨h.filter _, List.pairwise_cons.2 ⟨fun x hx => (mem_above.1 hx).2,
    h.filter _⟩, fun x hx y hy => ?_⟩
  have hlt := (mem_below.1 hx).2
  rcases List.mem_cons.1 hy with rfl | habove
  · exact hlt
  · exact Nat.lt_trans hlt (mem_above.1 habove).2

/-- Sorted lists with the same members are the same. -/
theorem sorted_ext {l' : List Nat} (h : l.Pairwise (· < ·)) (h' : l'.Pairwise (· < ·))
    (hmem : ∀ x, x ∈ l ↔ x ∈ l') : l = l' :=
  ((List.perm_ext_iff_of_nodup (h.imp Nat.ne_of_lt) (h'.imp Nat.ne_of_lt)).2 hmem).eq_of_pairwise'
    h h'

/-- Numbers that follow each other. -/
theorem chain_iff_range' {k : Nat} : (i :: l).IsChain (fun x y => y = x + 1) ∧ l.length = k ↔
    l = List.range' (i + 1) k := by
  induction l generalizing i k with
  | nil =>
      constructor
      · intro h
        rw [← h.2]
        rfl
      · intro h
        cases k with
        | zero => exact ⟨List.isChain_singleton _, rfl⟩
        | succ k => cases h
  | cons x rest ih =>
      rw [List.isChain_cons_cons]
      cases k with
      | zero => simp
      | succ k =>
          rw [List.range'_succ, List.cons.injEq, ← ih, List.length_cons, Nat.succ_inj]
          constructor
          · intro h
            obtain ⟨⟨rfl, hchain⟩, hlen⟩ := h
            exact ⟨rfl, hchain, hlen⟩
          · intro h
            obtain ⟨rfl, hchain, hlen⟩ := h
            exact ⟨⟨rfl, hchain⟩, hlen⟩

/-- Numbers from zero on. -/
theorem chain_iff_range (h : l.head? = some 0 ∨ l = []) :
    l.IsChain (fun x y => y = x + 1) ↔ l = List.range l.length := by
  cases l with
  | nil => simp
  | cons x rest =>
      have hx : x = 0 := by simpa using h
      subst hx
      rw [List.length_cons, List.range_eq_range', List.range'_succ, List.cons.injEq,
        ← chain_iff_range' (k := rest.length)]
      simp

/-- What is below `j` in the numbers from zero on. -/
theorem below_range (h : below j l = List.range a) (hpos : 0 < a) : a ≤ j := by
  have hmem : a - 1 ∈ below j l := by
    rw [h, List.mem_range]
    omega
  have := (mem_below.1 hmem).2
  omega

/-! ## The arrival of pieces -/

/-- The text of `n` pieces seems complete when `j` arrives: the pieces above `j` are there, and those
below are without gaps. Whether they reach up to `j` is looked at only if `j` is the last piece. -/
def complete (n : Nat) (l : List Nat) (j : Nat) : Bool :=
  let a := (below j l).length
  decide (below j l = List.range a ∧ above j l = List.range' (j + 1) (n - 1 - j) ∧
    (a = 0 → j = 0) ∧ (j + 1 = n → a = j))

/-- The arrival of a piece: what is kept, and the pieces of a text that seems complete. -/
def arrive (n : Nat) (l : List Nat) (j : Nat) : List Nat × Option (List Nat) :=
  if j ∈ l then (l, none)
  else if complete n l j then ([], some (put j l))
  else (put j l, none)

/-- Pieces arrive one after the other. -/
def assemble (n : Nat) : List Nat → List Nat → List Nat × List (List Nat)
  | [], l => (l, [])
  | j :: order, l =>
      let (l', made) := arrive n l j
      let (l'', rest) := assemble n order l'
      (l'', made.toList ++ rest)

theorem assemble_cons (order : List Nat) : assemble n (j :: order) l =
    ((assemble n order (arrive n l j).1).1,
      (arrive n l j).2.toList ++ (assemble n order (arrive n l j).1).2) := rfl

/-- What is kept: sorted numbers of pieces, but not all of them. -/
structure Kept (n : Nat) (l : List Nat) : Prop where
  sorted : l.Pairwise (· < ·)
  lt : ∀ x ∈ l, x < n
  gap : ∃ x < n, x ∉ l

/-- The pieces that a text seems to be complete with: all but those in front of the piece `j`, from
some piece on which is not the first. -/
structure Gapped (n a j : Nat) : Prop where
  le : a ≤ j
  lt : j < n
  first : a = 0 → j = 0
  last : j + 1 = n → a = j

theorem complete_iff (hj : j < n) : complete n l j = true ↔
    ∃ a, Gapped n a j ∧ below j l = List.range a ∧ above j l = List.range' (j + 1) (n - 1 - j) := by
  unfold complete
  dsimp only
  rw [decide_eq_true_iff]
  constructor
  · intro h
    obtain ⟨hbelow, habove, hfirst, hlast⟩ := h
    refine ⟨(below j l).length, ⟨?_, hj, hfirst, hlast⟩, hbelow, habove⟩
    rcases Nat.eq_zero_or_pos (below j l).length with hzero | hpos
    · omega
    · exact below_range hbelow hpos
  · intro h
    obtain ⟨a, hgap, hbelow, habove⟩ := h
    have hlen : (below j l).length = a := by rw [hbelow, List.length_range]
    rw [hlen]
    exact ⟨hbelow, habove, hgap.first, hgap.last⟩

theorem Kept.nil (hn : 0 < n) : Kept n [] :=
  ⟨List.Pairwise.nil, fun _ hx => absurd hx List.not_mem_nil, 0, hn, List.not_mem_nil⟩

/-- When the last piece arrives that is missing the text is complete. -/
theorem complete_of_all (hj : j < n) (h : l.Pairwise (· < ·)) (hlt : ∀ x ∈ l, x < n)
    (hall : ∀ x < n, x ≠ j → x ∈ l) : complete n l j = true := by
  refine (complete_iff hj).2 ⟨j, ⟨Nat.le_refl j, hj, id, fun _ => rfl⟩, ?_, ?_⟩
  · refine sorted_ext (h.filter _) List.pairwise_lt_range fun x => ?_
    rw [mem_below, List.mem_range]
    exact ⟨fun hx => hx.2, fun hx => ⟨hall x (by omega) (by omega), hx⟩⟩
  · refine sorted_ext (h.filter _) (List.pairwise_lt_range' 1) fun x => ?_
    rw [mem_above, List.mem_range'_1]
    constructor
    · intro hx
      have := hlt x hx.1
      omega
    · intro hx
      exact ⟨hall x (by omega) (by omega), by omega⟩

/-- What one arrival does. -/
theorem arrive_cases (hj : j < n) (h : Kept n l) :
    (j ∈ l ∧ arrive n l j = (l, none)) ∨
      (j ∉ l ∧ Kept n (put j l) ∧ arrive n l j = (put j l, none)) ∨
      (j ∉ l ∧ ∃ a, Gapped n a j ∧ below j l = List.range a ∧
        above j l = List.range' (j + 1) (n - 1 - j) ∧
        arrive n l j = ([], some (List.range a ++ List.range' j (n - j)))) := by
  unfold arrive
  by_cases hmem : j ∈ l
  · rw [if_pos hmem]
    exact .inl ⟨hmem, rfl⟩
  · rw [if_neg hmem]
    by_cases hcomplete : complete n l j = true
    · obtain ⟨a, hgap, hbelow, habove⟩ := (complete_iff hj).1 hcomplete
      refine .inr (.inr ⟨hmem, a, hgap, hbelow, habove, ?_⟩)
      rw [if_pos hcomplete, put, hbelow, habove, show n - j = n - 1 - j + 1 by omega,
        List.range'_succ]
    · refine .inr (.inl ⟨hmem, ⟨sorted_put h.sorted, fun x hx => ?_, ?_⟩, ?_⟩)
      · rcases mem_put.1 hx with rfl | hx'
        · exact hj
        · exact h.lt x hx'.1
      · by_contra hno
        refine hcomplete (complete_of_all hj h.sorted h.lt fun x hx hne => ?_)
        by_contra hnot
        exact hno ⟨x, hx, fun hin => hnot ((mem_put.1 hin).resolve_left hne).1⟩
      · rw [if_neg hcomplete]

/-! ## Runs -/

variable {order made : List Nat}

theorem arrive_kept (hj : j < n) (h : Kept n l) : Kept n (arrive n l j).1 := by
  rcases arrive_cases hj h with ⟨-, heq⟩ | ⟨-, hkept, heq⟩ | ⟨-, _, -, -, -, heq⟩
  · rw [heq]
    exact h
  · rw [heq]
    exact hkept
  · rw [heq]
    exact Kept.nil (Nat.zero_lt_of_lt hj)

/-- What is made of the pieces has at most one gap. -/
theorem assemble_gapped (horder : ∀ j ∈ order, j < n) (h : Kept n l)
    (hmade : made ∈ (assemble n order l).2) :
    ∃ a j, Gapped n a j ∧ made = List.range a ++ List.range' j (n - j) := by
  induction order generalizing l with
  | nil => cases hmade
  | cons j order ih =>
      have hj := horder j List.mem_cons_self
      rw [assemble_cons] at hmade
      rcases List.mem_append.1 hmade with hnow | hlater
      · rcases arrive_cases hj h with ⟨-, heq⟩ | ⟨-, -, heq⟩ | ⟨-, a, hgap, -, -, heq⟩
        · rw [heq] at hnow
          cases hnow
        · rw [heq] at hnow
          cases hnow
        · rw [heq] at hnow
          exact ⟨a, j, hgap, List.mem_singleton.1 hnow⟩
      · exact ih (fun i hi => horder i (List.mem_cons_of_mem _ hi)) (arrive_kept hj h) hlater

variable {α : Type*} {b : Nat → Nat} {text : List α}

/-- The piece `i` of a text that is cut at the places `b`. -/
def piece (b : Nat → Nat) (text : List α) (i : Nat) : List α :=
  (text.drop (b i)).take (b (i + 1) - b i)

/-- Pieces that follow each other. -/
theorem flatMap_piece (hmono : Monotone b) (j k : Nat) :
    (List.range' j k).flatMap (piece b text) = (text.drop (b j)).take (b (j + k) - b j) := by
  induction k generalizing j with
  | zero => simp
  | succ k ih =>
      have h₁ := hmono (Nat.le_add_right j 1)
      have h₂ := hmono (Nat.le_add_right (j + 1) k)
      rw [List.range'_succ, List.flatMap_cons, ih, piece, show j + (k + 1) = j + 1 + k by omega,
        show b (j + 1 + k) - b j = b (j + 1) - b j + (b (j + 1 + k) - b (j + 1)) by omega,
        List.take_add, List.drop_drop, Nat.add_sub_cancel' h₁]

/-- What is made of the pieces with a gap. -/
theorem flatMap_gapped (hmono : Monotone b) (hzero : b 0 = 0) (hend : text.length ≤ b n)
    (hj : j ≤ n) :
    (List.range a ++ List.range' j (n - j)).flatMap (piece b text) =
      text.take (b a) ++ text.drop (b j) := by
  rw [List.flatMap_append, List.range_eq_range', flatMap_piece hmono, flatMap_piece hmono, hzero,
    List.drop_zero, Nat.zero_add, Nat.sub_zero, Nat.add_sub_cancel' hj]
  congr 1
  refine List.take_of_length_le ?_
  rw [List.length_drop]
  omega

end Labs.Pieces
