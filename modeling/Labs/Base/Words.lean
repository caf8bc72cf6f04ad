import Mathlib.Data.List.Basic

/-!
# Words and symbols

A text is split into symbols and maximal words, with blanks between them. `Split` says what a split
is, and `tokens` computes the only one.
-/

namespace Labs

/-- A part of a text. -/
inductive Token (α : Type) where
  | symbol (c : α)
  | word (w : List α)
  deriving DecidableEq

namespace Words

variable {α : Type} (blank symbol : α → Bool)

/-- A character of a word. -/
def InWord (c : α) : Prop := blank c = false ∧ symbol c = false

/-- The text `s` is these tokens, with blanks between them, and every word is as long as it can
be. -/
inductive Split : List α → List (Token α) → Prop
  | nil : Split [] []
  | blank {c : α} {s : List α} {ts : List (Token α)} :
      blank c = true → Split s ts → Split (c :: s) ts
  | symbol {c : α} {s : List α} {ts : List (Token α)} :
      blank c = false → symbol c = true → Split s ts → Split (c :: s) (.symbol c :: ts)
  | word {w s : List α} {ts : List (Token α)} :
      w ≠ [] → (∀ c ∈ w, InWord blank symbol c) → (∀ c ∈ s.head?, ¬ InWord blank symbol c) →
      Split s ts → Split (w ++ s) (.word w :: ts)

/-- The word that has been read, if there is one. -/
def flush : List α → List (Token α)
  | [] => []
  | c :: w => [.word (c :: w)]

/-- The tokens of a text, behind the word `w`. -/
def tokensFrom : List α → List α → List (Token α)
  | w, [] => flush w
  | w, c :: s =>
      if blank c = true then flush w ++ tokensFrom [] s
      else if symbol c = true then flush w ++ .symbol c :: tokensFrom [] s
      else tokensFrom (w ++ [c]) s

/-- The tokens of a text. -/
def tokens (s : List α) : List (Token α) := tokensFrom blank symbol [] s

variable {blank symbol} {w s : List α} {ts ts' : List (Token α)} {c : α}

theorem split_flush (hw : ∀ c ∈ w, InWord blank symbol c)
    (hs : ∀ c ∈ s.head?, ¬ InWord blank symbol c) (h : Split blank symbol s ts) :
    Split blank symbol (w ++ s) (flush w ++ ts) := by
  cases w with
  | nil => exact h
  | cons c w => exact .word (List.cons_ne_nil c w) hw hs h

theorem split_tokens_from (hw : ∀ c ∈ w, InWord blank symbol c) :
    Split blank symbol (w ++ s) (tokensFrom blank symbol w s) := by
  induction s generalizing w with
  | nil =>
      have hend := split_flush hw (s := []) (by simp) Split.nil
      rw [List.append_nil (flush w)] at hend
      exact hend
  | cons c s ih =>
      have hrest : Split blank symbol s (tokensFrom blank symbol [] s) := @ih [] (by simp)
      rw [tokensFrom]
      by_cases hblank : blank c = true
      · rw [if_pos hblank]
        refine split_flush hw ?_ (.blank hblank hrest)
        intro d hd hin
        cases hd
        rw [hin.1] at hblank
        cases hblank
      · rw [if_neg hblank]
        have hblank' : blank c = false := Bool.eq_false_iff.2 hblank
        by_cases hsymbol : symbol c = true
        · rw [if_pos hsymbol]
          refine split_flush hw ?_ (.symbol hblank' hsymbol hrest)
          intro d hd hin
          cases hd
          rw [hin.2] at hsymbol
          cases hsymbol
        · -- the word goes on
          rw [if_neg hsymbol]
          have hgrow : w ++ c :: s = (w ++ [c]) ++ s := by simp
          rw [hgrow]
          refine ih ?_
          intro d hd
          rcases List.mem_append.1 hd with hd | hd
          · exact hw d hd
          · rw [List.mem_singleton.1 hd]
            exact ⟨hblank', Bool.eq_false_iff.2 hsymbol⟩

/-- Every text has a split. -/
theorem split_tokens (s : List α) : Split blank symbol s (tokens blank symbol s) :=
  @split_tokens_from _ blank symbol [] s (by simp)

theorem tokens_from_word {v : List α} (hw : ∀ c ∈ w, InWord blank symbol c) :
    tokensFrom blank symbol v (w ++ s) = tokensFrom blank symbol (v ++ w) s := by
  induction w generalizing v with
  | nil => rw [List.nil_append, List.append_nil]
  | cons c w ih =>
      obtain ⟨hc, hw⟩ := List.forall_mem_cons.1 hw
      rw [List.cons_append, tokensFrom, if_neg (by rw [hc.1]; decide),
        if_neg (by rw [hc.2]; decide), ih hw, List.append_assoc]
      rfl

/-- A word ends where no character of a word follows. -/
theorem tokens_from_end (hs : ∀ c ∈ s.head?, ¬ InWord blank symbol c) :
    tokensFrom blank symbol w s = flush w ++ tokens blank symbol s := by
  cases s with
  | nil => exact (List.append_nil _).symm
  | cons c s =>
      rw [tokens, tokensFrom, tokensFrom]
      by_cases hblank : blank c = true
      · rw [if_pos hblank, if_pos hblank]
        rfl
      · rw [if_neg hblank, if_neg hblank]
        by_cases hsymbol : symbol c = true
        · rw [if_pos hsymbol, if_pos hsymbol]
          rfl
        · exact absurd ⟨Bool.eq_false_iff.2 hblank, Bool.eq_false_iff.2 hsymbol⟩ (hs c rfl)

/-- A text has one split. -/
theorem split_iff : Split blank symbol s ts ↔ ts = tokens blank symbol s := by
  constructor
  · intro h
    induction h with
    | nil => rfl
    | blank hblank _ ih =>
        rw [tokens, tokensFrom, if_pos hblank]
        exact ih
    | symbol hblank hsymbol _ ih =>
        rw [tokens, tokensFrom, if_neg (by rw [hblank]; decide), if_pos hsymbol, ih]
        rfl
    | @word w s ts hne hw hs _ ih =>
        rw [tokens, tokens_from_word hw, List.nil_append, tokens_from_end hs, ← ih]
        cases w with
        | nil => exact absurd rfl hne
        | cons c w => rfl
  · intro h
    rw [h]
    exact split_tokens s

/-- Every token takes up a character. -/
theorem length_of_split (h : Split blank symbol s ts) : ts.length ≤ s.length := by
  induction h with
  | nil => exact Nat.le_refl 0
  | blank _ _ ih => exact Nat.le_succ_of_le ih
  | symbol _ _ _ ih => exact Nat.succ_le_succ ih
  | @word w s ts hne _ _ _ ih =>
      have hpos : 0 < w.length := List.length_pos_iff.2 hne
      rw [List.length_cons, List.length_append]
      omega

/-- The symbols of a split are symbols. -/
theorem symbol_of_split (h : Split blank symbol s ts) (hc : Token.symbol c ∈ ts) :
    symbol c = true := by
  induction h with
  | nil => cases hc
  | blank _ _ ih => exact ih hc
  | symbol _ hsymbol _ ih =>
      rcases List.mem_cons.1 hc with heq | hc
      · cases heq
        exact hsymbol
      · exact ih hc
  | word _ _ _ _ ih =>
      rcases List.mem_cons.1 hc with heq | hc
      · cases heq
      · exact ih hc

/-- The blanks in front of a text. -/
theorem split_skip (h : Split blank symbol s ts) : ∃ blanks rest, s = blanks ++ rest ∧
    (∀ c ∈ blanks, blank c = true) ∧ (∀ c ∈ rest.head?, blank c = false) ∧
    Split blank symbol rest ts := by
  induction h with
  | nil => exact ⟨[], [], rfl, by simp, by simp, .nil⟩
  | @blank c s ts hblank _ ih =>
      obtain ⟨blanks, rest, hs, hblanks, hrest, hsplit⟩ := ih
      exact ⟨c :: blanks, rest, by rw [hs]; rfl, List.forall_mem_cons.2 ⟨hblank, hblanks⟩, hrest,
        hsplit⟩
  | @symbol c s ts hblank hsymbol hsplit _ =>
      refine ⟨[], c :: s, rfl, by simp, ?_, .symbol hblank hsymbol hsplit⟩
      intro d hd
      cases hd
      exact hblank
  | @word w s ts hne hw hs hsplit _ =>
      refine ⟨[], w ++ s, rfl, by simp, ?_, .word hne hw hs hsplit⟩
      cases w with
      | nil => exact absurd rfl hne
      | cons d w =>
          intro c hc
          cases hc
          exact (hw d List.mem_cons_self).1

end Words

end Labs
