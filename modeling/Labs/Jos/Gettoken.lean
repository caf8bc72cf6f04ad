import Labs.Base.CArray
import Labs.Base.Words

/-!
# The tokeniser of the shell

The functions `_gettoken` and `gettoken` of `user/sh.c`. They look one token ahead: the byte behind
a word is overwritten by the call that reads the token after it, which is the call that returns the
word.
-/

namespace Labs.Jos.Gettoken

open Prog CArray Words

/-- The arrays of the shell. -/
inductive Arr where
  /-- The line that `readline` returns. -/
  | line
  /-- `argv0buf` of `runcmd`. -/
  | argv0buf
  deriving DecidableEq

/-- The arrays, and the static variables of `gettoken`. A pointer is an index of the line. -/
structure State where
  mem : Arrays Arr
  c : UInt8
  nc : UInt8
  np1 : Option Nat
  np2 : Option Nat

/-- A program of the shell. -/
abbrev TokenM (α : Type) := Prog State (Fault Arr) α

/-- Work on the arrays. -/
def onArrays {α : Type} (x : Prog (Arrays Arr) (Fault Arr) α) : TokenM α :=
  zoom State.mem (fun m s => { s with mem := m }) x

/-- `strchr(WHITESPACE, c)`, which does not find the terminator. -/
def isBlank (c : UInt8) : Bool := decide (c ∈ ascii " \t\r\n")

/-- `strchr(SYMBOLS, c)`. -/
def isSymbol (c : UInt8) : Bool := decide (c ∈ ascii "<|>&;()")

/-- `while (strchr(WHITESPACE, *s)) *s++ = 0;`. -/
def skipBlanks : Nat → Nat → Prog (Arrays Arr) (Fault Arr) Nat
  | 0, _ => exit .fuel
  | fuel + 1, s => do
      let c ← load .line s
      if isBlank c = true then
        store .line s 0
        skipBlanks fuel (s + 1)
      else
        return s

/-- `while (*s && !strchr(WHITESPACE SYMBOLS, *s)) s++;`. -/
def skipWord : Nat → Nat → Prog (Arrays Arr) (Fault Arr) Nat
  | 0, _ => exit .fuel
  | fuel + 1, s => do
      let c ← load .line s
      if c ≠ 0 ∧ ¬ (isBlank c = true ∨ isSymbol c = true) then skipWord fuel (s + 1) else return s

/-- The function `_gettoken`, which stores the two pointers at `np1` and `np2`. -/
def lookahead : Option Nat → TokenM UInt8
  | none => return 0
  | some s => do
      modify fun st => { st with np1 := none, np2 := none }
      let m ← gets State.mem
      let s ← onArrays (skipBlanks ((m .line).length + 1) s)
      let c ← onArrays (load .line s)
      if c = 0 then
        return 0
      else if isSymbol c = true then
        onArrays (store .line s 0)
        modify fun st => { st with np1 := some s, np2 := some (s + 1) }
        return c
      else
        let p2 ← onArrays (skipWord ((m .line).length + 1) s)
        modify fun st => { st with np1 := some s, np2 := some p2 }
        return byte 'w'

/-- The function `gettoken`: its result, and the pointer that it stores at `*p1`. -/
def gettoken (s : Option Nat) : TokenM (UInt8 × Option Nat) :=
  match s with
  | some s => do
      let nc ← lookahead (some s)
      modify fun st => { st with nc := nc }
      return (0, none)
  | none => do
      modify fun st => { st with c := st.nc }
      let st ← get
      let nc ← lookahead st.np2
      modify fun st => { st with nc := nc }
      let st' ← get
      return (st'.c, st.np1)

/-- `gettoken(s, 0)`, and then `n` calls of `gettoken(0, &t)`. -/
def calls : Nat → TokenM (List (UInt8 × Option Nat))
  | 0 => return []
  | n + 1 => do
      let r ← gettoken none
      let rs ← calls n
      return r :: rs

/-- The calls for one line. -/
def tokenise (s n : Nat) : TokenM (List (UInt8 × Option Nat)) := do
  let _ ← gettoken (some s)
  calls n

/-- The tokens of a line. -/
abbrev Tokens (s : List UInt8) (ts : List (Token UInt8)) : Prop := Split isBlank isSymbol s ts

/-- The code that `gettoken` returns for a token. -/
def code : Token UInt8 → UInt8
  | .symbol c => c
  | .word _ => byte 'w'

/-- The bytes of the line in front of the index that is read next have the word `w` at `p`, with a
terminator. -/
def Kept (before : List UInt8) (p : Nat) (w : List UInt8) : Prop :=
  0 ∉ w ∧ ∃ front behind, before = front ++ (w ++ 0 :: behind) ∧ p = front.length

/-- A call returned this token, or that there is none, and a pointer to the word. -/
def Answer (holds : Nat → List UInt8 → Prop) : Option (Token UInt8) → UInt8 × Option Nat → Prop
  | none, r => r.1 = 0
  | some (.symbol c), r => r.1 = c
  | some (.word w), r => r.1 = byte 'w' ∧ ∃ p, r.2 = some p ∧ holds p w

/-- What the static variables and the line say about the tokens to come, when the calls will not
change the line in `before` any more. -/
def Ready (before : List UInt8) (line : List UInt8) (nc : UInt8) (np1 np2 : Option Nat) :
    List (Token UInt8) → Prop
  | [] => nc = 0 ∧ np2 = none ∧ before <+: line
  | .symbol c :: ts =>
      nc = c ∧ np2 = some before.length ∧
        ∃ s junk, line = before ++ (s ++ 0 :: junk) ∧ 0 ∉ s ∧ Tokens s ts
  | .word w :: ts =>
      nc = byte 'w' ∧ np1 = some before.length ∧ np2 = some (before ++ w).length ∧
        ∃ s junk, line = before ++ w ++ (s ++ 0 :: junk) ∧ 0 ∉ w ∧ 0 ∉ s ∧
          (∀ c ∈ s.head?, ¬ InWord isBlank isSymbol c) ∧ Tokens s ts

/-! ## One token -/

section Lookahead

variable {before s junk w blanks : List UInt8} {ts : List (Token UInt8)} {fuel : Nat}
  {m : Arrays Arr}

theorem in_word_iff {c : UInt8} :
    InWord isBlank isSymbol c ↔ ¬ (isBlank c = true ∨ isSymbol c = true) := by
  rw [InWord, not_or, Bool.not_eq_true, Bool.not_eq_true]

theorem zero_not_blank : isBlank 0 = false := by decide

theorem wp_on_arrays {α : Type} {x : Prog (Arrays Arr) (Fault Arr) α} {Q : α → State → Prop}
    {E : Fault Arr → State → Prop} {st : State}
    (h : wp x (fun a m => Q a { st with mem := m }) (fun e m => E e { st with mem := m }) st.mem) :
    wp (onArrays x) Q E st :=
  wp_zoom.2 h

/-- The first byte behind some bytes of the line. -/
theorem wp_load_line {c : UInt8} {behind : List UInt8} {Q : UInt8 → Arrays Arr → Prop}
    {E : Fault Arr → Arrays Arr → Prop} (hline : m .line = before ++ c :: behind) (hQ : Q c m) :
    wp (load .line before.length) Q E m := by
  refine wp_load (c := c) ?_ hQ
  rw [hline, List.getElem?_append_right le_rfl, Nat.sub_self]
  rfl

/-- The blanks in front of a token are zeroed. -/
theorem skip_blanks_spec {Q : Nat → Arrays Arr → Prop} {E : Fault Arr → Arrays Arr → Prop}
    {c : UInt8} (hfuel : blanks.length < fuel) (hblanks : ∀ d ∈ blanks, isBlank d = true)
    (hc : isBlank c = false) (hline : m .line = before ++ (blanks ++ c :: junk))
    (hQ : ∀ zeros m', zeros.length = blanks.length → (∀ d ∈ zeros, d = 0) →
      m' .line = before ++ zeros ++ c :: junk → m' .argv0buf = m .argv0buf →
      Q (before ++ zeros).length m') :
    wp (skipBlanks fuel before.length) Q E m := by
  induction blanks generalizing fuel before m with
  | nil =>
      cases fuel with
      | zero => cases hfuel
      | succ fuel =>
          rw [skipBlanks, wp_bind]
          refine wp_load_line hline ?_
          rw [if_neg (by rw [hc]; decide)]
          have hend := hQ [] m rfl (by simp)
          rw [List.append_nil] at hend
          exact hend hline rfl
  | cons d blanks ih =>
      obtain ⟨hd, hrest⟩ := List.forall_mem_cons.1 hblanks
      cases fuel with
      | zero => cases hfuel
      | succ fuel =>
          rw [skipBlanks, wp_bind]
          refine wp_load_line hline ?_
          rw [if_pos hd, wp_bind]
          refine wp_store_at hline rfl ?_
          have hnext : before.length + 1 = (before ++ [0]).length := by simp
          have hsplit : before ++ 0 :: (blanks ++ c :: junk) =
              before ++ [0] ++ (blanks ++ c :: junk) := by simp
          show wp (skipBlanks fuel (before.length + 1)) Q E
            (Function.update m .line (before ++ 0 :: (blanks ++ c :: junk)))
          rw [hnext, hsplit]
          refine ih (Nat.lt_of_succ_lt_succ hfuel) hrest (Function.update_self ..) ?_
          intro zeros m' hlen hzeros hline' hother
          have hdone := hQ (0 :: zeros) m' (by rw [List.length_cons, hlen]; rfl)
            (List.forall_mem_cons.2 ⟨rfl, hzeros⟩)
          have hsame : before ++ 0 :: zeros = before ++ [0] ++ zeros := by simp
          rw [hsame] at hdone
          exact hdone hline' (hother.trans (Function.update_of_ne (by decide) _ _))

/-- The end of a word. -/
theorem skip_word_spec {Q : Nat → Arrays Arr → Prop} {E : Fault Arr → Arrays Arr → Prop}
    {c : UInt8} (hfuel : w.length < fuel) (hzero : 0 ∉ w)
    (hw : ∀ d ∈ w, InWord isBlank isSymbol d) (hc : c = 0 ∨ ¬ InWord isBlank isSymbol c)
    (hline : m .line = before ++ (w ++ c :: junk)) (hQ : Q (before ++ w).length m) :
    wp (skipWord fuel before.length) Q E m := by
  induction w generalizing fuel before with
  | nil =>
      cases fuel with
      | zero => cases hfuel
      | succ fuel =>
          rw [skipWord, wp_bind]
          refine wp_load_line hline ?_
          have hstop : ¬ (c ≠ 0 ∧ ¬ (isBlank c = true ∨ isSymbol c = true)) := by
            intro h
            rcases hc with hc | hc
            · exact h.1 hc
            · exact hc (in_word_iff.2 h.2)
          rw [if_neg hstop]
          rw [List.append_nil] at hQ
          exact hQ
  | cons d w ih =>
      obtain ⟨hd, hrest⟩ := List.forall_mem_cons.1 hw
      rw [List.mem_cons, not_or] at hzero
      cases fuel with
      | zero => cases hfuel
      | succ fuel =>
          rw [skipWord, wp_bind]
          refine wp_load_line hline ?_
          rw [if_pos ⟨Ne.symm hzero.1, in_word_iff.1 hd⟩]
          have hnext : before.length + 1 = (before ++ [d]).length := by simp
          rw [hnext]
          refine ih (Nat.lt_of_succ_lt_succ hfuel) hzero.2 hrest ?_ ?_
          · rw [hline]
            simp
          · have hsame : before ++ [d] ++ w = before ++ d :: w := by simp
            rw [hsame]
            exact hQ

/-- The byte that the line has next: the first one of the text, or the terminator. -/
theorem exists_next {P : UInt8 → Prop} (hend : P 0) (hs : ∀ c ∈ s.head?, P c) :
    ∃ c tail, s ++ 0 :: junk = c :: tail ∧ P c := by
  cases s with
  | nil => exact ⟨0, junk, rfl, hend⟩
  | cons c s => exact ⟨c, s ++ 0 :: junk, rfl, hs c rfl⟩

/-- A word that starts behind a word has a blank in front of it. -/
theorem zeros_head {zeros : List UInt8} (hlen : zeros.length = blanks.length)
    (hzeros : ∀ d ∈ zeros, d = 0) (hne : w ≠ []) (hw : ∀ c ∈ w, InWord isBlank isSymbol c)
    (hstart : ∀ c ∈ (blanks ++ (w ++ s)).head?, ¬ InWord isBlank isSymbol c) :
    zeros.head? = some 0 := by
  cases blanks with
  | nil =>
      cases w with
      | nil => exact absurd rfl hne
      | cons e w => exact absurd (hw e List.mem_cons_self) (hstart e rfl)
  | cons e blanks =>
      cases zeros with
      | nil => cases hlen
      | cons z zeros => rw [hzeros z List.mem_cons_self]; rfl

/-- The next token is read, and what is behind the last one is zeroed unless it is a word. -/
theorem lookahead_spec {st : State} {Q : UInt8 → State → Prop} {E : Fault Arr → State → Prop}
    (hline : st.mem .line = before ++ (s ++ 0 :: junk)) (hzero : 0 ∉ s) (hsplit : Tokens s ts)
    (hQ : ∀ nc more st', st'.c = st.c →
      Ready (before ++ more) (st'.mem .line) nc st'.np1 st'.np2 ts →
      ((∀ c ∈ s.head?, ¬ InWord isBlank isSymbol c) → more.head? = some 0) →
      st'.mem .argv0buf = st.mem .argv0buf → Q nc st') :
    wp (lookahead (some before.length)) Q E st := by
  obtain ⟨blanks, rest, hs, hblanks, hrest, hsplit'⟩ := split_skip hsplit
  subst hs
  rw [List.mem_append, not_or] at hzero
  -- the byte behind the blanks
  obtain ⟨c, tail, hnext, hc⟩ := @exists_next rest junk _ zero_not_blank hrest
  have hline' : st.mem .line = before ++ (blanks ++ c :: tail) := by
    rw [hline, ← hnext, List.append_assoc]
  have hroom : blanks.length < (st.mem .line).length + 1 := by
    rw [hline']
    simp only [List.length_append, List.length_cons]
    omega
  rw [lookahead, wp_bind, wp_modify, wp_bind, wp_gets, wp_bind]
  refine wp_on_arrays (skip_blanks_spec hroom hblanks hc hline' ?_)
  intro zeros m₁ hlen hzeros hline₁ hother₁
  rw [wp_bind]
  refine wp_on_arrays (wp_load_line hline₁ ?_)
  have hhead : (zeros ++ [0]).head? = some 0 := by
    cases zeros with
    | nil => rfl
    | cons z zeros => rw [hzeros z List.mem_cons_self]; rfl
  cases hsplit' with
  | nil =>
      -- the calls to come leave the terminator of the line alone
      cases hnext
      rw [if_pos rfl]
      refine hQ 0 (zeros ++ [0]) _ rfl ⟨rfl, rfl, junk, ?_⟩ (fun _ => hhead) hother₁
      simp [hline₁]
  | blank hblank _ =>
      rw [hrest _ rfl] at hblank
      cases hblank
  | @symbol d s ts hblank hsymbol hsplit' =>
      cases hnext
      rw [List.mem_cons, not_or] at hzero
      rw [if_neg (Ne.symm hzero.2.1), if_pos hsymbol, wp_bind]
      refine wp_on_arrays (wp_store_at hline₁ rfl ?_)
      rw [wp_bind]
      refine hQ c (zeros ++ [0]) _ rfl ⟨rfl, ?_, s, junk, ?_, hzero.2.2, hsplit'⟩
        (fun _ => hhead) ?_
      · simp [Nat.add_assoc]
      · show Function.update m₁ .line (before ++ zeros ++ 0 :: (s ++ 0 :: junk)) .line = _
        rw [Function.update_self]
        simp
      · show Function.update m₁ .line (before ++ zeros ++ 0 :: (s ++ 0 :: junk)) .argv0buf = _
        rw [Function.update_of_ne (by decide)]
        exact hother₁
  | @word w s ts hne hw hs hsplit' =>
      rw [List.mem_append, not_or] at hzero
      have hword : InWord isBlank isSymbol c ∧ c ≠ 0 := by
        cases w with
        | nil => exact absurd rfl hne
        | cons d w =>
            cases hnext
            exact ⟨hw c List.mem_cons_self, fun h => hzero.2.1 (h ▸ List.mem_cons_self)⟩
      -- the byte behind the word, which this call leaves as it is
      obtain ⟨d, behind, hend, hd⟩ := @exists_next s junk
        (fun d => d = 0 ∨ ¬ InWord isBlank isSymbol d) (.inl rfl) fun d hd => .inr (hs d hd)
      have hline₂ : m₁ .line = before ++ zeros ++ (w ++ d :: behind) := by
        rw [hline₁, ← hnext, ← hend, List.append_assoc w]
      have hroom₂ : w.length < (st.mem .line).length + 1 := by
        rw [hline]
        simp only [List.length_append, List.length_cons]
        omega
      rw [if_neg hword.2, if_neg (by rw [hword.1.2]; decide), wp_bind]
      refine wp_on_arrays (skip_word_spec hroom₂ hzero.2.1 hw hd hline₂ ?_)
      rw [wp_bind]
      refine hQ (byte 'w') zeros _ rfl
        ⟨rfl, rfl, rfl, s, junk, ?_, hzero.2.1, hzero.2.2, hs, hsplit'⟩
        (zeros_head hlen hzeros hne hw) hother₁
      show m₁ .line = _
      rw [hline₂, ← hend]
      simp only [List.append_assoc]

end Lookahead

/-! ## All tokens -/

section Calls

variable {before s line : List UInt8} {ts : List (Token UInt8)} {st : State}
  {E : Fault Arr → State → Prop}

/-- The state between two calls. -/
def Awaits (st : State) (before : List UInt8) (ts : List (Token UInt8)) : Prop :=
  Ready before (st.mem .line) st.nc st.np1 st.np2 ts

theorem Kept.append {p : Nat} {w : List UInt8} (h : Kept before p w) (more : List UInt8) :
    Kept (before ++ more) p w := by
  obtain ⟨hzero, front, behind, hbefore, hp⟩ := h
  exact ⟨hzero, front, behind ++ more, by rw [hbefore]; simp, hp⟩

/-- A word that is kept is a string of the line. -/
theorem Kept.holds {p : Nat} {w : List UInt8} (h : Kept before p w) (hline : before <+: line) :
    HoldsString line p w := by
  obtain ⟨hzero, front, behind, hbefore, hp⟩ := h
  obtain ⟨rest, hline⟩ := hline
  have hsplit : line = front ++ (w ++ 0 :: (behind ++ rest)) := by
    rw [← hline, hbefore]
    simp
  rw [hsplit]
  exact holds_string_behind hzero hp

theorem Answer.mono {holds holds' : Nat → List UInt8 → Prop} {t : Option (Token UInt8)}
    {r : UInt8 × Option Nat} (h : Answer holds t r) (himp : ∀ p w, holds p w → holds' p w) :
    Answer holds' t r := by
  cases t with
  | none => exact h
  | some t =>
      cases t with
      | symbol c => exact h
      | word w =>
          obtain ⟨hcode, p, hp, hheld⟩ := h
          exact ⟨hcode, p, hp, himp p w hheld⟩

/-- Between two calls, the line starts with the bytes that will not change. -/
theorem Awaits.starts (h : Awaits st before ts) : before <+: st.mem .line := by
  unfold Awaits at h
  cases ts with
  | nil => exact h.2.2
  | cons t ts =>
      cases t with
      | symbol c =>
          obtain ⟨_, _, s, junk, hline, _⟩ := h
          exact ⟨_, hline.symm⟩
      | word w =>
          obtain ⟨_, _, _, s, junk, hline, _⟩ := h
          exact ⟨_, by rw [hline, List.append_assoc]⟩

/-- The tokens to come are in the line. -/
theorem Awaits.length_le (h : Awaits st before ts) : ts.length ≤ (st.mem .line).length := by
  unfold Awaits at h
  cases ts with
  | nil => exact Nat.zero_le _
  | cons t ts =>
      rw [List.length_cons]
      cases t with
      | symbol c =>
          obtain ⟨_, _, s, junk, hline, _, hsplit⟩ := h
          have hlen := length_of_split hsplit
          rw [hline]
          simp only [List.length_append, List.length_cons]
          omega
      | word w =>
          obtain ⟨_, _, _, s, junk, hline, _, _, _, hsplit⟩ := h
          have hlen := length_of_split hsplit
          rw [hline]
          simp only [List.length_append, List.length_cons]
          omega

/-- `gettoken(s, 0)` reads the first token. -/
theorem gettoken_start {p : Nat} {Q : UInt8 × Option Nat → State → Prop}
    (hline : HoldsString (st.mem .line) p s) (hsplit : Tokens s ts)
    (hQ : ∀ before st', Awaits st' before ts → st'.mem .argv0buf = st.mem .argv0buf →
      Q (0, none) st') :
    wp (gettoken (some p)) Q E st := by
  obtain ⟨hzero, junk, hdrop⟩ := hline
  have hfront : p = ((st.mem .line).take p).length := by
    have hle : p ≤ (st.mem .line).length := by
      by_contra hlong
      rw [List.drop_eq_nil_of_le (by omega)] at hdrop
      cases s <;> cases hdrop
    rw [List.length_take]
    omega
  have hsplit' : st.mem .line = (st.mem .line).take p ++ (s ++ 0 :: junk) := by
    rw [← hdrop, List.take_append_drop]
  show wp (lookahead (some p) >>= fun nc => do
    modify fun st => { st with nc := nc }
    return (0, none)) Q E st
  rw [wp_bind, hfront]
  refine lookahead_spec hsplit' hzero hsplit ?_
  intro nc more st' _ hready _ hother
  exact hQ _ { st' with nc := nc } hready hother

/-- A call with a null pointer returns what was found before, and looks on at `np2`. -/
theorem wp_gettoken_null {Q : UInt8 × Option Nat → State → Prop}
    (h : wp (lookahead st.np2) (fun nc st' => Q (st'.c, st.np1) { st' with nc := nc }) E
      { st with c := st.nc }) : wp (gettoken none) Q E st := by
  show wp (do
    modify fun st => { st with c := st.nc }
    let st ← get
    let nc ← lookahead st.np2
    modify fun st => { st with nc := nc }
    let st' ← get
    return (st'.c, st.np1)) Q E st
  rw [wp_bind, wp_modify, wp_bind, wp_get, wp_bind]
  exact h

/-- A call returns the next token, and looks at the one behind it. -/
theorem gettoken_next {t : Token UInt8} {Q : UInt8 × Option Nat → State → Prop}
    (h : Awaits st before (t :: ts))
    (hQ : ∀ r more st', Answer (Kept (before ++ more)) (some t) r →
      Awaits st' (before ++ more) ts → st'.mem .argv0buf = st.mem .argv0buf → Q r st') :
    wp (gettoken none) Q E st := by
  refine wp_gettoken_null ?_
  cases t with
  | symbol c =>
      obtain ⟨hnc, hnp2, s, junk, hline, hzero, hsplit⟩ := h
      rw [hnp2]
      refine lookahead_spec hline hzero hsplit ?_
      intro nc more st' hc hready _ hother
      refine hQ _ more { st' with nc := nc } ?_ hready hother
      exact hc.trans hnc
  | word w =>
      obtain ⟨hnc, hnp1, hnp2, s, junk, hline, hword, hzero, hstop, hsplit⟩ := h
      rw [hnp2]
      refine lookahead_spec hline hzero hsplit ?_
      intro nc more st' hc hready hend hother
      refine hQ _ (w ++ more) { st' with nc := nc }
        ⟨hc.trans hnc, before.length, hnp1, hword, ?_⟩ ?_ hother
      · -- the byte behind the word has been zeroed
        cases more with
        | nil => cases hend hstop
        | cons z more =>
            cases hend hstop
            exact ⟨before, more, rfl, rfl⟩
      · rw [← List.append_assoc]
        exact hready

/-- When all tokens have been read, every call returns zero. -/
theorem gettoken_end {Q : UInt8 × Option Nat → State → Prop} (h : Awaits st before [])
    (hQ : ∀ r st', r.1 = 0 → Awaits st' before [] → st'.mem .argv0buf = st.mem .argv0buf →
      Q r st') : wp (gettoken none) Q E st := by
  obtain ⟨hnc, hnp2, hline⟩ := h
  refine wp_gettoken_null ?_
  have hlook : lookahead st.np2 = pure 0 := by rw [hnp2]; rfl
  rw [hlook]
  exact hQ (st.nc, st.np1) { st with c := st.nc, nc := 0 } hnc ⟨rfl, hnp2, hline⟩ rfl

theorem gettoken_spec {Q : UInt8 × Option Nat → State → Prop} (h : Awaits st before ts)
    (hQ : ∀ r more st', Answer (Kept (before ++ more)) ts.head? r →
      Awaits st' (before ++ more) ts.tail → Q r st') : wp (gettoken none) Q E st := by
  cases ts with
  | nil =>
      refine gettoken_end h fun r st' hr hready _ => hQ r [] st' hr ?_
      rw [List.append_nil]
      exact hready
  | cons t ts => exact gettoken_next h fun r more st' hr hready _ => hQ r more st' hr hready

/-- Any number of calls, each with its token, and the words are kept to the end. -/
theorem calls_spec {n : Nat} {Q : List (UInt8 × Option Nat) → State → Prop}
    (h : Awaits st before ts)
    (hQ : ∀ rs more st', Awaits st' (before ++ more) (ts.drop n) → rs.length = n →
      (∀ i < n, ∃ r, rs[i]? = some r ∧ Answer (Kept (before ++ more)) ts[i]? r) → Q rs st') :
    wp (calls n) Q E st := by
  induction n generalizing before ts st Q with
  | zero =>
      refine hQ [] [] st ?_ rfl ?_
      · rw [List.append_nil]
        exact h
      · intro i hi
        cases hi
  | succ n ih =>
      rw [calls, wp_bind]
      refine gettoken_spec h ?_
      intro r more st₁ hr hready
      rw [wp_bind]
      refine ih hready ?_
      intro rs more' st₂ hready' hlen hrs
      refine hQ (r :: rs) (more ++ more') st₂ ?_ ?_ ?_
      · rw [← List.append_assoc, ← List.drop_tail]
        exact hready'
      · rw [List.length_cons, hlen]
      · intro i hi
        rw [← List.append_assoc]
        cases i with
        | zero =>
            refine ⟨r, rfl, ?_⟩
            rw [← List.head?_eq_getElem?]
            exact hr.mono fun p w hheld => hheld.append more'
        | succ i =>
            obtain ⟨r', hr', hanswer⟩ := hrs i (by omega)
            refine ⟨r', hr', ?_⟩
            rw [← List.getElem?_tail]
            exact hanswer

/-- For every line, `gettoken` returns the tokens of its only split in order, and then zero for
ever. At any time, every word that has been returned is a string of its own at its pointer. -/
theorem gettoken_splits {p n : Nat} (hline : HoldsString (st.mem .line) p s) :
    ∃ ts, (∀ ts', Tokens s ts' ↔ ts' = ts) ∧ ∃ rs st', tokenise p n st = .ret rs st' ∧
      rs.length = n ∧
      ∀ i < n, ∃ r, rs[i]? = some r ∧ Answer (HoldsString (st'.mem .line)) ts[i]? r := by
  refine ⟨tokens isBlank isSymbol s, fun _ => split_iff, ?_⟩
  have hrun : wp (tokenise p n) (fun rs st' => rs.length = n ∧ ∀ i < n, ∃ r, rs[i]? = some r ∧
      Answer (HoldsString (st'.mem .line)) (tokens isBlank isSymbol s)[i]? r)
      (fun _ _ => False) st := by
    rw [tokenise, wp_bind]
    refine gettoken_start hline (split_tokens s) ?_
    intro before st₁ hready _
    refine calls_spec hready ?_
    intro rs more st₂ hready' hlen hrs
    refine ⟨hlen, fun i hi => ?_⟩
    obtain ⟨r, hr, hanswer⟩ := hrs i hi
    exact ⟨r, hr, hanswer.mono fun q w hheld => hheld.holds hready'.starts⟩
  obtain ⟨rs, st', hret, hlen, hrs⟩ := ret_of_wp hrun
  exact ⟨rs, st', hret, hlen, hrs⟩

/-- The shell with the line `cat<a|wc` in its array. -/
def pipeLine : State where
  mem := fun _ => ascii "cat<a|wc" ++ [0]
  c := 0
  nc := 0
  np1 := none
  np2 := none

theorem gettoken_splits_pipe : ∃ ts, (∀ ts', Tokens (ascii "cat<a|wc") ts' ↔ ts' = ts) ∧
    ∃ rs st', tokenise 0 6 pipeLine = .ret rs st' ∧ rs.length = 6 ∧
      ∀ i < 6, ∃ r, rs[i]? = some r ∧ Answer (HoldsString (st'.mem .line)) ts[i]? r :=
  gettoken_splits (holds_string_start (by decide))

end Calls

end Labs.Jos.Gettoken
