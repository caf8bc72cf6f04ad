import Labs.Base.Prog

/-!
# Programs that return an error

An attempt returns a value, or a negative number when one of its calls has failed. `andThen` is the
idiom `if ((r = x) < 0) return r;`, `onError` a cleanup before the error is returned, and `tryEach`
a loop that stops at the first error. `Ends` says at which call an attempt fails, if it does, and
the calls of a compound attempt are tried in order: the first failure of the parts is that of the
whole (`wp_and_then`, `wp_try_each`).
-/

namespace Labs.Prog

variable {σ ε α β π : Type}

/-- `if ((r = x) < 0) return r;` and then `f`. -/
def andThen (x : Prog σ ε (Except Int α)) (f : α → Prog σ ε (Except Int β)) :
    Prog σ ε (Except Int β) := do
  match ← x with
  | .error r => pure (.error r)
  | .ok a => f a

/-- A call that returns a negative number when it fails. -/
def attempt (x : Prog σ ε Int) : Prog σ ε (Except Int Unit) := do
  let r ← x
  if r < 0 then pure (.error r) else pure (.ok ())

/-- Run `cleanup` when `x` fails. -/
def onError (x : Prog σ ε (Except Int α)) (cleanup : Prog σ ε Unit) :
    Prog σ ε (Except Int α) := do
  match ← x with
  | .error r => do
      cleanup
      pure (.error r)
  | .ok a => pure (.ok a)

/-- Run `body` on the elements of a list, in order, until it fails. -/
def tryEach : List β → (β → Prog σ ε (Except Int Unit)) → Prog σ ε (Except Int Unit)
  | [], _ => pure (.ok ())
  | b :: rest, body => andThen (body b) fun _ => tryEach rest body

theorem try_each_nil (body : β → Prog σ ε (Except Int Unit)) : tryEach [] body = pure (.ok ()) :=
  rfl

theorem try_each_cons (b : β) (rest : List β) (body : β → Prog σ ε (Except Int Unit)) :
    tryEach (b :: rest) body = andThen (body b) fun _ => tryEach rest body :=
  rfl

-- loops over all pages would otherwise be unrolled when terms are compared
attribute [irreducible] tryEach

/-- `f` is the place at which the attempt fails, if it does. It ends with `I` when it succeeds and
with `R p` when it fails at `p`. -/
def Ends (f : Option π) (I : α → σ → Prop) (R : π → σ → Prop) : Except Int α → σ → Prop
  | .ok a, s => f = none ∧ I a s
  | .error r, s => r < 0 ∧ ∃ p, f = some p ∧ R p s

/-- The attempt fails at `p` when `b` holds. -/
def failsAt (b : Prop) [Decidable b] (p : π) : Option π := if b then some p else none

variable {f f' : Option π} {I I' : α → σ → Prop} {R R' : π → σ → Prop} {E : ε → σ → Prop}
  {s t : σ} {x : Prog σ ε (Except Int α)} {r : Int} {a : α}

theorem fails_at_of {b : Prop} [Decidable b] {p : π} (hb : b) : failsAt b p = some p := if_pos hb

theorem fails_at_of_not {b : Prop} [Decidable b] {p : π} (hb : ¬ b) : failsAt b p = none :=
  if_neg hb

/-- An attempt that succeeds here. -/
theorem wp_succeed (hf : f = none) (h : I a s) :
    wp (pure (.ok a) : Prog σ ε (Except Int α)) (Ends f I R) E s :=
  ⟨hf, h⟩

/-- An attempt that fails here. -/
theorem wp_fail {p : π} (hr : r < 0) (hf : f = some p) (h : R p s) :
    wp (pure (.error r) : Prog σ ε (Except Int α)) (Ends f I R) E s :=
  ⟨hr, p, hf, h⟩

theorem Ends.mono {res : Except Int α} (h : Ends f I R res s) (hI : ∀ a, I a s → I' a s)
    (hR : ∀ p, R p s → R' p s) : Ends f I' R' res s := by
  cases res with
  | ok a => exact ⟨h.1, hI a h.2⟩
  | error r =>
      obtain ⟨hr, p, hf, hp⟩ := h
      exact ⟨hr, p, hf, hR p hp⟩

/-- A call can fail at its own place only. -/
theorem Ends.mono_at {b : Prop} [Decidable b] {p : π} {res : Except Int α}
    (h : Ends (failsAt b p) I R res s) (hI : ∀ a, I a s → I' a s) (hR : R p s → R' p s) :
    Ends (failsAt b p) I' R' res s := by
  cases res with
  | ok a => exact ⟨h.1, hI a h.2⟩
  | error r =>
      obtain ⟨hr, q, hf, hq⟩ := h
      refine ⟨hr, q, hf, ?_⟩
      unfold failsAt at hf
      split at hf
      · cases hf
        exact hR hq
      · cases hf

/-- A failure of the first part is one of the whole; otherwise the second part decides. -/
theorem wp_and_then {g : α → Prog σ ε (Except Int β)} {J : β → σ → Prop}
    (hx : wp x (Ends f I R) E s) (hg : ∀ a t, I a t → wp (g a) (Ends f' J R) E t) :
    wp (andThen x g) (Ends (f.or f') J R) E s := by
  rw [andThen, wp_bind]
  refine wp_mono_ret hx fun res t ht => ?_
  cases res with
  | ok a =>
      obtain ⟨rfl, ha⟩ := ht
      rw [Option.none_or]
      exact hg a t ha
  | error r =>
      obtain ⟨hr, p, rfl, hp⟩ := ht
      rw [Option.some_or]
      exact wp_fail hr rfl hp

theorem wp_attempt {x : Prog σ ε Int} {I : Unit → σ → Prop}
    (h : wp x (fun r t => (r < 0 → ∃ p, f = some p ∧ R p t) ∧ (0 ≤ r → f = none ∧ I () t)) E s) :
    wp (attempt x) (Ends f I R) E s := by
  rw [attempt, wp_bind]
  refine wp_mono_ret h fun r t ht => ?_
  rw [wp_ite]
  refine ⟨fun hr => ?_, fun hr => ht.2 (by omega)⟩
  obtain ⟨p, hf, hp⟩ := ht.1 hr
  exact wp_fail hr hf hp

theorem wp_on_error {cleanup : Prog σ ε Unit} (hx : wp x (Ends f I R) E s)
    (hclean : ∀ p t, R p t → wp cleanup (fun _ t' => R' p t') E t) :
    wp (onError x cleanup) (Ends f I R') E s := by
  rw [onError, wp_bind]
  refine wp_mono_ret hx fun res t ht => ?_
  cases res with
  | ok a => exact ht
  | error r =>
      obtain ⟨hr, p, hf, hp⟩ := ht
      dsimp only
      rw [wp_bind]
      exact wp_mono_ret (hclean p t hp) fun _ t' ht' => wp_fail hr hf ht'

/-- A loop fails where the first of its elements fails. -/
theorem wp_try_each {l : List β} {body : β → Prog σ ε (Except Int Unit)} {fails : β → Option π}
    {I : σ → Prop} (hinit : I s)
    (hbody : ∀ b ∈ l, ∀ t, I t → wp (body b) (Ends (fails b) (fun _ t' => I t') R) E t) :
    wp (tryEach l body) (Ends (l.findSome? fails) (fun _ t' => I t') R) E s := by
  induction l generalizing s with
  | nil =>
      rw [try_each_nil]
      exact ⟨rfl, hinit⟩
  | cons b rest ih =>
      have hor : (b :: rest).findSome? fails = (fails b).or (rest.findSome? fails) := by
        rw [List.findSome?_cons]
        cases fails b <;> rfl
      rw [try_each_cons, hor]
      refine wp_and_then (hbody b List.mem_cons_self s hinit) fun _ t ht => ?_
      exact ih ht fun b' hb' => hbody b' (List.mem_cons_of_mem b hb')

/-- A loop keeps an invariant whether it fails or not. -/
theorem wp_try_each_inv {l : List β} {body : β → Prog σ ε (Except Int Unit)} {I : σ → Prop}
    (hinit : I s) (hbody : ∀ b ∈ l, ∀ t, I t → wp (body b) (fun _ t' => I t') E t) :
    wp (tryEach l body) (fun _ t' => I t') E s := by
  induction l generalizing s with
  | nil =>
      rw [try_each_nil]
      exact hinit
  | cons b rest ih =>
      rw [try_each_cons, andThen, wp_bind]
      refine wp_mono_ret (hbody b List.mem_cons_self s hinit) fun res t ht => ?_
      cases res with
      | ok _ => exact ih ht fun b' hb' => hbody b' (List.mem_cons_of_mem b hb')
      | error r => exact ht

/-- An attempt on a part of the state. -/
theorem wp_zoom_ends {τ : Type} {view : σ → τ} {update : τ → σ → σ}
    {x : Prog τ ε (Except Int α)}
    (h : wp x (Ends f (fun a u => I a (update u s)) fun p u => R p (update u s))
      (fun r u => E r (update u s)) (view s)) :
    wp (zoom view update x) (Ends f I R) E s := by
  rw [wp_zoom]
  refine wp_mono_ret h fun res u hu => ?_
  cases res with
  | ok a => exact hu
  | error r => exact hu

/-! ## Single runs -/

theorem and_then_of_ok {g : α → Prog σ ε (Except Int β)} (h : x s = .ret (.ok a) t) :
    andThen x g s = g a t := by
  rw [andThen, bind_of_ret h]

theorem and_then_of_error {g : α → Prog σ ε (Except Int β)} (h : x s = .ret (.error r) t) :
    andThen x g s = .ret (.error r) t := by
  rw [andThen, bind_of_ret h]
  rfl

/-- A loop whose body does nothing. -/
theorem try_each_of_idle {l : List β} {body : β → Prog σ ε (Except Int Unit)}
    (h : ∀ b ∈ l, body b s = .ret (.ok ()) s) : tryEach l body s = .ret (.ok ()) s := by
  induction l with
  | nil => rw [try_each_nil]; rfl
  | cons b rest ih =>
      rw [try_each_cons, and_then_of_ok (h b List.mem_cons_self)]
      exact ih fun b' hb' => h b' (List.mem_cons_of_mem b hb')

end Labs.Prog
