import Mathlib.Data.Nat.Notation

/-!
# State programs that may leave without returning

`Prog σ ε α` is a deterministic program over states `σ`. It either returns a value of
type `α`, or leaves for good with a reason of type `ε`: a panic, a context switch, a halt.
`wp` is its weakest precondition, with one postcondition for each way to end, and `Keeps`
says that a program relates every start state to its end states. The rules of this file are
the only ones the proofs about programs unfold.
-/

namespace Labs

/-- How a program over states `σ` ends. -/
inductive Outcome (σ ε α : Type) where
  | ret (value : α) (state : σ)
  | exit (reason : ε) (state : σ)

/-- The state in which a program ends, whichever way it ends. -/
def Outcome.state {σ ε α : Type} : Outcome σ ε α → σ
  | .ret _ s => s
  | .exit _ s => s

/-- The value that a program returned, if it did. -/
def Outcome.returned {σ ε α : Type} : Outcome σ ε α → Option α
  | .ret a _ => some a
  | .exit _ _ => none

/-- A program over states `σ` with results `α` and exit reasons `ε`. -/
def Prog (σ ε α : Type) : Type := σ → Outcome σ ε α

namespace Prog

variable {σ ε α β : Type}

instance : Monad (Prog σ ε) where
  pure a := fun s => .ret a s
  bind x f := fun s =>
    match x s with
    | .ret a s' => f a s'
    | .exit e s' => .exit e s'

/-- Read the state. -/
def get : Prog σ ε σ := fun s => .ret s s

/-- Read a function of the state. -/
def gets (f : σ → α) : Prog σ ε α := fun s => .ret (f s) s

/-- Update the state. -/
def modify (f : σ → σ) : Prog σ ε Unit := fun s => .ret () (f s)

/-- Leave for good. -/
def exit (e : ε) : Prog σ ε α := fun s => .exit e s

/-- Run a program on a part of the state. -/
def zoom {τ : Type} (view : σ → τ) (update : τ → σ → σ) (x : Prog τ ε α) : Prog σ ε α := fun s =>
  match x (view s) with
  | .ret a t => .ret a (update t s)
  | .exit e t => .exit e (update t s)

/-- Run `f` when `x` leaves. -/
def rescue {ε' : Type} (x : Prog σ ε α) (f : ε → Prog σ ε' α) : Prog σ ε' α := fun s =>
  match x s with
  | .ret a t => .ret a t
  | .exit e t => f e t

instance : LawfulMonad (Prog σ ε) :=
  LawfulMonad.mk' _
    (fun x => by
      funext s
      show (match x s with | .ret a t => Outcome.ret a t | .exit e t => .exit e t) = x s
      cases x s <;> rfl)
    (fun _ _ => rfl)
    (fun x f g => by
      funext s
      simp only [bind]
      cases x s <;> rfl)

/-- `for (i = 0; i < n; i++) body(i)`. -/
def forUpto : Nat → (Nat → Prog σ ε Unit) → Prog σ ε Unit
  | 0, _ => pure ()
  | n + 1, body => do
      forUpto n body
      body n

theorem for_upto_zero (body : Nat → Prog σ ε Unit) : forUpto 0 body = pure () := rfl

theorem for_upto_succ (n : Nat) (body : Nat → Prog σ ε Unit) :
    forUpto (n + 1) body = do { forUpto n body; body n } :=
  rfl

-- loops over a whole page table would otherwise be unrolled when terms are compared
attribute [irreducible] forUpto

/-- Run `body` on the elements of a list, in order. -/
def forEach : List β → (β → Prog σ ε Unit) → Prog σ ε Unit
  | [], _ => pure ()
  | b :: rest, body => do
      body b
      forEach rest body

theorem for_each_append {l l' : List β} {body : β → Prog σ ε Unit} :
    forEach (l ++ l') body = do { forEach l body; forEach l' body } := by
  induction l with
  | nil => rfl
  | cons b l ih => simp only [List.cons_append, forEach, ih, bind_assoc]

/-- The weakest precondition of `x` for the postcondition `Q` on return and `E` on exit. -/
def wp (x : Prog σ ε α) (Q : α → σ → Prop) (E : ε → σ → Prop) (s : σ) : Prop :=
  match x s with
  | .ret a s' => Q a s'
  | .exit e s' => E e s'

section Rules

variable {Q Q' : α → σ → Prop} {E E' : ε → σ → Prop} {s : σ}

@[simp] theorem wp_pure {a : α} : wp (pure a : Prog σ ε α) Q E s ↔ Q a s := Iff.rfl

@[simp] theorem wp_bind {x : Prog σ ε β} {f : β → Prog σ ε α} :
    wp (x >>= f) Q E s ↔ wp x (fun b s' => wp (f b) Q E s') E s := by
  simp only [wp, bind]
  cases x s <;> rfl

@[simp] theorem wp_map {x : Prog σ ε β} {f : β → α} :
    wp (f <$> x) Q E s ↔ wp x (fun b s' => Q (f b) s') E s := by
  rw [← bind_pure_comp, wp_bind]
  rfl

@[simp] theorem wp_get {Q : σ → σ → Prop} : wp (get : Prog σ ε σ) Q E s ↔ Q s s := Iff.rfl

@[simp] theorem wp_gets {f : σ → α} : wp (gets f : Prog σ ε α) Q E s ↔ Q (f s) s := Iff.rfl

@[simp] theorem wp_modify {f : σ → σ} {Q : Unit → σ → Prop} :
    wp (modify f : Prog σ ε Unit) Q E s ↔ Q () (f s) := Iff.rfl

@[simp] theorem wp_exit {e : ε} : wp (exit e : Prog σ ε α) Q E s ↔ E e s := Iff.rfl

theorem wp_zoom {τ : Type} {view : σ → τ} {update : τ → σ → σ} {x : Prog τ ε α} :
    wp (zoom view update x) Q E s ↔
      wp x (fun a t => Q a (update t s)) (fun e t => E e (update t s)) (view s) := by
  simp only [wp, zoom]
  cases x (view s) <;> rfl

theorem wp_rescue {ε' : Type} {x : Prog σ ε α} {f : ε → Prog σ ε' α} {E' : ε' → σ → Prop} :
    wp (rescue x f) Q E' s ↔ wp x Q (fun e t => wp (f e) Q E' t) s := by
  simp only [wp, rescue]
  cases x s <;> rfl

/-- A conditional program satisfies its postcondition when the chosen branch does. -/
theorem wp_ite {p : Prop} [Decidable p] {x y : Prog σ ε α} :
    wp (if p then x else y) Q E s ↔ (p → wp x Q E s) ∧ (¬ p → wp y Q E s) := by
  by_cases h : p <;> simp [h]

/-- Consequence: weaken both postconditions. -/
theorem wp_mono {x : Prog σ ε α} (h : wp x Q E s) (hQ : ∀ a s', Q a s' → Q' a s')
    (hE : ∀ e s', E e s' → E' e s') : wp x Q' E' s := by
  revert h
  simp only [wp]
  cases x s with
  | ret a s' => exact hQ a s'
  | exit e s' => exact hE e s'

/-- Consequence when both sides have the same exit postcondition. -/
theorem wp_mono_ret {x : Prog σ ε α} (h : wp x Q E s) (hQ : ∀ a s', Q a s' → Q' a s') :
    wp x Q' E s :=
  wp_mono h hQ fun _ _ h => h

/-- Postconditions that always hold. -/
theorem wp_of_forall {x : Prog σ ε α} (hQ : ∀ a s', Q a s') (hE : ∀ e s', E e s') :
    wp x Q E s := by
  unfold wp
  cases x s with
  | ret a s' => exact hQ a s'
  | exit e s' => exact hE e s'

/-- Two postconditions established separately hold together. -/
theorem wp_and {x : Prog σ ε α} (h : wp x Q E s) (h' : wp x Q' E' s) :
    wp x (fun a s' => Q a s' ∧ Q' a s') (fun e s' => E e s' ∧ E' e s') s := by
  revert h h'
  simp only [wp]
  cases x s <;> exact fun h h' => ⟨h, h'⟩

/-- A property of the final state, however the program ends. -/
theorem state_of_wp {x : Prog σ ε α} {P : σ → Prop}
    (h : wp x (fun _ t => P t) (fun _ t => P t) s) : P (x s).state := by
  unfold wp at h
  cases hx : x s with
  | ret a t =>
      rw [hx] at h
      exact h
  | exit e t =>
      rw [hx] at h
      exact h

/-- The postconditions of a program that is known to return. -/
theorem wp_of_ret {x : Prog σ ε α} {a : α} {s' : σ} (h : x s = .ret a s') :
    wp x Q E s ↔ Q a s' := by
  simp [wp, h]

/-- The postconditions of a program that is known to leave. -/
theorem wp_of_exit {x : Prog σ ε α} {e : ε} {s' : σ} (h : x s = .exit e s') :
    wp x Q E s ↔ E e s' := by
  simp [wp, h]

/-- A program that never returns leaves in a state that satisfies its exit postcondition. -/
theorem exit_of_wp {x : Prog σ ε α} (h : wp x (fun _ _ => False) E s) :
    ∃ e s', x s = .exit e s' ∧ E e s' := by
  revert h
  simp only [wp]
  cases hx : x s with
  | ret a s' => exact False.elim
  | exit e s' => exact fun h => ⟨e, s', rfl, h⟩

/-- A program that never leaves returns in a state that satisfies its postcondition. -/
theorem ret_of_wp {x : Prog σ ε α} (h : wp x Q (fun _ _ => False) s) :
    ∃ a s', x s = .ret a s' ∧ Q a s' := by
  revert h
  simp only [wp]
  cases hx : x s with
  | ret a s' => exact fun h => ⟨a, s', rfl, h⟩
  | exit e s' => exact False.elim

/-- A program that returned a value, in the state in which it ended. -/
theorem ret_of_returned {x : Prog σ ε α} {a : α} (h : (x s).returned = some a) :
    x s = .ret a (x s).state := by
  revert h
  cases x s with
  | ret b s' =>
      intro h
      rw [Option.some.inj h]
      rfl
  | exit e s' =>
      intro h
      cases h

/-- The result of a program, kept beside its postcondition. -/
theorem wp_result {x : Prog σ ε α} (h : wp x Q E s) :
    wp x (fun a s' => Q a s' ∧ x s = .ret a s') E s := by
  revert h
  simp only [wp]
  cases hx : x s with
  | ret a s' => exact fun h => ⟨h, rfl⟩
  | exit e s' => exact id

/-- What follows a program that is known to return. -/
theorem bind_of_ret {x : Prog σ ε β} {f : β → Prog σ ε α} {b : β} {t : σ} (h : x s = .ret b t) :
    (x >>= f) s = f b t := by
  simp only [bind, h]

/-- The result of a program that is known to return, under a function. -/
theorem map_of_ret {x : Prog σ ε β} {f : β → α} {b : β} {t : σ} (h : x s = .ret b t) :
    (f <$> x) s = .ret (f b) t := by
  rw [← bind_pure_comp, bind_of_ret h]
  rfl

/-- What follows a read of the state. -/
theorem get_bind {f : σ → Prog σ ε α} : ((get : Prog σ ε σ) >>= f) s = f s s := rfl

/-- What follows a read of a function of the state. -/
theorem gets_bind {g : σ → β} {f : β → Prog σ ε α} :
    ((gets g : Prog σ ε β) >>= f) s = f (g s) s := rfl

/-- What follows an update of the state. -/
theorem modify_bind {g : σ → σ} {f : Unit → Prog σ ε α} : (modify g >>= f) s = f () (g s) := rfl

/-- Nothing follows a program that is known to leave. -/
theorem bind_of_exit {x : Prog σ ε β} {f : β → Prog σ ε α} {e : ε} {t : σ}
    (h : x s = .exit e t) : (x >>= f) s = .exit e t := by
  simp only [bind, h]

/-- A loop establishes an invariant that its body advances by one. -/
theorem wp_for_upto {n : Nat} {body : Nat → Prog σ ε Unit} {I : Nat → σ → Prop}
    (hinit : I 0 s)
    (hstep : ∀ i < n, ∀ t, I i t → wp (body i) (fun _ t' => I (i + 1) t') E t) :
    wp (forUpto n body) (fun _ s' => I n s') E s := by
  induction n with
  | zero =>
      rw [for_upto_zero]
      exact hinit
  | succ n ih =>
      rw [for_upto_succ, wp_bind]
      exact wp_mono_ret (ih fun i hi => hstep i (Nat.lt_succ_of_lt hi))
        fun _ t ht => hstep n (Nat.lt_succ_self n) t ht

/-- A loop over a list establishes an invariant that its body keeps. -/
theorem wp_for_each {l : List β} {body : β → Prog σ ε Unit} {I : σ → Prop} (hinit : I s)
    (hstep : ∀ b ∈ l, ∀ t, I t → wp (body b) (fun _ t' => I t') E t) :
    wp (forEach l body) (fun _ s' => I s') E s := by
  induction l generalizing s with
  | nil => exact hinit
  | cons b rest ih =>
      rw [forEach, wp_bind]
      refine wp_mono_ret (hstep b List.mem_cons_self s hinit) fun _ t ht => ?_
      exact ih ht fun b' hb' => hstep b' (List.mem_cons_of_mem b hb')

end Rules

section Keeps

variable {R : σ → σ → Prop} {E : σ → ε → σ → Prop}

/-- `x` relates its start state to every state in which it returns by `R`, and to every state in
which it leaves by `E`. -/
def Keeps (R : σ → σ → Prop) (E : σ → ε → σ → Prop) (x : Prog σ ε α) : Prop :=
  ∀ s, wp x (fun _ s' => R s s') (fun e s' => E s e s') s

/-- Relations that may be kept by parts of a program one after the other: `R` is a preorder and
absorbed by `E` on the left. -/
class Composes (R : σ → σ → Prop) (E : σ → ε → σ → Prop) : Prop where
  refl (s : σ) : R s s
  trans {s t u : σ} : R s t → R t u → R s u
  absorb {s t u : σ} {e : ε} : R s t → E t e u → E s e u

/-- Weaker relations are kept by more programs. -/
theorem Keeps.imp {R' : σ → σ → Prop} {E' : σ → ε → σ → Prop} {x : Prog σ ε α}
    (h : Keeps R E x) (hR : ∀ s s', R s s' → R' s s') (hE : ∀ s e s', E s e s' → E' s e s') :
    Keeps R' E' x :=
  fun s => wp_mono (h s) (fun _ s' => hR s s') fun e s' => hE s e s'

theorem keeps_modify {f : σ → σ} (h : ∀ s, R s (f s)) :
    Keeps R E (modify f : Prog σ ε Unit) :=
  h

theorem keeps_exit {e : ε} (h : ∀ s, E s e s) : Keeps R E (exit e : Prog σ ε α) :=
  h

theorem keeps_ite {p : Prop} [Decidable p] {x y : Prog σ ε α} (hx : Keeps R E x)
    (hy : Keeps R E y) : Keeps R E (if p then x else y) := by
  split
  · exact hx
  · exact hy

section Composition

variable [Composes R E]

/-- Run `x` and then whatever follows it. -/
theorem wp_seq {x : Prog σ ε α} {f : α → Prog σ ε β} {s : σ}
    (hx : wp x (fun a t => R s t ∧ wp (f a) (fun _ u => R t u) (fun e u => E t e u) t)
      (fun e t => E s e t) s) :
    wp (x >>= f) (fun _ u => R s u) (fun e u => E s e u) s := by
  rw [wp_bind]
  refine wp_mono_ret hx fun a t ht => ?_
  exact wp_mono ht.2 (fun _ u hu => Composes.trans (E := E) ht.1 hu)
    fun _ u hu => Composes.absorb ht.1 hu

theorem keeps_pure (a : α) : Keeps R E (pure a : Prog σ ε α) :=
  fun s => Composes.refl (E := E) s

theorem keeps_get : Keeps R E (get : Prog σ ε σ) :=
  fun s => Composes.refl (E := E) s

theorem keeps_gets (f : σ → α) : Keeps R E (gets f : Prog σ ε α) :=
  fun s => Composes.refl (E := E) s

theorem keeps_bind {x : Prog σ ε α} {f : α → Prog σ ε β} (hx : Keeps R E x)
    (hf : ∀ a, Keeps R E (f a)) : Keeps R E (x >>= f) := by
  intro s
  refine wp_seq (wp_mono_ret (hx s) fun a t hst => ?_)
  exact ⟨hst, hf a t⟩

theorem keeps_for_upto {body : Nat → Prog σ ε Unit} (hbody : ∀ i, Keeps R E (body i))
    (n : Nat) : Keeps R E (forUpto n body) := by
  induction n with
  | zero =>
      rw [for_upto_zero]
      exact keeps_pure ()
  | succ n ih =>
      rw [for_upto_succ]
      exact keeps_bind ih fun _ => hbody n

theorem keeps_for_each {body : β → Prog σ ε Unit} (hbody : ∀ b, Keeps R E (body b))
    (l : List β) : Keeps R E (forEach l body) := by
  induction l with
  | nil => exact keeps_pure ()
  | cons b rest ih => exact keeps_bind (hbody b) fun _ => ih

end Composition

end Keeps

end Prog

end Labs
