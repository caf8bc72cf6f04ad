import Labs.Base.Prog

/-!
# Programs that print through a callback

A printer hands its output to a function `putch`, one element at a time. It prints `w` when it does
the same as handing the elements of `w` over in order, whatever `putch` is and whatever state that
function works on. The rules say what a printer prints from what its parts print; `wp_of_prints` is
the rule for a callback with an invariant.
-/

namespace Labs

open Prog

/-- A program that prints elements of `β` through its callback. -/
abbrev Printer (β α : Type) : Type 1 := ∀ σ ε : Type, (β → Prog σ ε Unit) → Prog σ ε α

variable {α β γ : Type} {f : Printer β α} {w : List β} {a : α}

/-- The printer hands the elements of `w` over and returns `a`. -/
def Prints (f : Printer β α) (w : List β) (a : α) : Prop :=
  ∀ (σ ε : Type) (putch : β → Prog σ ε Unit), f σ ε putch = do { forEach w putch; return a }

/-- The callback that keeps what it is given. -/
def collect (c : β) : Prog (List β) Empty Unit := modify fun w => w ++ [c]

/-- What a printer prints. -/
def printed (f : Printer β α) : List β := (f (List β) Empty collect []).state

theorem prints_pure (a : α) : Prints (β := β) (fun _ _ _ => pure a) [] a :=
  fun _ _ _ => rfl

theorem prints_each (w : List β) : Prints (fun _ _ putch => forEach w putch) w () := by
  intro σ ε putch
  exact (bind_pure _).symm

theorem prints_put (c : β) : Prints (fun _ _ putch => putch c) [c] () := by
  intro σ ε putch
  show putch c = (putch c >>= fun _ => pure ()) >>= fun _ => pure ()
  rw [bind_pure, bind_pure]

/-- What the first part prints comes before what the second part prints. -/
theorem Prints.bind {g : α → Printer β γ} {w' : List β} {b : γ} (hf : Prints f w a)
    (hg : Prints (g a) w' b) :
    Prints (fun σ ε putch => f σ ε putch >>= fun x => g x σ ε putch) (w ++ w') b := by
  intro σ ε putch
  dsimp only
  rw [hf, bind_assoc, for_each_append, bind_assoc]
  simp only [pure_bind]
  rw [hg]

/-- One printer after the other, which does not look at the result of the first. -/
theorem Prints.seq {g : Printer β γ} {w' : List β} {b : γ} (hf : Prints f w a)
    (hg : Prints g w' b) :
    Prints (fun σ ε putch => f σ ε putch >>= fun _ => g σ ε putch) (w ++ w') b :=
  Prints.bind (g := fun _ => g) hf hg

/-- A result that is returned behind the output. -/
theorem Prints.return {b : γ} (hf : Prints f w a) :
    Prints (fun σ ε putch => f σ ε putch >>= fun _ => pure b) w b := by
  have h := Prints.seq hf (prints_pure b)
  rwa [List.append_nil] at h

/-- One element, and the rest. -/
theorem Prints.cons {g : Printer β γ} {w' : List β} {b : γ} {c : β} (hg : Prints g w' b) :
    Prints (fun σ ε putch => putch c >>= fun _ => g σ ε putch) (c :: w') b :=
  Prints.seq (prints_put c) hg

/-- The collecting callback adds the elements that it is given. -/
theorem collect_each (w done : List β) : forEach w collect done = .ret () (done ++ w) := by
  induction w generalizing done with
  | nil =>
      rw [List.append_nil]
      rfl
  | cons c w ih =>
      have hstep : forEach (c :: w) collect done = forEach w collect (done ++ [c]) := rfl
      rw [hstep, ih, List.append_assoc, List.singleton_append]

/-- A printer prints one text only, the one that the collecting callback keeps. -/
theorem Prints.printed (hf : Prints f w a) : printed f = w := by
  unfold Labs.printed
  rw [hf, bind_of_ret (collect_each w []), List.nil_append]
  rfl

section Callback

variable {σ ε : Type} {putch : β → Prog σ ε Unit} {I : List β → σ → Prop} {E : ε → σ → Prop}
  {s : σ}

/-- An invariant over what has been handed over so far. -/
theorem wp_each_so_far {done : List β} (hinit : I done s)
    (hstep : ∀ done' c t, I done' t → wp (putch c) (fun _ t' => I (done' ++ [c]) t') E t) :
    wp (forEach w putch) (fun _ t => I (done ++ w) t) E s := by
  induction w generalizing done s with
  | nil =>
      rw [List.append_nil]
      exact hinit
  | cons c w ih =>
      rw [forEach, wp_bind]
      refine wp_mono_ret (hstep done c s hinit) fun _ t ht => ?_
      have hrest := ih ht
      rwa [List.append_assoc, List.singleton_append] at hrest

/-- A printer establishes the invariant of its callback for all that it prints. -/
theorem wp_of_prints (hf : Prints f w a) (hinit : I [] s)
    (hstep : ∀ done c t, I done t → wp (putch c) (fun _ t' => I (done ++ [c]) t') E t) :
    wp (f σ ε putch) (fun r t => r = a ∧ I w t) E s := by
  rw [hf, wp_bind]
  refine wp_mono_ret (wp_each_so_far hinit hstep) fun _ t ht => ?_
  exact ⟨rfl, ht⟩

end Callback

end Labs
