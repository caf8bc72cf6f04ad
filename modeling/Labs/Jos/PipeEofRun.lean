import Labs.Jos.PipeEof
import Mathlib.Algebra.BigOperators.Ring.Finset

/-!
# No false end of file

Why `_pipeisclosed` is right when its two counters are read undisturbed, and how it goes wrong
otherwise: `fork` copies the `Fd` pages before the pages behind them.
-/

namespace Labs.Jos.PipeEof

/-! ## What the counters say -/

/-- The end of the pipe is mapped somewhere. -/
def System.HasEnd (s : System) (b : End) : Prop := ∃ e k, s.table e k = .fd b

theorem System.has_end_of_update {s : System} {e : EnvIx} {t : Table}
    (ht : ∀ k b, t k = .fd b → s.HasEnd b) (e' : EnvIx) (k : Nat) (b : End)
    (hfd : Function.update s.table e t e' k = .fd b) : s.HasEnd b := by
  by_cases he : e' = e
  · rw [he, Function.update_self] at hfd
    exact ht k b hfd
  · rw [Function.update_of_ne he] at hfd
    exact ⟨e', k, hfd⟩

theorem System.has_end_of_update_child {s : System} {child e : EnvIx} {t : Table}
    (hne : child ≠ e) (ht : ∀ k b, t k = .fd b → s.HasEnd b) (e' : EnvIx) (k : Nat) (b : End)
    (hfd : Function.update (Function.update s.table child t) e (s.table e) e' k = .fd b) :
    s.HasEnd b := by
  rw [Function.update_comm hne, Function.update_eq_self] at hfd
  exact has_end_of_update ht e' k b hfd

/-- Where the `Fd` pages of the pipe come from: all are in environments in `pipe`, or each was
mapped somewhere before the step. -/
theorem Step.source {s s' : System} {e : EnvIx} (hstep : Step s e s') (hinv : Inv s) :
    (∀ e₁ k b, s.table e₁ k = .fd b → (s.point e₁).Creating) ∨
      ∀ e' k b, s'.table e' k = .fd b → s.HasEnd b := by
  have hself (e₀ : EnvIx) (k : Nat) (b : End) (hfd : s.table e₀ k = .fd b) : s.HasEnd b :=
    ⟨e₀, k, hfd⟩
  cases hstep with
  | @call change point hcall =>
      by_cases hcreating : (s.point e).Creating
      · left
        intro e₁ k b hfd
        obtain ⟨-, halone⟩ := hinv.creating e hcreating
        by_cases he : e₁ = e
        · rw [he]
          exact hcreating
        · exact absurd hfd (halone e₁ he k b)
      · right
        refine System.has_end_of_update fun k b hfd => ?_
        obtain hpipe | ⟨k', hk'⟩ := hcall.source hfd
        · exact absurd hpipe hcreating
        · exact ⟨e, k', hk'⟩
  | loc hlocal => exact Or.inr (System.has_end_of_update (hself e))
  | pipe hat hmaker hi hfree => exact Or.inl fun e₁ k b hfd => absurd hfd (hinv.fresh hmaker e₁ k b)
  | @exofork child hat hchild =>
      have hne : child ≠ e := by
        intro heq
        rw [heq, hat] at hchild
        exact Point.noConfusion hchild
      exact Or.inr (System.has_end_of_update_child hne (hself child))
  | @copy child k hat hk hmapped =>
      right
      refine System.has_end_of_update_child (hinv.child_ne hat) fun m b hfd => ?_
      obtain ⟨-, hnew⟩ | ⟨-, hold⟩ := Table.fd_of_update hfd
      · exact ⟨e, k, hnew⟩
      · exact ⟨child, m, hold⟩
  | skip hat hk hskip => exact Or.inr (System.has_end_of_update (hself e))
  | @copied child hat =>
      exact Or.inr (System.has_end_of_update_child (hinv.child_ne hat) (hself child))
  | @start child hat hready => exact Or.inr (System.has_end_of_update (hself child))
  | destroy hlive hparent =>
      exact Or.inr (System.has_end_of_update fun k b hfd => absurd hfd (free_ne_fd b))
  | resume hlive => exact Or.inr fun e' k b hfd => ⟨e', k, hfd⟩

/-- The mappings of a page among the pages of one environment. -/
def Table.count (t : Table) (page : Slot) : Nat :=
  ((Finset.range (2 * maxfd)).filter fun k => t k = page).card

theorem System.ref_eq_sum (s : System) (page : Slot) :
    s.ref page = ∑ e, (s.table e).count page := by
  have hfiber : ∀ e : EnvIx, ((s.places page).filter fun x => x.1 = e).card =
      (s.table e).count page := by
    intro e
    refine Finset.card_bij (fun x _ => x.2) ?_ ?_ ?_
    · rintro ⟨e', k⟩ hx
      obtain ⟨hmem, rfl⟩ := Finset.mem_filter.mp hx
      obtain ⟨hk, hat⟩ := System.mem_places.mp hmem
      exact Finset.mem_filter.mpr ⟨Finset.mem_range.mpr hk, hat⟩
    · rintro ⟨e₁, k₁⟩ h₁ ⟨e₂, k₂⟩ h₂ heq
      have he₁ := (Finset.mem_filter.mp h₁).2
      have he₂ := (Finset.mem_filter.mp h₂).2
      exact Prod.ext (he₁.trans he₂.symm) heq
    · intro k hk
      obtain ⟨hlt, hat⟩ := Finset.mem_filter.mp hk
      exact ⟨(e, k), Finset.mem_filter.mpr
        ⟨System.mem_places.mpr ⟨Finset.mem_range.mp hlt, hat⟩, rfl⟩, rfl⟩
  rw [System.ref, Finset.card_eq_sum_card_fiberwise (f := Prod.fst) (t := Finset.univ)
    fun x _ => Finset.mem_coe.mpr (Finset.mem_univ x.1)]
  exact Finset.sum_congr rfl fun e _ => hfiber e

/-- What environments 0, 1 and 2 have, and what all others have. -/
def among {β : Type} (x y z w : β) (e : EnvIx) : β :=
  if e = 0 then x else if e = 1 then y else if e = 2 then z else w

/-- Three environments, and no others. -/
def three (a b c : Table × Point) (runs : EnvIx → Word) (maker : Option EnvIx) : System where
  table := among a.1 b.1 c.1 fun _ => .free
  point := among a.2 b.2 c.2 .free
  runs := runs
  maker := maker

theorem among_other {β : Type} {x y z w : β} {e : EnvIx} (h₀ : e ≠ 0) (h₁ : e ≠ 1) (h₂ : e ≠ 2) :
    among x y z w e = w := by
  rw [among, if_neg h₀, if_neg h₁, if_neg h₂]

theorem update_among_zero {β : Type} (x x' y z w : β) :
    Function.update (among x y z w) 0 x' = among x' y z w := by
  funext e
  by_cases he : e = 0
  · rw [he, Function.update_self, among, if_pos rfl]
  · rw [Function.update_of_ne he, among, among, if_neg he, if_neg he]

theorem count_free {page : Slot} (hpage : page ≠ .free) :
    Table.count (fun _ => .free) page = 0 := by
  rw [Table.count, Finset.card_eq_zero, Finset.filter_eq_empty_iff]
  exact fun k _ heq => hpage heq.symm

theorem three_ref {a b c : Table × Point} {runs : EnvIx → Word} {maker : Option EnvIx} {page : Slot}
    (hpage : page ≠ .free) : (three a b c runs maker).ref page =
      a.1.count page + b.1.count page + c.1.count page := by
  have hsub : ∑ e ∈ {0, 1, 2}, ((three a b c runs maker).table e).count page =
      ∑ e, ((three a b c runs maker).table e).count page := by
    refine Finset.sum_subset (Finset.subset_univ _) fun e _ hnot => ?_
    have hne : ¬ (e = 0 ∨ e = 1 ∨ e = 2) := by simpa using hnot
    have h₀ : ¬ e = 0 := fun h => hne (Or.inl h)
    have h₁ : ¬ e = 1 := fun h => hne (Or.inr (Or.inl h))
    have h₂ : ¬ e = 2 := fun h => hne (Or.inr (Or.inr h))
    have htable : (three a b c runs maker).table e = fun _ => .free := among_other h₀ h₁ h₂
    rw [htable]
    exact count_free hpage
  rw [System.ref_eq_sum, ← hsub, Finset.sum_insert (by decide), Finset.sum_insert (by decide),
    Finset.sum_singleton, ← Nat.add_assoc]
  rfl

theorem three_put_zero {a b c : Table × Point} {runs : EnvIx → Word} {maker : Option EnvIx}
    (t : Table) (point : Point) :
    (three a b c runs maker).put 0 t point = three (t, point) b c runs maker := by
  unfold three System.put
  rw [update_among_zero, update_among_zero]

section

variable {ok : System → EnvIx → Prop} {a b c : Table × Point} {runs : EnvIx → Word}
  {maker : Option EnvIx}

/-- The steps of environments that are not about to return that the pipe is closed meet the
condition. -/
def Lenient (ok : System → EnvIx → Prop) : Prop :=
  ∀ s e, (∀ i n settled, s.point e = .again i n true settled → n ≠ s.runs e + 1) → ok s e

/-- Steps at other points meet a lenient condition. -/
theorem Lenient.elsewhere (hok : Lenient ok) {s : System} {e : EnvIx}
    (hpoint : ∀ i n settled, s.point e ≠ .again i n true settled) : ok s e :=
  hok s e fun i n settled hat => absurd hat (hpoint i n settled)

/-- A slot that is not in use. -/
def unused : Table × Point := (fun _ => .free, .free)

/-- Environment 0 makes a system call. -/
theorem Run.call_zero {t : Table} {point point' : Point} {change : Option (Nat × Slot)}
    (hrun : Run ok (three (t, point) b c runs maker)) (hok : Lenient ok)
    (hcall : Call (three (t, point) b c runs maker) 0 change point')
    (hpoint : ∀ i n settled, point ≠ .again i n true settled) :
    Run ok (three (t.change change, point') b c (Function.update runs 0 (runs 0 + 1)) maker) := by
  have hstep := hrun.step (hok.elsewhere (e := 0) hpoint) (.call hcall)
  rw [three_put_zero] at hstep
  exact hstep

/-- Environment 0 goes on. -/
theorem Run.loc_zero {t : Table} {point point' : Point}
    (hrun : Run ok (three (t, point) b c runs maker)) (hok : ok (three (t, point) b c runs maker) 0)
    (hlocal : Local (three (t, point) b c runs maker) 0 point') :
    Run ok (three (t, point') b c runs maker) := by
  have hstep := hrun.step hok (.loc hlocal)
  rw [three_put_zero] at hstep
  exact hstep

/-- Environment 0 is interrupted again and again. -/
theorem Run.resume_zero {t : Table} {point : Point}
    (hrun : Run ok (three (t, point) b c runs maker))
    (hok : ∀ runs', ok (three (t, point) b c runs' maker) 0) (hlive : point ≠ .free)
    (times : Nat) : ∃ runs', Run ok (three (t, point) b c runs' maker) ∧
      runs' 0 = runs 0 + BitVec.ofNat 32 times := by
  induction times with
  | zero => exact ⟨runs, hrun, (BitVec.add_zero _).symm⟩
  | succ times ih =>
      obtain ⟨runs', hrun', hruns'⟩ := ih
      have hstep := hrun'.step (hok runs') (.resume (e := 0) hlive)
      refine ⟨Function.update runs' 0 (runs' 0 + 1), hstep, ?_⟩
      rw [Function.update_self, hruns', BitVec.add_assoc]
      congr 1
      exact (BitVec.ofNat_add times 1).symm

theorem pageref_zero {t : Table} {point : Point} {k : Nat} (hmapped : t k ≠ .free) :
    (three (t, point) b c runs maker).pageref 0 k =
      t.count (t k) + b.1.count (t k) + c.1.count (t k) :=
  (if_neg hmapped).trans (three_ref hmapped)

/-- `_pipeisclosed` of environment 0 for descriptor 0 finds the counters the same. -/
theorem Run.ask {t : Table} {e : End} (hrun : Run ok (three (t, .runs 0) b c runs maker))
    (hok : Lenient ok) (hfd : t 0 = .fd e) (hdata : t (0 + maxfd) = .data)
    (hcount : t.count (.fd e) + b.1.count (.fd e) + c.1.count (.fd e) =
      t.count .data + b.1.count .data + c.1.count .data) :
    ∃ runs' n count, Run ok (three (t, .again 0 n true
        ((three (t, .second 0 n true count) b c runs' maker).Settled 0)) b c runs' maker) ∧
      n = runs' 0 ∧ count = t.count (.fd e) + b.1.count (.fd e) + c.1.count (.fd e) := by
  have hopen : t 0 ≠ .free := by
    rw [hfd]
    exact Slot.noConfusion
  have hmapped : t (0 + maxfd) ≠ .free := by
    rw [hdata]
    exact Slot.noConfusion
  have hruns : Run ok (three (t, .first 0 (runs 0 + 1)) b c (Function.update runs 0 (runs 0 + 1))
      maker) := hrun.call_zero hok (.runs rfl) fun _ _ _ => Point.noConfusion
  have hfirst := hruns.loc_zero (hok.elsewhere fun _ _ _ => Point.noConfusion) (.first true rfl)
  rw [if_pos rfl, pageref_zero hopen, hfd] at hfirst
  have hret := hfirst.loc_zero (hok.elsewhere fun _ _ _ => Point.noConfusion) (.second rfl)
  rw [if_pos rfl, pageref_zero hmapped, hdata, beq_iff_eq.mpr hcount] at hret
  exact ⟨_, _, _, hret, (Function.update_self 0 (runs 0 + 1) runs).symm, rfl⟩

/-- The answer is returned once `env_runs` has gone through all its values. -/
theorem Run.answer {t : Table} {n : Word} {settled : Prop}
    (hrun : Run ok (three (t, .again 0 n true settled) b c runs maker)) (hn : n = runs 0)
    (hok : ∀ runs', ok (three (t, .again 0 n true settled) b c runs' maker) 0) :
    ∃ runs', Run ok (three (t, .returned 0 true) b c runs' maker) := by
  obtain ⟨runs', hresume, hruns'⟩ := hrun.resume_zero hok Point.noConfusion (2 ^ 32 - 1)
  have hagain := hresume.step (hok runs') (.call (e := 0) (.again rfl))
  rw [three_put_zero] at hagain
  have hwrap : n = runs' 0 + 1 := by
    rw [hruns', hn, BitVec.add_assoc]
    exact (BitVec.add_zero _).symm
  have hreturned : Run ok (three (t, .returned 0 true) b c
      (Function.update runs' 0 (runs' 0 + 1)) maker) := by
    rw [← if_pos (t := Point.returned 0 true) (e := Point.runs 0) hwrap]
    exact hagain
  exact ⟨_, hreturned⟩

/-- The pages below `k`. -/
def Table.below (t : Table) (k : Nat) : Table := fun m => if m < k then t m else .free

end

section

variable {ok : System → EnvIx → Prop}

end

end Labs.Jos.PipeEof
