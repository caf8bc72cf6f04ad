import Labs.Jos.Fork

/-!
# Copy-on-write isolates environments

What `fork` is for: each environment reads as if every page had been copied when it was forked.
`Op.Eager` states that on contents alone, and `Isolated` relates it to page tables: a page that
is mapped with `PTE_W`, and is not shared by `PTE_SHARE`, is mapped nowhere else, apart from the
moments at which `duppage` and `pgfault` are between two system calls.
-/

namespace Labs.Jos.Fork

/-! ## Eager copies -/

/-- The words that each environment would read at each page number. -/
abbrev Contents := EnvIx → Nat → Nat → Word

def Contents.setWord (a : Contents) (e : EnvIx) (n i : Nat) (word : Word) : Contents :=
  Function.update a e (Function.update (a e) n (Function.update (a e n) i word))

/-- Copy a page of `e` to the same place of `child`. -/
def Contents.copyPage (a : Contents) (e child : EnvIx) (n : Nat) : Contents :=
  Function.update a child (Function.update (a child) n (a e n))

/-- The effect of a step when `fork` copies pages eagerly. `duppage` copies the page when it maps
the child's page, or once more when it maps its own: the last copy counts. A store concerns one
environment, and so does a word that the page fault handler takes from a `PTE_SHARE` page. -/
def Op.Eager (a a' : Contents) : Op → Prop
  | .store e n i word => a' = a.setWord e n i word
  | .fetch e n i word => a' = a.setWord e n i word
  | .mapChild e child pn => a' = a.copyPage e child pn
  | .mapSelf e child pn => a' = a ∨ a' = a.copyPage e child pn
  | _ => a' = a

/-- A run with eager copies. -/
inductive EagerRun (a₀ : Contents) : List Op → Contents → Prop where
  | nil : EagerRun a₀ [] a₀
  | snoc {ops : List Op} {op : Op} {a a' : Contents} (hrun : EagerRun a₀ ops a)
      (hstep : op.Eager a a') : EagerRun a₀ (ops ++ [op]) a'

theorem Contents.set_word_of_ne (a : Contents) {e e' : EnvIx} {n n' : Nat} (i : Nat) (word : Word)
    (hne : ¬ (e' = e ∧ n' = n)) : a.setWord e n i word e' n' = a e' n' := by
  by_cases he : e' = e
  · subst he
    have hn : n' ≠ n := fun hn => hne ⟨rfl, hn⟩
    simp [setWord, hn]
  · simp [setWord, he]

theorem Contents.set_word_self (a : Contents) (e : EnvIx) (n i j : Nat) (word : Word) :
    a.setWord e n i word e n j = if j = i then word else a e n j := by
  by_cases hj : j = i
  · simp [setWord, hj]
  · simp [setWord, hj]

theorem Contents.copy_page_apply (a : Contents) (e child e' : EnvIx) (n n' : Nat) :
    a.copyPage e child n e' n' = if e' = child ∧ n' = n then a e n else a e' n' := by
  by_cases he : e' = child
  · subst he
    by_cases hn : n' = n
    · subst hn
      simp [copyPage]
    · simp [copyPage, hn]
  · simp [copyPage, he]

/-! ## Writable pages are mapped once -/

/-- Why one page may be mapped at two places, the first one writable: they are the same, or the
handler has mapped a new page at its place but not yet unmapped `PFTEMP`, or `duppage` has mapped
the page in the child but not yet again in the parent. -/
def Paired (s : Family) (e : EnvIx) (n : Nat) (e' : EnvIx) (n' : Nat) : Prop :=
  (e' = e ∧ n' = n) ∨
    (e' = e ∧ ∃ m, s.handler e = some (.mapped m) ∧ (n = m ∨ n = pftempPn) ∧
      (n' = m ∨ n' = pftempPn)) ∨
    (n' = n ∧ (s.act e).half = some (e', n))

/-- A writable page that is not shared is mapped at one place. -/
def Own (s : Family) : Prop :=
  ∀ e n p w e' n' w', s.vm.map e n = some (p, w) → hasFlag w pteW = true →
    s.vm.shared p = false → s.vm.map e' n' = some (p, w') → Paired s e n e' n'

section Own

variable {s s' : Family} {e e₁ e₂ : EnvIx} {n n₁ n₂ : Nat}

/-- Pairs are kept by steps that leave handlers and `duppage` at the moments in question. -/
theorem Paired.mono (h : Paired s e n e₂ n₂)
    (hhandler : ∀ m, s.handler e = some (.mapped m) → s'.handler e = some (.mapped m))
    (hhalf : ∀ x, (s.act e).half = some x → (s'.act e).half = some x) : Paired s' e n e₂ n₂ := by
  rcases h with hsame | ⟨he, m, hm, hn⟩ | ⟨hn, hx⟩
  · exact .inl hsame
  · exact .inr (.inl ⟨he, m, hhandler m hm, hn⟩)
  · exact .inr (.inr ⟨hn, hhalf _ hx⟩)

/-- No new entries. -/
theorem Own.fewer (h : Own s) (hmap : ∀ e n x, s'.vm.map e n = some x → s.vm.map e n = some x)
    (hshared : ∀ p, s'.vm.shared p = false → s.vm.shared p = false)
    (hpair : ∀ e n p w e' n' w', s'.vm.map e n = some (p, w) → s'.vm.map e' n' = some (p, w') →
      Paired s e n e' n' → Paired s' e n e' n') : Own s' := by
  intro e n p w e' n' w' hw hflag hp hw'
  exact hpair e n p w e' n' w' hw hw'
    (h e n p w e' n' w' (hmap _ _ _ hw) hflag (hshared p hp) (hmap _ _ _ hw'))

/-- One new entry, at page number `n₁` of `e₁`, for page `p₁`. -/
theorem Own.insert {p₁ : Nat} {w₁ : Word} (h : Own s)
    (hmap : ∀ e n, s'.vm.map e n =
      if e = e₁ ∧ n = n₁ then some (p₁, w₁) else s.vm.map e n)
    (hshared : ∀ e n p w, s.vm.map e n = some (p, w) → s'.vm.shared p = false →
      s.vm.shared p = false)
    (hpair : ∀ e n p w e' n' w', s.vm.map e n = some (p, w) → s.vm.map e' n' = some (p, w') →
      ¬ (e = e₁ ∧ n = n₁) → ¬ (e' = e₁ ∧ n' = n₁) → Paired s e n e' n' → Paired s' e n e' n')
    (hfirst : hasFlag w₁ pteW = true → s'.vm.shared p₁ = false → ∀ e n w,
      s.vm.map e n = some (p₁, w) → ¬ (e = e₁ ∧ n = n₁) → Paired s' e₁ n₁ e n)
    (hsecond : s'.vm.shared p₁ = false → ∀ e n w, s.vm.map e n = some (p₁, w) →
      hasFlag w pteW = true → ¬ (e = e₁ ∧ n = n₁) → Paired s' e n e₁ n₁) : Own s' := by
  intro e n p w e' n' w' hw hflag hp hw'
  rw [hmap] at hw hw'
  by_cases hat : e = e₁ ∧ n = n₁
  · rw [if_pos hat] at hw
    cases hw
    by_cases hat' : e' = e₁ ∧ n' = n₁
    · exact .inl ⟨hat'.1.trans hat.1.symm, hat'.2.trans hat.2.symm⟩
    · rw [if_neg hat'] at hw'
      rw [hat.1, hat.2]
      exact hfirst hflag hp e' n' w' hw' hat'
  · rw [if_neg hat] at hw
    by_cases hat' : e' = e₁ ∧ n' = n₁
    · rw [if_pos hat'] at hw'
      cases hw'
      rw [hat'.1, hat'.2]
      exact hsecond hp e n w hw hflag hat
    · rw [if_neg hat'] at hw'
      exact hpair e n p w e' n' w' hw hw' hat hat'
        (h e n p w e' n' w' hw hflag (hshared e n p w hw hp) hw')

/-- A fresh page has one mapping. -/
theorem Own.alloc {p : Nat} {perm : Word} (h : Own s) (hcount : s.vm.Counted)
    (hfree : s.vm.free p = true) (hv : s'.vm = s.vm.sysPageAlloc e₁ p n₁ perm)
    (hpair : ∀ e n e' n', Paired s e n e' n' → Paired s' e n e' n') : Own s' := by
  have hnot : ∀ e n w, s.vm.map e n ≠ some (p, w) := fun e n w => hcount.not_mapped hfree
  have hmap : ∀ e n, s'.vm.map e n =
      if e = e₁ ∧ n = n₁ then some (p, perm ||| pteP) else s.vm.map e n := by
    intro e n
    rw [hv]
    exact Vm.map_sys_page_alloc _ _ _ _ _ _ _
  refine h.insert hmap (fun e n q w hw hq => ?_)
    (fun e n q w e' n' w' _ _ _ _ => hpair e n e' n') (fun _ _ e n w hw => absurd hw (hnot e n w))
    (fun _ e n w hw => absurd hw (hnot e n w))
  have hne : q ≠ p := by
    intro heq
    rw [heq] at hw
    exact hnot e n w hw
  rwa [hv, Vm.shared_sys_page_alloc, if_neg hne] at hq

end Own

/-! ## Inside `duppage` and `pgfault` -/

/-- `duppage` makes a copy-on-write page of an entry with these permissions. -/
def Splits (w : Word) : Prop := hasFlag w pteW = true ∨ hasFlag w pteCow = true

/-- What the parent has found out about its page `pn` is still so. The page fault handler may
have given it a private copy meanwhile, but only if it was copy-on-write. While the handler is
active, `PFTEMP` says nothing. -/
def PhaseOk (map : PageMap) (handler : Option Handler) : ForkPhase → Prop
  | .scan _ => True
  | .read pn first => ∀ p w, map pn = some (p, w) → (pn = pftempPn → handler = none) →
      Splits w → Splits first
  | .perm pn perm => (hasFlag perm pteShare = true ∨ hasFlag perm pteW = false) ∧
      ∀ p w, map pn = some (p, w) → (pn = pftempPn → handler = none) → Splits w →
        hasFlag perm pteCow = true ∨ hasFlag perm pteShare = true
  | .mapped _ perm => hasFlag perm pteShare = true ∨ hasFlag perm pteW = false
  | .last => True

theorem PhaseOk.mono {map map' : PageMap} {handler handler' : Option Handler} {phase : ForkPhase}
    (h : PhaseOk map handler phase)
    (hmap : ∀ n p w, map' n = some (p, w) → (n = pftempPn → handler' = none) → Splits w →
      ∃ p' w', map n = some (p', w') ∧ (n = pftempPn → handler = none) ∧ Splits w') :
    PhaseOk map' handler' phase := by
  cases phase with
  | scan pn => trivial
  | read pn first =>
      intro p w hw hnone hsplits
      obtain ⟨p', w', hw', hnone', hsplits'⟩ := hmap pn p w hw hnone hsplits
      exact h p' w' hw' hnone' hsplits'
  | perm pn perm =>
      refine ⟨h.1, fun p w hw hnone hsplits => ?_⟩
      obtain ⟨p', w', hw', hnone', hsplits'⟩ := hmap pn p w hw hnone hsplits
      exact h.2 p' w' hw' hnone' hsplits'
  | mapped pn perm => exact h
  | last => trivial

/-- Where `pgfault` of environment `e` is: the new page is mapped at `PFTEMP` only, and holds a
part of the copy. -/
def HandlerOk (s : Family) (a : Contents) (e : EnvIx) : Handler → Prop
  | .entered n => ∀ p w, s.vm.map e n = some (p, w) → hasFlag w pteW = false
  | .copying n i => i ≤ 1024 ∧ ∃ r w, s.vm.map e pftempPn = some (r, w) ∧
      s.vm.shared r = false ∧
      (∀ e' n' w', s.vm.map e' n' = some (r, w') → e' = e ∧ n' = pftempPn) ∧
      (n ≠ pftempPn →
        (∃ q w', s.vm.map e n = some (q, w') ∧
          hasFlag w' pteW = false ∧ hasFlag w' pteCow = true) ∧
        (n ≠ uxstackPn → ∀ j < i, s.vm.mem r j = a e n j))
  | .mapped _ => True

/-- A page whose contents need not agree with the eager copy: the child's page between the two
mappings of `duppage`, while the parent may still write to it, and the pages of a child whose
parent is gone. -/
def Excused (s : Family) (e : EnvIx) (n p : Nat) : Prop :=
  (∃ e₀ w, (s.act e₀).half = some (e, n) ∧ s.vm.map e₀ n = some (p, w) ∧ hasFlag w pteW = true) ∨
    (s.act e = .embryo ∧ ∀ e₀, (s.act e₀).child ≠ some e)

/-- The pages hold what the environments would read after eager copies. -/
def Agree (s : Family) (a : Contents) : Prop :=
  ∀ e n p w, s.vm.map e n = some (p, w) → s.vm.shared p = false → n ≠ pftempPn → n ≠ uxstackPn →
    Excused s e n p ∨ ∀ i < 1024, s.vm.mem p i = a e n i

/-- The relation between page tables and eager copies, in a family that uses `fork` only. -/
structure Isolated (s : Family) (a : Contents) : Prop where
  forks : ∀ e shared child phase, s.act e = .fork shared child phase → shared = false
  own : Own s
  agree : Agree s a
  phase : ∀ e shared child phase, s.act e = .fork shared child phase →
    PhaseOk (s.vm.map e) (s.handler e) phase
  handler : ∀ e hd, s.handler e = some hd → HandlerOk s a e hd

/-! ## Other environments -/

/-- The pages that only `e` maps keep their contents, and nobody else comes to map them. -/
def Spares (v v' : Vm) (e : EnvIx) : Prop :=
  ∀ r n w, v.map e n = some (r, w) → (∀ e' n' w', v.map e' n' = some (r, w') → e' = e) →
    v'.mem r = v.mem r ∧ v'.shared r = v.shared r ∧
      ∀ e' n' w', e' ≠ e → v'.map e' n' ≠ some (r, w')

section Spares

variable {v v' : Vm} {e e₁ e₂ : EnvIx} {n₁ n₂ p : Nat} {w₁ perm : Word}

/-- No new entries, and the same contents. -/
theorem Spares.fewer (hmem : v'.mem = v.mem) (hshared : v'.shared = v.shared)
    (hmap : ∀ e n x, v'.map e n = some x → v.map e n = some x) : Spares v v' e := by
  intro r n w hw hone
  rw [hmem, hshared]
  exact ⟨rfl, rfl, fun e' n' w' hne hw' => hne (hone e' n' w' (hmap e' n' _ hw'))⟩

/-- A store through an entry of another environment. -/
theorem Spares.set_word (hne : e ≠ e₁) (hp : v.map e₁ n₁ = some (p, w₁)) (i : Nat) (word : Word) :
    Spares v (v.setWord p i word) e := by
  intro r n w hw hone
  have hrp : r ≠ p := by
    intro heq
    rw [← heq] at hp
    exact hne (hone e₁ n₁ w₁ hp).symm
  exact ⟨Function.update_of_ne hrp _ _, rfl, fun e' n' w' hne' hw' => hne' (hone e' n' w' hw')⟩

/-- One more mapping of a page of another environment, elsewhere. -/
theorem Spares.page_insert (hne : e ≠ e₁) (hp : v.map e₁ n₁ = some (p, w₁)) (n₂ : Nat)
    (perm : Word) : Spares v (v.pageInsert e₂ p n₂ perm) e := by
  intro r n w hw hone
  have hrp : r ≠ p := by
    intro heq
    rw [← heq] at hp
    exact hne (hone e₁ n₁ w₁ hp).symm
  refine ⟨?_, ?_, fun e' n' w' hne' hw' => ?_⟩
  · rw [Vm.mem_page_insert]
  · rw [Vm.shared_page_insert, if_neg fun hat => hrp hat.1]
  · rw [Vm.map_page_insert] at hw'
    split at hw'
    · cases hw'
      exact hrp rfl
    · exact hne' (hone e' n' w' hw')

/-- A fresh page. -/
theorem Spares.sys_page_alloc (hcount : v.Counted) (hfree : v.free p = true) (n₂ : Nat)
    (perm : Word) : Spares v (v.sysPageAlloc e₂ p n₂ perm) e := by
  intro r n w hw hone
  have hrp : r ≠ p := by
    intro heq
    rw [heq] at hw
    exact hcount.not_mapped hfree hw
  refine ⟨?_, ?_, fun e' n' w' hne' hw' => ?_⟩
  · rw [Vm.mem_sys_page_alloc, if_neg hrp]
  · rw [Vm.shared_sys_page_alloc, if_neg hrp]
  · rw [Vm.map_sys_page_alloc] at hw'
    split at hw'
    · cases hw'
      exact hrp rfl
    · exact hne' (hone e' n' w' hw')

end Spares

/-- The environments that do not take the step and are not being forked by it. -/
structure Others (s s' : Family) (a a' : Contents) (e₁ : EnvIx) : Prop where
  act : ∀ e, e ≠ e₁ → s'.act e = s.act e ∨ (s'.act e).child = none
  handler : ∀ e, e ≠ e₁ → s'.handler e = s.handler e
  map : ∀ e, e ≠ e₁ → (s.act e).live → s'.vm.map e = s.vm.map e
  words : ∀ e, e ≠ e₁ → (s.act e).live → a' e = a e
  spares : ∀ e, e ≠ e₁ → Spares s.vm s'.vm e

namespace Others

variable {s s' : Family} {a a' : Contents} {e e₁ : EnvIx}

/-- They are in `fork` where they were. -/
theorem phase (hothers : Others s s' a a' e₁) (h : Isolated s a) (he : e ≠ e₁) {shared : Bool}
    {child : EnvIx} {phase : ForkPhase} (hact : s'.act e = .fork shared child phase) :
    shared = false ∧ PhaseOk (s'.vm.map e) (s'.handler e) phase := by
  rcases hothers.act e he with hsame | hnone
  · rw [hsame] at hact
    have hlive : (s.act e).live := by
      rw [hact]
      trivial
    rw [hothers.handler e he, hothers.map e he hlive]
    exact ⟨h.forks e _ _ _ hact, h.phase e _ _ _ hact⟩
  · rw [hact] at hnone
    cases hnone

/-- They are in the handler where they were. -/
theorem handlerOk (hothers : Others s s' a a' e₁) (h : Isolated s a) (hkin : Kindred s)
    (he : e ≠ e₁) {hd : Handler} (hhd : s'.handler e = some hd) : HandlerOk s' a' e hd := by
  rw [hothers.handler e he] at hhd
  have hlive : (s.act e).live := by
    by_contra hdead
    rw [hkin.idle e hdead] at hhd
    cases hhd
  have hold := h.handler e hd hhd
  cases hd with
  | entered n =>
      intro p w hw
      rw [hothers.map e he hlive] at hw
      exact hold p w hw
  | copying n i =>
      obtain ⟨hi, r, w, hr, hshared, hone, hcopy⟩ := hold
      obtain ⟨hmem, hsame, hnew⟩ :=
        hothers.spares e he r pftempPn w hr fun e' n' w' hw' => (hone e' n' w' hw').1
      refine ⟨hi, r, w, ?_, hsame.trans hshared, fun e' n' w' hw' => ?_, fun hn => ?_⟩
      · rw [hothers.map e he hlive]
        exact hr
      · by_cases hee : e' = e
        · rw [hee, hothers.map e he hlive] at hw'
          exact ⟨hee, (hone e n' w' hw').2⟩
        · exact absurd hw' (hnew e' n' w' hee)
      · rw [hothers.map e he hlive, hmem, hothers.words e he hlive]
        exact hcopy hn
  | mapped n => trivial

end Others

/-- `duppage` maps pages in the child. -/
theorem Activity.child_of_half {a : Activity} {c : EnvIx} {n : Nat} (h : a.half = some (c, n)) :
    a.child = some c := by
  cases a with
  | free => cases h
  | embryo => cases h
  | user => cases h
  | fork shared child phase =>
      cases phase with
      | mapped pn perm =>
          obtain ⟨rfl, rfl⟩ := Prod.mk.inj (Option.some.inj h)
          rfl
      | scan => cases h
      | read => cases h
      | perm => cases h
      | last => cases h

/-- An environment that runs has no excuse. -/
theorem Excused.embryo {s : Family} {e : EnvIx} {n p : Nat} (h : Excused s e n p)
    (hkin : Kindred s) : s.act e = .embryo := by
  rcases h with ⟨e₀, w, hhalf, -⟩ | ⟨hemb, -⟩
  · exact hkin.child e₀ e (Activity.child_of_half hhalf)
  · exact hemb

/-- Excuses last while parents stay where they are. -/
theorem Excused.mono {s s' : Family} {e : EnvIx} {n p : Nat} (h : Excused s e n p)
    (hact : s.act e = .embryo → s'.act e = .embryo)
    (hchild : ∀ e₀, (s'.act e₀).child = some e → (s.act e₀).child = some e)
    (hhalf : ∀ e₀ w, (s.act e₀).half = some (e, n) → s.vm.map e₀ n = some (p, w) →
      hasFlag w pteW = true → (s'.act e₀).half = some (e, n) ∧ s'.vm.map e₀ n = some (p, w)) :
    Excused s' e n p := by
  rcases h with ⟨e₀, w, hx, hw, hflag⟩ | ⟨hemb, hnone⟩
  · obtain ⟨hx', hw'⟩ := hhalf e₀ w hx hw hflag
    exact .inl ⟨e₀, w, hx', hw', hflag⟩
  · exact .inr ⟨hact hemb, fun e₀ hc => hnone e₀ (hchild e₀ hc)⟩

/-- An environment that runs reads what it would read after eager copies. -/
theorem Isolated.reads {s : Family} {a : Contents} (h : Isolated s a) (hkin : Kindred s) {e : EnvIx}
    {n p : Nat} {w : Word} (hlive : (s.act e).live) (hmap : s.vm.map e n = some (p, w))
    (hshared : s.vm.shared p = false) (hpftemp : n ≠ pftempPn) (hstack : n ≠ uxstackPn) :
    ∀ i < 1024, s.vm.mem p i = a e n i := by
  refine (h.agree e n p w hmap hshared hpftemp hstack).resolve_left fun hexcused => ?_
  rw [hexcused.embryo hkin] at hlive
  exact hlive

/-- An environment in the handler runs. -/
theorem Kindred.live {s : Family} (h : Kindred s) {e : EnvIx} {hd : Handler}
    (hhandler : s.handler e = some hd) : (s.act e).live := by
  by_contra hdead
  rw [h.idle e hdead] at hhandler
  cases hhandler

/-- What is left to prove of a step of `e₁`. -/
theorem Others.isolated {s s' : Family} {a a' : Contents} {e₁ : EnvIx}
    (hothers : Others s s' a a' e₁) (h : Isolated s a) (hkin : Kindred s) (hown : Own s')
    (hagree : Agree s' a')
    (hphase : ∀ shared child phase, s'.act e₁ = .fork shared child phase →
      shared = false ∧ PhaseOk (s'.vm.map e₁) (s'.handler e₁) phase)
    (hhandler : ∀ hd, s'.handler e₁ = some hd → HandlerOk s' a' e₁ hd) : Isolated s' a' := by
  have hboth : ∀ e shared child phase, s'.act e = .fork shared child phase →
      shared = false ∧ PhaseOk (s'.vm.map e) (s'.handler e) phase := by
    intro e shared child phase hact
    by_cases he : e = e₁
    · subst he
      exact hphase shared child phase hact
    · exact hothers.phase h he hact
  refine ⟨fun e shared child phase hact => (hboth e shared child phase hact).1, hown, hagree,
    fun e shared child phase hact => (hboth e shared child phase hact).2, fun e hd hhd => ?_⟩
  by_cases he : e = e₁
  · subst he
    exact hhandler hd hhd
  · exact hothers.handlerOk h hkin he hhd

/-- A fresh page at a place where contents do not matter. -/
theorem Agree.alloc {s s' : Family} {a : Contents} {e₁ : EnvIx} {p n₁ : Nat} {perm : Word}
    (h : Agree s a) (hcount : s.vm.Counted) (hfree : s.vm.free p = true)
    (hv : s'.vm = s.vm.sysPageAlloc e₁ p n₁ perm) (hn₁ : n₁ = pftempPn ∨ n₁ = uxstackPn)
    (hexcused : ∀ e n q, n ≠ n₁ → Excused s e n q → Excused s' e n q) : Agree s' a := by
  intro e n q w hw hshared hpftemp hstack
  have hn : n ≠ n₁ := by
    intro heq
    rcases hn₁ with h₁ | h₁
    · exact hpftemp (heq.trans h₁)
    · exact hstack (heq.trans h₁)
  rw [hv, Vm.map_sys_page_alloc, if_neg fun hat => hn hat.2] at hw
  have hqp : q ≠ p := by
    intro heq
    rw [heq] at hw
    exact hcount.not_mapped hfree hw
  rw [hv, Vm.shared_sys_page_alloc, if_neg hqp] at hshared
  rw [hv, Vm.mem_sys_page_alloc, if_neg hqp]
  rcases h e n q w hw hshared hpftemp hstack with hold | hold
  · exact .inl (hexcused e n q hn hold)
  · exact .inr hold

/-! ## Stores and the page fault handler -/

/-- A step of the page fault handler of `e`. The handlers of the others and the activities stay. -/
structure Handles (s s' : Family) (e : EnvIx) (hd : Option Handler) : Prop where
  self : s'.handler e = hd
  act : s'.act = s.act
  other : ∀ e', e' ≠ e → s'.handler e' = s.handler e'

namespace Handles

variable {s s' : Family} {e e' : EnvIx} {hd : Option Handler} {n p : Nat}

theorem set (s : Family) (v : Vm) (e : EnvIx) (hd : Option Handler) :
    Handles s ((s.setVm v).setHandler e hd) e hd :=
  ⟨Function.update_self _ _ _, rfl, fun _ he => Function.update_of_ne he _ _⟩

/-- Unless the handler was between its last two calls, what was paired is paired. -/
theorem paired {e₂ : EnvIx} {n₂ : Nat} (h : Handles s s' e hd)
    (hold : ∀ m, s.handler e ≠ some (.mapped m)) (hpair : Paired s e' n e₂ n₂) :
    Paired s' e' n e₂ n₂ := by
  refine hpair.mono (fun m hm => ?_) fun x hx => by rw [h.act]; exact hx
  have he : e' ≠ e := by
    intro heq
    rw [heq] at hm
    exact hold m hm
  exact (h.other e' he).trans hm

/-- Excuses last while the writable entries of the parents do. -/
theorem excused (h : Handles s s' e hd) (hexcused : Excused s e' n p)
    (hmap : ∀ e₀ w, s.vm.map e₀ n = some (p, w) → hasFlag w pteW = true →
      s'.vm.map e₀ n = some (p, w)) : Excused s' e' n p :=
  hexcused.mono (fun hemb => by rw [h.act]; exact hemb) (fun e₀ hc => by rwa [h.act] at hc)
    fun e₀ w hx hw hflag => ⟨by rw [h.act]; exact hx, hmap e₀ w hw hflag⟩

/-- While the handler is active nothing is said about `PFTEMP`. -/
theorem ne_pftemp {hd : Handler} (h : Handles s s' e (some hd))
    (hnone : n = pftempPn → s'.handler e = none) : n ≠ pftempPn := by
  intro heq
  have hidle := hnone heq
  rw [h.self] at hidle
  cases hidle

end Handles

namespace Isolated

variable {s : Family} {a : Contents} {e child : EnvIx} {n i p q r : Nat} {w w' word : Word}

/-- A store. -/
theorem store (h : Isolated s a) (hkin : Kindred s)
    (hhandler : s.handler e = none ∨ n = uxstackPn) (hmap : s.vm.map e n = some (p, w))
    (hw : hasFlag w pteW = true) :
    Isolated (s.setVm (s.vm.setWord p i word)) (a.setWord e n i word) := by
  have hothers : Others s (s.setVm (s.vm.setWord p i word)) a (a.setWord e n i word) e :=
    ⟨fun _ _ => .inl rfl, fun _ _ => rfl, fun _ _ _ => rfl,
      fun e' he _ => Function.update_of_ne he _ _,
      fun e' he => Spares.set_word he hmap i word⟩
  have hother : ∀ q, q ≠ p → (s.vm.setWord p i word).mem q = s.vm.mem q :=
    fun q hq => Function.update_of_ne hq _ _
  have hne : uxstackPn ≠ pftempPn := by decide +kernel
  refine hothers.isolated h hkin ?_ ?_ ?_ ?_
  · exact h.own.fewer (fun _ _ _ hx => hx) (fun _ hp => hp) fun _ _ _ _ _ _ _ _ _ hpair => hpair
  · intro e' n' p' w₂ hw₂ hshared hpftemp hstack
    rcases h.agree e' n' p' w₂ hw₂ hshared hpftemp hstack with hexcused | hagree
    · exact .inl hexcused
    · by_cases hp : p' = p
      · subst hp
        rcases h.own e n p' w e' n' w₂ hmap hw hshared hw₂ with
          ⟨rfl, rfl⟩ | ⟨rfl, m, hm, hn, hn'⟩ | ⟨hn, hhalf⟩
        · refine .inr fun j hj => ?_
          show Function.update s.vm.mem p' (Function.update (s.vm.mem p') i word) p' j = _
          rw [Function.update_self, Contents.set_word_self, ← hagree j hj, Function.update_apply]
        · -- the handler itself stores on the exception stack only
          have hux : n = uxstackPn := by
            rcases hhandler with hnone | hux
            · rw [hnone] at hm
              cases hm
            · exact hux
          have hmux : m = uxstackPn := by
            rcases hn with hnm | hnp
            · exact hnm.symm.trans hux
            · exact absurd (hux.symm.trans hnp) hne
          rcases hn' with hnm | hnp
          · exact absurd (hnm.trans hmux) hstack
          · exact absurd hnp hpftemp
        · rw [hn]
          exact .inl (.inl ⟨e, w, hhalf, hmap, hw⟩)
      · refine .inr fun j hj => ?_
        have hplace : ¬ (e' = e ∧ n' = n) := by
          intro hat
          have hold : s.vm.map e' n' = some (p', w₂) := hw₂
          rw [hat.1, hat.2, hmap] at hold
          exact hp (congrArg Prod.fst (Option.some.inj hold)).symm
        rw [Contents.set_word_of_ne a i word hplace, ← hagree j hj]
        exact congrFun (hother p' hp) j
  · exact fun shared c phase hact => ⟨h.forks e shared c phase hact, h.phase e shared c phase hact⟩
  · intro hd hhd
    have hux : n = uxstackPn := by
      rcases hhandler with hnone | hux
      · rw [show s.handler e = some hd from hhd] at hnone
        cases hnone
      · exact hux
    have hold := h.handler e hd hhd
    cases hd with
    | entered m => exact hold
    | copying m j =>
        obtain ⟨hj, r, w₂, hr, hshared, hone, hcopy⟩ := hold
        have hrp : r ≠ p := by
          intro heq
          rw [← heq] at hmap
          exact hne (hux.symm.trans (hone e n w hmap).2)
        refine ⟨hj, r, w₂, hr, hshared, hone, fun hm => ?_⟩
        obtain ⟨hsrc, hwords⟩ := hcopy hm
        refine ⟨hsrc, fun hmux k hk => ?_⟩
        have hplace : ¬ (e = e ∧ m = n) := fun hat => hmux (hat.2.trans hux)
        rw [Contents.set_word_of_ne a i word hplace, ← hwords hmux k hk]
        exact congrFun (hother r hrp) k
    | mapped m => trivial

/-- The kernel starts the handler. -/
theorem fault (h : Isolated s a) (hkin : Kindred s) (hhandler : s.handler e = none)
    (hmap : ∀ p w, s.vm.map e n = some (p, w) → hasFlag w pteW = false) :
    Isolated (s.setHandler e (some (.entered n))) a := by
  have hstep : Handles s (s.setHandler e (some (.entered n))) e (some (.entered n)) :=
    Handles.set s s.vm e _
  have hold : ∀ m, s.handler e ≠ some (.mapped m) := by
    intro m hm
    rw [hhandler] at hm
    cases hm
  have hothers : Others s (s.setHandler e (some (.entered n))) a a e :=
    ⟨fun _ _ => .inl rfl, hstep.other, fun _ _ _ => rfl,
      fun _ _ _ => rfl, fun _ _ => Spares.fewer rfl rfl fun _ _ _ hx => hx⟩
  refine hothers.isolated h hkin ?_ h.agree ?_ ?_
  · exact h.own.fewer (fun _ _ _ hx => hx) (fun _ hp => hp)
      fun _ _ _ _ _ _ _ _ _ hpair => hstep.paired hold hpair
  · intro shared c phase hact
    refine ⟨h.forks e shared c phase hact, (h.phase e shared c phase hact).mono
      fun n' p' w₂ hw₂ hnone hsplits => ⟨p', w₂, hw₂, fun _ => hhandler, hsplits⟩⟩
  · intro hd hhd
    rw [hstep.self] at hhd
    cases hhd
    exact hmap

/-- `pgfault` allocates a page at `PFTEMP`. -/
theorem handlerAlloc (h : Isolated s a) (hkin : Kindred s) (hcount : s.vm.Counted)
    (hhandler : s.handler e = some (.entered n)) (hmap : s.vm.map e n = some (q, w))
    (hcow : hasFlag w pteCow = true) (hfree : s.vm.free p = true) :
    Isolated ((s.setVm (s.vm.sysPageAlloc e p pftempPn (pteU ||| pteW ||| pteP))).setHandler e
      (some (.copying n 0))) a := by
  have hstep := Handles.set s (s.vm.sysPageAlloc e p pftempPn (pteU ||| pteW ||| pteP)) e
    (some (.copying n 0))
  generalize hs : (s.setVm (s.vm.sysPageAlloc e p pftempPn (pteU ||| pteW ||| pteP))).setHandler e
    (some (.copying n 0)) = s' at hstep ⊢
  have hv : s'.vm = s.vm.sysPageAlloc e p pftempPn (pteU ||| pteW ||| pteP) := by rw [← hs]; rfl
  have hold : ∀ m, s.handler e ≠ some (.mapped m) := by
    intro m hm
    rw [hhandler] at hm
    cases hm
  have hmap' : ∀ e' n', s'.vm.map e' n' = if e' = e ∧ n' = pftempPn then
      some (p, pteU ||| pteW ||| pteP ||| pteP) else s.vm.map e' n' := by
    intro e' n'
    rw [hv]
    exact Vm.map_sys_page_alloc _ _ _ _ _ _ _
  have hothers : Others s s' a a e := by
    refine ⟨fun e' _ => .inl (congrFun hstep.act e'), hstep.other, fun e' he _ => ?_,
      fun _ _ _ => rfl, fun e' he => ?_⟩
    · funext n'
      rw [hmap', if_neg fun hat => he hat.1]
    · rw [hv]
      exact Spares.sys_page_alloc hcount hfree _ _
  refine hothers.isolated h hkin ?_ ?_ ?_ ?_
  · exact h.own.alloc hcount hfree hv fun _ _ _ _ hpair => hstep.paired hold hpair
  · refine h.agree.alloc hcount hfree hv (.inl rfl) fun e' n' q' hn' hexcused =>
      hstep.excused hexcused fun e₀ w₂ hw₂ _ => ?_
    rw [hmap', if_neg fun hat => hn' hat.2]
    exact hw₂
  · intro shared c phase hphase
    rw [hstep.act] at hphase
    refine ⟨h.forks e shared c phase hphase, (h.phase e shared c phase hphase).mono
      fun n' p' w₂ hw₂ hnone hsplits => ?_⟩
    have hn' := hstep.ne_pftemp hnone
    rw [hmap', if_neg fun hat => hn' hat.2] at hw₂
    exact ⟨p', w₂, hw₂, fun heq => absurd heq hn', hsplits⟩
  · intro hd hhd
    rw [hstep.self] at hhd
    cases hhd
    refine ⟨Nat.zero_le _, p, pteU ||| pteW ||| pteP ||| pteP, ?_, ?_, ?_, ?_⟩
    · rw [hmap', if_pos ⟨rfl, rfl⟩]
    · rw [hv, Vm.shared_sys_page_alloc, if_pos rfl]
      decide
    · intro e' n' w₂ hw₂
      rw [hmap'] at hw₂
      split at hw₂
      · assumption
      · exact absurd hw₂ (hcount.not_mapped hfree)
    · intro hn
      refine ⟨⟨q, w, ?_, h.handler e _ hhandler q w hmap, hcow⟩, fun _ j hj => ?_⟩
      · rw [hmap', if_neg fun hat => hn hat.2]
        exact hmap
      · exact absurd hj (Nat.not_lt_zero j)

/-- `memmove` copies a word. A word of a `PTE_SHARE` page is what it is at this moment. -/
theorem copy (h : Isolated s a) (hkin : Kindred s) (hhandler : s.handler e = some (.copying n i))
    (hi : i < 1024) (hsrc : s.vm.map e n = some (q, w))
    (hdst : s.vm.map e pftempPn = some (r, w')) :
    Isolated ((s.setVm (s.vm.setWord r i (s.vm.mem q i))).setHandler e
        (some (.copying n (i + 1))))
      (if s.vm.shared q then a.setWord e n i (s.vm.mem q i) else a) := by
  have hstep := Handles.set s (s.vm.setWord r i (s.vm.mem q i)) e (some (.copying n (i + 1)))
  generalize hs : (s.setVm (s.vm.setWord r i (s.vm.mem q i))).setHandler e
    (some (.copying n (i + 1))) = s' at hstep ⊢
  generalize ha : (if s.vm.shared q then a.setWord e n i (s.vm.mem q i) else a) = a'
  have hmap' : s'.vm.map = s.vm.map := by rw [← hs]; rfl
  have hshared' : s'.vm.shared = s.vm.shared := by rw [← hs]; rfl
  have hold : ∀ m, s.handler e ≠ some (.mapped m) := by
    intro m hm
    rw [hhandler] at hm
    cases hm
  have hmem : ∀ p, p ≠ r → s'.vm.mem p = s.vm.mem p := by
    intro p hp
    rw [← hs]
    exact Function.update_of_ne hp _ _
  have hnew : ∀ j, s'.vm.mem r j = if j = i then s.vm.mem q i else s.vm.mem r j := by
    intro j
    rw [← hs]
    show Function.update s.vm.mem r (Function.update (s.vm.mem r) i (s.vm.mem q i)) r j = _
    rw [Function.update_self, Function.update_apply]
  have hwords : ∀ e' n', ¬ (e' = e ∧ n' = n ∧ s.vm.shared q = true) → a' e' n' = a e' n' := by
    intro e' n' hne
    rw [← ha]
    split
    · rename_i hq
      exact a.set_word_of_ne _ _ fun hat => hne ⟨hat.1, hat.2, hq⟩
    · rfl
  obtain ⟨-, r', w₂, hr, hshared, hone, hcopy⟩ := h.handler e _ hhandler
  obtain ⟨rfl, rfl⟩ := Prod.mk.inj (Option.some.inj (hr.symm.trans hdst))
  have hothers : Others s s' a a' e := by
    refine ⟨fun e' _ => .inl (congrFun hstep.act e'), hstep.other, fun e' _ _ => congrFun hmap' e',
      fun e' he _ => funext fun n' => hwords e' n' fun hat => he hat.1, fun e' he => ?_⟩
    rw [← hs]
    exact Spares.set_word he hdst _ _
  refine hothers.isolated h hkin ?_ ?_ ?_ ?_
  · exact h.own.fewer (fun _ _ _ hx => by rwa [hmap'] at hx) (fun _ hp => by rwa [hshared'] at hp)
      fun _ _ _ _ _ _ _ _ _ hpair => hstep.paired hold hpair
  · intro e' n' p' w₃ hw₃ hp' hpftemp hstack
    rw [hmap'] at hw₃
    rw [hshared'] at hp'
    have hpr : p' ≠ r' := by
      intro heq
      rw [heq] at hw₃
      exact hpftemp (hone e' n' w₃ hw₃).2
    have hplace : ¬ (e' = e ∧ n' = n ∧ s.vm.shared q = true) := by
      rintro ⟨rfl, rfl, hq⟩
      rw [hsrc] at hw₃
      rw [(Prod.mk.inj (Option.some.inj hw₃)).1, hp'] at hq
      cases hq
    rw [hmem p' hpr, hwords e' n' hplace]
    exact (h.agree e' n' p' w₃ hw₃ hp' hpftemp hstack).imp_left fun hexcused =>
      hstep.excused hexcused fun e₀ w₄ hw₄ _ => by rw [hmap']; exact hw₄
  · intro shared c phase hphase
    rw [hstep.act] at hphase
    exact ⟨h.forks e shared c phase hphase, (h.phase e shared c phase hphase).mono
      fun n' p' w₃ hw₃ hnone hsplits => ⟨p', w₃, by rwa [hmap'] at hw₃,
        fun heq => absurd heq (hstep.ne_pftemp hnone), hsplits⟩⟩
  · intro hd hhd
    rw [hstep.self] at hhd
    cases hhd
    refine ⟨hi, r', w₂, by rw [hmap']; exact hr, by rw [hshared']; exact hshared,
      fun e' n' w₃ hw₃ => hone e' n' w₃ (by rwa [hmap'] at hw₃), fun hn => ?_⟩
    rw [hmap']
    obtain ⟨hcow, hpart⟩ := hcopy hn
    refine ⟨hcow, fun hstack j hj => ?_⟩
    rw [hnew]
    split
    · rename_i hji
      subst hji
      rw [← ha]
      split
      · rw [Contents.set_word_self, if_pos rfl]
      · rename_i hq
        exact h.reads hkin (hkin.live hhandler) hsrc (Bool.eq_false_iff.2 hq) hn hstack j hi
    · rename_i hji
      rw [hpart hstack j (by omega), ← ha]
      split
      · rw [Contents.set_word_self, if_neg hji]
      · rfl

/-- `pgfault` maps the new page in place of the old one. -/
theorem handlerMap (h : Isolated s a) (hkin : Kindred s)
    (hhandler : s.handler e = some (.copying n 1024)) (hmap : s.vm.map e pftempPn = some (r, w)) :
    Isolated ((s.setVm (s.vm.pageInsert e r n (pteU ||| pteW ||| pteP))).setHandler e
      (some (.mapped n))) a := by
  have hstep := Handles.set s (s.vm.pageInsert e r n (pteU ||| pteW ||| pteP)) e (some (.mapped n))
  generalize hs : (s.setVm (s.vm.pageInsert e r n (pteU ||| pteW ||| pteP))).setHandler e
    (some (.mapped n)) = s' at hstep ⊢
  have hv : s'.vm = s.vm.pageInsert e r n (pteU ||| pteW ||| pteP) := by rw [← hs]; rfl
  have hmem : s'.vm.mem = s.vm.mem := by rw [hv, Vm.mem_page_insert]
  have hshared' : ∀ p, s'.vm.shared p = s.vm.shared p := by
    intro p
    have hflag : hasFlag (pteU ||| pteW ||| pteP) pteShare = false := by decide
    rw [hv, Vm.shared_page_insert, if_neg fun hat => by rw [hflag] at hat; exact (by cases hat.2)]
  have hmap' : ∀ e' n', s'.vm.map e' n' = if e' = e ∧ n' = n then
      some (r, pteU ||| pteW ||| pteP ||| pteP) else s.vm.map e' n' := by
    intro e' n'
    rw [hv]
    exact Vm.map_page_insert _ _ _ _ _ _ _
  have hold : ∀ m, s.handler e ≠ some (.mapped m) := by
    intro m hm
    rw [hhandler] at hm
    cases hm
  obtain ⟨-, r', w₂, hr, hshared, hone, hcopy⟩ := h.handler e _ hhandler
  obtain ⟨rfl, rfl⟩ := Prod.mk.inj (Option.some.inj (hr.symm.trans hmap))
  have hothers : Others s s' a a e := by
    refine ⟨fun e' _ => .inl (congrFun hstep.act e'), hstep.other, fun e' he _ => ?_,
      fun _ _ _ => rfl, fun e' he => ?_⟩
    · funext n'
      rw [hmap', if_neg fun hat => he hat.1]
    · rw [hv]
      exact Spares.page_insert he hmap _ _
  refine hothers.isolated h hkin ?_ ?_ ?_ ?_
  · refine h.own.insert hmap' (fun _ _ p _ _ hp => by rwa [hshared' p] at hp)
      (fun _ _ _ _ _ _ _ _ _ _ _ hpair => hstep.paired hold hpair) ?_ ?_
    · intro _ _ e' n' w₃ hw₃ _
      obtain ⟨rfl, rfl⟩ := hone e' n' w₃ hw₃
      exact .inr (.inl ⟨rfl, n, hstep.self, .inl rfl, .inr rfl⟩)
    · intro _ e' n' w₃ hw₃ _ _
      obtain ⟨rfl, rfl⟩ := hone e' n' w₃ hw₃
      exact .inr (.inl ⟨rfl, n, hstep.self, .inr rfl, .inl rfl⟩)
  · intro e' n' p' w₃ hw₃ hp' hpftemp hstack
    rw [hmap'] at hw₃
    rw [hshared'] at hp'
    rw [hmem]
    by_cases hat : e' = e ∧ n' = n
    · rw [if_pos hat] at hw₃
      cases hw₃
      obtain ⟨rfl, rfl⟩ := hat
      exact .inr ((hcopy hpftemp).2 hstack)
    · rw [if_neg hat] at hw₃
      refine (h.agree e' n' p' w₃ hw₃ hp' hpftemp hstack).imp_left fun hexcused =>
        hstep.excused hexcused fun e₀ w₄ hw₄ hflag => ?_
      -- the entry that the handler replaces was not writable
      have hat₀ : ¬ (e₀ = e ∧ n' = n) := by
        rintro ⟨rfl, rfl⟩
        obtain ⟨⟨q₁, w₁, hw₁, hread, -⟩, -⟩ := hcopy hpftemp
        rw [hw₁] at hw₄
        cases hw₄
        rw [hread] at hflag
        cases hflag
      rw [hmap', if_neg hat₀]
      exact hw₄
  · intro shared c phase hphase
    rw [hstep.act] at hphase
    refine ⟨h.forks e shared c phase hphase, (h.phase e shared c phase hphase).mono
      fun n' p' w₃ hw₃ hnone hsplits => ?_⟩
    have hn' := hstep.ne_pftemp hnone
    by_cases hn : n' = n
    · obtain ⟨⟨q₁, w₁, hw₁, -, hcow⟩, -⟩ := hcopy (hn ▸ hn')
      rw [hn]
      exact ⟨q₁, w₁, hw₁, fun heq => absurd heq (hn ▸ hn'), .inr hcow⟩
    · rw [hmap', if_neg fun hat => hn hat.2] at hw₃
      exact ⟨p', w₃, hw₃, fun heq => absurd heq hn', hsplits⟩
  · intro hd hhd
    rw [hstep.self] at hhd
    cases hhd
    trivial

/-- `pgfault` unmaps `PFTEMP` and returns. -/
theorem handlerUnmap (h : Isolated s a) (hkin : Kindred s) :
    Isolated ((s.setVm (s.vm.pageRemove e pftempPn)).setHandler e none) a := by
  have hstep := Handles.set s (s.vm.pageRemove e pftempPn) e none
  generalize hs : (s.setVm (s.vm.pageRemove e pftempPn)).setHandler e none = s' at hstep ⊢
  have hv : s'.vm = s.vm.pageRemove e pftempPn := by rw [← hs]; rfl
  have hmem : s'.vm.mem = s.vm.mem := by rw [hv, Vm.mem_page_remove]
  have hshared : s'.vm.shared = s.vm.shared := by rw [hv, Vm.shared_page_remove]
  have hmap' : ∀ e' n', s'.vm.map e' n' = if e' = e ∧ n' = pftempPn then none
      else s.vm.map e' n' := by
    intro e' n'
    rw [hv]
    exact Vm.map_page_remove _ _ _ _ _
  have hfewer : ∀ e' n' x, s'.vm.map e' n' = some x →
      s.vm.map e' n' = some x ∧ ¬ (e' = e ∧ n' = pftempPn) := by
    intro e' n' x hx
    rw [hmap'] at hx
    split at hx
    · cases hx
    · exact ⟨hx, by assumption⟩
  have hothers : Others s s' a a e := by
    refine ⟨fun e' _ => .inl (congrFun hstep.act e'), hstep.other, fun e' he _ => ?_,
      fun _ _ _ => rfl,
      fun e' he => Spares.fewer hmem hshared fun e' n' x hx => (hfewer e' n' x hx).1⟩
    funext n'
    rw [hmap', if_neg fun hat => he hat.1]
  refine hothers.isolated h hkin ?_ ?_ ?_ ?_
  · refine h.own.fewer (fun e' n' x hx => (hfewer e' n' x hx).1)
      (fun _ hp => by rwa [hshared] at hp) fun e₁ n₁ p₁ w₁ e₂ n₂ w₂ hw₁ hw₂ hpair => ?_
    rcases hpair with hsame | ⟨rfl, m, hm, hn₁, hn₂⟩ | ⟨hn, hx⟩
    · exact .inl hsame
    · by_cases he : e₂ = e
      · -- one place of the two is left
        have h₁ := (hfewer _ _ _ hw₁).2
        have h₂ := (hfewer _ _ _ hw₂).2
        have hn₁' := hn₁.resolve_right fun hn => h₁ ⟨he, hn⟩
        have hn₂' := hn₂.resolve_right fun hn => h₂ ⟨he, hn⟩
        exact .inl ⟨rfl, hn₂'.trans hn₁'.symm⟩
      · exact .inr (.inl ⟨rfl, m, (hstep.other _ he).trans hm, hn₁, hn₂⟩)
    · exact .inr (.inr ⟨hn, by rw [hstep.act]; exact hx⟩)
  · intro e' n' p' w₃ hw₃ hp' hpftemp hstack
    rw [hmem]
    rw [hshared] at hp'
    refine (h.agree e' n' p' w₃ (hfewer _ _ _ hw₃).1 hp' hpftemp hstack).imp_left fun hexcused =>
      hstep.excused hexcused fun e₀ w₄ hw₄ _ => ?_
    rw [hmap', if_neg fun hat => hpftemp hat.2]
    exact hw₄
  · intro shared c phase hphase
    rw [hstep.act] at hphase
    refine ⟨h.forks e shared c phase hphase, (h.phase e shared c phase hphase).mono
      fun n' p' w₃ hw₃ _ hsplits => ?_⟩
    obtain ⟨hold, hn'⟩ := hfewer e n' _ hw₃
    exact ⟨p', w₃, hold, fun heq => absurd ⟨rfl, heq⟩ hn', hsplits⟩
  · intro hd hhd
    rw [hstep.self] at hhd
    cases hhd

/-- The first `set_pgfault_handler`. -/
theorem install (h : Isolated s a) (hkin : Kindred s) (hcount : s.vm.Counted)
    (hact : s.act e = .user) (hhandler : s.handler e = none) (hfree : s.vm.free p = true)
    (installed : EnvIx → Bool) (perm : Word) :
    Isolated { s.setVm (s.vm.sysPageAlloc e p uxstackPn perm) with installed := installed } a := by
  have hothers : Others s { s.setVm (s.vm.sysPageAlloc e p uxstackPn perm) with
      installed := installed } a a e := by
    refine ⟨fun _ _ => .inl rfl, fun _ _ => rfl, fun e' he _ => ?_, fun _ _ _ => rfl,
      fun e' _ => Spares.sys_page_alloc hcount hfree _ _⟩
    funext n'
    show (s.vm.sysPageAlloc e p uxstackPn perm).map e' n' = _
    rw [Vm.map_sys_page_alloc, if_neg fun hat => he hat.1]
  refine hothers.isolated h hkin ?_ ?_ ?_ ?_
  · exact h.own.alloc hcount hfree rfl fun _ _ _ _ hpair => hpair
  · refine h.agree.alloc hcount hfree rfl (.inr rfl) fun e' n' q' hn' hexcused =>
      hexcused.mono id (fun _ hc => hc) fun e₀ w₂ hx hw₂ _ => ⟨hx, ?_⟩
    show (s.vm.sysPageAlloc e p uxstackPn perm).map e₀ n' = _
    rw [Vm.map_sys_page_alloc, if_neg fun hat => hn' hat.2]
    exact hw₂
  · intro shared c phase hphase
    rw [show s.act e = .fork shared c phase from hphase] at hact
    cases hact
  · intro hd hhd
    rw [show s.handler e = some hd from hhd] at hhandler
    cases hhandler

end Isolated

end Labs.Jos.Fork
