import Labs.Jos.ForkIsolation

/-!
# `fork` copies every page

The steps of the parent in `fork`, and the run theorem: whatever a family of environments does
with `fork`, stores and copy-on-write faults, each environment reads what it would read if every
`fork` had copied all pages.
-/

namespace Labs.Jos.Fork

/-- The permissions of `duppage` keep the flags that it does not treat specially. -/
theorem has_flag_and_of_subset (w : Word) {mask flag : Word} (h : mask &&& flag = flag) :
    hasFlag (w &&& mask) flag = hasFlag w flag := by
  rw [hasFlag, hasFlag, BitVec.and_assoc, h]

theorem has_flag_and_not (w flag : Word) : hasFlag (w &&& ~~~flag) flag = false := by
  rw [hasFlag, BitVec.and_assoc, show ~~~flag &&& flag = 0#32 by simp, BitVec.and_zero]
  rfl

/-- `duppage` leaves the child a page that it may not write, unless the page is shared. -/
theorem duppage_perm_read_only (first second : Word) :
    hasFlag (duppagePerm first second) pteShare = true ∨
      hasFlag (duppagePerm first second) pteW = false := by
  unfold duppagePerm
  dsimp only
  split
  · left
    rw [has_flag_or]
    simp [show hasFlag pteShare pteShare = true by decide]
  · right
    split
    · rw [has_flag_or, has_flag_and_not]
      decide
    · exact Bool.eq_false_iff.2 (by assumption)

/-- `duppage` makes a writable or copy-on-write page copy-on-write, unless it is shared. -/
theorem duppage_perm_splits {first second : Word} (h : Splits first) :
    hasFlag (duppagePerm first second) pteCow = true ∨
      hasFlag (duppagePerm first second) pteShare = true := by
  unfold duppagePerm
  dsimp only
  split
  · right
    rw [has_flag_or]
    simp [show hasFlag pteShare pteShare = true by decide]
  · left
    split
    · rw [has_flag_or]
      simp [show hasFlag pteCow pteCow = true by decide]
    · rename_i hread
      rw [has_flag_and_of_subset _ (by decide)] at hread ⊢
      exact h.resolve_left hread

/-! ## The parent in `fork` -/

/-- A step of `e` from one place in `fork` to another. Nobody else moves. -/
structure Proceeds (s s' : Family) (e child : EnvIx) (phase phase' : ForkPhase) : Prop where
  before : s.act e = .fork false child phase
  self : s'.act e = .fork false child phase'
  other : ∀ e', e' ≠ e → s'.act e' = s.act e'

namespace Proceeds

variable {s s' : Family} {e child e' : EnvIx} {phase phase' : ForkPhase}

theorem set (hact : s.act e = .fork false child phase) (v : Vm) (phase' : ForkPhase) :
    Proceeds s ((s.setVm v).setAct e (.fork false child phase')) e child phase phase' :=
  ⟨hact, Function.update_self _ _ _, fun _ he => Function.update_of_ne he _ _⟩

theorem child_eq (h : Proceeds s s' e child phase phase') : (s.act e).child = some child := by
  rw [h.before]
  rfl

theorem live (h : Proceeds s s' e child phase phase') : (s.act e).live := by
  rw [h.before]
  trivial

/-- The child does not run. -/
theorem ne_child (h : Proceeds s s' e child phase phase') (hkin : Kindred s)
    (hlive : (s.act e').live) : e' ≠ child := by
  intro heq
  rw [heq, (hkin.embryo h.child_eq).1] at hlive
  exact hlive

theorem embryo (h : Proceeds s s' e child phase phase') (hemb : s.act e' = .embryo) :
    s'.act e' = .embryo := by
  have he : e' ≠ e := by
    intro heq
    rw [heq, h.before] at hemb
    cases hemb
  rw [h.other e' he]
  exact hemb

/-- Nobody gets another child. -/
theorem child_of {c : EnvIx} (h : Proceeds s s' e child phase phase')
    (hc : (s'.act e').child = some c) : (s.act e').child = some c := by
  by_cases he : e' = e
  · rw [he, h.self] at hc
    rw [he, h.before]
    exact hc
  · rwa [h.other e' he] at hc

/-- The parents that are between the two mappings of `duppage` stay there. -/
theorem half {x : EnvIx × Nat} (h : Proceeds s s' e child phase phase')
    (hold : (Activity.fork false child phase).half = none) (hx : (s.act e').half = some x) :
    (s'.act e').half = some x := by
  by_cases he : e' = e
  · rw [he, h.before, hold] at hx
    cases hx
  · rwa [h.other e' he]

/-- Excuses last while the parents between the two mappings stay there. -/
theorem excused {n p : Nat} (h : Proceeds s s' e child phase phase') (hexcused : Excused s e' n p)
    (hhalf : ∀ e₀ w, (s.act e₀).half = some (e', n) → s.vm.map e₀ n = some (p, w) →
      (s'.act e₀).half = some (e', n) ∧ s'.vm.map e₀ n = some (p, w)) : Excused s' e' n p :=
  hexcused.mono h.embryo (fun _ hc => h.child_of hc) fun e₀ w hx hw _ => hhalf e₀ w hx hw

end Proceeds

/-- A step that only changes what `e` and `child` do, and neither is between the two mappings of
`duppage`: a start or an end of `fork`. -/
structure Switches (s s' : Family) (e child : EnvIx) : Prop where
  vm : s'.vm = s.vm
  handler : s'.handler = s.handler
  other : ∀ e', e' ≠ e → e' ≠ child → s'.act e' = s.act e'
  parent : (s.act e).half = none
  whole : (s.act child).half = none
  childless : (s'.act child).child = none

namespace Switches

variable {s s' : Family} {e child e' : EnvIx}

/-- The parents that are between the two mappings of `duppage` stay there. -/
theorem half {x : EnvIx × Nat} (h : Switches s s' e child) (hx : (s.act e').half = some x) :
    (s'.act e').half = some x := by
  by_cases he : e' = e
  · rw [he, h.parent] at hx
    cases hx
  · by_cases hc : e' = child
    · rw [hc, h.whole] at hx
      cases hx
    · rwa [h.other e' he hc]

theorem others (h : Switches s s' e child) (a : Contents) : Others s s' a a e := by
  refine ⟨fun e' he => ?_, fun e' _ => by rw [h.handler], fun e' _ _ => by rw [h.vm],
    fun _ _ _ => rfl, fun e' _ => ?_⟩
  · by_cases hc : e' = child
    · rw [hc]
      exact .inr h.childless
    · exact .inl (h.other e' he hc)
  · rw [h.vm]
    exact Spares.fewer rfl rfl fun _ _ _ hx => hx

theorem own (h : Switches s s' e child) (hown : Own s) : Own s' :=
  hown.fewer (fun _ _ _ hx => by rwa [h.vm] at hx) (fun _ hp => by rwa [h.vm] at hp)
    fun _ _ _ _ _ _ _ _ _ hpair => hpair.mono (fun _ hm => by rwa [h.handler]) fun _ hx => h.half hx

end Switches

/-- One of the two mappings of `duppage`, in `t`, of the page that the parent has at `pn`. -/
structure Duplicates (s s' : Family) (e t : EnvIx) (p pn : Nat) (perm w : Word) : Prop where
  there : s.vm.map e pn = some (p, w)
  vm : s'.vm = s.vm.pageInsert t p pn perm
  handler : s'.handler = s.handler

namespace Duplicates

variable {s s' : Family} {e t e' : EnvIx} {p pn q : Nat} {perm w : Word}

theorem mem (h : Duplicates s s' e t p pn perm w) : s'.vm.mem = s.vm.mem := by
  rw [h.vm, Vm.mem_page_insert]

theorem map (h : Duplicates s s' e t p pn perm w) (e' : EnvIx) (n' : Nat) :
    s'.vm.map e' n' = if e' = t ∧ n' = pn then some (p, perm ||| pteP) else s.vm.map e' n' := by
  rw [h.vm]
  exact Vm.map_page_insert _ _ _ _ _ _ _

theorem not_shared (h : Duplicates s s' e t p pn perm w) (hq : s'.vm.shared q = false) :
    s.vm.shared q = false ∧ (q = p → hasFlag perm pteShare = false) := by
  rw [h.vm, Vm.shared_page_insert] at hq
  split at hq
  · cases hq
  · rename_i hno
    refine ⟨hq, fun hqp => Bool.eq_false_iff.2 fun hflag => hno ⟨hqp, hflag⟩⟩

theorem spares (h : Duplicates s s' e t p pn perm w) (he : e' ≠ e) :
    Spares s.vm s'.vm e' := by
  rw [h.vm]
  exact Spares.page_insert he h.there _ _

/-- The new entry is read-only, unless the page is shared. -/
theorem read_only (h : Duplicates s s' e t p pn perm w)
    (hread : hasFlag perm pteShare = true ∨ hasFlag perm pteW = false)
    (hp : s'.vm.shared p = false) : hasFlag (perm ||| pteP) pteW = false := by
  have hshare := (h.not_shared hp).2 rfl
  have hw : hasFlag perm pteW = false := hread.resolve_left fun hx => by
    rw [hx] at hshare
    cases hshare
  rw [has_flag_or, hw]
  decide

end Duplicates

/-- The child's copy of a page: taken anew if the child still has the parent's page. -/
theorem Contents.exists_copied (a : Contents) (e child : EnvIx) (pn : Nat) (same : Prop) :
    ∃ a' : Contents, (a' = a ∨ a' = a.copyPage e child pn) ∧ (same → a' child pn = a e pn) ∧
      (¬ same → a' child pn = a child pn) ∧
      ∀ e' n', ¬ (e' = child ∧ n' = pn) → a' e' n' = a e' n' := by
  by_cases hsame : same
  · refine ⟨a.copyPage e child pn, .inr rfl, fun _ => ?_, fun hno => absurd hsame hno,
      fun e' n' hat => ?_⟩
    · rw [Contents.copy_page_apply, if_pos ⟨rfl, rfl⟩]
    · rw [Contents.copy_page_apply, if_neg hat]
  · exact ⟨a, .inl rfl, fun h => absurd h hsame, fun _ => rfl, fun _ _ _ => rfl⟩

namespace Isolated

variable {s : Family} {a : Contents} {e child : EnvIx} {p : Nat}

/-- While an environment that runs is not in its handler, nobody else can write to its pages. -/
theorem writable_place {e' : EnvIx} {n n' : Nat} {w w' : Word} (h : Isolated s a)
    (hkin : Kindred s) (hlive : (s.act e).live) (hhandler : s.handler e = none)
    (hmap : s.vm.map e n = some (p, w)) (hp : s.vm.shared p = false)
    (hw' : s.vm.map e' n' = some (p, w')) (hflag : hasFlag w' pteW = true) :
    e' = e ∧ n' = n := by
  rcases h.own e' n' p w' e n w hw' hflag hp hmap with ⟨rfl, rfl⟩ | ⟨rfl, m, hm, -⟩ | ⟨-, hx⟩
  · exact ⟨rfl, rfl⟩
  · rw [hhandler] at hm
    cases hm
  · rw [hkin.child e' e (Activity.child_of_half hx)] at hlive
    cases hlive

/-! ## `fork` -/

/-- Progress inside `fork` with the same entries and handlers, away from the two mappings of
`duppage`. -/
theorem progress (h : Isolated s a) (hkin : Kindred s) {phase phase' : ForkPhase}
    (hact : s.act e = .fork false child phase)
    (hphase : PhaseOk (s.vm.map e) (s.handler e) phase')
    (hold : (Activity.fork false child phase).half = none) :
    Isolated (s.setAct e (.fork false child phase')) a := by
  have hproc : Proceeds s (s.setAct e (.fork false child phase')) e child phase phase' :=
    Proceeds.set hact s.vm phase'
  generalize hs : s.setAct e (.fork false child phase') = s' at hproc ⊢
  have hvm : s'.vm = s.vm := by rw [← hs]; rfl
  have hhandler : s'.handler = s.handler := by rw [← hs]; rfl
  have hothers : Others s s' a a e := by
    refine ⟨fun e' he => .inl (hproc.other e' he), fun e' _ => by rw [hhandler],
      fun e' _ _ => by rw [hvm], fun _ _ _ => rfl, fun e' _ => ?_⟩
    rw [hvm]
    exact Spares.fewer rfl rfl fun _ _ _ hx => hx
  refine hothers.isolated h hkin ?_ ?_ ?_ ?_
  · exact h.own.fewer (fun _ _ _ hx => by rwa [hvm] at hx) (fun _ hp => by rwa [hvm] at hp)
      fun _ _ _ _ _ _ _ _ _ hpair => hpair.mono (fun m hm => by rw [hhandler]; exact hm)
        fun x hx => hproc.half hold hx
  · intro e' n' p' w₃ hw₃ hp' hpftemp hstack
    rw [hvm] at hw₃ hp' ⊢
    exact (h.agree e' n' p' w₃ hw₃ hp' hpftemp hstack).imp_left fun hexcused =>
      hproc.excused hexcused fun e₀ w₄ hx hw₄ => ⟨hproc.half hold hx, by rw [hvm]; exact hw₄⟩
  · intro shared c phase₁ hphase₁
    rw [hproc.self] at hphase₁
    cases hphase₁
    rw [hvm, hhandler]
    exact ⟨rfl, hphase⟩
  · intro hd hhd
    rw [hhandler] at hhd
    have hok := h.handler e hd hhd
    cases hd with
    | entered m =>
        show ∀ p w, s'.vm.map e m = some (p, w) → _
        rw [hvm]
        exact hok
    | copying m i =>
        show i ≤ 1024 ∧ ∃ r w, s'.vm.map e pftempPn = some (r, w) ∧ _
        rw [hvm]
        exact hok
    | mapped m => trivial

/-- `sys_exofork`. -/
theorem exofork (h : Isolated s a) (hkin : Kindred s) (hact : s.act e = .user)
    (hchild : s.act child = .free) (hhandler : s.handler e = none) (installed : EnvIx → Bool) :
    Isolated { (s.setAct e (.fork false child (.scan 0))).setAct child .embryo with
      installed := installed } a := by
  generalize hs : ({ (s.setAct e (.fork false child (.scan 0))).setAct child .embryo with
      installed := installed } : Family) = s'
  have hne : child ≠ e := by
    intro heq
    rw [heq, hact] at hchild
    cases hchild
  have hself : s'.act e = .fork false child (.scan 0) := by
    rw [← hs]
    simp [Family.setAct, Ne.symm hne]
  have hemb : s'.act child = .embryo := by
    rw [← hs]
    simp [Family.setAct]
  have hother : ∀ e', e' ≠ e → e' ≠ child → s'.act e' = s.act e' := by
    intro e' he hc
    rw [← hs]
    simp [Family.setAct, he, hc]
  have hvm : s'.vm = s.vm := by rw [← hs]; rfl
  have hsame : s'.handler = s.handler := by rw [← hs]; rfl
  have hswitch : Switches s s' e child := by
    refine ⟨hvm, hsame, hother, ?_, ?_, ?_⟩
    · rw [hact]
      rfl
    · rw [hchild]
      rfl
    · rw [hemb]
      rfl
  refine (hswitch.others a).isolated h hkin (hswitch.own h.own) ?_ ?_ ?_
  · intro e' n' p' w₃ hw₃ hp' hpftemp hstack
    rw [hvm] at hw₃ hp' ⊢
    refine (h.agree e' n' p' w₃ hw₃ hp' hpftemp hstack).imp_left fun hexcused =>
      hexcused.mono (fun hold => ?_) (fun e₀ hc => ?_)
        fun e₀ w₄ hx hw₄ _ => ⟨hswitch.half hx, by rw [hvm]; exact hw₄⟩
    · have hold' := hexcused.embryo hkin
      have he : e' ≠ e := by
        intro heq
        rw [heq, hact] at hold'
        cases hold'
      have hc : e' ≠ child := by
        intro heq
        rw [heq, hchild] at hold'
        cases hold'
      rw [hother e' he hc]
      exact hold
    · -- a free slot was nobody's child
      have hold := hexcused.embryo hkin
      by_cases he : e₀ = e
      · rw [he, hself] at hc
        rw [← Option.some.inj hc, hchild] at hold
        cases hold
      · by_cases hec : e₀ = child
        · rw [hec, hemb] at hc
          cases hc
        · rwa [hother e₀ he hec] at hc
  · intro shared c phase hphase
    rw [hself] at hphase
    cases hphase
    exact ⟨rfl, trivial⟩
  · intro hd hhd
    rw [hsame, hhandler] at hhd
    cases hhd

/-- `sys_env_set_status` marks the child runnable. -/
theorem release (h : Isolated s a) (hkin : Kindred s) (hact : s.act e = .fork false child .last)
    (hhandler : s.handler e = none) :
    Isolated ((s.setAct e .user).setAct child .user) a := by
  generalize hs : (s.setAct e .user).setAct child .user = s'
  have hc : (s.act e).child = some child := by rw [hact]; rfl
  obtain ⟨hemb, -, -, hne⟩ := hkin.embryo hc
  have huser : ∀ e', e' = e ∨ e' = child → s'.act e' = .user := by
    intro e' he'
    rw [← hs]
    rcases he' with rfl | rfl
    · simp [Family.setAct, Ne.symm hne]
    · simp [Family.setAct]
  have hother : ∀ e', e' ≠ e → e' ≠ child → s'.act e' = s.act e' := by
    intro e' he hc
    rw [← hs]
    simp [Family.setAct, he, hc]
  have hvm : s'.vm = s.vm := by rw [← hs]; rfl
  have hsame : s'.handler = s.handler := by rw [← hs]; rfl
  have hswitch : Switches s s' e child := by
    refine ⟨hvm, hsame, hother, ?_, ?_, ?_⟩
    · rw [hact]
      rfl
    · rw [hemb]
      rfl
    · rw [huser child (.inr rfl)]
      rfl
  refine (hswitch.others a).isolated h hkin (hswitch.own h.own) ?_ ?_ ?_
  · intro e' n' p' w₃ hw₃ hp' hpftemp hstack
    rw [hvm] at hw₃ hp' ⊢
    refine (h.agree e' n' p' w₃ hw₃ hp' hpftemp hstack).imp_left fun hexcused => ?_
    have hold := hexcused.embryo hkin
    have he : e' ≠ e := by
      intro heq
      rw [heq, hact] at hold
      cases hold
    -- after the last `duppage` the child needs no excuse
    have hec : e' ≠ child := by
      intro heq
      rw [heq] at hexcused
      rcases hexcused with ⟨e₀, w₄, hx, -⟩ | ⟨-, hnone⟩
      · have h₀ := hkin.parent e e₀ child hc (Activity.child_of_half hx)
        rw [h₀, hact] at hx
        cases hx
      · exact hnone e hc
    refine hexcused.mono (fun hold => by rw [hother e' he hec]; exact hold) (fun e₀ hc₀ => ?_)
      fun e₀ w₄ hx hw₄ _ => ⟨hswitch.half hx, by rw [hvm]; exact hw₄⟩
    by_cases h₀ : e₀ = e ∨ e₀ = child
    · rw [huser e₀ h₀] at hc₀
      cases hc₀
    · rw [not_or] at h₀
      rwa [hother e₀ h₀.1 h₀.2] at hc₀
  · intro shared c phase hphase
    rw [huser e (.inl rfl)] at hphase
    cases hphase
  · intro hd hhd
    rw [hsame, hhandler] at hhd
    cases hhd

/-- `sys_page_alloc` of the exception stack of the child. -/
theorem childStack (h : Isolated s a) (hkin : Kindred s) (hcount : s.vm.Counted)
    (hact : s.act e = .fork false child (.scan userPages)) (hhandler : s.handler e = none)
    (hfree : s.vm.free p = true) (perm : Word) :
    Isolated ((s.setVm (s.vm.sysPageAlloc child p uxstackPn perm)).setAct e
      (.fork false child .last)) a := by
  have hproc := Proceeds.set hact (s.vm.sysPageAlloc child p uxstackPn perm) .last
  generalize hs : (s.setVm (s.vm.sysPageAlloc child p uxstackPn perm)).setAct e
      (.fork false child .last) = s' at hproc ⊢
  have hv : s'.vm = s.vm.sysPageAlloc child p uxstackPn perm := by rw [← hs]; rfl
  have hsame : s'.handler = s.handler := by rw [← hs]; rfl
  have hmap' : ∀ e' n', ¬ (e' = child ∧ n' = uxstackPn) → s'.vm.map e' n' = s.vm.map e' n' := by
    intro e' n' hat
    rw [hv, Vm.map_sys_page_alloc, if_neg hat]
  have hothers : Others s s' a a e := by
    refine ⟨fun e' he => .inl (hproc.other e' he), fun e' _ => by rw [hsame],
      fun e' _ hlive => ?_, fun _ _ _ => rfl, fun e' _ => ?_⟩
    · funext n'
      exact hmap' e' n' fun hat => hproc.ne_child hkin hlive hat.1
    · rw [hv]
      exact Spares.sys_page_alloc hcount hfree _ _
  refine hothers.isolated h hkin ?_ ?_ ?_ ?_
  · exact h.own.alloc hcount hfree hv fun _ _ _ _ hpair =>
      hpair.mono (fun m hm => by rw [hsame]; exact hm) fun x hx => hproc.half rfl hx
  · refine h.agree.alloc hcount hfree hv (.inr rfl) fun e' n' q' hn' hexcused =>
      hproc.excused hexcused fun e₀ w₄ hx hw₄ => ⟨hproc.half rfl hx, ?_⟩
    rw [hmap' e₀ n' fun hat => hn' hat.2]
    exact hw₄
  · intro shared c phase hphase
    rw [hproc.self] at hphase
    cases hphase
    exact ⟨rfl, trivial⟩
  · intro hd hhd
    rw [hsame, hhandler] at hhd
    cases hhd

/-- An environment is gone. Its child, if it was in `fork`, will not run. -/
theorem exit (h : Isolated s a) (hkin : Kindred s) {v : Vm}
    (hrange : ∀ e n x, s.vm.map e n = some x → n < userPages)
    (hmap : ∀ e' n, v.map e' n = if e' = e ∧ n < userPages then none else s.vm.map e' n)
    (hmem : v.mem = s.vm.mem) (hshared : v.shared = s.vm.shared) (installed : EnvIx → Bool) :
    Isolated { ((s.setVm v).setAct e .free).setHandler e none with installed := installed } a := by
  generalize hs : ({ ((s.setVm v).setAct e .free).setHandler e none with
    installed := installed } : Family) = s'
  have hself : s'.act e = .free := by
    rw [← hs]
    exact Function.update_self _ _ _
  have hother : ∀ e', e' ≠ e → s'.act e' = s.act e' := by
    intro e' he
    rw [← hs]
    exact Function.update_of_ne he _ _
  have hidle : s'.handler e = none := by
    rw [← hs]
    exact Function.update_self _ _ _
  have hsame : ∀ e', e' ≠ e → s'.handler e' = s.handler e' := by
    intro e' he
    rw [← hs]
    exact Function.update_of_ne he _ _
  have hv : s'.vm = v := by rw [← hs]; rfl
  have hmap' : ∀ e', e' ≠ e → s'.vm.map e' = s.vm.map e' := by
    intro e' he
    funext n'
    rw [hv, hmap, if_neg fun hat => he hat.1]
  have hgone : ∀ e' n' x, s'.vm.map e' n' = some x → e' ≠ e ∧ s.vm.map e' n' = some x := by
    intro e' n' x hx
    rw [hv, hmap] at hx
    split at hx
    · cases hx
    · rename_i hat
      refine ⟨fun heq => hat ⟨heq, hrange e' n' x hx⟩, hx⟩
  have hothers : Others s s' a a e := by
    refine ⟨fun e' he => .inl (hother e' he), hsame, fun e' he _ => hmap' e' he,
      fun _ _ _ => rfl, fun e' _ => ?_⟩
    refine Spares.fewer (by rw [hv, hmem]) (by rw [hv, hshared]) fun e₁ n₁ x hx => ?_
    exact (hgone e₁ n₁ x hx).2
  refine hothers.isolated h hkin ?_ ?_ ?_ ?_
  · refine h.own.fewer (fun e' n' x hx => (hgone e' n' x hx).2)
      (fun _ hp => by rwa [hv, hshared] at hp) fun e₁ n₁ p₁ w₁ e₂ n₂ w₂ hw₁ _ hpair => ?_
    have he := (hgone e₁ n₁ _ hw₁).1
    exact hpair.mono (fun m hm => (hsame e₁ he).trans hm) fun x hx => by rw [hother e₁ he]; exact hx
  · intro e' n' p' w₃ hw₃ hp' hpftemp hstack
    obtain ⟨he, hold⟩ := hgone e' n' _ hw₃
    rw [hv, hshared] at hp'
    rw [hv, hmem]
    rcases h.agree e' n' p' w₃ hold hp' hpftemp hstack with hexcused | hagree
    · refine .inl ?_
      have hemb := hexcused.embryo hkin
      by_cases hc : (s.act e).child = some e'
      · -- nobody else is forking this child
        refine .inr ⟨by rw [hother e' he]; exact hemb, fun e₀ hc₀ => ?_⟩
        by_cases h₀ : e₀ = e
        · rw [h₀, hself] at hc₀
          cases hc₀
        · rw [hother e₀ h₀] at hc₀
          exact h₀ (hkin.parent e e₀ e' hc hc₀)
      · refine hexcused.mono (fun hold => by rw [hother e' he]; exact hold) (fun e₀ hc₀ => ?_)
          fun e₀ w₄ hx hw₄ _ => ?_
        · by_cases h₀ : e₀ = e
          · rw [h₀, hself] at hc₀
            cases hc₀
          · rwa [hother e₀ h₀] at hc₀
        · have h₀ : e₀ ≠ e := by
            intro heq
            rw [heq] at hx
            exact hc (Activity.child_of_half hx)
          rw [hother e₀ h₀, hmap' e₀ h₀]
          exact ⟨hx, hw₄⟩
    · exact .inr hagree
  · intro shared c phase hphase
    rw [hself] at hphase
    cases hphase
  · intro hd hhd
    rw [hidle] at hhd
    cases hhd

/-- `duppage` maps the page in the child: this is when the child gets its copy. -/
theorem mapChild (h : Isolated s a) (hkin : Kindred s) {pn : Nat} {perm w : Word}
    {next : ForkPhase} (hact : s.act e = .fork false child (.perm pn perm))
    (hhandler : s.handler e = none) (hmap : s.vm.map e pn = some (p, w))
    (hnext : next = if hasFlag perm pteCow then .mapped pn perm else .scan (pn + 1)) :
    Isolated ((s.setVm (s.vm.pageInsert child p pn perm)).setAct e (.fork false child next))
      (a.copyPage e child pn) := by
  have hproc := Proceeds.set hact (s.vm.pageInsert child p pn perm) next
  have hdup : Duplicates s ((s.setVm (s.vm.pageInsert child p pn perm)).setAct e
      (.fork false child next)) e child p pn perm w := ⟨hmap, rfl, rfl⟩
  generalize (s.setVm (s.vm.pageInsert child p pn perm)).setAct e (.fork false child next) = s'
    at hproc hdup ⊢
  obtain ⟨hread, hsplits⟩ := h.phase e _ _ _ hact
  have hothers : Others s s' a (a.copyPage e child pn) e := by
    refine ⟨fun e' he => .inl (hproc.other e' he), fun e' _ => by rw [hdup.handler],
      fun e' _ hlive => ?_, fun e' _ hlive => ?_, fun e' he => hdup.spares he⟩
    · funext n'
      rw [hdup.map, if_neg fun hat => hproc.ne_child hkin hlive hat.1]
    · funext n'
      rw [Contents.copy_page_apply, if_neg fun hat => hproc.ne_child hkin hlive hat.1]
  refine hothers.isolated h hkin ?_ ?_ ?_ ?_
  · refine h.own.insert hdup.map (fun _ _ q _ _ hq => (hdup.not_shared hq).1)
      (fun _ _ _ _ _ _ _ _ _ _ _ hpair =>
        hpair.mono (fun m hm => by rw [hdup.handler]; exact hm) fun x hx => hproc.half rfl hx)
      ?_ ?_
    · intro hflag hp
      rw [hdup.read_only hread hp] at hflag
      cases hflag
    · -- the parent's own entry may still be writable
      intro hp e' n' w' hw' hflag _
      obtain ⟨hold, hshare⟩ := hdup.not_shared hp
      obtain ⟨rfl, rfl⟩ := h.writable_place hkin hproc.live hhandler hmap hold hw' hflag
      rw [hmap] at hw'
      cases hw'
      have hcow : hasFlag perm pteCow = true := by
        refine (hsplits p _ hmap (fun _ => hhandler) (.inl hflag)).resolve_right fun hx => ?_
        rw [hshare rfl] at hx
        cases hx
      refine .inr (.inr ⟨rfl, ?_⟩)
      rw [hproc.self, hnext, if_pos hcow]
      rfl
  · intro e' n' p' w' hw' hp' hpftemp hstack
    obtain ⟨hold, -⟩ := hdup.not_shared hp'
    rw [hdup.map] at hw'
    rw [hdup.mem]
    by_cases hat : e' = child ∧ n' = pn
    · rw [if_pos hat] at hw'
      cases hw'
      obtain ⟨rfl, rfl⟩ := hat
      refine .inr fun i hi => ?_
      rw [Contents.copy_page_apply, if_pos ⟨rfl, rfl⟩]
      exact h.reads hkin hproc.live hmap hold hpftemp hstack i hi
    · rw [if_neg hat] at hw'
      rw [Contents.copy_page_apply, if_neg hat]
      refine (h.agree e' n' p' w' hw' hold hpftemp hstack).imp_left fun hexcused =>
        hproc.excused hexcused fun e₀ w₀ hx hw₀ => ⟨hproc.half rfl hx, ?_⟩
      have hec : e₀ ≠ child := by
        intro heq
        rw [heq, (hkin.embryo hproc.child_eq).1] at hx
        cases hx
      rw [hdup.map, if_neg fun hat => hec hat.1]
      exact hw₀
  · intro shared c phase hphase
    rw [hproc.self] at hphase
    cases hphase
    refine ⟨rfl, ?_⟩
    rw [hnext]
    split
    · exact hread
    · trivial
  · intro hd hhd
    rw [hdup.handler, hhandler] at hhd
    cases hhd

/-- After the second mapping of `duppage` the child's page is what its copy says: the parent's
page as it is now or, where the child no longer has that page, the copy it had. -/
theorem child_agrees (h : Isolated s a) (hkin : Kindred s) {a' : Contents} {pn p' : Nat}
    {w w' : Word} (hc : (s.act e).child = some child) (hlive : (s.act e).live)
    (hmap : s.vm.map e pn = some (p, w))
    (hcopied : (∃ w', s.vm.map child pn = some (p, w')) → a' child pn = a e pn)
    (hkept : (¬ ∃ w', s.vm.map child pn = some (p, w')) → a' child pn = a child pn)
    (hw' : s.vm.map child pn = some (p', w')) (hp' : s.vm.shared p' = false)
    (hpftemp : pn ≠ pftempPn) (hstack : pn ≠ uxstackPn) :
    ∀ i < 1024, s.vm.mem p' i = a' child pn i := by
  by_cases hp : p' = p
  · subst hp
    rw [hcopied ⟨w', hw'⟩]
    exact h.reads hkin hlive hmap hp' hpftemp hstack
  · have hno : ¬ ∃ w₁, s.vm.map child pn = some (p, w₁) := by
      intro hthere
      obtain ⟨w₁, hw₁⟩ := hthere
      rw [hw'] at hw₁
      exact hp (Prod.mk.inj (Option.some.inj hw₁)).1
    rw [hkept hno]
    refine (h.agree child pn p' w' hw' hp' hpftemp hstack).resolve_left fun hexcused => ?_
    rcases hexcused with ⟨e₀, w₀, hx, hw₀, -⟩ | ⟨-, hnone⟩
    · -- only its parent could excuse the child, and the parent maps another page
      have h₀ := hkin.parent e e₀ child hc (Activity.child_of_half hx)
      rw [h₀, hmap] at hw₀
      exact hp (Prod.mk.inj (Option.some.inj hw₀)).1.symm
    · exact hnone e hc

/-- `duppage` maps the page once more in the parent. If the parent has written to the page since
it was mapped in the child, and so to the page of the child, the copy is taken now. -/
theorem mapSelf (h : Isolated s a) (hkin : Kindred s) {pn : Nat} {perm w : Word}
    (hact : s.act e = .fork false child (.mapped pn perm))
    (hhandler : s.handler e = none) (hmap : s.vm.map e pn = some (p, w)) :
    ∃ a', (a' = a ∨ a' = a.copyPage e child pn) ∧
      Isolated ((s.setVm (s.vm.pageInsert e p pn perm)).setAct e
        (.fork false child (.scan (pn + 1)))) a' := by
  have hproc := Proceeds.set hact (s.vm.pageInsert e p pn perm) (.scan (pn + 1))
  have hdup : Duplicates s ((s.setVm (s.vm.pageInsert e p pn perm)).setAct e
      (.fork false child (.scan (pn + 1)))) e e p pn perm w := ⟨hmap, rfl, rfl⟩
  generalize (s.setVm (s.vm.pageInsert e p pn perm)).setAct e
    (.fork false child (.scan (pn + 1))) = s' at hproc hdup ⊢
  -- the child's copy is this page or, after a fault of the parent, an older one
  obtain ⟨a', ha', hcopied, hkept, hrest⟩ := a.exists_copied e child pn
    (∃ w', s.vm.map child pn = some (p, w'))
  refine ⟨a', ha', ?_⟩
  have hread : hasFlag perm pteShare = true ∨ hasFlag perm pteW = false := h.phase e _ _ _ hact
  -- the one place that was paired with the child's has been replaced
  have hhalf : ∀ e' x, (s.act e').half = some x → ¬ (e' = e ∧ x.2 = pn) →
      (s'.act e').half = some x := by
    intro e' x hx hat
    have he : e' ≠ e := by
      intro heq
      rw [heq, hact] at hx
      exact hat ⟨heq, by rw [← Option.some.inj hx]⟩
    rw [hproc.other e' he]
    exact hx
  have hothers : Others s s' a a' e := by
    refine ⟨fun e' he => .inl (hproc.other e' he), fun e' _ => by rw [hdup.handler],
      fun e' he _ => ?_, fun e' _ hlive => ?_, fun e' he => hdup.spares he⟩
    · funext n'
      rw [hdup.map, if_neg fun hat => he hat.1]
    · funext n'
      exact hrest e' n' fun hat => hproc.ne_child hkin hlive hat.1
  refine hothers.isolated h hkin ?_ ?_ ?_ ?_
  · refine h.own.insert hdup.map (fun _ _ q _ _ hq => (hdup.not_shared hq).1)
      (fun e' n' q w₁ e'' n'' w₂ hw₁ hw₂ hat hat' hpair => ?_) ?_ ?_
    · rcases hpair with hat₀ | ⟨he, m, hm, hn⟩ | ⟨hn, hx⟩
      · exact .inl hat₀
      · exact .inr (.inl ⟨he, m, by rw [hdup.handler]; exact hm, hn⟩)
      · exact .inr (.inr ⟨hn, hhalf e' _ hx hat⟩)
    · intro hflag hp
      rw [hdup.read_only hread hp] at hflag
      cases hflag
    · intro hp e' n' w' hw' hflag hat
      obtain ⟨hold, -⟩ := hdup.not_shared hp
      exact absurd (h.writable_place hkin hproc.live hhandler hmap hold hw' hflag) hat
  · intro e' n' p' w' hw' hp' hpftemp hstack
    obtain ⟨hold, -⟩ := hdup.not_shared hp'
    rw [hdup.map] at hw'
    rw [hdup.mem]
    by_cases hat : e' = e ∧ n' = pn
    · rw [if_pos hat] at hw'
      cases hw'
      obtain ⟨rfl, rfl⟩ := hat
      rw [hrest e' n' fun hat' => hproc.ne_child hkin hproc.live hat'.1]
      exact .inr (h.reads hkin hproc.live hmap hold hpftemp hstack)
    · rw [if_neg hat] at hw'
      by_cases hchild : e' = child ∧ n' = pn
      · obtain ⟨rfl, rfl⟩ := hchild
        exact .inr (h.child_agrees hkin hproc.child_eq hproc.live hmap hcopied hkept hw' hold
          hpftemp hstack)
      · rw [hrest e' n' hchild]
        refine (h.agree e' n' p' w' hw' hold hpftemp hstack).imp_left fun hexcused =>
          hproc.excused hexcused fun e₀ w₀ hx hw₀ => ?_
        have hother : ¬ (e₀ = e ∧ n' = pn) := by
          intro heq
          rw [heq.1, hact] at hx
          exact hchild ⟨(Prod.mk.inj (Option.some.inj hx)).1.symm, heq.2⟩
        refine ⟨hhalf e₀ _ hx hother, ?_⟩
        rw [hdup.map, if_neg hother]
        exact hw₀
  · intro shared c phase hphase
    rw [hproc.self] at hphase
    cases hphase
    exact ⟨rfl, trivial⟩
  · intro hd hhd
    rw [hdup.handler, hhandler] at hhd
    cases hhd

end Isolated

end Labs.Jos.Fork
