import Labs.Jos.ForkCopies

/-!
# Copy-on-write isolation over whole runs

Every run of a family that uses `fork` only reads like a run with eager copies, as long as
`pp_ref` has room for the mappings that `sys_page_map` adds. The counter has 16 bits; a page that
a program maps at 32769 addresses before it forks shows what happens when it wraps.
-/

namespace Labs.Jos.Fork

/-- The family uses `fork` and not `sfork`. -/
def Op.Forks : Op → Prop
  | .exofork _ _ shared => shared = false
  | _ => True

/-- Each step with `fork` has its counterpart with eager copies. -/
theorem Step.isolated {s s' : Family} {op : Op} {a : Contents} (hstep : Step s op s')
    (hcount : s.vm.Counted) (hkin : Kindred s) (hforks : op.Forks) (h : Isolated s a) :
    ∃ a', op.Eager a a' ∧ Isolated s' a' := by
  cases hstep with
  | store hact hhandler hmap hw hi => exact ⟨_, rfl, h.store hkin hhandler hmap hw⟩
  | fault hact hhandler hinst hmap => exact ⟨_, rfl, h.fault hkin hhandler hmap⟩
  | handlerAlloc hhandler hmap hcow hfree =>
      exact ⟨_, rfl, h.handlerAlloc hkin hcount hhandler hmap hcow hfree⟩
  | @copy e n i q r w w' hhandler hi hsrc hdst hw =>
      refine ⟨_, ?_, h.copy hkin hhandler hi hsrc hdst⟩
      cases hq : s.vm.shared q <;> rfl
  | handlerMap hhandler hcall =>
      obtain ⟨-, -, p, w, hmap, -, rfl⟩ := Vm.sys_page_map_some hcall
      exact ⟨_, rfl, h.handlerMap hkin hhandler hmap⟩
  | handlerUnmap => exact ⟨_, rfl, h.handlerUnmap hkin⟩
  | install hact hhandler hinst hfree =>
      exact ⟨_, rfl, h.install hkin hcount hact hhandler hfree _ _⟩
  | exofork hact hhandler hinst hchild =>
      obtain rfl : _ = false := hforks
      exact ⟨_, rfl, h.exofork hkin hact hchild hhandler _⟩
  | skip hact =>
      obtain rfl := h.forks _ _ _ _ hact
      exact ⟨_, rfl, h.progress hkin hact trivial rfl⟩
  | read hact hhandler hpn hstack hmap =>
      obtain rfl := h.forks _ _ _ _ hact
      refine ⟨_, rfl, h.progress hkin hact (fun p' w' hw' _ hsplits => ?_) rfl⟩
      rw [hmap] at hw'
      rwa [(Prod.mk.inj (Option.some.inj hw')).2]
  | @compute e child shared pn p first w hact hhandler hmap =>
      obtain rfl := h.forks _ _ _ _ hact
      refine ⟨_, rfl, h.progress hkin hact ?_ rfl⟩
      rw [if_pos (show dups false pn = true from rfl)]
      exact ⟨duppage_perm_read_only _ _, fun p' w' hw' hnone hsplits =>
        duppage_perm_splits (h.phase _ _ _ _ hact p' w' hw' hnone hsplits)⟩
  | mapChild hact hhandler hcall =>
      obtain rfl := h.forks _ _ _ _ hact
      obtain ⟨-, -, p, w, hmap, -, rfl⟩ := Vm.sys_page_map_some hcall
      exact ⟨_, rfl, h.mapChild hkin hact hhandler hmap rfl⟩
  | mapSelf hact hhandler hcall =>
      obtain rfl := h.forks _ _ _ _ hact
      obtain ⟨-, -, p, w, hmap, -, rfl⟩ := Vm.sys_page_map_some hcall
      exact h.mapSelf hkin hact hhandler hmap
  | childStack hact hhandler hfree =>
      obtain rfl := h.forks _ _ _ _ hact
      exact ⟨_, rfl, h.childStack hkin hcount hact hhandler hfree _⟩
  | release hact hhandler =>
      obtain rfl := h.forks _ _ _ _ hact
      exact ⟨_, rfl, h.release hkin hact hhandler⟩
  | exit hlive =>
      exact ⟨_, rfl, h.exit hkin hcount.range (Vm.map_env_free _ _) (Vm.mem_env_free _ _)
        (Vm.shared_env_free _ _) _⟩
  | takePage => exact ⟨_, rfl, ⟨h.forks, h.own, h.agree, h.phase, h.handler⟩⟩
  | givePage => exact ⟨_, rfl, ⟨h.forks, h.own, h.agree, h.phase, h.handler⟩⟩

/-! ## No page is left out -/

/-- The pages below this one have been dealt with. -/
def ForkPhase.done : ForkPhase → Nat
  | .scan pn => pn
  | .read pn _ => pn
  | .perm pn _ => pn
  | .mapped pn _ => pn + 1
  | .last => userPages

/-- The child maps the pages that its parent maps, as far as the loop has come. -/
def Covered (s : Family) : Prop :=
  ∀ e shared child phase, s.act e = .fork shared child phase → ∀ n, n ≠ pftempPn →
    n ≠ uxstackPn →
      (s.vm.map child n).isSome = (decide (n < phase.done) && (s.vm.map e n).isSome)

/-- An exit leaves the pages of the others mapped. -/
theorem Family.present_exit (s : Family) {e e₁ : EnvIx} {v : Vm}
    (hmap : ∀ e' n, v.map e' n = if e' = e₁ ∧ n < userPages then none else s.vm.map e' n)
    (installed : EnvIx → Bool) (n : Nat) {s' : Family}
    (hs : s' = { ((s.setVm v).setAct e₁ .free).setHandler e₁ none with installed := installed }) :
    (s'.vm.map e n).isSome = (s.vm.map e n).isSome ∨ s'.act e = .free := by
  subst hs
  by_cases he : e = e₁
  · right
    rw [he]
    exact Function.update_self _ _ _
  · left
    show (v.map e n).isSome = _
    rw [hmap, if_neg fun hat => he hat.1]

/-- Only `duppage` and exits change which pages are mapped, `PFTEMP` and the exception stack
apart. -/
theorem Step.present {s s' : Family} {op : Op} {a : Contents} (hstep : Step s op s')
    (h : Isolated s a) {e : EnvIx} {n : Nat} (hpftemp : n ≠ pftempPn) (hstack : n ≠ uxstackPn) :
    (s'.vm.map e n).isSome = (s.vm.map e n).isSome ∨ (∃ e₀, op = .mapChild e₀ e n) ∨
      s'.act e = .free := by
  cases hstep with
  | store => exact .inl rfl
  | fault => exact .inl rfl
  | @handlerAlloc e₁ n₁ p q w =>
      left
      show ((s.vm.sysPageAlloc e₁ p pftempPn _).map e n).isSome = _
      rw [Vm.map_sys_page_alloc, if_neg fun hat => hpftemp hat.2]
  | copy => exact .inl rfl
  | @handlerMap e₁ n₁ v hhandler hcall =>
      left
      obtain ⟨-, -, p, w, hmap, -, rfl⟩ := Vm.sys_page_map_some hcall
      show ((s.vm.pageInsert e₁ p n₁ _).map e n).isSome = _
      rw [Vm.map_page_insert]
      split
      · rename_i hat
        obtain ⟨-, r, w', -, -, -, hcopy⟩ := h.handler e₁ _ hhandler
        obtain ⟨⟨q, w₁, hsrc, -⟩, -⟩ := hcopy (hat.2 ▸ hpftemp)
        rw [hat.1, hat.2, hsrc]
        rfl
      · rfl
  | @handlerUnmap e₁ n₁ hhandler =>
      left
      show ((s.vm.pageRemove e₁ pftempPn).map e n).isSome = _
      rw [Vm.map_page_remove, if_neg fun hat => hpftemp hat.2]
  | @install e₁ p =>
      left
      show ((s.vm.sysPageAlloc e₁ p uxstackPn _).map e n).isSome = _
      rw [Vm.map_sys_page_alloc, if_neg fun hat => hstack hat.2]
  | exofork => exact .inl rfl
  | skip => exact .inl rfl
  | read => exact .inl rfl
  | compute => exact .inl rfl
  | @mapChild e₁ child shared pn perm v hact hhandler hcall =>
      obtain ⟨-, -, p, w, hmap, -, rfl⟩ := Vm.sys_page_map_some hcall
      by_cases hat : e = child ∧ n = pn
      · exact .inr (.inl ⟨e₁, by rw [hat.1, hat.2]⟩)
      · left
        show ((s.vm.pageInsert child p pn _).map e n).isSome = _
        rw [Vm.map_page_insert, if_neg hat]
  | @mapSelf e₁ child shared pn perm v hact hhandler hcall =>
      left
      obtain ⟨-, -, p, w, hmap, -, rfl⟩ := Vm.sys_page_map_some hcall
      show ((s.vm.pageInsert e₁ p pn _).map e n).isSome = _
      rw [Vm.map_page_insert]
      split
      · rename_i hat
        rw [hat.1, hat.2, hmap]
        rfl
      · rfl
  | @childStack e₁ child shared p =>
      left
      show ((s.vm.sysPageAlloc child p uxstackPn _).map e n).isSome = _
      rw [Vm.map_sys_page_alloc, if_neg fun hat => hstack hat.2]
  | release => exact .inl rfl
  | @exit e₁ hlive =>
      rcases s.present_exit (e := e) (Vm.map_env_free s.vm e₁) _ n rfl with hsame | hfree
      · exact .inl hsame
      · exact .inr (.inr hfree)
  | takePage => exact .inl rfl
  | givePage => exact .inl rfl

/-- `duppage` maps pages in the parent's child. -/
theorem Step.child_of_map_child {s s' : Family} {op : Op} (hstep : Step s op s') {e child : EnvIx}
    {pn : Nat} (hop : op = .mapChild e child pn) : (s.act e).child = some child := by
  cases hstep with
  | mapChild hact =>
      cases hop
      rw [hact]
      rfl
  | copy =>
      split at hop
      · cases hop
      · cases hop
  | _ => cases hop

/-- A parent and its child keep their pages, while the loop is where it was. -/
theorem Covered.keep {s s' : Family} {op : Op} {a : Contents} (hcov : Covered s)
    (hstep : Step s op s') (h : Isolated s a) (hkin : Kindred s) (hkin' : Kindred s') {e child : EnvIx}
    {shared : Bool} {phase phase' : ForkPhase} (hact : s.act e = .fork shared child phase)
    (hact' : s'.act e = .fork shared child phase') (hdone : phase'.done = phase.done)
    (hop : ∀ e₀ n, op ≠ .mapChild e₀ child n) {n : Nat} (hpftemp : n ≠ pftempPn)
    (hstack : n ≠ uxstackPn) :
    (s'.vm.map child n).isSome = (decide (n < phase'.done) && (s'.vm.map e n).isSome) := by
  have hemb := hkin'.child e child (by rw [hact']; rfl)
  have hparent : (s'.vm.map e n).isSome = (s.vm.map e n).isSome := by
    rcases hstep.present h (e := e) hpftemp hstack with hsame | ⟨e₀, rfl⟩ | hfree
    · exact hsame
    · have hemb' := hkin.child e₀ e (hstep.child_of_map_child rfl)
      rw [hact] at hemb'
      cases hemb'
    · rw [hact'] at hfree
      cases hfree
  have hchild : (s'.vm.map child n).isSome = (s.vm.map child n).isSome := by
    rcases hstep.present h (e := child) hpftemp hstack with hsame | ⟨e₀, heq⟩ | hfree
    · exact hsame
    · exact absurd heq (hop e₀ n)
    · rw [hemb] at hfree
      cases hfree
  rw [hparent, hchild, hdone]
  exact hcov e shared child phase hact n hpftemp hstack

/-- What a step does to activities, and with them to the pages of children. -/
inductive Moves (s s' : Family) : Prop where
  | same (hact : s'.act = s.act)
  | loop {e child : EnvIx} {shared : Bool} {phase phase' : ForkPhase}
      (hact : s.act e = .fork shared child phase)
      (hact' : s'.act = Function.update s.act e (.fork shared child phase'))
      (hdone : phase'.done = phase.done)
  | skip {e child : EnvIx} {shared : Bool} {pn : Nat}
      (hact : s.act e = .fork shared child (.scan pn)) (hvm : s'.vm = s.vm)
      (hskip : pn = uxstackPn ∨ ∀ p w, s.vm.map e pn = some (p, w) → hasFlag w pteU = false)
      (hact' : s'.act = Function.update s.act e (.fork shared child (.scan (pn + 1))))
  | exofork {e child : EnvIx} {shared : Bool} (hact : s.act e = .user)
      (hfree : s.act child = .free) (hvm : s'.vm = s.vm)
      (hact' : s'.act = Function.update (Function.update s.act e (.fork shared child (.scan 0)))
        child .embryo)
  | release {e child : EnvIx} (hact' : s'.act =
      Function.update (Function.update s.act e .user) child .user)
  | exit {e : EnvIx} (hact' : s'.act = Function.update s.act e .free)

theorem Moves.of_exit (s : Family) (e : EnvIx) (v : Vm) (installed : EnvIx → Bool) :
    Moves s { ((s.setVm v).setAct e .free).setHandler e none with installed := installed } :=
  .exit rfl

/-- Apart from `mapChild`, which adds a page to the child. -/
theorem Step.moves {s s' : Family} {op : Op} (hstep : Step s op s') :
    (Moves s s' ∧ ∀ e c n, op ≠ .mapChild e c n) ∨
      ∃ e child shared pn perm phase p w, op = .mapChild e child pn ∧
        s.act e = .fork shared child (.perm pn perm) ∧ s.vm.map e pn = some (p, w) ∧
        s'.vm = s.vm.pageInsert child p pn perm ∧ phase.done = pn + 1 ∧
        s'.act = Function.update s.act e (.fork shared child phase) := by
  cases hstep with
  | store => exact .inl ⟨.same rfl, fun _ _ _ heq => (by cases heq)⟩
  | fault => exact .inl ⟨.same rfl, fun _ _ _ heq => (by cases heq)⟩
  | handlerAlloc => exact .inl ⟨.same rfl, fun _ _ _ heq => (by cases heq)⟩
  | copy =>
      refine .inl ⟨.same rfl, fun _ _ _ heq => ?_⟩
      split at heq
      · cases heq
      · cases heq
  | handlerMap => exact .inl ⟨.same rfl, fun _ _ _ heq => (by cases heq)⟩
  | handlerUnmap => exact .inl ⟨.same rfl, fun _ _ _ heq => (by cases heq)⟩
  | install => exact .inl ⟨.same rfl, fun _ _ _ heq => (by cases heq)⟩
  | exofork hact hhandler hinst hfree =>
      exact .inl ⟨.exofork hact hfree rfl rfl, fun _ _ _ heq => (by cases heq)⟩
  | skip hact hhandler hpn hskip =>
      exact .inl ⟨.skip hact rfl hskip rfl, fun _ _ _ heq => (by cases heq)⟩
  | read hact => exact .inl ⟨.loop hact rfl rfl, fun _ _ _ heq => (by cases heq)⟩
  | compute hact => exact .inl ⟨.loop hact rfl rfl, fun _ _ _ heq => (by cases heq)⟩
  | @mapChild e child shared pn perm v hact hhandler hcall =>
      obtain ⟨-, -, p, w, hmap, -, rfl⟩ := Vm.sys_page_map_some hcall
      refine .inr ⟨e, child, shared, pn, perm, _, p, w, rfl, hact, hmap, rfl, ?_, rfl⟩
      split
      · rfl
      · rfl
  | mapSelf hact => exact .inl ⟨.loop hact rfl rfl, fun _ _ _ heq => (by cases heq)⟩
  | childStack hact => exact .inl ⟨.loop hact rfl rfl, fun _ _ _ heq => (by cases heq)⟩
  | release hact => exact .inl ⟨.release rfl, fun _ _ _ heq => (by cases heq)⟩
  | exit hlive => exact .inl ⟨.of_exit _ _ _ _, fun _ _ _ heq => (by cases heq)⟩
  | takePage => exact .inl ⟨.same rfl, fun _ _ _ heq => (by cases heq)⟩
  | givePage => exact .inl ⟨.same rfl, fun _ _ _ heq => (by cases heq)⟩

/-- Every step keeps the pages of parents and children in step. -/
theorem Step.covered {s s' : Family} {op : Op} {a : Contents} (hstep : Step s op s')
    (hcount : s.vm.Counted) (hkin : Kindred s) (h : Isolated s a) (hcov : Covered s) :
    Covered s' := by
  have hkin' := hstep.kindred hcount hkin
  intro e shared child phase hact n hpftemp hstack
  have hkeep : ∀ {phase₀ : ForkPhase}, s.act e = .fork shared child phase₀ →
      phase.done = phase₀.done → (∀ e₀ n, op ≠ .mapChild e₀ child n) →
        (s'.vm.map child n).isSome = (decide (n < phase.done) && (s'.vm.map e n).isSome) :=
    fun hact₀ hdone hop => hcov.keep hstep h hkin hkin' hact₀ hact hdone hop hpftemp hstack
  rcases hstep.moves with ⟨hmoves, hop⟩ | ⟨e₁, c₁, shared₁, pn, perm, phase₁, p, w, hop, hact₁,
    hmap, hvm, hdone, hact'⟩
  · cases hmoves with
    | same hact' =>
        rw [hact'] at hact
        exact hkeep hact rfl fun e₀ => hop e₀ child
    | @loop e₁ c₁ shared₁ phase₁ phase₂ hact₁ hact' hdone =>
        by_cases he : e = e₁
        · rw [he, hact', Function.update_self] at hact
          cases hact
          exact hkeep (he ▸ hact₁) hdone fun e₀ => hop e₀ child
        · rw [hact', Function.update_of_ne he] at hact
          exact hkeep hact rfl fun e₀ => hop e₀ child
    | @skip e₁ c₁ shared₁ pn hact₁ hvm hskip hact' =>
        by_cases he : e = e₁
        · subst he
          rw [hact', Function.update_self] at hact
          cases hact
          have hold := hcov e _ _ _ hact₁ n hpftemp hstack
          rw [hvm, hold]
          show (decide (n < pn) && _) = (decide (n < pn + 1) && _)
          by_cases hn : n = pn
          · -- entries of user pages have `PTE_U`
            have hnone : s.vm.map e n = none := by
              cases hmap : s.vm.map e n with
              | none => rfl
              | some x =>
                  have hread := hskip.resolve_left (fun hux => hstack (hn.trans hux)) x.1 x.2
                    (by rw [← hn]; exact hmap)
                  rw [hcount.user e n x.1 x.2 hmap] at hread
                  cases hread
            rw [hnone]
            simp
          · have hiff : n < pn + 1 ↔ n < pn := by omega
            simp only [hiff]
        · rw [hact', Function.update_of_ne he] at hact
          exact hkeep hact rfl fun e₀ => hop e₀ child
    | @exofork e₁ c₁ shared₁ hact₁ hfree hvm hact' =>
        by_cases hc : e = c₁
        · rw [hc, hact', Function.update_self] at hact
          cases hact
        · rw [hact', Function.update_of_ne hc] at hact
          by_cases he : e = e₁
          · rw [he, Function.update_self] at hact
            cases hact
            rw [hvm, hkin.dead child n hfree]
            rfl
          · rw [Function.update_of_ne he] at hact
            exact hkeep hact rfl fun e₀ => hop e₀ child
    | @release e₁ c₁ hact' =>
        by_cases hc : e = c₁
        · rw [hc, hact', Function.update_self] at hact
          cases hact
        · rw [hact', Function.update_of_ne hc] at hact
          by_cases he : e = e₁
          · rw [he, Function.update_self] at hact
            cases hact
          · rw [Function.update_of_ne he] at hact
            exact hkeep hact rfl fun e₀ => hop e₀ child
    | @exit e₁ hact' =>
        by_cases he : e = e₁
        · rw [he, hact', Function.update_self] at hact
          cases hact
        · rw [hact', Function.update_of_ne he] at hact
          exact hkeep hact rfl fun e₀ => hop e₀ child
  · have hc : (s.act e₁).child = some c₁ := by rw [hact₁]; rfl
    by_cases he : e = e₁
    · subst he
      rw [hact', Function.update_self] at hact
      cases hact
      obtain ⟨-, -, -, hne⟩ := hkin.embryo hc
      have hold := hcov e _ _ _ hact₁ n hpftemp hstack
      have hself : ¬ (e = child ∧ n = pn) := fun hat => hne hat.1.symm
      rw [hvm, Vm.map_page_insert, Vm.map_page_insert, if_neg hself, hdone]
      by_cases hn : n = pn
      · rw [if_pos ⟨rfl, hn⟩, hn, hmap]
        simp
      · have hiff : n < pn + 1 ↔ n < pn := by omega
        rw [if_neg fun hat => hn hat.2, hold]
        show (decide (n < pn) && _) = _
        simp only [hiff]
    · rw [hact', Function.update_of_ne he] at hact
      refine hkeep hact rfl fun e₀ n' heq => ?_
      rw [hop] at heq
      obtain ⟨-, rfl, -⟩ := Op.mapChild.inj heq
      exact he (hkin.parent e₁ e c₁ hc (by rw [hact]; rfl))

/-! ## Runs -/

/-- The family before the first `fork`: no writable page, `PTE_SHARE` pages apart, is mapped at two
places. -/
structure Family.Fresh (s : Family) : Prop where
  user : ∀ e, s.act e = .free ∨ s.act e = .user
  idle : ∀ e, s.handler e = none
  dead : ∀ e n, s.act e = .free → s.vm.map e n = none
  counted : s.vm.Counted
  own : ∀ e n p w e' n' w', s.vm.map e n = some (p, w) → hasFlag w pteW = true →
    s.vm.shared p = false → s.vm.map e' n' = some (p, w') → e' = e ∧ n' = n

/-- What the environments read. -/
def Family.contents (s : Family) : Contents := fun e n i =>
  match s.vm.map e n with
  | none => 0
  | some (p, _) => s.vm.mem p i

theorem Family.contents_of_map {s : Family} {e : EnvIx} {n p i : Nat} {w : Word}
    (hmap : s.vm.map e n = some (p, w)) : s.contents e n i = s.vm.mem p i := by
  rw [contents, hmap]

/-- Each environment that runs reads `a`, outside `PTE_SHARE` pages, `PFTEMP` and the exception
stack. -/
def Family.ReadsLike (s : Family) (a : Contents) : Prop :=
  ∀ e n p w, (s.act e).live → s.vm.map e n = some (p, w) → s.vm.shared p = false →
    n ≠ pftempPn → n ≠ uxstackPn → ∀ i < 1024, s.vm.mem p i = a e n i

/-- A store changes no word that another environment reads. -/
def Family.StoresPrivate (s : Family) : Prop :=
  ∀ e n i word s', Step s (.store e n i word) s' → ∀ e' n' p w, e' ≠ e → (s.act e').live →
    s.vm.map e' n' = some (p, w) → s.vm.shared p = false → s'.vm.mem p = s.vm.mem p

/-- When `fork` is about to return, the child maps what its parent maps. -/
def Family.CopiesAll (s : Family) : Prop :=
  ∀ e child, s.act e = .fork false child .last → ∀ n, n ≠ pftempPn → n ≠ uxstackPn →
    (s.vm.map child n).isSome = (s.vm.map e n).isSome

theorem Family.Fresh.child {s : Family} (h : s.Fresh) (e : EnvIx) : (s.act e).child = none := by
  rcases h.user e with hact | hact
  · rw [hact]
    rfl
  · rw [hact]
    rfl

theorem Family.Fresh.kindred {s : Family} (h : s.Fresh) : Kindred s := by
  refine ⟨fun e _ => h.idle e, h.dead, fun e c hc => ?_, fun e e' c hc => ?_⟩
  · rw [h.child e] at hc
    cases hc
  · rw [h.child e] at hc
    cases hc

theorem Family.Fresh.not_fork {s : Family} (h : s.Fresh) {e child : EnvIx} {shared : Bool}
    {phase : ForkPhase} : s.act e ≠ .fork shared child phase := by
  intro hact
  have hnone := h.child e
  rw [hact] at hnone
  cases hnone

theorem Family.Fresh.isolated {s : Family} (h : s.Fresh) : Isolated s s.contents := by
  refine ⟨fun e shared child phase hact => absurd hact h.not_fork, ?_, ?_,
    fun e shared child phase hact => absurd hact h.not_fork, fun e hd hhd => ?_⟩
  · intro e n p w e' n' w' hw hflag hp hw'
    exact .inl (h.own e n p w e' n' w' hw hflag hp hw')
  · intro e n p w hw hp hpftemp hstack
    refine .inr fun i hi => ?_
    rw [contents_of_map hw]
  · rw [h.idle e] at hhd
    cases hhd

/-- No other environment that runs maps a page through which `e` may store. -/
theorem Isolated.stores_private {s : Family} {a : Contents} (h : Isolated s a) (hkin : Kindred s) :
    s.StoresPrivate := by
  intro e n i word s' hstep e' n' p' w' he hlive hmap' hshared
  generalize hop : Op.store e n i word = op at hstep
  cases hstep with
  | @store e₁ n₁ i₁ p w word₁ hact hhandler hmap hw hi =>
      cases hop
      refine Function.update_of_ne (fun hp => ?_) _ _
      subst hp
      rcases h.own e n p' w e' n' w' hmap hw hshared hmap' with
        ⟨heq, -⟩ | ⟨heq, -⟩ | ⟨-, hhalf⟩
      · exact he heq
      · exact he heq
      · rw [hkin.child e e' (Activity.child_of_half hhalf)] at hlive
        exact hlive
  | copy =>
      split at hop
      · cases hop
      · cases hop
  | _ => cases hop

/-- Runs one after the other. -/
theorem FamilyRun.trans {ok : Family → Op → Prop} {s₀ s s' : Family} {ops ops' : List Op}
    (hrun : FamilyRun ok s₀ ops s) (hrun' : FamilyRun ok s ops' s') :
    FamilyRun ok s₀ (ops ++ ops') s' := by
  induction hrun' with
  | nil =>
      rw [List.append_nil]
      exact hrun
  | snoc _ hok hstep ih =>
      rw [← List.append_assoc]
      exact ih.snoc hok hstep

theorem FamilyRun.forward {s₀ s s' : Family} {ops : List Op} {op : Op}
    (hrun : FamilyRun (fun s op => op.Fits s ∧ op.Forks) s₀ ops s) (hstep : Step s op s')
    (hfits : op.Fits s) (hforks : op.Forks) :
    FamilyRun (fun s op => op.Fits s ∧ op.Forks) s₀ (ops ++ [op]) s' :=
  hrun.snoc ⟨hfits, hforks⟩ hstep

/-! ## A store to a copy-on-write page -/

/-- The permissions of the page that `pgfault` maps. -/
def copyFlags : Word := pteU ||| pteW ||| pteP

/-- Environment `e` is in `pgfault` for page number `n`, which maps page `p`. `PFTEMP` maps the new
page `q`, and the first `i` words have been copied. -/
structure Copying (s s' : Family) (e : EnvIx) (n p q i : Nat) : Prop where
  act : s'.act = s.act
  handler : s'.handler = Function.update s.handler e (some (.copying n i))
  installed : s'.installed = s.installed
  map : ∀ e' n', s'.vm.map e' n' =
    if e' = e ∧ n' = pftempPn then some (q, copyFlags) else s.vm.map e' n'
  ref : s'.vm.ref q = 1
  free : ∀ p', p' ≠ q → s.vm.free p' = true → s'.vm.free p' = true
  copied : ∀ j < i, s'.vm.mem q j = s.vm.mem p j
  mem : ∀ p', p' ≠ q → s'.vm.mem p' = s.vm.mem p'
  shared : ∀ p', s'.vm.shared p' = if p' = q then false else s.vm.shared p'

/-- Environment `e` has a copy of page `p` of its own at page number `n`, with word `i` changed. -/
structure Stored (s s' : Family) (e : EnvIx) (n p q i : Nat) (word : Word) : Prop where
  act : s'.act = s.act
  handler : s'.handler = s.handler
  installed : s'.installed = s.installed
  map : ∀ e' n', s'.vm.map e' n' =
    if e' = e ∧ n' = n then some (q, copyFlags) else s.vm.map e' n'
  free : ∀ p', p' ≠ q → s.vm.free p' = true → s'.vm.free p' = true
  copied : ∀ j < 1024, s'.vm.mem q j = if j = i then word else s.vm.mem p j
  mem : ∀ p', p' ≠ q → s'.vm.mem p' = s.vm.mem p'
  shared : ∀ p', s'.vm.shared p' = if p' = q then false else s.vm.shared p'

section CowStore

variable {s : Family} {e : EnvIx} {n p q : Nat} {w : Word}

/-- The fault and the new page. -/
theorem cow_store_starts (hact : s.act e = .user) (hhandler : s.handler e = none)
    (hinst : s.installed e = true) (hmap : s.vm.map e n = some (p, w))
    (hcow : hasFlag w pteCow = true) (hro : hasFlag w pteW = false)
    (hfree : s.vm.free q = true) (hnone : s.vm.map e pftempPn = none) :
    ∃ ops s', FamilyRun (fun s op => op.Fits s ∧ op.Forks) s ops s' ∧ Copying s s' e n p q 0 := by
  have hfault : Step s (.fault e n) _ := .fault (by rw [hact]; trivial) hhandler hinst fun p' w' hmap' => by
    rw [hmap] at hmap'
    cases hmap'
    exact hro
  have halloc : Step (s.setHandler e (some (.entered n))) (.handlerAlloc e n q) _ :=
    .handlerAlloc (Function.update_self _ _ _) hmap hcow hfree
  obtain ⟨href, hother⟩ := Vm.sys_page_alloc_empty (p := q) hnone (pteU ||| pteW ||| pteP)
  refine ⟨_, _, (FamilyRun.nil.forward hfault trivial trivial).forward halloc trivial trivial,
    rfl, Function.update_idem _ _ _, rfl, fun e' n' => Vm.map_sys_page_alloc _ _ _ _ _ _ _, href,
    fun p' hp hfree' => (hother p' hp).2.trans hfree', fun j hj => absurd hj (Nat.not_lt_zero j),
    fun p' hp => ?_, fun p' => ?_⟩
  · show (s.vm.sysPageAlloc e q pftempPn _).mem p' = _
    rw [Vm.mem_sys_page_alloc, if_neg hp]
  · show (s.vm.sysPageAlloc e q pftempPn _).shared p' = _
    rw [Vm.shared_sys_page_alloc]
    rfl

/-- The `memmove` of `pgfault`, by induction on the number of words. -/
theorem Copying.all {s₀ : Family} (hmap : s₀.vm.map e n = some (p, w)) (hn : n ≠ pftempPn)
    (hne : p ≠ q) (hprivate : s₀.vm.shared p = false) (h : Copying s₀ s e n p q 0) :
    ∀ i ≤ 1024, ∃ ops s', FamilyRun (fun s op => op.Fits s ∧ op.Forks) s ops s' ∧
      Copying s₀ s' e n p q i := by
  intro i
  induction i with
  | zero => exact fun _ => ⟨[], s, .nil, h⟩
  | succ i ih =>
      intro hi
      obtain ⟨ops, s', hrun, h'⟩ := ih (by omega)
      have hsrc : s'.vm.map e n = some (p, w) := by
        rw [h'.map, if_neg fun hat => hn hat.2]
        exact hmap
      have hdst : s'.vm.map e pftempPn = some (q, copyFlags) := by
        rw [h'.map, if_pos ⟨rfl, rfl⟩]
      have hshared : s'.vm.shared p = false := by
        rw [h'.shared, if_neg hne]
        exact hprivate
      have hstep := Step.copy (by rw [h'.handler, Function.update_self]) (by omega) hsrc hdst
        (by decide)
      rw [hshared] at hstep
      refine ⟨_, _, hrun.forward hstep trivial trivial, h'.act, ?_, h'.installed, h'.map, h'.ref,
        h'.free, fun j hj => ?_, fun p' hp => ?_, h'.shared⟩
      · show Function.update s'.handler e _ = _
        rw [h'.handler, Function.update_idem]
      · show (s'.vm.setWord q i (s'.vm.mem p i)).mem q j = _
        rw [Vm.mem_set_word]
        by_cases hji : j = i
        · rw [if_pos ⟨rfl, hji⟩, hji, h'.mem p hne]
        · rw [if_neg fun hat => hji hat.2]
          exact h'.copied j (by omega)
      · funext j
        show (s'.vm.setWord q i (s'.vm.mem p i)).mem p' j = _
        rw [Vm.mem_set_word, if_neg fun hat => hp hat.1, h'.mem p' hp]

/-- The new page takes its place, and the store goes through. -/
theorem Copying.stored {s₀ : Family} (hn : n ≠ pftempPn)
    (hpages : n < userPages) (hact : s₀.act e = .user) (hhandler : s₀.handler e = none)
    (hnone : s₀.vm.map e pftempPn = none) (h : Copying s₀ s e n p q 1024) {i : Nat}
    (hi : i < 1024) (word : Word) :
    ∃ ops s', FamilyRun (fun s op => op.Fits s ∧ op.Forks) s ops s' ∧
      Stored s₀ s' e n p q i word := by
  have hsrc : s.vm.map e pftempPn = some (q, copyFlags) := by
    rw [h.map, if_pos ⟨rfl, rfl⟩]
  have hcall : s.vm.sysPageMap e pftempPn e n copyFlags = some (s.vm.pageInsert e q n copyFlags) := by
    have hpftemp : pftempPn < userPages := by
      rw [pftemp_pn_eq, user_pages_eq]
      decide
    unfold Vm.sysPageMap
    rw [if_neg (by omega), if_neg (by decide), hsrc]
    exact if_pos (by decide)
  have hfits : (Op.handlerMap e n).Fits s := by
    intro p' w' hmap'
    rw [hsrc] at hmap'
    cases hmap'
    refine .inr ?_
    rw [h.ref]
    decide
  have hmapped : Step s (.handlerMap e n) _ :=
    .handlerMap (by rw [h.handler, Function.update_self]) hcall
  have hunmapped : Step ((s.setVm (s.vm.pageInsert e q n copyFlags)).setHandler e
      (some (.mapped n))) (.handlerUnmap e) _ := .handlerUnmap (Function.update_self _ _ _)
  have hmap' : ∀ e' n', ((s.vm.pageInsert e q n copyFlags).pageRemove e pftempPn).map e' n' =
      if e' = e ∧ n' = n then some (q, copyFlags) else s₀.vm.map e' n' := by
    intro e' n'
    rw [Vm.map_page_remove]
    by_cases htemp : e' = e ∧ n' = pftempPn
    · rw [if_pos htemp, if_neg fun hat => hn (hat.2.symm.trans htemp.2), htemp.1, htemp.2, hnone]
    · rw [if_neg htemp, Vm.map_page_insert, h.map, if_neg htemp]
      rfl
  have hstore : Step (((s.setVm (s.vm.pageInsert e q n copyFlags)).setHandler e
      (some (.mapped n))).setVm ((s.vm.pageInsert e q n copyFlags).pageRemove e pftempPn)
      |>.setHandler e none) (.store e n i word) _ :=
    .store (by show (s.act e).mayStore n; rw [h.act, hact]; trivial)
      (.inl (Function.update_self _ _ _)) ((hmap' e n).trans (if_pos ⟨rfl, rfl⟩)) (by decide) hi
  refine ⟨_, _, ((FamilyRun.nil.forward hmapped hfits trivial).forward hunmapped trivial
    trivial).forward hstore trivial trivial, h.act, ?_, h.installed, hmap', fun p' hp hfree => ?_,
    fun j hj => ?_, fun p' hp => ?_, fun p' => ?_⟩
  · show Function.update (Function.update s.handler e _) e none = _
    rw [h.handler, Function.update_idem, Function.update_idem, ← hhandler, Function.update_eq_self]
  · exact Vm.free_page_remove (Vm.free_page_insert (h.free p' hp hfree) _ _ _ _) _ _
  · show (((s.vm.pageInsert e q n copyFlags).pageRemove e pftempPn).setWord q i word).mem q j = _
    rw [Vm.mem_set_word, Vm.mem_page_remove, Vm.mem_page_insert]
    by_cases hji : j = i
    · rw [if_pos ⟨rfl, hji⟩, if_pos hji]
    · rw [if_neg fun hat => hji hat.2, if_neg hji]
      exact h.copied j hj
  · funext j
    show (((s.vm.pageInsert e q n copyFlags).pageRemove e pftempPn).setWord q i word).mem p' j = _
    rw [Vm.mem_set_word, if_neg fun hat => hp hat.1, Vm.mem_page_remove, Vm.mem_page_insert]
    exact congrFun (h.mem p' hp) j
  · show ((s.vm.pageInsert e q n copyFlags).pageRemove e pftempPn).shared p' = _
    rw [Vm.shared_page_remove, Vm.shared_page_insert, if_neg fun hat => absurd hat.2 (by decide)]
    exact h.shared p'

/-- A store to a copy-on-write page goes through while a page is free: the environment gets a copy
of its own, and nothing else changes. -/
theorem cow_store (hact : s.act e = .user) (hhandler : s.handler e = none)
    (hinst : s.installed e = true) (hmap : s.vm.map e n = some (p, w))
    (hcow : hasFlag w pteCow = true) (hro : hasFlag w pteW = false) (hn : n ≠ pftempPn)
    (hpages : n < userPages) (hprivate : s.vm.shared p = false) (hfree : s.vm.free q = true)
    (hne : p ≠ q) (hnone : s.vm.map e pftempPn = none) {i : Nat} (hi : i < 1024) (word : Word) :
    ∃ ops s', FamilyRun (fun s op => op.Fits s ∧ op.Forks) s ops s' ∧
      Stored s s' e n p q i word := by
  obtain ⟨ops, s₁, hrun, hstart⟩ :=
    cow_store_starts hact hhandler hinst hmap hcow hro hfree hnone
  obtain ⟨ops', s₂, hrun', hcopied⟩ := hstart.all hmap hn hne hprivate 1024 (Nat.le_refl _)
  obtain ⟨ops'', s₃, hrun'', hstored⟩ := hcopied.stored hn hpages hact hhandler hnone hi word
  exact ⟨_, s₃, (hrun.trans hrun').trans hrun'', hstored⟩

end CowStore

/-! ## A page at many addresses -/

/-- The permissions of a copy-on-write page. -/
def cowFlags : Word := pteCow ||| pteU ||| pteP

/-- Environment 0 maps page 1 copy-on-write at `k` addresses from 0x10000000 on, and page 2 as its
exception stack. Three pages are free. -/
def cowStart (k : Nat) : Family where
  vm :=
    { map := fun e n =>
        if e = 0 ∧ 65536 ≤ n ∧ n < 65536 + k then some (1, cowFlags)
        else if e = 0 ∧ n = uxstackPn then some (2, pteU ||| pteW ||| pteP)
        else none
      ref := fun p => if p = 1 then BitVec.ofNat 16 k else 1
      free := fun p => decide (3 ≤ p ∧ p < 6)
      mem := fun _ _ => 7
      shared := fun _ => false }
  act := fun e => if e = 0 then .user else .free
  handler := fun _ => none
  installed := fun e => decide (e = 0)

/-- What is mapped there. -/
theorem cow_start_map {k : Nat} {e : EnvIx} {n p : Nat} {w : Word}
    (h : (cowStart k).vm.map e n = some (p, w)) :
    (e = 0 ∧ 65536 ≤ n ∧ n < 65536 + k ∧ p = 1 ∧ w = cowFlags) ∨
      (e = 0 ∧ n = uxstackPn ∧ p = 2 ∧ w = pteU ||| pteW ||| pteP) := by
  unfold cowStart at h
  dsimp only at h
  split at h
  · rename_i hat
    cases h
    exact .inl ⟨hat.1, hat.2.1, hat.2.2, rfl, rfl⟩
  · split at h
    · rename_i hat
      cases h
      exact .inr ⟨hat.1, hat.2, rfl, rfl⟩
    · cases h

theorem cow_start_counted {k : Nat} (hk : k < 65536) : (cowStart k).vm.Counted := by
  have hux := uxstack_pn_eq
  refine ⟨fun p => ?_, fun e n p w hmap => ?_, fun e n x hmap => ?_, fun e n p w hmap => ?_,
    fun e n p w hmap hshare => ?_⟩
  · show _ ≤ (if p = 1 then BitVec.ofNat 16 k else 1).toNat
    by_cases hp : p = 1
    · have hle := @Vm.count_le_card (cowStart k).vm p
        ((Finset.range k).image fun j => ((0 : EnvIx), 65536 + j)) fun e n w hmap => by
          rcases cow_start_map hmap with ⟨rfl, hlo, hhi, -⟩ | ⟨-, -, hp2, -⟩
          · refine Finset.mem_image.2 ⟨n - 65536, Finset.mem_range.2 (by omega), ?_⟩
            rw [show 65536 + (n - 65536) = n by omega]
          · omega
      have hcard := Finset.card_image_le (s := Finset.range k)
        (f := fun j => ((0 : EnvIx), 65536 + j))
      rw [Finset.card_range] at hcard
      rw [if_pos hp, BitVec.toNat_ofNat, Nat.mod_eq_of_lt hk]
      omega
    · have hle := @Vm.count_le_card (cowStart k).vm p {((0 : EnvIx), uxstackPn)} fun e n w hmap => by
          rcases cow_start_map hmap with ⟨-, -, -, hp1, -⟩ | ⟨rfl, rfl, -⟩
          · exact absurd hp1 hp
          · exact Finset.mem_singleton_self _
      rw [Finset.card_singleton] at hle
      rw [if_neg hp]
      exact hle
  · show decide (3 ≤ p ∧ p < 6) = false
    rcases cow_start_map hmap with ⟨-, -, -, rfl, -⟩ | ⟨-, -, rfl, -⟩
    · rfl
    · rfl
  · rw [user_pages_eq]
    rcases cow_start_map (p := x.1) (w := x.2) hmap with ⟨-, -, hhi, -⟩ | ⟨-, hn, -⟩
    · omega
    · omega
  · rcases cow_start_map hmap with ⟨-, -, -, -, rfl⟩ | ⟨-, -, -, rfl⟩
    · decide
    · decide
  · rcases cow_start_map hmap with ⟨-, -, -, -, rfl⟩ | ⟨-, -, -, rfl⟩
    · exact absurd hshare (by decide)
    · exact absurd hshare (by decide)

theorem cow_start_fresh {k : Nat} (hk : k < 65536) : (cowStart k).Fresh := by
  refine ⟨fun e => ?_, fun e => rfl, fun e n hfree => ?_, cow_start_counted hk,
    fun e n p w e' n' w' hw hflag _ hw' => ?_⟩
  · by_cases he : e = 0
    · exact .inr (if_pos he)
    · exact .inl (if_neg he)
  · have he : e ≠ 0 := by
      intro he
      rw [show (cowStart k).act e = .user from if_pos he] at hfree
      cases hfree
    cases hmap : (cowStart k).vm.map e n with
    | none => rfl
    | some x =>
        rcases cow_start_map (p := x.1) (w := x.2) hmap with ⟨he', -⟩ | ⟨he', -⟩
        · exact absurd he' he
        · exact absurd he' he
  · rcases cow_start_map hw with ⟨-, -, -, -, rfl⟩ | ⟨rfl, rfl, rfl, -⟩
    · exact absurd hflag (by decide)
    · rcases cow_start_map hw' with ⟨-, -, -, hp, -⟩ | ⟨he', hn', -⟩
      · exact absurd hp (by decide)
      · exact ⟨he', hn'⟩

/-- A run in which nothing happens to what environment 0 should read. -/
def QuietRun (ok : Family → Op → Prop) (s₀ s : Family) : Prop :=
  ∃ ops, FamilyRun ok s₀ ops s ∧ ∀ a, EagerRun s₀.contents ops a → a 0 = s₀.contents 0

/-- The condition allows every step with `fork`. For a page at few addresses it may demand room. -/
def Allows (ok : Family → Op → Prop) (k : Nat) : Prop :=
  ∀ s op, op.Forks → (k ≤ 32767 → op.Fits s) → ok s op

variable {ok : Family → Op → Prop}

theorem EagerRun.snoc_inv {a₀ a : Contents} {ops : List Op} {op : Op}
    (h : EagerRun a₀ (ops ++ [op]) a) : ∃ a', EagerRun a₀ ops a' ∧ op.Eager a' a := by
  generalize hl : ops ++ [op] = l at h
  cases h with
  | nil => exact absurd hl (by simp)
  | snoc hrun hstep =>
      obtain ⟨rfl, hop⟩ := List.append_inj' hl rfl
      obtain rfl := List.head_eq_of_cons_eq hop
      exact ⟨_, hrun, hstep⟩

theorem QuietRun.start (s₀ : Family) : QuietRun ok s₀ s₀ := by
  refine ⟨[], .nil, fun a ha => ?_⟩
  generalize hl : ([] : List Op) = l at ha
  cases ha with
  | nil => rfl
  | snoc => exact absurd hl (by simp)

theorem QuietRun.step {s₀ s s' : Family} {op : Op} (h : QuietRun ok s₀ s) (hstep : Step s op s')
    (hok : ok s op) (hquiet : ∀ a a', op.Eager a a' → a' 0 = a 0) : QuietRun ok s₀ s' := by
  obtain ⟨ops, hrun, hsame⟩ := h
  refine ⟨ops ++ [op], hrun.snoc hok hstep, fun a ha => ?_⟩
  obtain ⟨a', hrun', heager⟩ := ha.snoc_inv
  rw [hquiet a' a heager]
  exact hsame a' hrun'

/-- The state at page `j` of the loop of `fork`. -/
structure CowLoop (k : Nat) (s : Family) (j : Nat) : Prop where
  act : s.act 0 = .fork false 1 (.scan j)
  idle : ∀ e, s.handler e = none
  parent : s.vm.map 0 = (cowStart k).vm.map 0
  child : ∀ n, s.vm.map 1 n =
    if 65536 ≤ n ∧ n < 65536 + k ∧ n < j then some (1, cowFlags) else none
  ref : s.vm.ref 1 = BitVec.ofNat 16 (k + min (j - 65536) k)
  free : s.vm.free = (cowStart k).vm.free
  mem : s.vm.mem 1 = fun _ => 7
  shared : s.vm.shared 1 = false
  installed : s.installed 0 = true ∧ s.installed 1 = true

/-- The state after `fork`. -/
structure CowForked (k : Nat) (s : Family) : Prop where
  act : s.act 0 = .user
  childAct : s.act 1 = .user
  idle : ∀ e, s.handler e = none
  parent : s.vm.map 0 = (cowStart k).vm.map 0
  child : ∀ n, n ≠ uxstackPn → s.vm.map 1 n =
    if 65536 ≤ n ∧ n < 65536 + k then some (1, cowFlags) else none
  ref : s.vm.ref 1 = BitVec.ofNat 16 (k + k)
  free : s.vm.free 4 = true ∧ s.vm.free 5 = true
  mem : s.vm.mem 1 = fun _ => 7
  shared : s.vm.shared 1 = false
  installed : s.installed 0 = true ∧ s.installed 1 = true

theorem Family.act_set_act (s : Family) (e : EnvIx) (a : Activity) : (s.setAct e a).act e = a :=
  Function.update_self _ _ _

theorem cow_perm : duppagePerm cowFlags cowFlags = cowFlags := by decide

/-- A page that is not mapped, or the exception stack, is skipped. -/
theorem CowLoop.skip {k j : Nat} {s₀ s : Family} (h : CowLoop k s j) (hok : Allows ok k)
    (hrun : QuietRun ok s₀ s) (hj : j < userPages) (hout : ¬ (65536 ≤ j ∧ j < 65536 + k)) :
    ∃ s', QuietRun ok s₀ s' ∧ CowLoop k s' (j + 1) := by
  refine ⟨_, hrun.step (.skip h.act (h.idle 0) hj ?_) (hok _ _ trivial fun _ => trivial)
    fun a a' ha => by rw [ha], ?_⟩
  · by_cases hux : j = uxstackPn
    · exact .inl hux
    · refine .inr fun p w hmap => ?_
      rw [h.parent] at hmap
      rcases cow_start_map hmap with ⟨-, hlo, hhi, -⟩ | ⟨-, hn, -⟩
      · exact absurd ⟨hlo, hhi⟩ hout
      · exact absurd hn hux
  · refine ⟨Family.act_set_act _ _ _, h.idle, h.parent, fun n => ?_, ?_, h.free, h.mem, h.shared,
      h.installed⟩
    · refine (h.child n).trans ?_
      by_cases hn : 65536 ≤ n ∧ n < 65536 + k ∧ n < j
      · rw [if_pos hn, if_pos ⟨hn.1, hn.2.1, by omega⟩]
      · rw [if_neg hn, if_neg fun hat => hn ⟨hat.1, hat.2.1, by omega⟩]
    · have hmin : min (j - 65536) k = min (j + 1 - 65536) k := by omega
      rw [← hmin]
      exact h.ref

/-- A copy-on-write page is mapped in the child and once more in the parent. -/
theorem CowLoop.dup {k j : Nat} {s₀ s : Family} (h : CowLoop k s j) (hok : Allows ok k)
    (hrun : QuietRun ok s₀ s) (hj : j < userPages) (hlo : 65536 ≤ j) (hhi : j < 65536 + k)
    (hux : j ≠ uxstackPn) : ∃ s', QuietRun ok s₀ s' ∧ CowLoop k s' (j + 1) := by
  have hmap : s.vm.map 0 j = some (1, cowFlags) := by
    rw [h.parent]
    exact if_pos ⟨rfl, hlo, hhi⟩
  have hcall : ∀ (v v' : Vm) (e : EnvIx), v.map 0 j = some (1, cowFlags) →
      v.pageInsert e 1 j cowFlags = v' → v.sysPageMap 0 j e j cowFlags = some v' := by
    intro v v' e hv hinsert
    unfold Vm.sysPageMap
    rw [if_neg (by omega), if_neg (by decide), hv, ← hinsert]
    exact if_pos (by decide)
  have hinsert : s.vm.pageInsert 1 1 j cowFlags = s.vm.pageInsertNew 1 1 j cowFlags := by
    have hchild : s.vm.map 1 j = none := by
      rw [h.child, if_neg (by omega)]
    unfold Vm.pageInsert
    rw [hchild]
  have hmap' : (s.vm.pageInsertNew 1 1 j cowFlags).map 0 j = some (1, cowFlags) := by
    rw [← hinsert, Vm.map_page_insert, if_neg fun hat => absurd hat.1 (by decide)]
    exact hmap
  have hinsert' : (s.vm.pageInsertNew 1 1 j cowFlags).pageInsert 0 1 j cowFlags =
      (s.vm.pageInsertNew 1 1 j cowFlags).putEntry 0 1 j cowFlags := by
    unfold Vm.pageInsert
    rw [hmap']
    exact if_pos rfl
  have hfits : ∀ s' : Family, s'.vm = s.vm → k ≤ 32767 → (Op.mapChild 0 1 j).Fits s' := by
    intro s' hvm hk p w hw
    rw [hvm, hmap] at hw
    cases hw
    refine .inr ?_
    rw [hvm, h.ref, BitVec.toNat_ofNat]
    omega
  have hread := hrun.step (.read h.act (h.idle 0) hj hux hmap (by decide))
    (hok _ _ trivial fun _ => trivial) fun a a' ha => by rw [ha]
  have hcompute := hread.step (.compute (Family.act_set_act _ _ _) (h.idle 0) hmap)
    (hok _ _ trivial fun _ => trivial) fun a a' ha => by rw [ha]
  rw [if_pos (show dups false j = true from rfl), cow_perm] at hcompute
  have hmapped := hcompute.step
    (.mapChild (Family.act_set_act _ _ _) (h.idle 0) (hcall _ _ 1 hmap hinsert))
    (hok _ _ trivial (hfits _ rfl)) fun a a' ha => by
      rw [show a' = a.copyPage 0 1 j from ha]
      exact Function.update_of_ne (by decide) _ _
  rw [if_pos (show (dups false j && hasFlag cowFlags pteCow) = true from rfl)] at hmapped
  refine ⟨_, hmapped.step
    (.mapSelf (Family.act_set_act _ _ _) (h.idle 0) (hcall _ _ 0 hmap' hinsert'))
    (hok _ _ trivial fun _ => trivial) fun a a' ha => ?_, ?_⟩
  · rcases ha with ha | ha
    · rw [ha]
    · rw [ha]
      exact Function.update_of_ne (by decide) _ _
  · refine ⟨Family.act_set_act _ _ _, h.idle, ?_, fun n => ?_, ?_, h.free, h.mem, ?_, h.installed⟩
    · funext n
      show ((s.vm.pageInsertNew 1 1 j cowFlags).putEntry 0 1 j cowFlags).map 0 n = _
      rw [Vm.map_put_entry, Vm.pageInsertNew, Vm.map_put_entry, h.parent]
      by_cases hn : n = j
      · rw [if_pos ⟨rfl, hn⟩, ← h.parent, hn, hmap]
        rfl
      · rw [if_neg fun hat => hn hat.2, if_neg fun hat => hn hat.2, ← h.parent]
    · show ((s.vm.pageInsertNew 1 1 j cowFlags).putEntry 0 1 j cowFlags).map 1 n = _
      rw [Vm.map_put_entry, if_neg fun hat => absurd hat.1 (by decide), Vm.pageInsertNew,
        Vm.map_put_entry]
      by_cases hn : n = j
      · rw [if_pos ⟨rfl, hn⟩, if_pos (by omega)]
        rfl
      · rw [if_neg fun hat => hn hat.2]
        refine (h.child n).trans ?_
        by_cases hat : 65536 ≤ n ∧ n < 65536 + k ∧ n < j
        · rw [if_pos hat, if_pos ⟨hat.1, hat.2.1, by omega⟩]
        · rw [if_neg hat, if_neg fun hat' => hat ⟨hat'.1, hat'.2.1, by omega⟩]
    · have hmin : k + min (j - 65536) k + 1 = k + min (j + 1 - 65536) k := by omega
      have href : Function.update s.vm.ref 1 (s.vm.ref 1 + 1) 1 =
          BitVec.ofNat 16 (k + min (j - 65536) k + 1) := by
        rw [Function.update_self, h.ref, BitVec.ofNat_add (k + min (j - 65536) k) 1]
        rfl
      rw [hmin] at href
      exact href
    · have hflag : hasFlag cowFlags pteShare = false := by decide
      show (if 1 = 1 ∧ hasFlag cowFlags pteShare = true then true else
        if 1 = 1 ∧ hasFlag cowFlags pteShare = true then true else s.vm.shared 1) = false
      rw [hflag]
      exact h.shared

/-- The loop of `fork`, from page `j` on. -/
theorem CowLoop.scan {k : Nat} {s₀ : Family} (hk : k < 65536) (hok : Allows ok k) :
    ∀ m j s, j + m = userPages → QuietRun ok s₀ s → CowLoop k s j →
      ∃ s', QuietRun ok s₀ s' ∧ CowLoop k s' userPages := by
  intro m
  induction m with
  | zero =>
      intro j s hj hrun h
      obtain rfl : j = userPages := hj
      exact ⟨s, hrun, h⟩
  | succ m ih =>
      intro j s hj hrun h
      have hlt : j < userPages := by omega
      have hux := uxstack_pn_eq
      have hnext : ∃ s', QuietRun ok s₀ s' ∧ CowLoop k s' (j + 1) := by
        by_cases hin : 65536 ≤ j ∧ j < 65536 + k
        · exact h.dup hok hrun hlt hin.1 hin.2 (by omega)
        · exact h.skip hok hrun hlt hin
      obtain ⟨s', hrun', h'⟩ := hnext
      exact ih (j + 1) s' (by omega) hrun' h'

/-- What is left of the family after an exit of environment 1 that leaves memory `v`. -/
theorem QuietRun.after_exit {s₀ s : Family} {v : Vm} (installed : EnvIx → Bool)
    (hnext : QuietRun ok s₀ { ((s.setVm v).setAct 1 .free).setHandler 1 none with
      installed := installed })
    (hmap : v.map 0 = s.vm.map 0) (hmem : v.mem = s.vm.mem) (hshared : v.shared = s.vm.shared) :
    ∃ s', QuietRun ok s₀ s' ∧ s'.act 0 = s.act 0 ∧ s'.handler 0 = s.handler 0 ∧
      s'.installed 0 = installed 0 ∧ s'.vm.map 0 = s.vm.map 0 ∧ s'.vm.mem = s.vm.mem ∧
      s'.vm.shared = s.vm.shared ∧ s'.vm.free = v.free := by
  have hne : (0 : EnvIx) ≠ 1 := by decide
  exact ⟨_, hnext, Function.update_of_ne hne Activity.free s.act,
    Function.update_of_ne hne none s.handler, rfl, hmap, hmem, hshared, rfl⟩

/-- The child exits. -/
theorem QuietRun.exit_child {s₀ s : Family} (hrun : QuietRun ok s₀ s) (hlive : (s.act 1).live)
    (hok : ok s (.exit 1)) : ∃ s', QuietRun ok s₀ s' ∧ s'.act 0 = s.act 0 ∧
      s'.handler 0 = s.handler 0 ∧
      s'.installed 0 = s.installed 0 ∧ s'.vm.map 0 = s.vm.map 0 ∧ s'.vm.mem = s.vm.mem ∧
      s'.vm.shared = s.vm.shared ∧ s'.vm.free = (s.vm.envFree 1).free := by
  have hne : (0 : EnvIx) ≠ 1 := by decide
  have hmap : (s.vm.envFree 1).map 0 = s.vm.map 0 := by
    funext n
    rw [Vm.map_env_free, if_neg fun hat => hne hat.1]
  have hnext := hrun.step (.exit hlive) hok fun a a' ha => by rw [ha]
  have hafter := QuietRun.after_exit _ hnext hmap (Vm.mem_env_free _ _) (Vm.shared_env_free _ _)
  rwa [Function.update_of_ne hne] at hafter

/-- The loop is done: the child gets its exception stack and runs. -/
theorem CowLoop.finish {k : Nat} {s₀ s : Family} (h : CowLoop k s userPages) (hk : k < 65536)
    (hok : Allows ok k) (hrun : QuietRun ok s₀ s) : ∃ s', QuietRun ok s₀ s' ∧ CowForked k s' := by
  have hux := uxstack_pn_eq
  have hpages := user_pages_eq
  have hfree : s.vm.free 3 = true := by rw [h.free]; rfl
  have hnone : s.vm.map 1 uxstackPn = none := by
    rw [h.child, if_neg (by omega)]
  obtain ⟨-, hother⟩ := Vm.sys_page_alloc_empty (p := 3) hnone (pteU ||| pteW)
  have hstack := hrun.step (.childStack h.act (h.idle 0) hfree) (hok _ _ trivial fun _ => trivial)
    fun a a' ha => by rw [ha]
  have hrelease := hstack.step (.release (Family.act_set_act _ _ _) (h.idle 0))
    (hok _ _ trivial fun _ => trivial) fun a a' ha => by rw [ha]
  refine ⟨_, hrelease, ?_, Family.act_set_act _ _ _, h.idle, ?_, fun n hn => ?_, ?_,
    ⟨(hother 4 (by decide)).2.trans (by rw [h.free]; rfl),
      (hother 5 (by decide)).2.trans (by rw [h.free]; rfl)⟩, ?_, ?_, h.installed⟩
  · simp [Family.setAct]
  · funext n
    show (s.vm.sysPageAlloc 1 3 uxstackPn _).map 0 n = _
    rw [Vm.map_sys_page_alloc, if_neg fun hat => absurd hat.1 (by decide), h.parent]
  · show (s.vm.sysPageAlloc 1 3 uxstackPn _).map 1 n = _
    rw [Vm.map_sys_page_alloc, if_neg fun hat => hn hat.2, h.child]
    by_cases hin : 65536 ≤ n ∧ n < 65536 + k
    · rw [if_pos hin, if_pos ⟨hin.1, hin.2, by omega⟩]
    · rw [if_neg hin, if_neg fun hat => hin ⟨hat.1, hat.2.1⟩]
  · refine (hother 1 (by decide)).1.trans ?_
    rw [h.ref, show min (userPages - 65536) k = k by omega]
  · show (s.vm.sysPageAlloc 1 3 uxstackPn _).mem 1 = _
    rw [Vm.mem_sys_page_alloc, if_neg (by decide), h.mem]
  · show (s.vm.sysPageAlloc 1 3 uxstackPn _).shared 1 = _
    rw [Vm.shared_sys_page_alloc, if_neg (by decide), h.shared]

/-- A whole `fork`. -/
theorem cow_start_forks {k : Nat} (hk : k < 65536) (hok : Allows ok k) :
    ∃ s, QuietRun ok (cowStart k) s ∧ CowForked k s := by
  have hstart : QuietRun ok (cowStart k) (cowStart k) := .start _
  have hexofork := hstart.step (@Step.exofork (cowStart k) 0 1 false rfl rfl rfl rfl)
    (hok _ _ rfl fun _ => trivial) fun a a' ha => by rw [ha]
  obtain ⟨s, hrun, h⟩ := CowLoop.scan hk hok userPages 0 _ (Nat.zero_add _) hexofork (by
    refine ⟨rfl, fun _ => rfl, rfl, fun n => ?_, rfl, rfl, rfl, rfl, rfl, rfl⟩
    rw [if_neg (by omega)]
    rfl)
  exact h.finish hk hok hrun

/-! ## Isolation -/

/-- What holds in every state of a run. -/
theorem FamilyRun.isolated {s₀ s : Family} {ops : List Op} (hfresh : s₀.Fresh)
    (hrun : FamilyRun (fun s op => op.Fits s ∧ op.Forks) s₀ ops s) :
    s.vm.Counted ∧ Kindred s ∧ Covered s ∧ ∃ a, EagerRun s₀.contents ops a ∧ Isolated s a := by
  induction hrun with
  | nil =>
      exact ⟨hfresh.counted, hfresh.kindred,
        fun e shared child phase hact => absurd hact hfresh.not_fork,
        s₀.contents, .nil, hfresh.isolated⟩
  | snoc hrun hok hstep ih =>
      obtain ⟨hcount, hkin, hcov, a, hrun', h⟩ := ih
      obtain ⟨a', heager, h'⟩ := hstep.isolated hcount hkin hok.2 h
      exact ⟨hstep.counted hcount hok.1, hstep.kindred hcount hkin,
        hstep.covered hcount hkin h hcov, a', hrun'.snoc heager, h'⟩

/-- Copy-on-write isolation: while reference counters have room, every environment reads what it
would read after eager copies, stores stay private, and no page is left out of a copy. -/
theorem fork_isolates {s₀ s : Family} {ops : List Op} (hfresh : s₀.Fresh)
    (hrun : FamilyRun (fun s op => op.Fits s ∧ op.Forks) s₀ ops s) :
    (∃ a, EagerRun s₀.contents ops a ∧ s.ReadsLike a) ∧ s.StoresPrivate ∧ s.CopiesAll := by
  obtain ⟨hcount, hkin, hcov, a, hrun', h⟩ := hrun.isolated hfresh
  refine ⟨⟨a, hrun', fun e n p w hlive hmap hshared hpftemp hstack =>
    h.reads hkin hlive hmap hshared hpftemp hstack⟩, h.stores_private hkin, ?_⟩
  intro e child hact n hpftemp hstack
  have hcovered := hcov e false child .last hact n hpftemp hstack
  by_cases hn : n < userPages
  · rw [hcovered]
    show (decide (n < userPages) && _) = _
    rw [decide_eq_true hn, Bool.true_and]
  · have hnone : s.vm.map e n = none := by
      cases hmap : s.vm.map e n with
      | none => rfl
      | some x => exact absurd (hcount.range e n x hmap) hn
    rw [hcovered, hnone]
    simp

/-- `fork_isolates` for a page that is copy-on-write in a parent and its child, after both have
stored to it. -/
theorem fork_isolates_both_store : ∃ ops s,
    FamilyRun (fun s op => op.Fits s ∧ op.Forks) (cowStart 1) ops s ∧
    s.act 0 = .user ∧ s.act 1 = .user ∧
    (s.contents 0 65536 0 = 8 ∧ s.contents 0 65536 1 = 7) ∧
    (s.contents 1 65536 0 = 9 ∧ s.contents 1 65536 1 = 7) ∧
    (∃ a, EagerRun (cowStart 1).contents ops a ∧ s.ReadsLike a) ∧ s.StoresPrivate ∧
    s.CopiesAll := by
  have hpftemp := pftemp_pn_eq
  have hux := uxstack_pn_eq
  have hpages := user_pages_eq
  have hok : Allows (fun s op => op.Fits s ∧ op.Forks) 1 :=
    fun s op hforks hfits => ⟨hfits (by decide), hforks⟩
  obtain ⟨s, ⟨ops, hrun, -⟩, h⟩ := cow_start_forks (k := 1) (by decide) hok
  -- the parent stores 8
  have hmap₀ : s.vm.map 0 65536 = some (1, cowFlags) := by rw [h.parent]; rfl
  have hnone₀ : s.vm.map 0 pftempPn = none := by
    rw [h.parent]
    cases hmap : (cowStart 1).vm.map 0 pftempPn with
    | none => rfl
    | some x =>
        rcases cow_start_map (p := x.1) (w := x.2) hmap with ⟨-, hlo, -⟩ | ⟨-, hn, -⟩
        · omega
        · omega
  obtain ⟨ops₀, s₀, hrun₀, h₀⟩ := cow_store h.act (h.idle 0) h.installed.1 hmap₀ (by decide)
    (by decide) (by omega) (by omega) h.shared h.free.1 (by decide) hnone₀ (i := 0) (by decide) 8
  -- the child stores 9
  have hmap₁ : s₀.vm.map 1 65536 = some (1, cowFlags) := by
    rw [h₀.map, if_neg fun hat => absurd hat.1 (by decide), h.child _ (by omega), if_pos (by omega)]
  have hnone₁ : s₀.vm.map 1 pftempPn = none := by
    rw [h₀.map, if_neg fun hat => absurd hat.1 (by decide), h.child _ (by omega), if_neg (by omega)]
  obtain ⟨ops₁, s₁, hrun₁, h₁⟩ := cow_store (q := 5) (by rw [h₀.act, h.childAct])
    (by rw [h₀.handler, h.idle]) (by rw [h₀.installed, h.installed.2]) hmap₁ (by decide)
    (by decide) (by omega) (by omega) (by rw [h₀.shared, if_neg (by decide), h.shared])
    (h₀.free 5 (by decide) h.free.2) (by decide) hnone₁ (i := 0) (by decide) 9
  have hall := (hrun.trans hrun₀).trans hrun₁
  have hread₀ : ∀ i < 1024, s₁.contents 0 65536 i = if i = 0 then 8 else 7 := by
    intro i hi
    have hmap : s₁.vm.map 0 65536 = some (4, copyFlags) := by
      rw [h₁.map, if_neg fun hat => absurd hat.1 (by decide), h₀.map, if_pos ⟨rfl, rfl⟩]
    rw [Family.contents_of_map hmap, h₁.mem 4 (by decide), h₀.copied i hi, h.mem]
  have hread₁ : ∀ i < 1024, s₁.contents 1 65536 i = if i = 0 then 9 else 7 := by
    intro i hi
    have hmap : s₁.vm.map 1 65536 = some (5, copyFlags) := by
      rw [h₁.map, if_pos ⟨rfl, rfl⟩]
    rw [Family.contents_of_map hmap, h₁.copied i hi, h₀.mem 1 (by decide), h.mem]
  refine ⟨_, s₁, hall, by rw [h₁.act, h₀.act, h.act], by rw [h₁.act, h₀.act, h.childAct],
    ⟨hread₀ 0 (by decide), hread₀ 1 (by decide)⟩, ⟨hread₁ 0 (by decide), hread₁ 1 (by decide)⟩,
    fork_isolates (cow_start_fresh (by decide)) hall⟩

/-- A page mapped at 32769 addresses before a `fork` has 65538 mappings after it, but a counter of
two. When the child exits the page is freed. The copy-on-write fault of the parent that takes it
zeroes it, and the parent reads zeros at the other addresses. -/
theorem fork_ref_wraps : ∃ s₀ ops s, s₀.Fresh ∧ FamilyRun (fun _ op => op.Forks) s₀ ops s ∧
    ¬ ∃ a, EagerRun s₀.contents ops a ∧ s.ReadsLike a := by
  have hpftemp := pftemp_pn_eq
  have hux := uxstack_pn_eq
  have hpages := user_pages_eq
  have hstart := cow_start_fresh (k := 32769) (by decide)
  have hok : Allows (fun _ op => op.Forks) 32769 := fun _ _ hforks _ => hforks
  obtain ⟨s₁, hrun₁, h⟩ := cow_start_forks (by decide) hok
  generalize hs₀ : cowStart 32769 = s₀ at hstart hrun₁
  have hcow : ∀ n, n = 65536 ∨ n = 65537 → s₁.vm.map 1 n = some (1, cowFlags) ∧
      s₁.vm.map 0 n = some (1, cowFlags) := by
    intro n hn
    refine ⟨?_, ?_⟩
    · rw [h.child n (by omega), if_pos (by omega)]
    · rw [h.parent]
      exact if_pos ⟨rfl, by omega, by omega⟩
  -- the child's first two pages take the counter from two to zero
  have hfree : (s₁.vm.envFree 1).free 1 = true := by
    refine Vm.free_env_free_of_two ?_ (fun m hm => ?_) (hcow 65536 (.inl rfl)).1 (hcow 65537 (.inr rfl)).1
      (by omega)
    · rw [h.ref]
      decide
    · rw [h.child m (by omega), if_neg (by omega)]
  obtain ⟨s₂, hrun₂, hact₂, hidle₂, hinst₂, hmap₂, hmem₂, hshared₂, hfree₂⟩ :=
    hrun₁.exit_child (by rw [h.childAct]; trivial) trivial
  have hcow₂ : ∀ n, n = 65536 ∨ n = 65537 → s₂.vm.map 0 n = some (1, cowFlags) := by
    intro n hn
    rw [hmap₂]
    exact (hcow n hn).2
  have hfault := hrun₂.step (.fault (e := 0) (n := 65536) (by rw [hact₂, h.act]; trivial)
    (by rw [hidle₂, h.idle]) (by rw [hinst₂, h.installed.1]) fun p w hmap => by
      rw [hcow₂ _ (.inl rfl)] at hmap
      cases hmap
      decide) trivial fun a a' ha => by rw [ha]
  have halloc := hfault.step (.handlerAlloc (p := 1) (Function.update_self _ _ _)
    (hcow₂ _ (.inl rfl)) (by decide) (by rw [← hfree₂] at hfree; exact hfree)) trivial
    fun a a' ha => by rw [ha]
  obtain ⟨ops, hops, hsame⟩ := halloc
  refine ⟨s₀, ops, _, hstart, hops, ?_⟩
  intro hex
  obtain ⟨a, ha, hreads⟩ := hex
  have hlive : (s₂.act 0).live := by
    rw [hact₂, h.act]
    trivial
  have hword := hreads 0 65537 1 cowFlags hlive (by
      show (s₂.vm.sysPageAlloc 0 1 pftempPn _).map 0 65537 = _
      rw [Vm.map_sys_page_alloc, if_neg (by omega)]
      exact hcow₂ _ (.inr rfl)) (by
      show (s₂.vm.sysPageAlloc 0 1 pftempPn _).shared 1 = _
      rw [Vm.shared_sys_page_alloc, if_pos rfl]
      decide) (by omega) (by omega) 0 (by decide)
  have hzero : (s₂.vm.sysPageAlloc 0 1 pftempPn (pteU ||| pteW ||| pteP)).mem 1 0 = 0 := by
    rw [Vm.mem_sys_page_alloc, if_pos rfl]
  rw [hsame a ha, ← hs₀] at hword
  have hseven : (cowStart 32769).contents 0 65537 0 = 7 := rfl
  rw [hseven] at hword
  exact absurd (hzero.symm.trans hword) (by decide)

end Labs.Jos.Fork
