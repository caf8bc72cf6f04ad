import Labs.Jos.AddrSpace

/-!
# `fork` and `sfork`

The user-level library code of `lib/fork.c`, `lib/sfork.c` and `lib/pgfault.c`, for a family of
environments that run it side by side. One step is a system call, a read of `uvpt`, the copy of
one word, a fault, or a store of the program; steps of different environments interleave in any
order. A child of `sys_exofork` runs from the moment its parent has marked it runnable.
-/

namespace Labs.Jos.Fork

def pteCow : Word := 0x800

/-- The page number of `PFTEMP`. -/
def pftempPn : Nat := pgnum (ptsize + ptsize - pgsizeW)

/-- The page number of the exception stack. -/
def uxstackPn : Nat := pgnum (uxstacktop - pgsizeW)

/-- The page number of the user stack. -/
def ustackPn : Nat := pgnum (ustacktop - pgsizeW)

theorem pftemp_pn_eq : pftempPn = 2047 := by decide

theorem uxstack_pn_eq : uxstackPn = 977919 := by decide +kernel

theorem ustack_pn_eq : ustackPn = 977917 := by decide +kernel

/-- The permissions with which `duppage` maps the page of the child. It reads `uvpt[pn]` once for
`perm` and once more for the test of `PTE_SHARE`; `first` and `second` are the two entries. -/
def duppagePerm (first second : Word) : Word :=
  let perm := first &&& pteSyscall
  if hasFlag second pteShare then (second &&& pteSyscall) ||| pteShare
  else if hasFlag perm pteW then (perm &&& ~~~pteW) ||| pteCow
  else perm

/-- The permissions with which `sharepage` maps the page of the child. -/
def sharepagePerm (first second : Word) : Word :=
  let perm := first &&& pteSyscall
  if hasFlag second pteShare then perm ||| pteShare
  else if hasFlag perm pteW then (perm &&& ~~~pteCow) ||| pteShare ||| pteW
  else perm

/-- `is_stack_page` for the pages that the loop of `sfork` does not skip. -/
def isStackPage (pn : Nat) : Bool := pn = uxstackPn ∨ pn = ustackPn

/-- The loop hands page `pn` to `duppage`; otherwise to `sharepage`. -/
def dups (shared : Bool) (pn : Nat) : Bool := !shared || isStackPage pn

/-- Where the parent is in `fork` or `sfork`, after `sys_exofork`. -/
inductive ForkPhase where
  /-- At the head of the loop. -/
  | scan (pn : Nat)
  /-- `duppage` or `sharepage` has read `uvpt[pn]` for the first time. -/
  | read (pn : Nat) (first : Word)
  /-- It has computed `perm`. -/
  | perm (pn : Nat) (perm : Word)
  /-- `duppage` has mapped a copy-on-write page in the child but not yet again in the parent. -/
  | mapped (pn : Nat) (perm : Word)
  /-- The child has its exception stack. -/
  | last

/-- What an environment is doing. -/
inductive Activity where
  | free
  /-- Created by `sys_exofork`, not runnable yet. -/
  | embryo
  /-- Running its program. -/
  | user
  /-- In `fork`, or in `sfork` if `shared`, with the new environment `child`. -/
  | fork (shared : Bool) (child : EnvIx) (phase : ForkPhase)

/-- Where an environment is in `pgfault`, for page number `n`. -/
inductive Handler where
  | entered (n : Nat)
  /-- `PFTEMP` maps a new page, and `memmove` has copied the first `i` words. -/
  | copying (n i : Nat)
  /-- The new page is mapped at `n` as well. -/
  | mapped (n : Nat)

/-- The environments of a family. `installed` is set while `_pgfault_handler` is not null. -/
structure Family where
  vm : Vm
  act : EnvIx → Activity
  handler : EnvIx → Option Handler
  installed : EnvIx → Bool

/-- The environment that is being forked. -/
def Activity.child : Activity → Option EnvIx
  | .free => none
  | .embryo => none
  | .user => none
  | .fork _ child _ => some child

/-- The page that `duppage` has mapped copy-on-write in the child but not yet in the parent. -/
def Activity.half : Activity → Option (EnvIx × Nat)
  | .fork _ child (.mapped pn _) => some (child, pn)
  | _ => none

/-- The activity up to the progress of `fork`. -/
def Activity.stage : Activity → Activity
  | .free => .free
  | .embryo => .embryo
  | .user => .user
  | .fork shared child _ => .fork shared child .last

/-- The environment may run. -/
def Activity.live : Activity → Prop
  | .free => False
  | .embryo => False
  | .user => True
  | .fork _ _ _ => True

/-- A program stores anywhere. Code called from `fork` may do so too, but `sfork` stores in its
stack frames only. -/
def Activity.mayStore (n : Nat) : Activity → Prop
  | .free => False
  | .embryo => False
  | .user => True
  | .fork shared _ _ => shared = true → isStackPage n = true

/-- The steps of a family. -/
inductive Op where
  | store (e : EnvIx) (n i : Nat) (word : Word)
  | fault (e : EnvIx) (n : Nat)
  | handlerAlloc (e : EnvIx) (n p : Nat)
  | copy (e : EnvIx) (n i : Nat)
  /-- The handler copies a word that it finds in a page shared by `PTE_SHARE`. -/
  | fetch (e : EnvIx) (n i : Nat) (word : Word)
  | handlerMap (e : EnvIx) (n : Nat)
  | handlerUnmap (e : EnvIx)
  | install (e : EnvIx) (p : Nat)
  | exofork (e child : EnvIx) (shared : Bool)
  | skip (e : EnvIx)
  | read (e : EnvIx)
  | compute (e : EnvIx)
  | mapChild (e child : EnvIx) (pn : Nat)
  | mapSelf (e child : EnvIx) (pn : Nat)
  | childStack (e : EnvIx) (p : Nat)
  | release (e : EnvIx)
  | exit (e : EnvIx)
  /-- The kernel takes a free page for itself. -/
  | takePage (p : Nat)
  /-- The kernel gives back a page of its own. -/
  | givePage (p : Nat)

namespace Family

def setAct (s : Family) (e : EnvIx) (a : Activity) : Family :=
  { s with act := Function.update s.act e a }

def setHandler (s : Family) (e : EnvIx) (h : Option Handler) : Family :=
  { s with handler := Function.update s.handler e h }

def setVm (s : Family) (v : Vm) : Family := { s with vm := v }

end Family

/-- One step. -/
inductive Step (s : Family) : Op → Family → Prop where
  | store {e : EnvIx} {n i p : Nat} {w word : Word} (hact : (s.act e).mayStore n)
      (hhandler : s.handler e = none ∨ n = uxstackPn) (hmap : s.vm.map e n = some (p, w))
      (hw : hasFlag w pteW = true) (hi : i < 1024) :
      Step s (.store e n i word) (s.setVm (s.vm.setWord p i word))
  /-- A store where no writable page is mapped: the kernel starts the upcall. -/
  | fault {e : EnvIx} {n : Nat} (hact : (s.act e).mayStore n) (hhandler : s.handler e = none)
      (hinst : s.installed e = true)
      (hmap : ∀ p w, s.vm.map e n = some (p, w) → hasFlag w pteW = false) :
      Step s (.fault e n) (s.setHandler e (some (.entered n)))
  /-- `pgfault` finds `PTE_COW` and calls `sys_page_alloc`; without `PTE_COW` it panics. -/
  | handlerAlloc {e : EnvIx} {n p q : Nat} {w : Word} (hhandler : s.handler e = some (.entered n))
      (hmap : s.vm.map e n = some (q, w)) (hcow : hasFlag w pteCow = true)
      (hfree : s.vm.free p = true) :
      Step s (.handlerAlloc e n p)
        ((s.setVm (s.vm.sysPageAlloc e p pftempPn (pteU ||| pteW ||| pteP))).setHandler e
          (some (.copying n 0)))
  | copy {e : EnvIx} {n i q r : Nat} {w w' : Word} (hhandler : s.handler e = some (.copying n i))
      (hi : i < 1024) (hsrc : s.vm.map e n = some (q, w))
      (hdst : s.vm.map e pftempPn = some (r, w')) (hw : hasFlag w' pteW = true) :
      Step s (if s.vm.shared q then .fetch e n i (s.vm.mem q i) else .copy e n i)
        ((s.setVm (s.vm.setWord r i (s.vm.mem q i))).setHandler e (some (.copying n (i + 1))))
  | handlerMap {e : EnvIx} {n : Nat} {v : Vm} (hhandler : s.handler e = some (.copying n 1024))
      (hcall : s.vm.sysPageMap e pftempPn e n (pteU ||| pteW ||| pteP) = some v) :
      Step s (.handlerMap e n) ((s.setVm v).setHandler e (some (.mapped n)))
  | handlerUnmap {e : EnvIx} {n : Nat} (hhandler : s.handler e = some (.mapped n)) :
      Step s (.handlerUnmap e) ((s.setVm (s.vm.sysPageUnmap e pftempPn)).setHandler e none)
  /-- The first `set_pgfault_handler` allocates the exception stack. -/
  | install {e : EnvIx} {p : Nat} (hact : s.act e = .user) (hhandler : s.handler e = none)
      (hinst : s.installed e = false) (hfree : s.vm.free p = true) :
      Step s (.install e p)
        { s.setVm (s.vm.sysPageAlloc e p uxstackPn (pteAvail ||| pteU ||| pteW)) with
          installed := Function.update s.installed e true }
  /-- The child will run with a copy of the parent's `_pgfault_handler`. -/
  | exofork {e child : EnvIx} {shared : Bool} (hact : s.act e = .user)
      (hhandler : s.handler e = none) (hinst : s.installed e = true)
      (hchild : s.act child = .free) :
      Step s (.exofork e child shared)
        { (s.setAct e (.fork shared child (.scan 0))).setAct child .embryo with
          installed := Function.update s.installed child true }
  | skip {e child : EnvIx} {shared : Bool} {pn : Nat}
      (hact : s.act e = .fork shared child (.scan pn)) (hhandler : s.handler e = none)
      (hpn : pn < userPages)
      (hskip : pn = uxstackPn ∨ ∀ p w, s.vm.map e pn = some (p, w) → hasFlag w pteU = false) :
      Step s (.skip e) (s.setAct e (.fork shared child (.scan (pn + 1))))
  | read {e child : EnvIx} {shared : Bool} {pn p : Nat} {w : Word}
      (hact : s.act e = .fork shared child (.scan pn)) (hhandler : s.handler e = none)
      (hpn : pn < userPages) (hstack : pn ≠ uxstackPn) (hmap : s.vm.map e pn = some (p, w))
      (hu : hasFlag w pteU = true) :
      Step s (.read e) (s.setAct e (.fork shared child (.read pn w)))
  | compute {e child : EnvIx} {shared : Bool} {pn p : Nat} {first w : Word}
      (hact : s.act e = .fork shared child (.read pn first)) (hhandler : s.handler e = none)
      (hmap : s.vm.map e pn = some (p, w)) :
      Step s (.compute e) (s.setAct e (.fork shared child
        (.perm pn (if dups shared pn then duppagePerm first w else sharepagePerm first w))))
  | mapChild {e child : EnvIx} {shared : Bool} {pn : Nat} {perm : Word} {v : Vm}
      (hact : s.act e = .fork shared child (.perm pn perm)) (hhandler : s.handler e = none)
      (hcall : s.vm.sysPageMap e pn child pn perm = some v) :
      Step s (.mapChild e child pn) ((s.setVm v).setAct e (.fork shared child
        (if dups shared pn && hasFlag perm pteCow then .mapped pn perm else .scan (pn + 1))))
  | mapSelf {e child : EnvIx} {shared : Bool} {pn : Nat} {perm : Word} {v : Vm}
      (hact : s.act e = .fork shared child (.mapped pn perm)) (hhandler : s.handler e = none)
      (hcall : s.vm.sysPageMap e pn e pn perm = some v) :
      Step s (.mapSelf e child pn) ((s.setVm v).setAct e (.fork shared child (.scan (pn + 1))))
  | childStack {e child : EnvIx} {shared : Bool} {p : Nat}
      (hact : s.act e = .fork shared child (.scan userPages)) (hhandler : s.handler e = none)
      (hfree : s.vm.free p = true) :
      Step s (.childStack e p)
        ((s.setVm (s.vm.sysPageAlloc child p uxstackPn (pteU ||| pteW))).setAct e
          (.fork shared child .last))
  | release {e child : EnvIx} {shared : Bool} (hact : s.act e = .fork shared child .last)
      (hhandler : s.handler e = none) :
      Step s (.release e) ((s.setAct e .user).setAct child .user)
  /-- The environment exits, panics or is destroyed. -/
  | exit {e : EnvIx} (hlive : (s.act e).live) :
      Step s (.exit e)
        { ((s.setVm (s.vm.envFree e)).setAct e .free).setHandler e none with
          installed := Function.update s.installed e false }
  | takePage {p : Nat} (hfree : s.vm.free p = true) :
      Step s (.takePage p) (s.setVm { s.vm with free := Function.update s.vm.free p false })
  | givePage {p : Nat} (hmap : ∀ e n w, s.vm.map e n ≠ some (p, w)) :
      Step s (.givePage p) (s.setVm { s.vm with free := Function.update s.vm.free p true })

/-- A run of steps that all meet the condition `ok`. -/
inductive FamilyRun (ok : Family → Op → Prop) (s₀ : Family) : List Op → Family → Prop where
  | nil : FamilyRun ok s₀ [] s₀
  | snoc {ops : List Op} {s s' : Family} {op : Op} (hrun : FamilyRun ok s₀ ops s) (hok : ok s op)
      (hstep : Step s op s') : FamilyRun ok s₀ (ops ++ [op]) s'

/-- The reference counter that the step increments has room. -/
def Op.Fits (s : Family) : Op → Prop
  | .handlerMap e n => ∀ p w, s.vm.map e pftempPn = some (p, w) → s.vm.Fits e p n
  | .mapChild e child pn => ∀ p w, s.vm.map e pn = some (p, w) → s.vm.Fits child p pn
  | _ => True

/-- Reference counts stay in step with the mappings while they fit. -/
theorem Step.counted {s s' : Family} {op : Op} (hstep : Step s op s') (h : s.vm.Counted)
    (hfits : op.Fits s) : s'.vm.Counted := by
  have hpftemp : pftempPn < userPages := by
    rw [pftemp_pn_eq, user_pages_eq]
    decide
  have huxstack : uxstackPn < userPages := by
    rw [uxstack_pn_eq, user_pages_eq]
    decide
  cases hstep with
  | store => exact h.set_word _ _ _
  | fault => exact h
  | handlerAlloc hhandler hmap hcow hfree => exact h.sys_page_alloc hfree hpftemp (by decide)
  | copy => exact h.set_word _ _ _
  | handlerMap hhandler hcall =>
      obtain ⟨hn, hperm, p, w, hmap, -, rfl⟩ := Vm.sys_page_map_some hcall
      exact h.page_insert hn (h.unmapped _ _ _ _ hmap) (Vm.user_of_good hperm) (hfits p w hmap)
  | handlerUnmap => exact h.page_remove _ _
  | install hact hhandler hinst hfree => exact h.sys_page_alloc hfree huxstack (by decide)
  | exofork => exact h
  | skip => exact h
  | read => exact h
  | compute => exact h
  | mapChild hact hhandler hcall =>
      obtain ⟨hn, hperm, p, w, hmap, -, rfl⟩ := Vm.sys_page_map_some hcall
      exact h.page_insert hn (h.unmapped _ _ _ _ hmap) (Vm.user_of_good hperm) (hfits p w hmap)
  | mapSelf hact hhandler hcall =>
      obtain ⟨hn, hperm, p, w, hmap, -, rfl⟩ := Vm.sys_page_map_some hcall
      refine h.page_insert hn (h.unmapped _ _ _ _ hmap) (Vm.user_of_good hperm) (.inl ?_)
      rw [hmap]
      rfl
  | childStack hact hhandler hfree => exact h.sys_page_alloc hfree huxstack (by decide)
  | release => exact h
  | exit => exact h.env_free _
  | @takePage p hfree =>
      refine ⟨h.counted, fun e n q w hmap => ?_, h.range, h.user, h.tagged⟩
      show Function.update s.vm.free p false q = false
      by_cases hq : q = p
      · rw [hq, Function.update_self]
      · rw [Function.update_of_ne hq]
        exact h.unmapped e n q w hmap
  | @givePage p hunmapped =>
      refine ⟨h.counted, fun e n q w hmap => ?_, h.range, h.user, h.tagged⟩
      show Function.update s.vm.free p true q = false
      have hq : q ≠ p := by
        intro hq
        subst hq
        exact hunmapped e n w hmap
      rw [Function.update_of_ne hq]
      exact h.unmapped e n q w hmap

/-! ## Parents and children -/

/-- Only environments that run are in the page fault handler, free slots map nothing, and each
environment that is being forked has one parent. -/
structure Kindred (s : Family) : Prop where
  idle : ∀ e, ¬ (s.act e).live → s.handler e = none
  dead : ∀ e n, s.act e = .free → s.vm.map e n = none
  child : ∀ e c, (s.act e).child = some c → s.act c = .embryo
  parent : ∀ e e' c, (s.act e).child = some c → (s.act e').child = some c → e' = e

theorem Activity.stage_eq_free {a : Activity} : a.stage = .free ↔ a = .free := by
  cases a <;> simp [stage]

theorem Activity.stage_eq_embryo {a : Activity} : a.stage = .embryo ↔ a = .embryo := by
  cases a <;> simp [stage]

theorem Activity.live_stage {a : Activity} : a.stage.live ↔ a.live := by
  cases a <;> simp [stage, live]

theorem Activity.child_stage (a : Activity) : a.stage.child = a.child := by
  cases a <;> rfl

namespace Kindred

variable {s s' : Family} {e c : EnvIx}

/-- Progress inside `fork` or in the handler. -/
theorem congr (h : Kindred s) (hstage : ∀ e, (s'.act e).stage = (s.act e).stage)
    (hhandler : ∀ e, ¬ (s.act e).live → s'.handler e = none)
    (hdead : ∀ e n, s.act e = .free → s'.vm.map e n = none) : Kindred s' := by
  have hchild : ∀ e, (s'.act e).child = (s.act e).child := by
    intro e
    rw [← Activity.child_stage, hstage, Activity.child_stage]
  refine ⟨fun e he => hhandler e fun hlive => he ?_, fun e n he => hdead e n ?_, fun e c hc => ?_,
    fun e e' c hc hc' => ?_⟩
  · rwa [← Activity.live_stage, hstage, Activity.live_stage]
  · rwa [← Activity.stage_eq_free, ← hstage, Activity.stage_eq_free]
  · rw [hchild] at hc
    rw [← Activity.stage_eq_embryo, hstage, Activity.stage_eq_embryo]
    exact h.child e c hc
  · rw [hchild] at hc hc'
    exact h.parent e e' c hc hc'

/-- An environment that is being forked is not itself in `fork`, and has no handler. -/
theorem embryo (h : Kindred s) (hc : (s.act e).child = some c) :
    s.act c = .embryo ∧ s.handler c = none ∧ (s.act c).child = none ∧ c ≠ e := by
  have hact := h.child e c hc
  refine ⟨hact, h.idle c ?_, ?_, ?_⟩
  · rw [hact]
    exact id
  · rw [hact]
    rfl
  · intro heq
    subst heq
    rw [hact] at hc
    cases hc

/-- After an environment is gone its slot is free and maps nothing. -/
theorem exit (h : Kindred s) (hcount : s.vm.Counted) (hlive : (s.act e).live) {v : Vm}
    (hmap : ∀ e' n, v.map e' n = if e' = e ∧ n < userPages then none else s.vm.map e' n)
    (installed : EnvIx → Bool) :
    Kindred { ((s.setVm v).setAct e .free).setHandler e none with installed := installed } := by
  have hother : ∀ e', e' ≠ e → (s.setAct e .free).act e' = s.act e' := by
    intro e' he
    simp [Family.setAct, he]
  have hself : (s.setAct e .free).act e = .free := by simp [Family.setAct]
  have hchild : ∀ e' c, ((s.setAct e .free).act e').child = some c →
      e' ≠ e ∧ (s.act e').child = some c := by
    intro e' c hc
    by_cases he : e' = e
    · rw [he, hself] at hc
      cases hc
    · rw [hother e' he] at hc
      exact ⟨he, hc⟩
  refine ⟨fun e' he' => ?_, fun e' n he' => ?_, fun e' c hc => ?_, fun e₁ e₂ c h₁ h₂ => ?_⟩
  · show Function.update s.handler e none e' = none
    by_cases he : e' = e
    · rw [he, Function.update_self]
    · rw [Function.update_of_ne he]
      exact h.idle e' (by rw [← hother e' he]; exact he')
  · show v.map e' n = none
    rw [hmap]
    by_cases he : e' = e
    · by_cases hn : n < userPages
      · rw [if_pos ⟨he, hn⟩]
      · rw [if_neg fun hat => hn hat.2]
        cases hold : s.vm.map e' n with
        | none => rfl
        | some x => exact absurd (hcount.range e' n x hold) hn
    · rw [if_neg fun hat => he hat.1]
      exact h.dead e' n (by rw [← hother e' he]; exact he')
  · obtain ⟨-, hold⟩ := hchild e' c hc
    have hemb := h.child e' c hold
    have hce : c ≠ e := by
      intro heq
      rw [← heq, hemb] at hlive
      exact hlive
    show (s.setAct e .free).act c = .embryo
    rw [hother c hce]
    exact hemb
  · exact h.parent e₁ e₂ c (hchild e₁ c h₁).2 (hchild e₂ c h₂).2

/-- `sys_exofork` gives `e` a child in a free slot. -/
theorem exofork (h : Kindred s) {shared : Bool} {child : EnvIx} (hact : s.act e = .user)
    (hhandler : s.handler e = none) (hfree : s.act child = .free) (installed : EnvIx → Bool) :
    Kindred { (s.setAct e (.fork shared child (.scan 0))).setAct child .embryo with
      installed := installed } := by
  have hne : child ≠ e := by
    intro heq
    rw [heq, hact] at hfree
    cases hfree
  have hself : ((s.setAct e (.fork shared child (.scan 0))).setAct child .embryo).act e =
      .fork shared child (.scan 0) := by
    simp [Family.setAct, Ne.symm hne]
  have hchild : ((s.setAct e (.fork shared child (.scan 0))).setAct child .embryo).act child =
      .embryo := by
    simp [Family.setAct]
  have hother : ∀ e', e' ≠ e → e' ≠ child →
      ((s.setAct e (.fork shared child (.scan 0))).setAct child .embryo).act e' = s.act e' := by
    intro e' he hc
    simp [Family.setAct, he, hc]
  have hold : ∀ e' c, (s.act e').child = some c → c ≠ e ∧ c ≠ child := by
    intro e' c hc
    have hemb := h.child e' c hc
    refine ⟨fun heq => ?_, fun heq => ?_⟩
    · rw [heq, hact] at hemb
      cases hemb
    · rw [heq, hfree] at hemb
      cases hemb
  refine ⟨fun e' he' => ?_, fun e' n he' => ?_, fun e' c hc => ?_, fun e₁ e₂ c h₁ h₂ => ?_⟩
  · by_cases he : e' = e
    · rw [he]
      exact hhandler
    · by_cases hc : e' = child
      · rw [hc]
        exact h.idle child (by rw [hfree]; exact id)
      · exact h.idle e' (by rw [← hother e' he hc]; exact he')
  · by_cases he : e' = e
    · rw [he, hself] at he'
      cases he'
    · by_cases hc : e' = child
      · rw [hc, hchild] at he'
        cases he'
      · exact h.dead e' n (by rw [← hother e' he hc]; exact he')
  · by_cases he : e' = e
    · rw [he, hself] at hc
      obtain rfl := Option.some.inj hc
      exact hchild
    · by_cases hec : e' = child
      · rw [hec, hchild] at hc
        cases hc
      · rw [hother e' he hec] at hc
        obtain ⟨hce, hcc⟩ := hold e' c hc
        rw [hother c hce hcc]
        exact h.child e' c hc
  · have hcase : ∀ e', (((s.setAct e (.fork shared child (.scan 0))).setAct child
        .embryo).act e').child = some c → (e' = e ∧ c = child) ∨
          ((s.act e').child = some c ∧ c ≠ child) := by
      intro e' hc
      by_cases he : e' = e
      · rw [he, hself] at hc
        exact .inl ⟨he, (Option.some.inj hc).symm⟩
      · by_cases hec : e' = child
        · rw [hec, hchild] at hc
          cases hc
        · rw [hother e' he hec] at hc
          exact .inr ⟨hc, (hold e' c hc).2⟩
    rcases hcase e₁ h₁ with ⟨he₁, hc₁⟩ | ⟨hc₁, hn₁⟩
    · rcases hcase e₂ h₂ with ⟨he₂, -⟩ | ⟨-, hn₂⟩
      · rw [he₁, he₂]
      · exact absurd hc₁ hn₂
    · rcases hcase e₂ h₂ with ⟨-, hc₂⟩ | ⟨hc₂, -⟩
      · exact absurd hc₂ hn₁
      · exact h.parent e₁ e₂ c hc₁ hc₂

/-- The child is marked runnable. -/
theorem release (h : Kindred s) {shared : Bool} {child : EnvIx}
    (hact : s.act e = .fork shared child .last) :
    Kindred ((s.setAct e .user).setAct child .user) := by
  have hc : (s.act e).child = some child := by rw [hact]; rfl
  obtain ⟨-, -, -, hne⟩ := h.embryo hc
  have hother : ∀ e', e' ≠ e → e' ≠ child →
      ((s.setAct e .user).setAct child .user).act e' = s.act e' := by
    intro e' he hc
    simp [Family.setAct, he, hc]
  have huser : ∀ e', e' = e ∨ e' = child →
      ((s.setAct e .user).setAct child .user).act e' = .user := by
    intro e' he'
    rcases he' with heq | heq
    · subst heq
      simp [Family.setAct, Ne.symm hne]
    · subst heq
      simp [Family.setAct]
  have hold : ∀ e' c, (((s.setAct e .user).setAct child .user).act e').child = some c →
      (s.act e').child = some c ∧ e' ≠ e := by
    intro e' c hc
    by_cases he : e' = e ∨ e' = child
    · rw [huser e' he] at hc
      cases hc
    · rw [not_or] at he
      rw [hother e' he.1 he.2] at hc
      exact ⟨hc, he.1⟩
  refine ⟨fun e' he' => ?_, fun e' n he' => ?_, fun e' c hc' => ?_, fun e₁ e₂ c h₁ h₂ => ?_⟩
  · by_cases he : e' = e ∨ e' = child
    · rw [huser e' he] at he'
      exact absurd trivial he'
    · rw [not_or] at he
      exact h.idle e' (by rw [← hother e' he.1 he.2]; exact he')
  · by_cases he : e' = e ∨ e' = child
    · rw [huser e' he] at he'
      cases he'
    · rw [not_or] at he
      exact h.dead e' n (by rw [← hother e' he.1 he.2]; exact he')
  · obtain ⟨hold', hne'⟩ := hold e' c hc'
    have hemb := h.child e' c hold'
    have hce : c ≠ e := by
      intro heq
      rw [heq, hact] at hemb
      cases hemb
    have hcc : c ≠ child := by
      intro heq
      rw [heq] at hold'
      exact hne' (h.parent e e' child hc hold')
    rw [hother c hce hcc]
    exact hemb
  · exact h.parent e₁ e₂ c (hold e₁ c h₁).1 (hold e₂ c h₂).1

end Kindred

/-- The activity of `e` changes within its stage. -/
theorem stage_update {act : EnvIx → Activity} {e : EnvIx} {a : Activity}
    (ha : a.stage = (act e).stage) (e' : EnvIx) :
    (Function.update act e a e').stage = (act e').stage := by
  by_cases he : e' = e
  · subst he
    rw [Function.update_self, ha]
  · rw [Function.update_of_ne he]

/-- Every step keeps parents and children in order. -/
theorem Step.kindred {s s' : Family} {op : Op} (hstep : Step s op s') (hcount : s.vm.Counted)
    (h : Kindred s) : Kindred s' := by
  -- an environment that is not free may get new entries
  have hdead : ∀ {e : EnvIx} {n p : Nat} {perm : Word} (v : Vm), v.map = s.vm.map →
      s.act e ≠ .free → ∀ e' n', s.act e' = .free → (v.pageInsert e p n perm).map e' n' = none := by
    intro e n p perm v hv he e' n' he'
    have hne : e' ≠ e := fun heq => he (heq ▸ he')
    rw [Vm.map_page_insert, if_neg fun hat => hne hat.1, hv]
    exact h.dead e' n' he'
  -- an environment in the handler may stay in it
  have hidle : ∀ {e : EnvIx} {hd : Option Handler}, (s.handler e).isSome = true →
      ∀ e', ¬ (s.act e').live → Function.update s.handler e hd e' = none := by
    intro e hd hsome e' he'
    have hne : e' ≠ e := by
      intro heq
      rw [← heq, h.idle e' he'] at hsome
      cases hsome
    rw [Function.update_of_ne hne]
    exact h.idle e' he'
  have hbusy : ∀ {e : EnvIx}, (s.handler e).isSome = true → s.act e ≠ .free := by
    intro e hsome hfree
    rw [h.idle e (by rw [hfree]; exact id)] at hsome
    cases hsome
  cases hstep with
  | store => exact h.congr (fun _ => rfl) h.idle h.dead
  | @fault e n hact =>
      refine h.congr (fun _ => rfl) (fun e' he' => ?_) h.dead
      have hne : e' ≠ e := by
        intro heq
        subst heq
        cases ha : s.act e' <;> rw [ha] at hact he'
        · exact hact
        · exact hact
        · exact he' trivial
        · exact he' trivial
      show Function.update s.handler e _ e' = none
      rw [Function.update_of_ne hne]
      exact h.idle e' he'
  | handlerAlloc hhandler =>
      have hsome := Option.isSome_of_eq_some hhandler
      exact h.congr (fun _ => rfl) (hidle hsome) (hdead _ rfl (hbusy hsome))
  | copy hhandler =>
      have hsome := Option.isSome_of_eq_some hhandler
      exact h.congr (fun _ => rfl) (hidle hsome) h.dead
  | handlerMap hhandler hcall =>
      have hsome := Option.isSome_of_eq_some hhandler
      obtain ⟨-, -, p, w, -, -, rfl⟩ := Vm.sys_page_map_some hcall
      exact h.congr (fun _ => rfl) (hidle hsome) (hdead _ rfl (hbusy hsome))
  | handlerUnmap hhandler =>
      have hsome := Option.isSome_of_eq_some hhandler
      refine h.congr (fun _ => rfl) (hidle hsome) fun e' n' he' => ?_
      show (s.vm.pageRemove _ _).map e' n' = none
      rw [Vm.map_page_remove]
      split
      · rfl
      · exact h.dead e' n' he'
  | @install e p hact =>
      have hne : s.act e ≠ .free := by rw [hact]; exact fun heq => (by cases heq)
      exact h.congr (fun _ => rfl) h.idle (hdead _ rfl hne)
  | exofork hact hhandler _ hfree => exact h.exofork hact hhandler hfree _
  | skip hact => exact h.congr (stage_update (by rw [hact]; rfl)) h.idle h.dead
  | read hact => exact h.congr (stage_update (by rw [hact]; rfl)) h.idle h.dead
  | compute hact => exact h.congr (stage_update (by rw [hact]; rfl)) h.idle h.dead
  | @mapChild e child shared pn perm v hact hhandler hcall =>
      obtain ⟨-, -, p, w, -, -, rfl⟩ := Vm.sys_page_map_some hcall
      have hne : s.act child ≠ .free := by
        rw [h.child e child (by rw [hact]; rfl)]
        exact fun heq => (by cases heq)
      have hstage : (s.act e).stage = .fork shared child .last := by rw [hact]; rfl
      exact h.congr (stage_update hstage.symm) h.idle (hdead _ rfl hne)
  | @mapSelf e child shared pn perm v hact hhandler hcall =>
      obtain ⟨-, -, p, w, -, -, rfl⟩ := Vm.sys_page_map_some hcall
      have hne : s.act e ≠ .free := by
        rw [hact]
        exact fun heq => (by cases heq)
      have hstage : (s.act e).stage = .fork shared child .last := by rw [hact]; rfl
      exact h.congr (stage_update hstage.symm) h.idle (hdead _ rfl hne)
  | @childStack e child shared p hact =>
      have hne : s.act child ≠ .free := by
        rw [h.child e child (by rw [hact]; rfl)]
        exact fun heq => (by cases heq)
      have hstage : (s.act e).stage = .fork shared child .last := by rw [hact]; rfl
      exact h.congr (stage_update hstage.symm) h.idle (hdead _ rfl hne)
  | release hact => exact h.release hact
  | exit hlive => exact h.exit hcount hlive (Vm.map_env_free _ _) _
  | takePage => exact h.congr (fun _ => rfl) h.idle h.dead
  | givePage => exact h.congr (fun _ => rfl) h.idle h.dead

end Labs.Jos.Fork
