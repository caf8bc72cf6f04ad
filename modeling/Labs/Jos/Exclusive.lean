import Labs.Base.Chain
import Labs.Jos.TrapRefines

/-!
# One CPU for each environment

The kernel knows only from `env_status` that an environment runs on some CPU. This file states
what that convention amounts to on the control machine: the current environments of the other
CPUs are running or dying, and no action of this CPU touches their status, as long as the entry
is `Local`. The predicate `A` selects the CPUs that count, by their mode.
-/

namespace Labs.Jos

open Prog Relation

namespace Ctl

/-- The environment free list links exactly the free slots. -/
def FreeList (t : Ctl) : Prop :=
  ∃ l, Chain (fun e => (t.envs e).envLink) t.envFreeList l ∧ ∀ e, e ∈ l ↔ t.status e = .free

variable {t : Ctl} {e i : EnvIx} {f : Env → Env}

theorem status_set_env (t : Ctl) (e i : EnvIx) (f : Env → Env) :
    (t.setEnv e f).status i = if i = e then (f (t.envs e)).envStatus else t.status i := by
  by_cases h : i = e <;> simp [status, setEnv, h]

theorem link_set_env (t : Ctl) (e i : EnvIx) (f : Env → Env) :
    ((t.setEnv e f).envs i).envLink =
      if i = e then (f (t.envs e)).envLink else (t.envs i).envLink := by
  by_cases h : i = e <;> simp [setEnv, h]

/-- The free list survives a change that frees nothing and takes nothing from the list. -/
theorem FreeList.congr {t u : Ctl} (h : t.FreeList) (hhead : u.envFreeList = t.envFreeList)
    (hstatus : ∀ i, u.status i = .free ↔ t.status i = .free)
    (hlink : ∀ i, (u.envs i).envLink = (t.envs i).envLink) : u.FreeList := by
  obtain ⟨l, hchain, hmem⟩ := h
  refine ⟨l, ?_, fun i => (hmem i).trans (hstatus i).symm⟩
  rw [hhead]
  exact hchain.congr fun i _ => hlink i

/-- An edit of a live environment that leaves it live keeps the free list. -/
theorem FreeList.set_env (h : t.FreeList) (hlink : (f (t.envs e)).envLink = (t.envs e).envLink)
    (hstatus : (f (t.envs e)).envStatus = .free ↔ t.status e = .free) :
    (t.setEnv e f).FreeList := by
  refine h.congr rfl (fun i => ?_) fun i => ?_
  · rw [status_set_env]
    split
    · subst i
      exact hstatus
    · rfl
  · rw [link_set_env]
    split
    · subst i
      exact hlink
    · rfl

/-- The head of the free list is a free slot, and the rest is the free list without it. -/
theorem FreeList.head (h : t.FreeList) (hhead : t.envFreeList = some e) : t.status e = .free := by
  obtain ⟨l, hchain, hmem⟩ := h
  rw [hhead] at hchain
  cases l with
  | nil => simp at hchain
  | cons a l =>
      have ha : e = a := by
        rw [Chain.cons_iff] at hchain
        exact Option.some.inj hchain.1
      exact (hmem e).1 (by simp [ha])

theorem status_deschedule (t : Ctl) (k : CpuId) (i : EnvIx) :
    (t.deschedule k).status i = t.status i ∨
      t.cpuEnv k = some i ∧ t.status i = .running ∧ (t.deschedule k).status i = .runnable := by
  unfold deschedule
  cases hcur : t.cpuEnv k with
  | none => exact .inl rfl
  | some c =>
      dsimp only
      rw [status_set_env]
      split
      · rename_i hic
        subst hic
        by_cases hrun : t.status i = .running
        · right
          have hrun' : (t.envs i).envStatus = .running := hrun
          simp [hrun, hrun']
        · left
          have hrun' : (t.envs i).envStatus ≠ .running := hrun
          simp [hrun', status]
      · exact .inl rfl

/-- The environment that runs next is still live when the current one has left the CPU. -/
theorem live_deschedule {t : Ctl} {k : CpuId} {e : EnvIx}
    (hrun : t.status e = .runnable ∨ t.cpuEnv k = some e ∧ t.status e = .running) :
    (t.deschedule k).status e ≠ .free := by
  rcases t.status_deschedule k e with hsame | ⟨_, _, hsame⟩
  · rw [hsame]
    rcases hrun with hrun | ⟨_, hrun⟩ <;> rw [hrun] <;> decide
  · rw [hsame]
    decide

@[simp] theorem cpu_env_deschedule (t : Ctl) (k : CpuId) :
    (t.deschedule k).cpuEnv = t.cpuEnv := by
  unfold deschedule
  cases t.cpuEnv k <;> rfl

@[simp] theorem mode_deschedule (t : Ctl) (k : CpuId) : (t.deschedule k).mode = t.mode := by
  unfold deschedule
  cases t.cpuEnv k <;> rfl

@[simp] theorem cpu_status_deschedule (t : Ctl) (k : CpuId) :
    (t.deschedule k).cpuStatus = t.cpuStatus := by
  unfold deschedule
  cases t.cpuEnv k <;> rfl

@[simp] theorem frees_deschedule (t : Ctl) (k : CpuId) : (t.deschedule k).frees = t.frees := by
  unfold deschedule
  cases t.cpuEnv k <;> rfl

theorem FreeList.deschedule (h : t.FreeList) (k : CpuId) : (t.deschedule k).FreeList := by
  unfold Ctl.deschedule
  cases t.cpuEnv k with
  | none => exact h
  | some c =>
      refine h.set_env ?_ ?_
      · split <;> rfl
      · split
        · rename_i hrun
          simp [status, hrun]
        · rfl

theorem FreeList.alloc (h : t.FreeList) {parentId : Word} {p : Nat}
    (hhead : t.envFreeList = some e) : (t.alloc e parentId p).FreeList := by
  obtain ⟨l, hchain, hmem⟩ := h
  rw [hhead] at hchain
  obtain ⟨l', rfl, hchain'⟩ := hchain.pop (t.envs e).envLink
  have hnot : e ∉ l' := (List.nodup_cons.1 hchain.nodup).1
  refine ⟨l', ?_, fun i => ?_⟩
  · refine hchain'.congr fun i _ => ?_
    by_cases hie : i = e <;> simp [Ctl.alloc, setEnv, hie]
  · by_cases hie : i = e
    · subst hie
      simp [Ctl.alloc, setEnv, status, hnot]
    · have := hmem i
      simp only [List.mem_cons, hie, false_or] at this
      rw [this]
      simp [Ctl.alloc, setEnv, status, hie]

theorem FreeList.fork (h : t.FreeList) {c : EnvIx} {p : Nat} {tf : Trapframe}
    (hhead : t.envFreeList = some e) : (t.fork c e p tf).FreeList := by
  unfold Ctl.fork
  refine (h.alloc hhead).set_env rfl ?_
  simp [Ctl.alloc, setEnv, status]

theorem FreeList.freed (h : t.FreeList) (hlive : t.status e ≠ .free) : (t.freed e).FreeList := by
  obtain ⟨l, hchain, hmem⟩ := h
  have hnot : e ∉ l := fun he => hlive ((hmem e).1 he)
  refine ⟨e :: l, ?_, fun i => ?_⟩
  · rw [Chain.cons_iff]
    refine ⟨rfl, ?_⟩
    have hlink : (((t.freed e).envs e).envLink) = t.envFreeList := by simp [Ctl.freed, setEnv]
    rw [hlink]
    refine hchain.congr fun i hi => ?_
    have hie : i ≠ e := fun h => hnot (h ▸ hi)
    simp [Ctl.freed, setEnv, hie]
  · by_cases hie : i = e
    · subst hie
      simp [Ctl.freed, setEnv, status]
    · rw [List.mem_cons, hmem]
      simp [Ctl.freed, setEnv, status, hie]

end Ctl

/-! ## While a CPU is in the kernel -/

variable {A : CpuMode → Prop} {k : CpuId} {g : Grant} {t₀ t u : Ctl}

/-- `e` is the current environment of another CPU that counts. -/
def Ctl.Elsewhere (A : CpuMode → Prop) (k : CpuId) (t : Ctl) (e : EnvIx) : Prop :=
  ∃ j, j ≠ k ∧ A (t.mode j) ∧ t.cpuEnv j = some e

/-- What CPU `k` keeps while it is in the kernel, which it entered in `t₀`. -/
structure Holds (A : CpuMode → Prop) (k : CpuId) (t₀ t : Ctl) : Prop where
  cpuEnv : ∀ j, j ≠ k → t.cpuEnv j = t₀.cpuEnv j
  mode : ∀ j, j ≠ k → t.mode j = t₀.mode j
  cpuStatus : ∀ j, j ≠ k → t.cpuStatus j = t₀.cpuStatus j
  busy : ∀ e, t₀.Elsewhere A k e →
    (t.status e = .running ∨ t.status e = .dying) ∧ t.cpuEnv k ≠ some e
  own : ∀ c, t.cpuEnv k = some c → t.status c ≠ .free
  slots : t.FreeList

/-- The edits of a kernel entry do not touch the status of another CPU's environment. -/
structure Local (A : CpuMode → Prop) (k : CpuId) (t₀ : Ctl) (g : Grant) : Prop where
  link : ∀ e f, g.edit e f → ∀ env, (f env).envLink = env.envLink
  edit : ∀ e f, g.edit e f →
    (∀ env, (f env).envStatus = env.envStatus) ∨ ¬ t₀.Elsewhere A k e
  reap : ∀ e, g.reap e → ¬ t₀.Elsewhere A k e

theorem local_none : Local A k t₀ .none := ⟨fun _ _ h => h.elim, fun _ _ h => h.elim, fun _ h => h.elim⟩

namespace Holds

/-- A change of the environment table alone. -/
theorem set_env (h : Holds A k t₀ t) {e : EnvIx} {f : Env → Env}
    (hbusy : t₀.Elsewhere A k e →
      (f (t.envs e)).envStatus = .running ∨ (f (t.envs e)).envStatus = .dying)
    (hstatus : (f (t.envs e)).envStatus = .free ↔ t.status e = .free)
    (hlink : (f (t.envs e)).envLink = (t.envs e).envLink) : Holds A k t₀ (t.setEnv e f) := by
  refine ⟨h.cpuEnv, h.mode, h.cpuStatus, fun i hi => ⟨?_, (h.busy i hi).2⟩, fun c hc => ?_,
    h.slots.set_env hlink hstatus⟩
  · rw [Ctl.status_set_env]
    split
    · subst i
      exact hbusy hi
    · exact (h.busy i hi).1
  · rw [Ctl.status_set_env]
    split
    · subst c
      exact fun hfree => h.own e hc (hstatus.1 hfree)
    · exact h.own c hc

/-- A change of the environment table that keeps every status. -/
theorem set_env_same (h : Holds A k t₀ t) {e : EnvIx} {f : Env → Env}
    (hstatus : (f (t.envs e)).envStatus = (t.envs e).envStatus)
    (hlink : (f (t.envs e)).envLink = (t.envs e).envLink) : Holds A k t₀ (t.setEnv e f) := by
  refine h.set_env (fun he => ?_) ?_ hlink
  · rw [hstatus]
    exact (h.busy e he).1
  · rw [hstatus]
    rfl

theorem deschedule (h : Holds A k t₀ t) : Holds A k t₀ (t.deschedule k) := by
  refine ⟨?_, ?_, ?_, fun e he => ⟨?_, ?_⟩, fun c hc => ?_, h.slots.deschedule k⟩
  · simpa using h.cpuEnv
  · simpa using h.mode
  · simpa using h.cpuStatus
  · rcases t.status_deschedule k e with hsame | ⟨hcur, _⟩
    · rw [hsame]
      exact (h.busy e he).1
    · exact absurd hcur (h.busy e he).2
  · rw [Ctl.cpu_env_deschedule]
    exact (h.busy e he).2
  · rw [Ctl.cpu_env_deschedule] at hc
    rcases t.status_deschedule k c with hsame | ⟨_, _, hrun⟩
    · rw [hsame]
      exact h.own c hc
    · rw [hrun]
      decide

/-- CPU `k` turns to an environment that is not current elsewhere. -/
theorem set_cpu_env (h : Holds A k t₀ t) {cur : Option EnvIx}
    (hnew : ∀ e, cur = some e → ¬ t₀.Elsewhere A k e ∧ t.status e ≠ .free) :
    Holds A k t₀ (t.setCpuEnv k cur) := by
  refine ⟨fun j hj => ?_, h.mode, h.cpuStatus, fun e he => ⟨(h.busy e he).1, fun hcur => ?_⟩,
    fun c hc => ?_, h.slots⟩
  · rw [← h.cpuEnv j hj]
    simp [Ctl.setCpuEnv, hj]
  · simp only [Ctl.setCpuEnv, Function.update_self] at hcur
    exact (hnew e hcur).1 he
  · simp only [Ctl.setCpuEnv, Function.update_self] at hc
    exact (hnew c hc).2

theorem dispatch (h : Holds A k t₀ t) {e : EnvIx}
    (hrun : t.status e = .runnable ∨ t.cpuEnv k = some e ∧ t.status e = .running) :
    Holds A k t₀ (t.dispatch k e) := by
  have hnot : ¬ t₀.Elsewhere A k e := by
    intro he
    have hbusy := h.busy e he
    rcases hrun with hrun | ⟨hcur, _⟩
    · rw [hrun] at hbusy
      simp at hbusy
    · exact hbusy.2 hcur
  have hlive : (t.deschedule k).status e ≠ .free := Ctl.live_deschedule hrun
  have hcur : Holds A k t₀ ((t.deschedule k).setCpuEnv k (some e)) :=
    h.deschedule.set_cpu_env fun i hi => by
      cases hi
      exact ⟨hnot, hlive⟩
  refine hcur.set_env (fun he => absurd he hnot) ?_ rfl
  exact ⟨fun h => by simp at h, fun h => absurd h hlive⟩

theorem fork (h : Holds A k t₀ t) {c e : EnvIx} {p : Nat} {tf : Trapframe}
    (hhead : t.envFreeList = some e) : Holds A k t₀ (t.fork c e p tf) := by
  have hfree := h.slots.head hhead
  have hstatus : ∀ i, i ≠ e → (t.fork c e p tf).status i = t.status i := by
    intro i hi
    simp [Ctl.fork, Ctl.alloc, Ctl.setEnv, Ctl.status, hi]
  refine ⟨h.cpuEnv, h.mode, h.cpuStatus, fun i hi => ⟨?_, (h.busy i hi).2⟩, fun i hi => ?_,
    h.slots.fork hhead⟩
  · have hne : i ≠ e := by
      rintro rfl
      have := (h.busy i hi).1
      rw [hfree] at this
      simp at this
    rw [hstatus i hne]
    exact (h.busy i hi).1
  · have hne : i ≠ e := by
      rintro rfl
      exact h.own i hi hfree
    rw [hstatus i hne]
    exact h.own i hi

theorem freed (h : Holds A k t₀ t) {e : EnvIx} (hnot : ¬ t₀.Elsewhere A k e)
    (hcur : t.cpuEnv k ≠ some e) (hlive : t.status e ≠ .free) : Holds A k t₀ (t.freed e) := by
  have hstatus : ∀ i, i ≠ e → (t.freed e).status i = t.status i := by
    intro i hi
    simp [Ctl.freed, Ctl.setEnv, Ctl.status, hi]
  refine ⟨h.cpuEnv, h.mode, h.cpuStatus, fun i hi => ⟨?_, (h.busy i hi).2⟩, fun i hi => ?_,
    h.slots.freed hlive⟩
  · rw [hstatus i fun heq => hnot (heq ▸ hi)]
    exact (h.busy i hi).1
  · rw [hstatus i fun heq => hcur (heq ▸ hi)]
    exact h.own i hi

/-- The own environment is never current elsewhere. -/
theorem not_elsewhere (h : Holds A k t₀ t) {e : EnvIx} (hcur : t.cpuEnv k = some e) :
    ¬ t₀.Elsewhere A k e :=
  fun he => (h.busy e he).2 hcur

theorem freed_own (h : Holds A k t₀ t) {e : EnvIx} (hcur : t.cpuEnv k = some e) :
    Holds A k t₀ ((t.freed e).setCpuEnv k none) := by
  have hidle : Holds A k t₀ (t.setCpuEnv k none) := h.set_cpu_env fun _ hi => by cases hi
  have hfreed : Holds A k t₀ ((t.setCpuEnv k none).freed e) :=
    hidle.freed (h.not_elsewhere hcur) (by simp [Ctl.setCpuEnv]) (h.own e hcur)
  exact hfreed

/-- Every action of a local entry keeps what holds in the kernel. -/
theorem act (h : Holds A k t₀ t) (hlocal : Local A k t₀ g) (ha : Act k g t u) :
    Holds A k t₀ u := by
  cases ha with
  | started =>
      refine ⟨h.cpuEnv, h.mode, fun j hj => ?_, h.busy, h.own, h.slots⟩
      rw [← h.cpuStatus j hj]
      simp [Ctl.setCpuStatus, hj]
  | @edit e f hgrant hedit =>
      have hlink := hlocal.link e f hgrant (t.envs e)
      rcases hedit with hsame | ⟨hlive, hnew⟩
      · exact h.set_env_same (hsame _) hlink
      · rcases hlocal.edit e f hgrant with hsame | hnot
        · exact h.set_env_same (hsame _) hlink
        · refine h.set_env (fun he => absurd he hnot) ⟨fun hfree => ?_, fun hfree => ?_⟩ hlink
          · rcases hnew (t.envs e) with hnew | hnew <;> rw [hnew] at hfree <;> cases hfree
          · exact absurd hfree hlive
  | fork _ _ hhead => exact h.fork hhead
  | dying _ hrun _ =>
      refine h.set_env (fun _ => .inr rfl) ⟨fun hfree => (by cases hfree), fun hfree => ?_⟩ rfl
      rw [hrun] at hfree
      cases hfree
  | freeing _ => exact ⟨h.cpuEnv, h.mode, h.cpuStatus, h.busy, h.own, h.slots⟩
  | dropVm _ => exact h.set_env_same rfl rfl
  | freedOther hreap hcur hlive => exact h.freed (hlocal.reap _ hreap) hcur hlive
  | freedOwn hcur => exact h.freed_own hcur
  | deschedule => exact h.deschedule
  | dispatch hrun => exact h.dispatch hrun
  | cpunum => exact h.set_env_same rfl rfl
  | resume hcur _ =>
      refine ⟨h.cpuEnv, fun j hj => ?_, h.cpuStatus, h.busy, h.own, h.slots⟩
      rw [← h.mode j hj]
      simp [Ctl.setMode, hj]
  | idle => exact h.set_cpu_env fun _ hi => by cases hi
  | halted =>
      refine ⟨h.cpuEnv, h.mode, fun j hj => ?_, h.busy, h.own, h.slots⟩
      rw [← h.cpuStatus j hj]
      simp [Ctl.setCpuStatus, hj]
  | sleep =>
      refine ⟨h.cpuEnv, fun j hj => ?_, h.cpuStatus, h.busy, h.own, h.slots⟩
      rw [← h.mode j hj]
      simp [Ctl.setMode, hj]
  | die =>
      refine ⟨h.cpuEnv, fun j hj => ?_, h.cpuStatus, h.busy, h.own, h.slots⟩
      rw [← h.mode j hj]
      simp [Ctl.setMode, hj]

/-- What holds in the kernel is kept by whole sequences of actions. -/
theorem acts (h : Holds A k t₀ t) (hlocal : Local A k t₀ g) (ha : Acts k g t u) :
    Holds A k t₀ u := by
  induction ha with
  | refl => exact h
  | tail _ hact ih => exact ih.act hlocal hact

end Holds

/-! ## Between kernel entries -/

/-- Each environment is current on at most one CPU that counts, and then it is running or
dying. -/
structure Placed (A : CpuMode → Prop) (t : Ctl) : Prop where
  excl : ∀ j j' e, A (t.mode j) → A (t.mode j') → t.cpuEnv j = some e → t.cpuEnv j' = some e →
    j = j'
  busy : ∀ j e, A (t.mode j) → t.cpuEnv j = some e → t.status e = .running ∨ t.status e = .dying
  slots : t.FreeList

/-- A CPU that enters the kernel may rely on the others. -/
theorem Placed.holds (h : Placed A t) (hk : A (t.mode k)) : Holds A k t t := by
  refine ⟨fun _ _ => rfl, fun _ _ => rfl, fun _ _ => rfl, ?_, fun c hc => ?_, h.slots⟩
  · rintro e ⟨j, hj, hA, hcur⟩
    exact ⟨h.busy j e hA hcur, fun hk' => hj (h.excl j k e hA hk hcur hk')⟩
  · rcases h.busy k c hk hc with hrun | hrun <;> rw [hrun] <;> decide

/-- Another CPU's environment was current there when this CPU entered. -/
theorem Holds.elsewhere (h : Holds A k t₀ t) {j : CpuId} {e : EnvIx} (hj : j ≠ k)
    (hA : A (t.mode j)) (hcur : t.cpuEnv j = some e) : t₀.Elsewhere A k e := by
  rw [h.mode j hj] at hA
  rw [h.cpuEnv j hj] at hcur
  exact ⟨j, hj, hA, hcur⟩

/-- While a CPU is in the kernel each environment is current at most once. -/
theorem Holds.excl (h₀ : Placed A t₀) (h : Holds A k t₀ t) (j j' : CpuId) (e : EnvIx)
    (hA : A (t.mode j)) (hA' : A (t.mode j')) (hcur : t.cpuEnv j = some e)
    (hcur' : t.cpuEnv j' = some e) : j = j' := by
  by_cases hj : j = k
  · by_cases hj' : j' = k
    · rw [hj, hj']
    · subst hj
      exact absurd hcur (h.busy e (h.elsewhere hj' hA' hcur')).2
  · by_cases hj' : j' = k
    · subst hj'
      exact absurd hcur' (h.busy e (h.elsewhere hj hA hcur)).2
    · rw [h.mode j hj] at hA
      rw [h.mode j' hj'] at hA'
      rw [h.cpuEnv j hj] at hcur
      rw [h.cpuEnv j' hj'] at hcur'
      exact h₀.excl j j' e hA hA' hcur hcur'

/-- A CPU that leaves the kernel with its own environment running gives back what it found. -/
theorem Holds.placed (h₀ : Placed A t₀) (h : Holds A k t₀ t)
    (hown : A (t.mode k) → ∀ e, t.cpuEnv k = some e → t.status e = .running) : Placed A t := by
  refine ⟨h.excl h₀, fun j e hA hcur => ?_, h.slots⟩
  by_cases hj : j = k
  · subst hj
    exact .inl (hown hA e hcur)
  · exact (h.busy e (h.elsewhere hj hA hcur)).1

/-- The recorded calls of `env_free` were never about another CPU's environment. -/
def Ctl.FreesOwn (t : Ctl) : Prop :=
  ∀ ev ∈ t.frees, ∀ j, j ≠ ev.cpu → ev.curenvs j ≠ some ev.env

theorem frees_own_act (h : Holds (fun _ => True) k t₀ t) (hlocal : Local (fun _ => True) k t₀ g)
    (hfrees : t.FreesOwn) (ha : Act k g t u) : u.FreesOwn := by
  cases ha with
  | @freeing e hfree =>
      intro ev hev j hj
      rcases List.mem_cons.1 hev with rfl | hev
      · have hnot : ¬ t₀.Elsewhere (fun _ => True) k e := by
          rcases hfree with hcur | hreap
          · exact h.not_elsewhere hcur
          · exact hlocal.reap e hreap
        intro hcur
        have hcur' : t.cpuEnv j = some e := hcur
        rw [h.cpuEnv j hj] at hcur'
        exact hnot ⟨j, hj, trivial, hcur'⟩
      · exact hfrees ev hev j hj
  | dispatch _ =>
      intro ev hev
      exact hfrees ev (by simpa [Ctl.dispatch, Ctl.setEnv, Ctl.setCpuEnv] using hev)
  | deschedule =>
      intro ev hev
      exact hfrees ev (by simpa using hev)
  | _ => exact hfrees

theorem frees_own_acts (h : Holds (fun _ => True) k t₀ t) (hlocal : Local (fun _ => True) k t₀ g)
    (hfrees : t.FreesOwn) (ha : Acts k g t u) : u.FreesOwn := by
  induction ha with
  | refl => exact hfrees
  | tail hacts hact ih => exact frees_own_act (h.acts hlocal hacts) hlocal ih hact

/-- The CPU that holds the lock has stopped for good: no other can enter the kernel. -/
def Kernel.stuck (s : Kernel) : Prop := ∃ h, s.kernelLock = some h ∧ (s.cpus h).mode = .dead

/-- Every environment is current on at most one CPU, stopped ones included. -/
structure Sole (s : Kernel) : Prop where
  excl : ∀ j j' e, s.ctl.cpuEnv j = some e → s.ctl.cpuEnv j' = some e → j = j'
  frees : s.ctl.FreesOwn
  asleep : ∀ j, s.ctl.mode j = .halted → s.ctl.cpuStatus j = .halted
  placed : s.stuck ∨ Placed (fun _ => True) s.ctl

/-- The state after a kernel entry: the exit state, or the CPU is dead there. -/
theorem leave_exit (k : CpuId) (ex : Exit) (s : Kernel) (hgo : ex ≠ .blocked) :
    (ex = .resume ∨ ex = .halt) ∧ leave k (.exit ex s) = s ∨
      ex ≠ .resume ∧ ex ≠ .halt ∧
        leave k (.exit ex s) = s.setCpu k fun c => { c with mode := .dead } := by
  cases ex <;> simp_all [leave]

/-- A CPU stops for good, with the lock or in a settled state. -/
theorem sole_of_dead {s : Kernel}
    (hexcl : ∀ j j' e, s.ctl.cpuEnv j = some e → s.ctl.cpuEnv j' = some e → j = j')
    (hfrees : s.ctl.FreesOwn)
    (hasleep : ∀ j, j ≠ k → s.ctl.mode j = .halted → s.ctl.cpuStatus j = .halted)
    (hplaced : s.kernelLock = some k ∨ s.stuck ∨ Placed (fun _ => True) s.ctl) :
    Sole (s.setCpu k fun c => { c with mode := .dead }) := by
  have hctl := ctl_set_mode s k .dead
  refine ⟨?_, ?_, fun j hj => ?_, ?_⟩
  · rw [hctl]
    exact hexcl
  · rw [hctl]
    exact hfrees
  · rw [hctl] at hj ⊢
    by_cases hjk : j = k
    · subst hjk
      simp [Ctl.setMode] at hj
    · simp only [Ctl.setMode, Function.update_of_ne hjk] at hj
      exact hasleep j hjk hj
  · rcases hplaced with hheld | ⟨holder, hlock, hdead⟩ | hplaced
    · exact .inl ⟨k, hheld, by simp [Kernel.setCpu]⟩
    · refine .inl ⟨holder, hlock, ?_⟩
      by_cases hk : holder = k <;> simp [Kernel.setCpu, hk, hdead]
    · right
      rw [hctl]
      exact ⟨fun j j' e _ _ => hplaced.excl j j' e trivial trivial, fun j e _ =>
        hplaced.busy j e trivial, hplaced.slots⟩

/-- An entry that does more than stop at once finds every environment in its place. -/
theorem Sole.entry_cases {s s' : Kernel} {ex : Exit} (h : Sole s) (hmode : (s.cpus k).mode ≠ .dead)
    (hgo : ex ≠ .blocked) (hentry : Entry k g s ex s') :
    QuietExit s ex s' ∨ Placed (fun _ => True) s.ctl ∧ Acts k g s.ctl s'.ctl ∧
      (s'.kernelLock = some k ∧ ex ≠ .resume ∧ ex ≠ .halt ∨
        s'.kernelLock = none ∧ Settled k ex s'.ctl) := by
  rcases hentry with hblocked | hquiet | ⟨hlock, hrest⟩
  · exact absurd hblocked hgo
  · exact .inl hquiet
  · refine .inr ⟨?_, hrest⟩
    rcases h.placed with ⟨holder, hheld, hdead⟩ | hplaced
    · rcases hlock with hnone | hself
      · rw [hnone] at hheld
        cases hheld
      · rw [hself] at hheld
        cases hheld
        exact absurd hdead hmode
    · exact hplaced

/-- A kernel entry that stays local keeps every environment on one CPU. -/
theorem Sole.entry {s s' : Kernel} {ex : Exit} (h : Sole s) (hmode : (s.cpus k).mode ≠ .dead)
    (hlocal : Placed (fun _ => True) s.ctl → Local (fun _ => True) k s.ctl g)
    (hgo : ex ≠ .blocked) (hentry : Entry k g s ex s') : Sole (leave k (.exit ex s')) := by
  have hleave := leave_exit k ex s' hgo
  rcases h.entry_cases hmode hgo hentry with hquiet | ⟨hplaced, hacts, hend⟩
  · -- the CPU stopped before it did anything
    obtain ⟨⟨hctl, hlock⟩, hstop⟩ := hquiet
    rcases hleave with ⟨hex, -⟩ | ⟨-, -, heq⟩
    · exact absurd hex (by simp [hstop])
    · rw [heq]
      refine sole_of_dead (hctl ▸ h.excl) (hctl ▸ h.frees) (fun j _ => hctl ▸ h.asleep j) (.inr ?_)
      rcases h.placed with ⟨holder, hheld, hdead⟩ | hplaced
      · refine .inl ⟨holder, hlock.trans hheld, ?_⟩
        exact (congrFun (congrArg Ctl.mode hctl) holder).trans hdead
      · exact .inr (hctl ▸ hplaced)
  · have hlocal := hlocal hplaced
    have hholds := (hplaced.holds (k := k) trivial).acts hlocal hacts
    have hfrees := frees_own_acts (hplaced.holds (k := k) trivial) hlocal h.frees hacts
    have hexcl : ∀ j j' e, s'.ctl.cpuEnv j = some e → s'.ctl.cpuEnv j' = some e → j = j' :=
      fun j j' e => hholds.excl hplaced j j' e trivial trivial
    have hasleep : ∀ j, j ≠ k → s'.ctl.mode j = .halted → s'.ctl.cpuStatus j = .halted := by
      intro j hj hm
      rw [hholds.mode j hj] at hm
      rw [hholds.cpuStatus j hj]
      exact h.asleep j hm
    have hsettled : Settled k ex s'.ctl → Placed (fun _ => True) s'.ctl := by
      rintro (⟨e, hcur, hrun, -⟩ | ⟨hcur, -⟩)
      · refine hholds.placed hplaced fun _ i hi => ?_
        rw [hcur] at hi
        cases hi
        exact hrun
      · refine hholds.placed hplaced fun _ i hi => ?_
        rw [hcur] at hi
        cases hi
    rcases hleave with ⟨hex, heq⟩ | ⟨hresume, hhalt, heq⟩
    · rw [heq]
      rcases hend with ⟨-, hresume, hhalt⟩ | ⟨-, hset⟩
      · exact absurd hex (by simp [hresume, hhalt])
      · refine ⟨hexcl, hfrees, fun j hj => ?_, .inr (hsettled hset)⟩
        by_cases hjk : j = k
        · subst hjk
          rcases hset with ⟨e, -, -, hnothalt, hmode'⟩ | ⟨-, -, hstatus, -⟩
          · rw [hmode' (hex.resolve_right hnothalt)] at hj
            cases hj
          · exact hstatus
        · exact hasleep j hjk hj
    · rw [heq]
      refine sole_of_dead hexcl hfrees hasleep ?_
      rcases hend with ⟨hheld, -⟩ | ⟨-, hset⟩
      · exact .inl hheld
      · exact .inr (.inr (hsettled hset))

/-! ## Runs -/

/-- The call changes the status of `e`, or frees it: `sys_env_set_status`, `sys_ipc_try_send` to
a waiting receiver, and `sys_env_destroy` of an environment that is not running. -/
def SetsStatus (s : Kernel) (k : CpuId) : Call → EnvIx → Prop
  | .envSetStatus envid status, e =>
      settableStatus status ≠ none ∧ envid2env s k envid true = some e
  | .ipcTrySend envid _ _ _, e =>
      envid2env s k envid false = some e ∧ (s.envs e).envIpcRecving = true
  | .envDestroy envid, e =>
      envid2env s k envid true = some e ∧ (s.envs e).envStatus ≠ .running
  | _, _ => False

/-- A system call does not change the status of an environment that is current on another CPU. -/
def LocalTargets (s : Kernel) : Event → Prop
  | .trap k tf _ => tf.trapno = tSyscall →
      ∀ e, SetsStatus s k (decodeCall tf.regs) e → ∀ j, j ≠ k → (s.cpus j).cpuEnv ≠ some e
  | _ => True

/-- A trap counts as one from user mode, so that the kernel runs under the lock. -/
def UserEntry : Event → Prop
  | .trap _ tf _ => tf.cs &&& 3 = 3
  | _ => True

/-- Kernel entries run under the lock, with local effects on the status. -/
def LocalStatus (s : Kernel) (ev : Event) : Prop := UserEntry ev ∧ LocalTargets s ev

/-- The grant of an entry with local effects on the status is local. -/
theorem local_entry_grant {s : Kernel} {tf : Trapframe} {cr2 : Word}
    (h : LocalTargets s (.trap k tf cr2)) (hA : A (s.ctl.mode k)) (hplaced : Placed A s.ctl) :
    Local A k s.ctl (entryGrant s k tf) := by
  have htarget : ∀ e, tf.trapno = tSyscall → SetsStatus s k (decodeCall tf.regs) e →
      ¬ s.ctl.Elsewhere A k e := by
    rintro e htrap hsets ⟨j, hj, -, hcur⟩
    exact h htrap e hsets j hj hcur
  refine ⟨?_, ?_, ?_⟩
  · rintro e f ⟨c, -, -, hedit⟩ env
    cases hedit with
    | save => rfl
    | result r => rfl
    | fault esp eip => rfl
    | call _ hcall =>
        generalize decodeCall tf.regs = call at hcall
        cases hcall <;> rfl
  · rintro e f ⟨c, hcur, -, hedit⟩
    cases hedit with
    | save => exact .inl fun _ => rfl
    | result r => exact .inl fun _ => rfl
    | fault esp eip => exact .inl fun _ => rfl
    | call htrap hcall =>
        have htarget' := htarget e htrap
        generalize decodeCall tf.regs = call at hcall htarget'
        cases hcall with
        | status hst he => exact .inr (htarget' ⟨by simp [hst], he⟩)
        | trapframe he hbytes => exact .inl fun _ => rfl
        | upcall he => exact .inl fun _ => rfl
        | send he hrecv => exact .inr (htarget' ⟨he, hrecv⟩)
        | sendPerm sent he hrecv => exact .inl fun _ => rfl
        | recv =>
            -- the caller itself: it is current here, so nowhere else
            right
            rintro ⟨j, hj, hA', hcur'⟩
            exact hj (hplaced.excl j k e hA' hA hcur' hcur)
        | exec eip esp => exact .inl fun _ => rfl
  · rintro e ⟨envid, ⟨c, -, -, htrap, hcall⟩, he, hrun⟩
    refine htarget e htrap ?_
    rw [hcall]
    exact ⟨he, hrun⟩

/-- A program that never returns and whose entry proceeds leaves with some exit. -/
theorem exit_of_entry {x : Kern Unit} {s : Kernel}
    (h : wp x (fun _ _ => False) (Entry k g s) s) (hgo : proceeds (x s)) :
    ∃ ex s', x s = .exit ex s' ∧ ex ≠ .blocked ∧ Entry k g s ex s' := by
  obtain ⟨ex, s', hx, hentry⟩ := exit_of_wp h
  refine ⟨ex, s', hx, ?_, hentry⟩
  rintro rfl
  rw [hx] at hgo
  exact hgo

theorem ctl_store (s : Kernel) (p off : Nat) (b : Byte) : (s.setPhysByte p off b).ctl = s.ctl := rfl

/-- Steps that leave control state and lock alone keep every environment on one CPU. -/
theorem Sole.congr {s s' : Kernel} (h : Sole s) (hctl : s'.ctl = s.ctl)
    (hlock : s'.kernelLock = s.kernelLock) : Sole s' := by
  refine ⟨hctl ▸ h.excl, hctl ▸ h.frees, hctl ▸ h.asleep, ?_⟩
  rcases h.placed with ⟨holder, hheld, hdead⟩ | hplaced
  · refine .inl ⟨holder, hlock.trans hheld, ?_⟩
    exact (congrFun (congrArg Ctl.mode hctl) holder).trans hdead
  · exact .inr (hctl ▸ hplaced)

/-- A step is an entry of some CPU with the grant of its event, or it leaves the control state and
the lock alone. -/
theorem Sole.cases {s s' : Kernel} {ev : Event} (h : Sole s) (huser : UserEntry ev)
    (hstep : Step s ev s') :
    s'.ctl = s.ctl ∧ s'.kernelLock = s.kernelLock ∧ ev.entrant = none ∨
      ∃ k g ex s₁, s' = leave k (.exit ex s₁) ∧ ex ≠ .blocked ∧ Entry k g s ex s₁ ∧
        (s.cpus k).mode ≠ .dead ∧ ev.entrant = some k ∧
        (g = .none ∨ ∃ tf cr2, ev = .trap k tf cr2 ∧ g = entryGrant s k tf) := by
  cases hstep with
  | @start k hmode hgo =>
      obtain ⟨ex, s₁, hx, hblocked, hentry⟩ := exit_of_entry (start_cpu_spec s) hgo
      rw [hx]
      exact .inr ⟨k, _, ex, s₁, rfl, hblocked, hentry, by simp [hmode], rfl, .inl rfl⟩
  | @trap k loaded tf cr2 hmode hframe hgo =>
      have hdead : (s.cpus k).mode ≠ .dead := by simp [hmode]
      rcases h.placed with ⟨holder, hheld, -⟩ | hplaced
      · have hspec : wp (Jos.trap k tf cr2) (fun _ _ => False) (Entry k .none s) s :=
          trap_held_spec huser (by simp [hheld]) cr2
        obtain ⟨ex, s₁, hx, hblocked, hentry⟩ := exit_of_entry hspec hgo
        rw [hx]
        exact .inr ⟨k, _, ex, s₁, rfl, hblocked, hentry, hdead, rfl, .inl rfl⟩
      · obtain ⟨ex, s₁, hx, hblocked, hentry⟩ :=
          exit_of_entry (trap_spec huser (hplaced.holds trivial).own cr2) hgo
        rw [hx]
        exact .inr ⟨k, _, ex, s₁, rfl, hblocked, hentry, hdead, rfl, .inr ⟨tf, cr2, rfl, rfl⟩⟩
  | @irq k tf hmode hcs hirq hgo =>
      obtain ⟨ex, s₁, hx, hblocked, hentry⟩ :=
        exit_of_entry (irq_spec hcs hirq (h.asleep k hmode)) hgo
      rw [hx]
      exact .inr ⟨k, _, ex, s₁, rfl, hblocked, hentry, by simp [hmode], rfl, .inl rfl⟩
  | store hmode hx hw hu => exact .inl ⟨ctl_store _ _ _ _, rfl, rfl⟩
  | nic => exact .inl ⟨rfl, rfl, rfl⟩
  | key => exact .inl ⟨rfl, rfl, rfl⟩

/-- The grant of a step with local effects on the status is local. -/
theorem local_grant {s : Kernel} {ev : Event} {k : CpuId} {g : Grant} (hlocal : LocalTargets s ev)
    (hg : g = .none ∨ ∃ tf cr2, ev = .trap k tf cr2 ∧ g = entryGrant s k tf)
    (hplaced : Placed (fun _ => True) s.ctl) : Local (fun _ => True) k s.ctl g := by
  rcases hg with rfl | ⟨tf, cr2, rfl, rfl⟩
  · exact local_none
  · exact local_entry_grant hlocal trivial hplaced

/-- One step with local effects on the status keeps every environment on one CPU. -/
theorem Sole.step {s s' : Kernel} {ev : Event} (h : Sole s) (hlocal : LocalStatus s ev)
    (hstep : Step s ev s') : Sole s' := by
  rcases h.cases hlocal.1 hstep with ⟨hctl, hlock, -⟩ | ⟨k, g, ex, s₁, rfl, hgo, hentry, hdead, -, hg⟩
  · exact h.congr hctl hlock
  · exact h.entry hdead (local_grant hlocal.2 hg) hgo hentry

/-- Runs with local effects on the status keep every environment on one CPU. -/
theorem Sole.run {s s' : Kernel} (h : Sole s) (hrun : ReachIf LocalStatus s s') : Sole s' := by
  induction hrun with
  | refl => exact h
  | tail _ hstep ih =>
      obtain ⟨ev, hok, hstep⟩ := hstep
      exact ih.step hok hstep

end Labs.Jos
