import Labs.Jos.BootControl
import Labs.Jos.TrapRefines

/-!
# Environment ids

An `envid_t` is the number of a slot with a generation above it. `env_alloc` gives each new
environment the next generation of its slot, and starts over before the id would become
negative. This module follows the environment table through every sequence of `env_alloc` and
`env_free`, with a history of the ids given to each slot.
-/

namespace Labs.Jos

open Prog

/-! ## The arithmetic of generations -/

/-- `& ~(NENV - 1)` clears the slot bits. -/
theorem clear_slot (x : Word) : (x &&& ~~~1023#32).toNat = x.toNat / 1024 * 1024 := by
  have hlow : (x &&& ~~~1023#32).toNat % 1024 = 0 := by
    have hzero : x &&& ~~~1023#32 &&& 1023#32 = 0#32 := by
      rw [BitVec.and_assoc]
      simp
    have hnat := congrArg BitVec.toNat hzero
    rw [BitVec.toNat_and, show (1023#32).toNat = 2 ^ 10 - 1 by decide,
      Nat.and_two_pow_sub_one_eq_mod] at hnat
    exact hnat
  have hhigh : (x &&& ~~~1023#32).toNat / 1024 = x.toNat / 1024 := by
    have hshift : (x &&& ~~~1023#32) >>> 10 = x >>> 10 := by
      rw [BitVec.ushiftRight_and_distrib]
      apply BitVec.eq_of_toNat_eq
      rw [BitVec.toNat_and, show (~~~1023#32 >>> 10).toNat = 2 ^ 22 - 1 by decide,
        Nat.and_two_pow_sub_one_eq_mod]
      have hlt := x.isLt
      simp only [BitVec.toNat_ushiftRight, Nat.shiftRight_eq_div_pow]
      omega
    have hnat := congrArg BitVec.toNat hshift
    simpa only [BitVec.toNat_ushiftRight, Nat.shiftRight_eq_div_pow] using hnat
  omega

/-- The id that the allocation number `n` of slot `e`, counted from zero, gives. -/
def idAt (n : Nat) (e : EnvIx) : Word := BitVec.ofNat 32 ((n % 524287 + 1) * 4096 + e.val)

theorem id_at_to_nat (n : Nat) (e : EnvIx) :
    (idAt n e).toNat = (n % 524287 + 1) * 4096 + e.val := by
  have he := e.isLt
  rw [idAt, BitVec.toNat_ofNat]
  omega

/-- The next id of slot `e` after one of generation `g`. -/
theorem next_env_id_to_nat {old : Word} {g r : Nat} (hold : old.toNat = g * 4096 + r)
    (hr : r < 1024) (hg : g ≤ 524287) (e : EnvIx) :
    (nextEnvId old e).toNat = (if g + 1 ≤ 524287 then g + 1 else 1) * 4096 + e.val := by
  have he := e.isLt
  have hsum : (old + 4096#32).toNat = (g + 1) * 4096 + r := by
    rw [BitVec.toNat_add, hold, show (4096#32).toNat = 4096 by decide]
    omega
  have hgen : ((old + 4096#32) &&& ~~~1023#32).toNat = (g + 1) * 4096 := by
    rw [clear_slot, hsum]
    omega
  have hor : ∀ (x : Word) (m : Nat), x.toNat = m * 4096 →
      (x ||| BitVec.ofNat 32 e.val).toNat = m * 4096 + e.val := by
    intro x m hx
    rw [BitVec.toNat_or, hx, BitVec.toNat_ofNat, show e.val % 2 ^ 32 = e.val by omega,
      show m * 4096 = m <<< 12 by rw [Nat.shiftLeft_eq], ← Nat.shiftLeft_add_eq_or_of_lt (by omega)]
  unfold nextEnvId
  dsimp only
  by_cases hlast : g + 1 ≤ 524287
  · have hpos : ¬ ((old + 4096#32) &&& ~~~1023#32).toInt ≤ 0 := by
      rw [BitVec.toInt_eq_toNat_cond, hgen]
      split <;> omega
    rw [if_neg hpos, if_pos hlast]
    exact hor _ _ hgen
  · have hneg : ((old + 4096#32) &&& ~~~1023#32).toInt ≤ 0 := by
      rw [BitVec.toInt_eq_toNat_cond, hgen]
      split <;> omega
    rw [if_pos hneg, if_neg hlast]
    exact hor _ _ (by decide)

/-- The first allocation of a slot. -/
theorem next_env_id_zero (e : EnvIx) : nextEnvId 0 e = idAt 0 e := by
  apply BitVec.eq_of_toNat_eq
  rw [@next_env_id_to_nat 0 0 0 rfl (by decide) (by decide), id_at_to_nat]
  rfl

/-- Every further one. -/
theorem next_env_id_succ (n : Nat) (e : EnvIx) : nextEnvId (idAt n e) e = idAt (n + 1) e := by
  apply BitVec.eq_of_toNat_eq
  have hmod : n % 524287 < 524287 := Nat.mod_lt _ (by decide)
  rw [next_env_id_to_nat (id_at_to_nat n e) e.isLt hmod, id_at_to_nat]
  split <;> omega

/-- The ids of a slot repeat with the period 524287. -/
theorem id_at_eq_iff (n m : Nat) (e : EnvIx) :
    idAt n e = idAt m e ↔ n % 524287 = m % 524287 := by
  constructor
  · intro heq
    have hnat := congrArg BitVec.toNat heq
    rw [id_at_to_nat, id_at_to_nat] at hnat
    omega
  · intro heq
    rw [idAt, idAt, heq]

/-- An id is positive. -/
theorem id_at_pos (n : Nat) (e : EnvIx) : 0 < (idAt n e).toInt := by
  have he := e.isLt
  have hmod : n % 524287 < 524287 := Nat.mod_lt _ (by decide)
  rw [BitVec.toInt_eq_toNat_cond, id_at_to_nat]
  split <;> omega

/-- An id names its slot. -/
theorem envx_id_at (n : Nat) (e : EnvIx) : envx (idAt n e) = e := by
  have he := e.isLt
  apply Fin.ext
  show (idAt n e).toNat % 1024 = e.val
  rw [id_at_to_nat]
  omega

/-! ## The environment table -/

/-- The state in which `env_init` leaves the table; `env_free_list` starts out as a null
pointer. -/
def EnvTableInit (s : Kernel) : Prop :=
  ∃ start : Kernel, start.envFreeList = none ∧ envInit start = .ret () s

/-- A change that does not concern the free list, the ids and which slots are free. -/
structure SameTable (s s' : Kernel) : Prop where
  head : s'.envFreeList = s.envFreeList
  id : ∀ e, (s'.envs e).envId = (s.envs e).envId
  link : ∀ e, (s'.envs e).envLink = (s.envs e).envLink
  free : ∀ e, (s'.envs e).envStatus = .free ↔ (s.envs e).envStatus = .free

/-- The states that calls of `env_alloc`, successful or not, and calls of `env_free` on live
environments reach from `s₀`, with the ids given to each slot so far. Between two calls the rest
of the kernel may do anything that leaves the table alone. -/
inductive EnvRun (s₀ : Kernel) : Kernel → (EnvIx → List Word) → Prop where
  | init : EnvRun s₀ s₀ fun _ => []
  | alloc {s s' : Kernel} {given : EnvIx → List Word} {parentId : Word} {e : EnvIx}
      (hrun : EnvRun s₀ s given) (hcall : envAlloc parentId s = .ret (.ok e) s') :
      EnvRun s₀ s' (Function.update given e (given e ++ [(s'.envs e).envId]))
  | fail {s s' : Kernel} {given : EnvIx → List Word} {parentId : Word} {r : Int}
      (hrun : EnvRun s₀ s given) (hcall : envAlloc parentId s = .ret (.error r) s') :
      EnvRun s₀ s' given
  | free {s s' : Kernel} {given : EnvIx → List Word} {k : CpuId} {e : EnvIx}
      (hrun : EnvRun s₀ s given) (hlive : s.live e) (hcall : envFree k e s = .ret () s') :
      EnvRun s₀ s' given
  | other {s s' : Kernel} {given : EnvIx → List Word} (hrun : EnvRun s₀ s given)
      (hsame : SameTable s s') : EnvRun s₀ s' given

/-- What ids are for: they name live environments, each one its own, and an id that has been
given comes back only after 524287 further allocations of its slot. -/
structure EnvIdsOk (s : Kernel) (given : EnvIx → List Word) : Prop where
  positive : ∀ e, s.live e → 0 < (s.envs e).envId.toInt
  slot : ∀ e, s.live e → envx (s.envs e).envId = e
  distinct : ∀ e e', s.live e → s.live e' → (s.envs e).envId = (s.envs e').envId → e = e'
  freeList : ∃ l, Chain (fun e => (s.envs e).envLink) s.envFreeList l ∧ l.Nodup ∧
    ∀ e, e ∈ l ↔ ¬ s.live e
  again : ∀ e i j id id', i < j → (given e)[i]? = some id → (given e)[j]? = some id' →
    (id = id' ↔ (j - i) % 524287 = 0)
  stale : ∀ e i id, (given e)[i]? = some id → (given e).length - 1 - i < 524287 →
    (i + 1 = (given e).length → ¬ s.live e) → ∀ k checkperm, envid2env s k id checkperm = none

/-- The table of a run: the ids given to a slot are the first ones of its sequence, and the slot
holds the last of them. -/
structure EnvTable (s : Kernel) (given : EnvIx → List Word) : Prop where
  slots : s.ctl.FreeList
  ids : ∀ e, given e = (List.range (given e).length).map (idAt · e)
  unused : ∀ e, given e = [] → (s.envs e).envId = 0 ∧ ¬ s.live e
  last : ∀ e n, (given e).length = n + 1 → (s.envs e).envId = idAt n e

/-- After `j` iterations of `env_init` the list links the last `j` slots. -/
theorem env_init_spec {s : Kernel} (hhead : s.envFreeList = none) :
    wp envInit (fun _ s' => EnvTable s' fun _ => []) (fun _ _ => False) s := by
  let I : Nat → Kernel → Prop := fun j s =>
    (∀ e : EnvIx, 1024 ≤ e.val + j → (s.envs e).envStatus = .free ∧ (s.envs e).envId = 0) ∧
    ∃ l, Chain (fun e => (s.envs e).envLink) s.envFreeList l ∧ ∀ e : EnvIx, e ∈ l ↔ 1024 ≤ e.val + j
  have hloop : wp envInit (fun _ s' => I 1024 s') (fun _ _ => False) s := by
    refine wp_for_upto ⟨fun e he => ?_, [], hhead, fun e => ?_⟩ ?_
    · have hlt := e.isLt
      omega
    · have hlt := e.isLt
      simp only [List.not_mem_nil, false_iff]
      omega
    · intro j hj t ht
      obtain ⟨hfree, l, hchain, hmem⟩ := ht
      simp only [wp_bind, wp_gets, modifyEnv, wp_modify]
      generalize hslot : (⟨(1023 - j) % 1024, _⟩ : EnvIx) = i
      have hi : i.val = 1023 - j := by
        rw [← hslot]
        exact Nat.mod_eq_of_lt (by omega)
      have hj' : j < 1024 := hj
      have hnot : i ∉ l := by
        intro hmem'
        have hle := (hmem i).1 hmem'
        omega
      have hval : ∀ e : EnvIx, e ≠ i → e.val ≠ 1023 - j := by
        intro e he hval
        exact he (Fin.ext (hval.trans hi.symm))
      refine ⟨fun e he => ?_, i :: l, ?_, fun e => ?_⟩
      · by_cases hei : e = i
        · simp [Kernel.setEnv, hei]
        · have hne := hval e hei
          have hold := hfree e (by omega)
          simpa [Kernel.setEnv, hei] using hold
      · refine (hchain.push hnot).congr fun e _ => ?_
        by_cases hei : e = i <;> simp [Kernel.setEnv, hei]
      · rw [List.mem_cons, hmem]
        by_cases hei : e = i
        · simp only [hei, true_or, true_iff]
          omega
        · have hne := hval e hei
          simp only [hei, false_or]
          omega
  refine wp_mono_ret hloop fun _ s' hend => ?_
  obtain ⟨hfree, l, hchain, hmem⟩ := hend
  have hall : ∀ e, (s'.envs e).envStatus = .free ∧ (s'.envs e).envId = 0 :=
    fun e => hfree e (Nat.le_add_left _ _)
  refine ⟨⟨l, hchain, fun e => ?_⟩, fun _ => rfl, fun e _ => ⟨(hall e).2, ?_⟩, fun e n hn => ?_⟩
  · have hstatus : s'.ctl.status e = .free := (hall e).1
    rw [hstatus, hmem]
    simp
  · exact fun hlive => hlive (hall e).1
  · cases hn

/-- `env_free` puts its environment at the head of the free list and changes no id. -/
theorem env_free_table {s : Kernel} (k : CpuId) (e : EnvIx) :
    wp (envFree k e)
      (fun _ s' => ∃ u : Ctl, (∀ i, (u.envs i).envId = (s.envs i).envId ∧
          (u.envs i).envLink = (s.envs i).envLink ∧ u.status i = s.ctl.status i) ∧
        u.envFreeList = s.envFreeList ∧ s'.ctl = u.freed e)
      (fun _ _ => True) s := by
  rw [envFree, wp_bind, wp_modify, wp_bind]
  refine wp_mono (quiet_env_flush k e _) (fun pgdir s₁ hq₁ => ?_) fun _ _ _ => trivial
  rw [wp_bind, modifyEnv, wp_modify, wp_bind]
  refine wp_mono (quiet_pa2page _ _) (fun pp s₂ hq₂ => ?_) fun _ _ _ => trivial
  rw [wp_bind]
  refine wp_mono (quiet_page_decref pp s₂) (fun _ s₃ hq₃ => ?_) fun _ _ _ => trivial
  simp only [wp_bind, wp_gets, modifyEnv, wp_modify]
  have henvs : s₃.ctl.envs = Function.update s.envs e { s.envs e with envPgdir := none } := by
    have henvs₁ : s₁.envs = s.envs := congrArg Ctl.envs hq₁.1
    rw [hq₃.1, hq₂.1]
    show Function.update s₁.envs e { s₁.envs e with envPgdir := none } = _
    rw [henvs₁]
  have hhead : s₃.ctl.envFreeList = s.envFreeList := by
    rw [hq₃.1, hq₂.1]
    show s₁.ctl.envFreeList = _
    rw [hq₁.1]
    rfl
  refine ⟨s₃.ctl, fun i => ?_, hhead, rfl⟩
  unfold Ctl.status
  rw [henvs]
  by_cases hi : i = e
  · subst hi
    simp [Kernel.ctl]
  · simp [Kernel.ctl, hi]

namespace EnvTable

variable {s s' : Kernel} {given : EnvIx → List Word} {e : EnvIx}

/-- The table does not depend on anything else. -/
theorem congr (h : EnvTable s given) (hsame : SameTable s s') : EnvTable s' given where
  slots := h.slots.congr hsame.head hsame.free hsame.link
  ids := h.ids
  unused := by
    intro i hi
    obtain ⟨hid, hfree⟩ := h.unused i hi
    exact ⟨(hsame.id i).trans hid, fun hlive => hfree fun hold => hlive ((hsame.free i).2 hold)⟩
  last := fun i n hn => (hsame.id i).trans (h.last i n hn)

/-- The id that the next allocation of a slot gives. -/
theorem next_id (h : EnvTable s given) (e : EnvIx) :
    nextEnvId (s.envs e).envId e = idAt (given e).length e := by
  cases hn : (given e).length with
  | zero =>
      rw [(h.unused e (List.eq_nil_of_length_eq_zero hn)).1]
      exact next_env_id_zero e
  | succ n =>
      rw [h.last e n hn]
      exact next_env_id_succ n e

/-- A successful allocation gives the next id. -/
theorem alloc {parentId : Word} {p : Nat} (h : EnvTable s given)
    (hhead : s.ctl.envFreeList = some e) (hctl : s'.ctl = s.ctl.alloc e parentId p) :
    EnvTable s' (Function.update given e (given e ++ [(s'.envs e).envId])) := by
  have henvs : ∀ i, s'.envs i = (s.ctl.alloc e parentId p).envs i :=
    fun i => congrFun (congrArg Ctl.envs hctl) i
  have hid : (s'.envs e).envId = idAt (given e).length e := by
    rw [henvs, ← h.next_id]
    simp [Ctl.alloc, Ctl.setEnv, Kernel.ctl]
  have hother : ∀ i, i ≠ e → s'.envs i = s.envs i := by
    intro i hi
    rw [henvs]
    simp [Ctl.alloc, Ctl.setEnv, Kernel.ctl, hi]
  refine ⟨?_, fun i => ?_, fun i hi => ?_, fun i n hn => ?_⟩
  · rw [hctl]
    exact h.slots.alloc hhead
  · by_cases hie : i = e
    · subst hie
      rw [Function.update_self, List.length_append, List.length_singleton, List.range_succ,
        List.map_append, ← h.ids, hid]
      rfl
    · rw [Function.update_of_ne hie]
      exact h.ids i
  · by_cases hie : i = e
    · subst hie
      simp at hi
    · rw [Function.update_of_ne hie] at hi
      unfold Kernel.live
      rw [hother i hie]
      exact h.unused i hi
  · by_cases hie : i = e
    · subst hie
      rw [Function.update_self, List.length_append, List.length_singleton] at hn
      rw [hid, Nat.succ.inj hn]
    · rw [Function.update_of_ne hie] at hn
      rw [hother i hie]
      exact h.last i n hn

/-- Freeing a live environment keeps its id for the next allocation. -/
theorem freed {u : Ctl} (h : EnvTable s given) (hlive : s.live e)
    (hu : ∀ i, (u.envs i).envId = (s.envs i).envId ∧
      (u.envs i).envLink = (s.envs i).envLink ∧ u.status i = s.ctl.status i)
    (hhead : u.envFreeList = s.envFreeList) (hctl : s'.ctl = u.freed e) : EnvTable s' given := by
  have hslots : u.FreeList :=
    h.slots.congr hhead (fun i => by rw [(hu i).2.2]) fun i => (hu i).2.1
  have hid : ∀ i, (s'.envs i).envId = (s.envs i).envId := by
    intro i
    rw [← (hu i).1, show s'.envs i = (u.freed e).envs i from congrFun (congrArg Ctl.envs hctl) i]
    by_cases hie : i = e <;> simp [Ctl.freed, Ctl.setEnv, hie]
  have hstatus : ∀ i, i ≠ e → (s'.envs i).envStatus = (s.envs i).envStatus := by
    intro i hie
    have hold : u.status i = (s.envs i).envStatus := (hu i).2.2
    rw [← hold, show s'.envs i = (u.freed e).envs i from congrFun (congrArg Ctl.envs hctl) i]
    simp [Ctl.freed, Ctl.setEnv, Ctl.status, hie]
  refine ⟨?_, h.ids, fun i hi => ?_, fun i n hn => (hid i).trans (h.last i n hn)⟩
  · rw [hctl]
    refine hslots.freed ?_
    rw [(hu e).2.2]
    exact hlive
  · obtain ⟨hzero, hfree⟩ := h.unused i hi
    have hie : i ≠ e := fun hie => hfree (hie ▸ hlive)
    refine ⟨(hid i).trans hzero, ?_⟩
    unfold Kernel.live
    rw [hstatus i hie]
    exact hfree

/-- The table gives what ids are for. -/
theorem ok (h : EnvTable s given) : EnvIdsOk s given := by
  have hused : ∀ e, s.live e → ∃ n, (given e).length = n + 1 := by
    intro e hlive
    cases hn : (given e).length with
    | zero => exact absurd hlive (h.unused e (List.eq_nil_of_length_eq_zero hn)).2
    | succ n => exact ⟨n, rfl⟩
  have hitem : ∀ e i id, (given e)[i]? = some id → i < (given e).length ∧ id = idAt i e := by
    intro e i id hid
    have hi : i < (given e).length := (List.getElem?_eq_some_iff.1 hid).1
    rw [h.ids e, List.getElem?_map, List.getElem?_range hi] at hid
    exact ⟨hi, (Option.some.inj hid).symm⟩
  have hslot : ∀ e, s.live e → envx (s.envs e).envId = e := by
    intro e hlive
    obtain ⟨n, hn⟩ := hused e hlive
    rw [h.last e n hn]
    exact envx_id_at n e
  refine ⟨fun e hlive => ?_, hslot, fun e e' hlive hlive' hid => ?_, ?_, ?_, ?_⟩
  · obtain ⟨n, hn⟩ := hused e hlive
    rw [h.last e n hn]
    exact id_at_pos n e
  · rw [← hslot e hlive, hid]
    exact hslot e' hlive'
  · obtain ⟨l, hchain, hmem⟩ := h.slots
    refine ⟨l, hchain, hchain.nodup, fun e => ?_⟩
    rw [hmem, Kernel.live, not_not]
    rfl
  · intro e i j id id' hij hi hj
    rw [(hitem e i id hi).2, (hitem e j id' hj).2, id_at_eq_iff]
    omega
  · intro e i id hi hrecent hfreed k checkperm
    obtain ⟨hlt, rfl⟩ := hitem e i id hi
    obtain ⟨n, hn⟩ : ∃ n, (given e).length = n + 1 := ⟨(given e).length - 1, by omega⟩
    have hpos := id_at_pos i e
    have hnonzero : idAt i e ≠ 0 := by
      intro hzero
      rw [hzero] at hpos
      cases hpos
    have hstale : (s.envs e).envStatus = .free ∨ (s.envs e).envId ≠ idAt i e := by
      by_cases hlast : i + 1 = (given e).length
      · exact .inl (not_not.1 (hfreed hlast))
      · refine .inr ?_
        rw [h.last e n hn, ne_eq, id_at_eq_iff]
        omega
    unfold envid2env
    cases (s.cpus k).cpuEnv with
    | none => rfl
    | some c =>
        dsimp only
        rw [if_neg hnonzero, envx_id_at, if_pos hstale]

end EnvTable

/-- Every run keeps the table. -/
theorem EnvRun.table {s₀ s : Kernel} {given : EnvIx → List Word} (hinit : EnvTableInit s₀)
    (hrun : EnvRun s₀ s given) : EnvTable s given := by
  induction hrun with
  | init =>
      obtain ⟨start, hhead, hcall⟩ := hinit
      have hwp := env_init_spec hhead
      rwa [wp_of_ret hcall] at hwp
  | alloc _ hcall ih =>
      obtain ⟨-, p, hhead, hctl⟩ := (wp_of_ret hcall).1 (env_alloc_spec _ _)
      exact ih.alloc hhead hctl
  | fail _ hcall ih =>
      obtain ⟨-, hctl⟩ := (wp_of_ret hcall).1 (env_alloc_spec _ _)
      have henvs := fun e => congrFun (congrArg Ctl.envs hctl) e
      refine ih.congr ⟨congrArg Ctl.envFreeList hctl, fun e => ?_, fun e => ?_, fun e => ?_⟩
      · exact congrArg Env.envId (henvs e)
      · exact congrArg Env.envLink (henvs e)
      · exact Eq.congr_left (congrArg Env.envStatus (henvs e))
  | free _ hlive hcall ih =>
      obtain ⟨u, hu, hhead, hctl⟩ := (wp_of_ret hcall).1 (env_free_table _ _)
      exact ih.freed hlive hu hhead hctl
  | other _ hsame ih => exact ih.congr hsame

/-- For every sequence of `env_alloc` and `env_free` on the table of `env_init`, the ids are what
they are for. -/
theorem env_ids_ok (s₀ s : Kernel) (given : EnvIx → List Word) (hinit : EnvTableInit s₀)
    (hrun : EnvRun s₀ s given) : EnvIdsOk s given :=
  (hrun.table hinit).ok

/-- `env_alloc` succeeds when there is a free slot and a free page. -/
theorem env_alloc_ok {s : Kernel} {e : EnvIx} {p : Nat} (hhead : s.envFreeList = some e)
    (hpage : s.pageFreeList = some p) (hp : p < s.npages) (hsmall : p < 1048576)
    (parentId : Word) :
    wp (envAlloc parentId) (fun r _ => r = .ok e) (fun _ _ => False) s := by
  have hin : ¬ s.npages ≤ pgnum (page2pa p) := by
    rw [pgnum_page2pa hsmall]
    omega
  simp only [envAlloc, envSetupVm, pageAlloc, zeroPage, kaddr, wp_bind, wp_gets, hhead, hpage,
    modifyPage, modifyEnv, writeWord, wp_modify, wp_ite, wp_pure, if_true]
  exact ⟨fun hout => absurd hout hin, fun _ => ⟨fun _ => trivial, fun hno => absurd trivial hno⟩⟩

/-- Environment `e` has page `p` as its directory, with no page table below `UTOP`. -/
structure EmptyDir (s : Kernel) (e : EnvIx) (p : Nat) : Prop where
  dir : (s.envs e).envPgdir = some p
  empty : ∀ d < pdx utop, hasFlag (s.mem p d) pteP = false
  ref : (s.pages p).ppRef = 1
  lt : p < s.npages

/-- `env_setup_vm` copies the directory of the kernel. -/
theorem env_setup_vm_dir {s : Kernel} {e : EnvIx} {p : Nat}
    (hpage : s.pageFreeList = some p) (hp : p < s.npages) (hsmall : p < 1048576)
    (hne : s.kernPgdir ≠ p)
    (hempty : ∀ d < pdx utop, hasFlag (s.mem s.kernPgdir d) pteP = false) :
    wp (envSetupVm e) (fun r s' => r = true ∧ EmptyDir s' e p ∧ ∀ k, (s'.cpus k).cpuEnv = (s.cpus k).cpuEnv)
      (fun _ _ => False) s := by
  have hin : ¬ s.npages ≤ pgnum (page2pa p) := by
    rw [pgnum_page2pa hsmall]
    omega
  simp only [envSetupVm, pageAlloc, zeroPage, kaddr, wp_bind, wp_gets, hpage,
    modifyPage, modifyEnv, writeWord, wp_modify, wp_ite, wp_pure, if_true]
  refine ⟨fun hout => absurd hout hin, fun _ => ⟨trivial, ?_, ?_⟩⟩
  · rw [pgnum_page2pa hsmall]
    refine EmptyDir.mk ?_ ?_ ?_ ?_
    · simp [Kernel.setEnv, Kernel.setPage, Kernel.setPageWords, Kernel.setWord, Kernel.fill]
    · intro d hd
      have hd' : d ≠ pdx uvpt := by
        intro h
        subst h
        exact absurd hd (by decide +kernel)
      simp [Kernel.setEnv, Kernel.setPage, Kernel.setPageWords, Kernel.setWord, Kernel.fill, hd', hne, hempty d hd]
    · simp [Kernel.setEnv, Kernel.setPage, Kernel.setPageWords, Kernel.setWord, Kernel.fill]
    · simpa [Kernel.setEnv, Kernel.setPage, Kernel.setPageWords, Kernel.setWord, Kernel.fill] using hp
  · simp [Kernel.setEnv, Kernel.setPage, Kernel.setPageWords, Kernel.setWord, Kernel.fill]

/-- `env_alloc` gives its environment an empty directory. -/
theorem env_alloc_dir {s : Kernel} {e : EnvIx} {p : Nat} (hhead : s.envFreeList = some e)
    (hpage : s.pageFreeList = some p) (hp : p < s.npages) (hsmall : p < 1048576)
    (hne : s.kernPgdir ≠ p)
    (hempty : ∀ d < pdx utop, hasFlag (s.mem s.kernPgdir d) pteP = false) (parentId : Word) :
    wp (envAlloc parentId)
      (fun r s' => r = .ok e ∧ EmptyDir s' e p ∧ s'.live e ∧
        ∀ k, (s'.cpus k).cpuEnv = (s.cpus k).cpuEnv)
      (fun _ _ => False) s := by
  rw [envAlloc, wp_bind, wp_gets, hhead]
  dsimp only
  rw [wp_bind]
  refine wp_mono_ret (env_setup_vm_dir hpage hp hsmall hne hempty) fun r s₁ hr => ?_
  obtain ⟨rfl, hdir, hcpus⟩ := hr
  simp only [if_true, wp_bind, modifyEnv, wp_modify, wp_pure]
  refine ⟨trivial, EmptyDir.mk ?_ hdir.empty hdir.ref hdir.lt, ?_, hcpus⟩
  · simpa [Kernel.setEnv] using hdir.dir
  · simp [Kernel.live, Kernel.setEnv]

/-- Dropping the last reference frees the page. -/
theorem page_decref_one {s : Kernel} {p : Nat} (href : (s.pages p).ppRef = 1) :
    wp (pageDecref p) (fun _ s' => s'.pageFreeList = some p ∧ s'.npages = s.npages)
      (fun _ _ => False) s := by
  have hzero : ((s.setPage p fun info => { info with ppRef := info.ppRef - 1 }).pages p).ppRef = 0 := by
    simp [Kernel.setPage, href]
  rw [pageDecref, wp_bind, modifyPage, wp_modify, wp_bind, wp_gets, if_pos hzero, pageFree, wp_bind,
    wp_gets, if_neg (not_not.2 hzero), wp_bind, wp_gets, wp_bind, modifyPage, wp_modify, wp_modify]
  exact ⟨rfl, rfl⟩

/-- `env_free` of an environment without pages gives back its directory. -/
theorem env_free_empty {s : Kernel} {k : CpuId} {e : EnvIx} {p : Nat} (h : EmptyDir s e p)
    (hcur : (s.cpus k).cpuEnv ≠ some e) (hsmall : p < 1048576) :
    wp (envFree k e) (fun _ s' => s'.pageFreeList = some p ∧ s'.envFreeList = some e ∧
      s'.npages = s.npages) (fun _ _ => False) s := by
  have hin : ¬ s.npages ≤ pgnum (page2pa p) := by
    rw [pgnum_page2pa hsmall]
    have hlt := h.lt
    omega
  have hloop : ∀ t : Kernel, t.mem = s.mem →
      wp (forUpto (pdx utop) fun pdeno => envFreeTable k p pdeno) (fun _ t' => t' = t)
        (fun _ _ => False) t := by
    intro t hmem
    refine wp_for_upto (I := fun _ t' => t' = t) rfl fun d hd t' ht' => ?_
    subst ht'
    rw [envFreeTable, wp_bind, readWord, wp_gets, hmem, h.empty d hd]
    rfl
  rw [envFree, wp_bind, wp_modify, envFlush, wp_bind, wp_bind, curenv, wp_gets]
  dsimp only
  rw [if_neg hcur, wp_bind, wp_gets, wp_bind, h.dir, wp_deref_some, wp_bind]
  refine wp_mono_ret (hloop _ rfl) fun _ t ht => ?_
  subst ht
  rw [wp_pure, wp_bind, modifyEnv, wp_modify, wp_bind, pa2page, wp_bind, wp_gets, wp_ite]
  refine ⟨fun hout => absurd hout hin, fun _ => ?_⟩
  rw [wp_pure, pgnum_page2pa hsmall, wp_bind]
  refine wp_mono_ret (page_decref_one h.ref) fun _ t ht => ?_
  obtain ⟨hhead, hnpages⟩ := ht
  simp only [wp_bind, wp_gets, modifyEnv, wp_modify]
  exact ⟨hhead, trivial, hnpages⟩

/-- From the table of `env_init`, once there is a free page: an allocation, `env_free`, and a second
allocation of the slot. -/
theorem env_ids_ok_again :
    ∃ (s₀ s : Kernel) (given : EnvIx → List Word) (e : EnvIx), EnvTableInit s₀ ∧
      EnvRun s₀ s given ∧ given e = [idAt 0 e, idAt 1 e] ∧ EnvIdsOk s given := by
  let power : Kernel :=
    { npages := 2, npagesBasemem := 2, nextfree := 1, pages := fun _ => {}, pageFreeList := some 1,
      mem := fun _ _ => 0, kernPgdir := 0, mmioBase := 0, envs := fun _ => {}, envFreeList := none,
      cpus := fun _ => { cr3 := 0 }, kernelLock := none, panicstr := none, ticks := 0,
      userMemCheckAddr := 0, e1000 := {}, consIn := [], consOut := [], accesses := [],
      frees := [], pageFrees := [] }
  obtain ⟨_, s₀, hcall, htable⟩ := ret_of_wp (@env_init_spec power rfl)
  have hinit : EnvTableInit s₀ := ⟨power, rfl, hcall⟩
  -- the table does not say what became of the pages and the CPUs, so they are set up again
  let ready : Kernel :=
    { s₀ with
      npages := 2, pageFreeList := some 1, mem := fun _ _ => 0, kernPgdir := 0
      cpus := fun _ => { cr3 := 0 } }
  have hready : EnvRun s₀ ready fun _ => [] :=
    EnvRun.init.other ⟨rfl, fun _ => rfl, fun _ => rfl, fun _ => Iff.rfl⟩
  obtain ⟨l, hchain, hmem⟩ := htable.slots
  have hzero : (0 : EnvIx) ∈ l := (hmem 0).2 (not_not.1 (htable.unused 0 rfl).2)
  cases l with
  | nil => cases hzero
  | cons e l =>
      obtain ⟨r, s₁, hcall₁, rfl, hdir, hlive, hcpus⟩ := ret_of_wp
        (@env_alloc_dir ready e 1 hchain.1 rfl Nat.one_lt_two (by decide) Nat.zero_ne_one
          (fun _ _ => show hasFlag 0 pteP = false by decide) 0)
      have hrun₁ := hready.alloc hcall₁
      obtain ⟨_, s₂, hcall₂, hpage, hhead, hnpages⟩ := ret_of_wp
        (env_free_empty (k := 0) hdir (by rw [hcpus]; exact nofun) (by decide))
      have hrun₂ := hrun₁.free hlive hcall₂
      obtain ⟨r, s₃, hcall₃, rfl⟩ := ret_of_wp
        (env_alloc_ok hhead hpage (by rw [hnpages]; exact hdir.lt) (by decide) 0)
      have hrun₃ := hrun₂.alloc hcall₃
      refine ⟨s₀, s₃, _, e, hinit, hrun₃, ?_, env_ids_ok s₀ s₃ _ hinit hrun₃⟩
      have hids := (hrun₃.table hinit).ids e
      simpa [List.range_succ] using hids

end Labs.Jos
