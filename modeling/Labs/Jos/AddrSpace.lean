import Labs.Jos.PageTableRun
import Labs.Jos.Syscall

/-!
# Address spaces

The page system calls as user code sees them: every environment has a map from page numbers to
pages with permissions, pages have contents and reference counts, and some pages are free. The
map of one environment is what `page_insert` and `page_remove` make of its page directory
(`page_insert_map_dir`, `page_remove_map_dir`). Which free page `page_alloc` takes is left open,
and pages that the kernel uses for itself are neither free nor mapped.
-/

namespace Labs.Jos

open Prog

/-- The user halves of all address spaces. `shared` is history: it remembers which pages have been
mapped with `PTE_SHARE` since they were allocated. -/
structure Vm where
  map : EnvIx → PageMap
  ref : Nat → BitVec 16
  free : Nat → Bool
  mem : Nat → Nat → Word
  shared : Nat → Bool

namespace Vm

def setEntry (v : Vm) (e : EnvIx) (n : Nat) (entry : Option (Nat × Word)) : Vm :=
  { v with map := Function.update v.map e (Function.update (v.map e) n entry) }

def setWord (v : Vm) (p i : Nat) (w : Word) : Vm :=
  { v with mem := Function.update v.mem p (Function.update (v.mem p) i w) }

/-- Map page `p` at page number `n`, with no regard to what was there. -/
def putEntry (v : Vm) (e : EnvIx) (p n : Nat) (perm : Word) : Vm :=
  { v.setEntry e n (some (p, perm ||| pteP)) with
    shared := fun q => if q = p ∧ hasFlag perm pteShare then true else v.shared q }

def pageDecref (v : Vm) (p : Nat) : Vm :=
  let v := { v with ref := Function.update v.ref p (v.ref p - 1) }
  if v.ref p = 0 then { v with free := Function.update v.free p true } else v

def pageRemove (v : Vm) (e : EnvIx) (n : Nat) : Vm :=
  match v.map e n with
  | none => v
  | some (p, _) => (v.setEntry e n none).pageDecref p

def pageInsertNew (v : Vm) (e : EnvIx) (p n : Nat) (perm : Word) : Vm :=
  { v with ref := Function.update v.ref p (v.ref p + 1) }.putEntry e p n perm

/-- `page_insert` when there is memory for the page table. -/
def pageInsert (v : Vm) (e : EnvIx) (p n : Nat) (perm : Word) : Vm :=
  match v.map e n with
  | none => v.pageInsertNew e p n perm
  | some (q, _) =>
      if q = p then v.putEntry e p n perm else (v.pageRemove e n).pageInsertNew e p n perm

/-- `page_alloc(ALLOC_ZERO)` when it takes page `p`. -/
def pageAlloc (v : Vm) (p : Nat) : Vm :=
  { v with
    ref := Function.update v.ref p 0
    free := Function.update v.free p false
    mem := Function.update v.mem p fun _ => 0
    shared := Function.update v.shared p false }

/-- `sys_page_alloc` when it takes page `p`. -/
def sysPageAlloc (v : Vm) (e : EnvIx) (p n : Nat) (perm : Word) : Vm :=
  (v.pageAlloc p).pageInsert e p n perm

/-- `sys_page_map`; `none` is `-E_INVAL`. -/
def sysPageMap (v : Vm) (srcenv : EnvIx) (srcpn : Nat) (dstenv : EnvIx) (dstpn : Nat)
    (perm : Word) : Option Vm :=
  if userPages ≤ srcpn ∨ userPages ≤ dstpn then none
  else if badPerm perm then none
  else
    match v.map srcenv srcpn with
    | none => none
    | some (p, w) => if pteShareable w perm then some (v.pageInsert dstenv p dstpn perm) else none

def sysPageUnmap (v : Vm) (e : EnvIx) (n : Nat) : Vm := v.pageRemove e n

/-- `env_free` unmaps every page of the environment. -/
def envFree (v : Vm) (e : EnvIx) : Vm := (List.range userPages).foldl (fun v n => v.pageRemove e n) v

/-! ## What the operations change -/

variable {v : Vm} {e e' : EnvIx} {n n' p q : Nat} {perm w : Word}

theorem map_set_entry (v : Vm) (e e' : EnvIx) (n n' : Nat) (entry : Option (Nat × Word)) :
    (v.setEntry e n entry).map e' n' = if e' = e ∧ n' = n then entry else v.map e' n' := by
  by_cases he : e' = e
  · subst he
    by_cases hn : n' = n <;> simp [setEntry, hn]
  · simp [setEntry, he]

theorem mem_set_word (v : Vm) (p i q j : Nat) (w : Word) :
    (v.setWord p i w).mem q j = if q = p ∧ j = i then w else v.mem q j := by
  by_cases hq : q = p
  · subst hq
    by_cases hj : j = i <;> simp [setWord, hj]
  · simp [setWord, hq]

@[simp] theorem map_page_decref (v : Vm) (p : Nat) : (v.pageDecref p).map = v.map := by
  unfold pageDecref
  dsimp only
  split <;> rfl

@[simp] theorem mem_page_decref (v : Vm) (p : Nat) : (v.pageDecref p).mem = v.mem := by
  unfold pageDecref
  dsimp only
  split <;> rfl

@[simp] theorem shared_page_decref (v : Vm) (p : Nat) : (v.pageDecref p).shared = v.shared := by
  unfold pageDecref
  dsimp only
  split <;> rfl

theorem map_page_remove (v : Vm) (e e' : EnvIx) (n n' : Nat) :
    (v.pageRemove e n).map e' n' = if e' = e ∧ n' = n then none else v.map e' n' := by
  unfold pageRemove
  split
  · rename_i hnone
    split
    · rename_i h
      rw [h.1, h.2, hnone]
    · rfl
  · rw [map_page_decref, map_set_entry]

@[simp] theorem mem_page_remove (v : Vm) (e : EnvIx) (n : Nat) :
    (v.pageRemove e n).mem = v.mem := by
  unfold pageRemove
  split
  · rfl
  · rw [mem_page_decref]
    rfl

@[simp] theorem shared_page_remove (v : Vm) (e : EnvIx) (n : Nat) :
    (v.pageRemove e n).shared = v.shared := by
  unfold pageRemove
  split
  · rfl
  · rw [shared_page_decref]
    rfl

theorem map_put_entry (v : Vm) (e e' : EnvIx) (p n n' : Nat) (perm : Word) :
    (v.putEntry e p n perm).map e' n' =
      if e' = e ∧ n' = n then some (p, perm ||| pteP) else v.map e' n' :=
  map_set_entry v e e' n n' _

/-- `page_insert` changes one entry. -/
theorem map_page_insert (v : Vm) (e e' : EnvIx) (p n n' : Nat) (perm : Word) :
    (v.pageInsert e p n perm).map e' n' =
      if e' = e ∧ n' = n then some (p, perm ||| pteP) else v.map e' n' := by
  unfold pageInsert
  split
  · exact map_put_entry _ _ _ _ _ _ _
  · split
    · exact map_put_entry _ _ _ _ _ _ _
    · unfold pageInsertNew
      rw [map_put_entry]
      split
      · rfl
      · rename_i hother
        show (v.pageRemove e n).map e' n' = _
        rw [map_page_remove, if_neg hother]

@[simp] theorem mem_page_insert (v : Vm) (e : EnvIx) (p n : Nat) (perm : Word) :
    (v.pageInsert e p n perm).mem = v.mem := by
  unfold pageInsert
  split
  · rfl
  · split
    · rfl
    · exact mem_page_remove v e n

/-- A page counts as shared from the first entry with `PTE_SHARE` on. -/
theorem shared_page_insert (v : Vm) (e : EnvIx) (p n q : Nat) (perm : Word) :
    (v.pageInsert e p n perm).shared q =
      if q = p ∧ hasFlag perm pteShare then true else v.shared q := by
  unfold pageInsert
  split
  · rfl
  · split
    · rfl
    · show (if q = p ∧ hasFlag perm pteShare then true else (v.pageRemove e n).shared q) = _
      rw [shared_page_remove]

/-- What `sys_page_map` checks and does. -/
theorem sys_page_map_some {v' : Vm} {srcpn dstpn : Nat} {srcenv dstenv : EnvIx}
    (h : v.sysPageMap srcenv srcpn dstenv dstpn perm = some v') :
    dstpn < userPages ∧ badPerm perm = false ∧ ∃ p w, v.map srcenv srcpn = some (p, w) ∧
      (hasFlag perm pteW = true → hasFlag w pteW = true) ∧
      v' = v.pageInsert dstenv p dstpn perm := by
  unfold sysPageMap at h
  split at h
  · cases h
  · rename_i hva
    split at h
    · cases h
    · rename_i hbad
      refine ⟨by omega, Bool.eq_false_iff.2 hbad, ?_⟩
      split at h
      · cases h
      · rename_i p w hmap
        split at h
        · rename_i hshare
          refine ⟨p, w, hmap, fun hw => ?_, (Option.some.inj h).symm⟩
          rw [pteShareable, hw, Bool.and_eq_true] at hshare
          simpa using hshare.2
        · cases h

/-- The permissions that `sys_page_map` accepts have `PTE_U`. -/
theorem user_of_good (h : badPerm perm = false) : hasFlag perm pteU = true := by
  rw [badPerm, Bool.or_eq_false_iff] at h
  simpa using h.2

/-- After `env_free` nothing is mapped; other environments and the contents are as they were. -/
theorem map_env_free (v : Vm) (e e' : EnvIx) (n : Nat) :
    (v.envFree e).map e' n = if e' = e ∧ n < userPages then none else v.map e' n := by
  have hloop : ∀ l : List Nat, ∀ v : Vm,
      (l.foldl (fun v n => v.pageRemove e n) v).map e' n =
        if e' = e ∧ n ∈ l then none else v.map e' n := by
    intro l
    induction l with
    | nil =>
        intro v
        simp
    | cons a rest ih =>
        intro v
        rw [List.foldl_cons, ih, map_page_remove]
        by_cases he : e' = e
        · by_cases hrest : n ∈ rest
          · simp [he, hrest]
          · by_cases ha : n = a
            · simp [he, ha]
            · simp [he, hrest, ha]
        · simp [he]
  rw [envFree, hloop]
  simp only [List.mem_range]

@[simp] theorem mem_env_free (v : Vm) (e : EnvIx) : (v.envFree e).mem = v.mem := by
  have hloop : ∀ l : List Nat, ∀ v : Vm,
      (l.foldl (fun v n => v.pageRemove e n) v).mem = v.mem := by
    intro l
    induction l with
    | nil => exact fun v => rfl
    | cons a rest ih =>
        intro v
        rw [List.foldl_cons, ih, mem_page_remove]
  exact hloop _ v

@[simp] theorem shared_env_free (v : Vm) (e : EnvIx) : (v.envFree e).shared = v.shared := by
  have hloop : ∀ l : List Nat, ∀ v : Vm,
      (l.foldl (fun v n => v.pageRemove e n) v).shared = v.shared := by
    intro l
    induction l with
    | nil => exact fun v => rfl
    | cons a rest ih =>
        intro v
        rw [List.foldl_cons, ih, shared_page_remove]
  exact hloop _ v

/-! ## Reference counts -/

/-- The page mapped at a place. -/
def target (v : Vm) (x : EnvIx × Nat) : Option Nat := (v.map x.1 x.2).map Prod.fst

/-- The number of places that map page `p`. -/
noncomputable def count (v : Vm) (p : Nat) : Nat := fiberCard userPlaces v.target p

/-- The counter of page `p` has room for one more mapping at page number `n`, or the page is
mapped there already. -/
def Fits (v : Vm) (e : EnvIx) (p n : Nat) : Prop :=
  (v.map e n).map Prod.fst = some p ∨ (v.ref p).toNat < 65535

/-- Mapped pages are not free and their counters are at least the number of their mappings;
entries are user entries, and pages mapped with `PTE_SHARE` are known to be. -/
structure Counted (v : Vm) : Prop where
  counted : ∀ p, v.count p ≤ (v.ref p).toNat
  unmapped : ∀ e n p w, v.map e n = some (p, w) → v.free p = false
  range : ∀ e n x, v.map e n = some x → n < userPages
  user : ∀ e n p w, v.map e n = some (p, w) → hasFlag w pteU = true
  tagged : ∀ e n p w, v.map e n = some (p, w) → hasFlag w pteShare = true → v.shared p = true

/-- Changing one entry moves one reference. -/
theorem count_set_entry (v : Vm) (e : EnvIx) (hn : n < userPages) (entry : Option (Nat × Word))
    (p : Nat) :
    (v.setEntry e n entry).count p + (if (v.map e n).map Prod.fst = some p then 1 else 0) =
      v.count p + if entry.map Prod.fst = some p then 1 else 0 := by
  have htarget : (v.setEntry e n entry).target =
      Function.update v.target (e, n) (entry.map Prod.fst) := by
    funext x
    obtain ⟨e', n'⟩ := x
    by_cases h : e' = e ∧ n' = n
    · obtain ⟨rfl, rfl⟩ := h
      simp [target, map_set_entry]
    · have hne : (e', n') ≠ (e, n) :=
        fun heq => h ⟨congrArg Prod.fst heq, congrArg Prod.snd heq⟩
      rw [Function.update_of_ne hne]
      simp [target, map_set_entry, h]
  unfold count
  rw [htarget]
  exact fiber_card_update (Space.mem_user_places.2 hn) _

/-- A mapped page has a positive count. -/
theorem count_pos (hn : n < userPages) (h : v.map e n = some (p, w)) : 0 < v.count p := by
  refine fiber_card_pos (i := (e, n)) (Space.mem_user_places.2 hn) ?_
  simp [target, h]

namespace Counted

variable (h : v.Counted)

include h

/-- Dropping a reference after its entry is gone. -/
theorem page_remove (e : EnvIx) (n : Nat) : (v.pageRemove e n).Counted := by
  unfold pageRemove
  split
  · exact h
  · rename_i p w hmap
    have hn := h.range e n _ hmap
    have hfewer : ∀ e' n' x, (v.setEntry e n none).map e' n' = some x → v.map e' n' = some x := by
      intro e' n' x hx
      rw [map_set_entry] at hx
      split at hx
      · cases hx
      · exact hx
    have hcount : ∀ q, (v.setEntry e n none).count q ≤
        (Function.update v.ref p (v.ref p - 1) q).toNat := by
      intro q
      have hset := count_set_entry v e hn none q
      have hold := h.counted q
      rw [hmap] at hset
      simp only [Option.map_some, Option.some.injEq, Option.map_none, reduceCtorEq, if_false]
        at hset
      by_cases hq : q = p
      · subst hq
        have hone : (1 : BitVec 16).toNat = 1 := rfl
        have hlt := (v.ref q).isLt
        rw [if_pos rfl] at hset
        rw [Function.update_self, BitVec.toNat_sub, hone]
        omega
      · rw [if_neg (Ne.symm hq)] at hset
        rw [Function.update_of_ne hq]
        omega
    unfold pageDecref
    dsimp only
    split
    · rename_i hzero
      refine ⟨hcount, fun e' n' q w' hq => ?_, fun e' n' x hx => h.range e' n' x (hfewer _ _ _ hx),
        fun e' n' q w' hq => h.user e' n' q w' (hfewer _ _ _ hq),
        fun e' n' q w' hq => h.tagged e' n' q w' (hfewer _ _ _ hq)⟩
      have hold : v.map e' n' = some (q, w') := hfewer e' n' _ hq
      by_cases hqp : q = p
      · -- no mapping of a freed page is left
        subst hqp
        have hpos : 0 < (v.setEntry e n none).count q := count_pos (h.range e' n' _ hold) hq
        have hle := hcount q
        rw [show Function.update v.ref q (v.ref q - 1) q = 0 from hzero] at hle
        exact absurd hle (Nat.not_le_of_lt hpos)
      · show Function.update v.free p true q = false
        rw [Function.update_of_ne hqp]
        exact h.unmapped e' n' q w' hold
    · exact ⟨hcount, fun e' n' q w' hq => h.unmapped e' n' q w' (hfewer _ _ _ hq),
        fun e' n' x hx => h.range e' n' x (hfewer _ _ _ hx),
        fun e' n' q w' hq => h.user e' n' q w' (hfewer _ _ _ hq),
        fun e' n' q w' hq => h.tagged e' n' q w' (hfewer _ _ _ hq)⟩

/-- Writing an entry for a page in use whose counter `r` has been seen to. -/
theorem put_entry {r : BitVec 16} (hn : n < userPages) (hfree : v.free p = false)
    (huser : hasFlag perm pteU = true)
    (hroom : (({ v with ref := Function.update v.ref p r } : Vm).setEntry e n
      (some (p, perm ||| pteP))).count p ≤ r.toNat)
    (hother : v.map e n = none ∨ ∃ w, v.map e n = some (p, w)) :
    (({ v with ref := Function.update v.ref p r } : Vm).putEntry e p n perm).Counted := by
  have hcases : ∀ e' n' x, (({ v with ref := Function.update v.ref p r } : Vm).putEntry e p n
      perm).map e' n' = some x → (n' = n ∧ x = (p, perm ||| pteP)) ∨ v.map e' n' = some x := by
    intro e' n' x hx
    rw [map_put_entry] at hx
    split at hx
    · rename_i hat
      exact .inl ⟨hat.2, (Option.some.inj hx).symm⟩
    · exact .inr hx
  have hflag : ∀ flag, hasFlag (perm ||| pteP) flag = true →
      hasFlag perm flag = true ∨ hasFlag pteP flag = true := by
    intro flag hflag
    rwa [has_flag_or, Bool.or_eq_true] at hflag
  refine ⟨fun q => ?_, fun e' n' q w' hq => ?_, fun e' n' x hx => ?_, fun e' n' q w' hq => ?_,
    fun e' n' q w' hq hshare => ?_⟩
  · by_cases hq : q = p
    · subst hq
      show _ ≤ (Function.update v.ref q r q).toNat
      rw [Function.update_self]
      exact hroom
    · have hset := count_set_entry ({ v with ref := Function.update v.ref p r } : Vm) e hn
        (some (p, perm ||| pteP)) q
      have hold := h.counted q
      have hmap : ((v.map e n).map Prod.fst = some q) = False := by
        rcases hother with hnone | ⟨w, hsome⟩
        · simp [hnone]
        · simp [hsome, Ne.symm hq]
      have hnew : ((some (p, perm ||| pteP)).map Prod.fst = some q) = False := by
        simp [Ne.symm hq]
      rw [show (({ v with ref := Function.update v.ref p r } : Vm).map e n) = v.map e n from rfl]
        at hset
      simp only [hmap, hnew, if_false] at hset
      show _ ≤ (Function.update v.ref p r q).toNat
      rw [Function.update_of_ne hq]
      have hsame : ({ v with ref := Function.update v.ref p r } : Vm).count q = v.count q := rfl
      have hput : (({ v with ref := Function.update v.ref p r } : Vm).putEntry e p n perm).count q =
          (({ v with ref := Function.update v.ref p r } : Vm).setEntry e n
            (some (p, perm ||| pteP))).count q := rfl
      omega
  · rcases hcases e' n' _ hq with ⟨-, hx⟩ | hold
    · cases hx
      exact hfree
    · exact h.unmapped e' n' q w' hold
  · rcases hcases e' n' x hx with ⟨hat, -⟩ | hold
    · rw [hat]
      exact hn
    · exact h.range e' n' x hold
  · rcases hcases e' n' _ hq with ⟨-, hx⟩ | hold
    · cases hx
      rw [has_flag_or, huser]
      rfl
    · exact h.user e' n' q w' hold
  · show (if q = p ∧ hasFlag perm pteShare then true else v.shared q) = true
    rcases hcases e' n' _ hq with ⟨-, hx⟩ | hold
    · cases hx
      rcases hflag pteShare hshare with hperm | hp
      · rw [if_pos ⟨rfl, hperm⟩]
      · exact absurd hp (by decide)
    · split
      · rfl
      · exact h.tagged e' n' q w' hold hshare

omit h in
/-- `page_remove` drops a reference of the page that was mapped, and of no other. -/
theorem ref_page_remove {q : Nat} (hmap : v.map e n = some (q, w)) (hne : p ≠ q) :
    (v.pageRemove e n).ref p = v.ref p ∧ (v.pageRemove e n).free p = v.free p := by
  unfold pageRemove
  rw [hmap]
  dsimp only
  unfold pageDecref
  dsimp only
  split
  · exact ⟨Function.update_of_ne hne _ _, Function.update_of_ne hne _ _⟩
  · exact ⟨Function.update_of_ne hne _ _, rfl⟩

/-- `page_insert` at an empty place. -/
theorem page_insert_new (hn : n < userPages) (hfree : v.free p = false)
    (huser : hasFlag perm pteU = true) (hnone : v.map e n = none) (hroom : (v.ref p).toNat < 65535) :
    (v.pageInsertNew e p n perm).Counted := by
  refine h.put_entry hn hfree huser ?_ (.inl hnone)
  have hset := count_set_entry ({ v with ref := Function.update v.ref p (v.ref p + 1) } : Vm) e hn
    (some (p, perm ||| pteP)) p
  have hmap : ({ v with ref := Function.update v.ref p (v.ref p + 1) } : Vm).map e n = none := hnone
  have hsame : ({ v with ref := Function.update v.ref p (v.ref p + 1) } : Vm).count p =
      v.count p := rfl
  have hold := h.counted p
  have hone : (1 : BitVec 16).toNat = 1 := rfl
  rw [hmap, hsame] at hset
  simp only [Option.map_none, reduceCtorEq, if_false, Option.map_some, if_true] at hset
  rw [BitVec.toNat_add, hone]
  omega

/-- `page_insert` of a page in use. -/
theorem page_insert (hn : n < userPages) (hfree : v.free p = false)
    (huser : hasFlag perm pteU = true) (hfits : v.Fits e p n) :
    (v.pageInsert e p n perm).Counted := by
  unfold pageInsert
  split
  · rename_i hnone
    refine h.page_insert_new hn hfree huser hnone (hfits.resolve_left fun hmap => ?_)
    rw [hnone] at hmap
    cases hmap
  · rename_i q w hmap
    split
    · rename_i hqp
      subst hqp
      have hself : Function.update v.ref q (v.ref q) = v.ref := Function.update_eq_self q v.ref
      have hput := h.put_entry (r := v.ref q) (e := e) hn hfree huser ?_ (.inr ⟨w, hmap⟩)
      · rw [hself] at hput
        exact hput
      · have hset := count_set_entry v e hn (some (q, perm ||| pteP)) q
        have hold := h.counted q
        rw [hmap] at hset
        simp only [Option.map_some, if_true] at hset
        rw [hself]
        show (v.setEntry e n (some (q, perm ||| pteP))).count q ≤ (v.ref q).toNat
        omega
    · rename_i hqp
      have hne : p ≠ q := Ne.symm hqp
      obtain ⟨href, hsame⟩ := ref_page_remove hmap hne
      refine (h.page_remove e n).page_insert_new hn (hsame.trans hfree) huser ?_ ?_
      · rw [map_page_remove, if_pos ⟨rfl, rfl⟩]
      · rw [href]
        refine hfits.resolve_left fun hmap' => ?_
        rw [hmap] at hmap'
        exact hqp (Option.some.inj hmap')

/-- A free page is not mapped. -/
theorem not_mapped (hfree : v.free p = true) : v.map e n ≠ some (p, w) := by
  intro hmap
  rw [h.unmapped e n p w hmap] at hfree
  cases hfree

/-- Taking a free page. -/
theorem page_alloc (hfree : v.free p = true) : (v.pageAlloc p).Counted := by
  have hne : ∀ e n q w, v.map e n = some (q, w) → q ≠ p := by
    intro e n q w hmap heq
    subst heq
    exact h.not_mapped hfree hmap
  refine ⟨fun q => ?_, fun e n q w hmap => ?_, h.range, h.user, fun e n q w hmap hshare => ?_⟩
  · have hcount : (v.pageAlloc p).count q = v.count q := rfl
    rw [hcount]
    by_cases hq : q = p
    · have hzero : v.count q = 0 := by
        refine fiber_card_eq_zero fun x _ hx => ?_
        simp only [target, Option.map_eq_some_iff] at hx
        obtain ⟨y, hy, hyq⟩ := hx
        exact hne x.1 x.2 y.1 y.2 hy (hyq.trans hq)
      rw [hzero]
      exact Nat.zero_le _
    · show _ ≤ (Function.update v.ref p 0 q).toNat
      rw [Function.update_of_ne hq]
      exact h.counted q
  · show Function.update v.free p false q = false
    rw [Function.update_of_ne (hne e n q w hmap)]
    exact h.unmapped e n q w hmap
  · show Function.update v.shared p false q = true
    rw [Function.update_of_ne (hne e n q w hmap)]
    exact h.tagged e n q w hmap hshare

theorem sys_page_alloc (hfree : v.free p = true) (hn : n < userPages)
    (huser : hasFlag perm pteU = true) : (v.sysPageAlloc e p n perm).Counted := by
  refine (h.page_alloc hfree).page_insert hn (Function.update_self _ _ _) huser (.inr ?_)
  show (Function.update v.ref p 0 p).toNat < 65535
  rw [Function.update_self]
  decide

theorem set_word (p i : Nat) (w : Word) : (v.setWord p i w).Counted :=
  ⟨h.counted, h.unmapped, h.range, h.user, h.tagged⟩

theorem env_free (e : EnvIx) : (v.envFree e).Counted := by
  have hloop : ∀ l : List Nat, ∀ v : Vm, v.Counted →
      (l.foldl (fun v n => v.pageRemove e n) v).Counted := by
    intro l
    induction l with
    | nil => exact fun v hv => hv
    | cons a rest ih => exact fun v hv => ih _ (hv.page_remove e a)
  exact hloop _ v h

end Counted

/-- After `sys_page_alloc` the new place maps the fresh page. -/
theorem map_sys_page_alloc (v : Vm) (e e' : EnvIx) (p n n' : Nat) (perm : Word) :
    (v.sysPageAlloc e p n perm).map e' n' =
      if e' = e ∧ n' = n then some (p, perm ||| pteP) else v.map e' n' :=
  map_page_insert _ e e' p n n' perm

theorem mem_sys_page_alloc (v : Vm) (e : EnvIx) (p n q : Nat) (perm : Word) :
    (v.sysPageAlloc e p n perm).mem q = if q = p then fun _ => 0 else v.mem q := by
  rw [sysPageAlloc, mem_page_insert]
  show Function.update v.mem p (fun _ => 0) q = _
  by_cases hq : q = p
  · rw [hq, Function.update_self, if_pos rfl]
  · rw [Function.update_of_ne hq, if_neg hq]

theorem shared_sys_page_alloc (v : Vm) (e : EnvIx) (p n q : Nat) (perm : Word) :
    (v.sysPageAlloc e p n perm).shared q =
      if q = p then hasFlag perm pteShare else v.shared q := by
  rw [sysPageAlloc, shared_page_insert]
  show (if q = p ∧ hasFlag perm pteShare then true else Function.update v.shared p false q) = _
  by_cases hq : q = p
  · subst hq
    rw [Function.update_self]
    cases hasFlag perm pteShare <;> simp
  · rw [Function.update_of_ne hq]
    simp [hq]

/-- `sys_page_alloc` at an empty place takes its page off the free ones, with one reference. -/
theorem sys_page_alloc_empty (hnone : v.map e n = none) (perm : Word) :
    (v.sysPageAlloc e p n perm).ref p = 1 ∧
      ∀ q, q ≠ p → (v.sysPageAlloc e p n perm).ref q = v.ref q ∧
        (v.sysPageAlloc e p n perm).free q = v.free q := by
  have halloc : v.sysPageAlloc e p n perm = (v.pageAlloc p).pageInsertNew e p n perm := by
    unfold sysPageAlloc pageInsert
    rw [show (v.pageAlloc p).map e n = none from hnone]
  rw [halloc]
  have href : ∀ q, ((v.pageAlloc p).pageInsertNew e p n perm).ref q =
      Function.update (Function.update v.ref p 0) p (Function.update v.ref p 0 p + 1) q :=
    fun q => rfl
  refine ⟨?_, fun q hq => ⟨?_, Function.update_of_ne hq _ _⟩⟩
  · rw [href, Function.update_self, Function.update_self]
    rfl
  · rw [href, Function.update_of_ne hq, Function.update_of_ne hq]

/-- Places that map a page are among those of a set. -/
theorem count_le_card {v : Vm} {p : Nat} {places : Finset (EnvIx × Nat)}
    (h : ∀ e n w, v.map e n = some (p, w) → (e, n) ∈ places) : v.count p ≤ places.card := by
  refine Finset.card_le_card fun x hx => ?_
  obtain ⟨-, htarget⟩ := Finset.mem_filter.1 hx
  simp only [target, Option.map_eq_some_iff] at htarget
  obtain ⟨⟨q, w⟩, hmap, rfl⟩ := htarget
  exact h x.1 x.2 w hmap

/-! ## Freeing -/

/-- Unmapping frees pages and takes none. -/
theorem free_page_remove {v : Vm} {p : Nat} (h : v.free p = true) (e : EnvIx) (n : Nat) :
    (v.pageRemove e n).free p = true := by
  unfold pageRemove
  split
  · exact h
  · rename_i q w hmap
    unfold pageDecref
    dsimp only
    split
    · by_cases hp : p = q
      · subst hp
        exact Function.update_self _ _ _
      · exact (Function.update_of_ne hp _ _).trans h
    · exact h

/-- Nor does mapping take one. -/
theorem free_page_insert {v : Vm} {p : Nat} (h : v.free p = true) (e : EnvIx) (q n : Nat)
    (perm : Word) : (v.pageInsert e q n perm).free p = true := by
  unfold pageInsert
  split
  · exact h
  · split
    · exact h
    · exact free_page_remove h e n

theorem ref_page_decref_two {v : Vm} {p : Nat} (h : v.ref p = 2) :
    (v.pageDecref p).ref p = 1 := by
  unfold pageDecref
  dsimp only
  split
  · show Function.update v.ref p (v.ref p - 1) p = 1
    rw [Function.update_self, h]
    rfl
  · show Function.update v.ref p (v.ref p - 1) p = 1
    rw [Function.update_self, h]
    rfl

theorem free_page_decref_one {v : Vm} {p : Nat} (h : v.ref p = 1) :
    (v.pageDecref p).free p = true := by
  have hzero : Function.update v.ref p (v.ref p - 1) p = 0 := by
    rw [Function.update_self, h]
    rfl
  unfold pageDecref
  dsimp only
  split
  · exact Function.update_self _ _ _
  · rename_i hne
    exact absurd hzero hne

/-- Where the counter of a page is two although more places map it, two of them are enough to
free it. -/
theorem free_of_two {v : Vm} {e : EnvIx} {p n : Nat} {w w' : Word} (href : v.ref p = 2)
    (hbelow : ∀ m < n, v.map e m = none) (hmap : v.map e n = some (p, w))
    (hmap' : v.map e (n + 1) = some (p, w')) {size : Nat} (hsize : n + 1 < size) :
    ((List.range size).foldl (fun v n => v.pageRemove e n) v).free p = true := by
  have hnone : ∀ l : List Nat, (∀ m ∈ l, v.map e m = none) →
      l.foldl (fun v n => v.pageRemove e n) v = v := by
    intro l
    induction l with
    | nil => exact fun _ => rfl
    | cons a rest ih =>
        intro hl
        have ha : v.pageRemove e a = v := by
          unfold pageRemove
          rw [hl a List.mem_cons_self]
        rw [List.foldl_cons, ha]
        exact ih fun m hm => hl m (List.mem_cons_of_mem _ hm)
  have hrest : ∀ (l : List Nat) (v : Vm), v.free p = true →
      (l.foldl (fun v n => v.pageRemove e n) v).free p = true := by
    intro l
    induction l with
    | nil => exact fun _ h => h
    | cons a rest ih => exact fun v h => ih _ (free_page_remove h e a)
  obtain ⟨m, rfl⟩ : ∃ m, size = n + (m + 2) := ⟨size - n - 2, by omega⟩
  rw [List.range_add, List.foldl_append, hnone _ fun m hm => hbelow m (List.mem_range.1 hm),
    List.range_succ_eq_map, List.range_succ_eq_map, List.map_cons, List.map_cons, List.map_cons,
    List.foldl_cons, List.foldl_cons]
  refine hrest _ _ ?_
  rw [Nat.add_zero]
  have hone : (v.pageRemove e n).ref p = 1 := by
    unfold pageRemove
    rw [hmap]
    exact @ref_page_decref_two (v.setEntry e n none) p href
  have hleft : (v.pageRemove e n).map e (n + 1) = some (p, w') := by
    rw [map_page_remove, if_neg fun hat => absurd hat.2 (Nat.succ_ne_self n)]
    exact hmap'
  generalize v.pageRemove e n = v₁ at hone hleft
  show (v₁.pageRemove e (n + 1)).free p = true
  unfold pageRemove
  rw [hleft]
  exact @free_page_decref_one (v₁.setEntry e (n + 1) none) p hone

/-- Exiting frees a page whose counter is two and that is mapped at the first two places. -/
theorem free_env_free_of_two {v : Vm} {e : EnvIx} {p n : Nat} {w w' : Word}
    (href : v.ref p = 2) (hbelow : ∀ m < n, v.map e m = none) (hmap : v.map e n = some (p, w))
    (hmap' : v.map e (n + 1) = some (p, w')) (hsize : n + 1 < userPages) :
    (v.envFree e).free p = true := by
  rw [envFree]
  exact free_of_two href hbelow hmap hmap' hsize

/-! ## The page directory of one environment -/

variable {s : Kernel} {k : CpuId} {dir : Nat}

/-- `page_insert` on the directory of `e` does to its map what `pageInsert` does, when the counter
of the page has room and no page is missing for a page table. -/
theorem page_insert_map_dir {va : Word} (h : s.maps dir (v.map e)) (hva : va < utop)
    (hperm : perm.toNat < 4096) (hp : Allocated s dir p)
    (hfits : (v.map e (pgnum va)).map Prod.fst = some p ∨ (s.pages p).ppRef.toNat < 65535) :
    ∃ r s', Labs.Jos.pageInsert k dir p va perm s = .ret r s' ∧
      (r = 0 ∧ s'.maps dir ((v.pageInsert e p (pgnum va) perm).map e) ∨
        r = -eNoMem ∧ s'.maps dir (v.map e)) := by
  have hmap : (v.pageInsert e p (pgnum va) perm).map e =
      Function.update (v.map e) (pgnum va) (some (p, perm ||| pteP)) := by
    funext n
    rw [map_page_insert]
    by_cases hn : n = pgnum va
    · rw [if_pos ⟨rfl, hn⟩, hn, Function.update_self]
    · rw [if_neg fun hat => hn hat.2, Function.update_of_ne hn]
  rw [hmap]
  obtain ⟨r, s', hcall, hr⟩ :=
    ret_of_wp (page_insert_maps (k := k) h ((pdx_lt_iff va).2 hva) hperm hp hfits)
  exact ⟨r, s', hcall, hr⟩

/-- `page_remove` on the directory of `e` does to its map what `pageRemove` does. -/
theorem page_remove_map_dir {va : Word} (h : s.maps dir (v.map e)) (hva : va < utop) :
    ∃ s', Labs.Jos.pageRemove k dir va s = .ret () s' ∧
      s'.maps dir ((v.pageRemove e (pgnum va)).map e) := by
  have hmap : (v.pageRemove e (pgnum va)).map e = Function.update (v.map e) (pgnum va) none := by
    funext n
    rw [map_page_remove]
    by_cases hn : n = pgnum va
    · rw [if_pos ⟨rfl, hn⟩, hn, Function.update_self]
    · rw [if_neg fun hat => hn hat.2, Function.update_of_ne hn]
  rw [hmap]
  obtain ⟨r, s', hcall, hs'⟩ := ret_of_wp (page_remove_maps (k := k) h ((pdx_lt_iff va).2 hva))
  exact ⟨s', hcall, hs'⟩

end Vm

end Labs.Jos
