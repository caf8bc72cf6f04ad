import Labs.Jos.ExecRead

/-!
# Failing exec calls

`sys_exec` reports a segment whose size in the file exceeds its size in memory after it has unmapped
the old address space. Every other error is reported before anything has changed. A failing call
leaves the address space of its caller as it was unless it finds such a segment and there was
something to unmap, or a segment in front of it to map.
-/

namespace Labs.Jos

open Prog

variable {s s' t u : Kernel} {k : CpuId} {c : EnvIx} {dir : Nat} {argv binary va : Word} {r : Int}

/-! ## What a failing call may do -/

/-- The segment is larger in the file than in memory. -/
def Proghdr.malformed (ph : Proghdr) : Bool := ph.pMemsz < ph.pFilesz

/-- Words of memory were overwritten with zero, and the environments are the same. -/
structure Erased (s s' : Kernel) : Prop where
  mem : ∀ p i, s'.mem p i = s.mem p i ∨ s'.mem p i = 0
  envs : s'.envs = s.envs

theorem Erased.refl (s : Kernel) : Erased s s := ⟨fun _ _ => .inl rfl, rfl⟩

theorem Erased.trans (h : Erased s t) (h' : Erased t u) : Erased s u := by
  refine ⟨fun p i => ?_, h'.envs.trans h.envs⟩
  rcases h'.mem p i with heq | hzero
  · rw [heq]
    exact h.mem p i
  · exact .inr hzero

/-- A present entry was not overwritten. -/
theorem Erased.present (h : Erased s s') {p i : Nat} (hp : hasFlag (s'.mem p i) pteP = true) :
    s'.mem p i = s.mem p i := by
  refine (h.mem p i).resolve_right fun hzero => ?_
  rw [hzero] at hp
  exact absurd hp (by decide)

/-- Page number `n` is not mapped. -/
def Gone (s : Kernel) (dir n : Nat) : Prop :=
  hasFlag (s.mem dir (n / 1024)) pteP = true →
    hasFlag (s.mem (pgnum (s.mem dir (n / 1024))) (n % 1024)) pteP = false

/-- A page that is not mapped stays so. -/
theorem Gone.erased {n : Nat} (hgone : Gone s dir n) (h : Erased s s') : Gone s' dir n := by
  intro hpde
  have hsame := h.present hpde
  rw [hsame] at hpde ⊢
  by_contra hpte
  have hpte' : hasFlag (s'.mem (pgnum (s.mem dir (n / 1024))) (n % 1024)) pteP = true := by
    simpa using hpte
  have hfalse := hgone hpde
  rw [← h.present hpte', hpte'] at hfalse
  cases hfalse

/-- Flushing a translation. -/
theorem tlb_invalidate_erases (k : CpuId) (pgdir : Nat) (va : Word) (s : Kernel) :
    wp (tlbInvalidate k pgdir va) (fun _ s' => Erased s s') (fun _ _ => True) s := by
  rw [tlbInvalidate, wp_bind, wp_get]
  cases (s.cpus k).cpuEnv with
  | none => exact ⟨fun _ _ => .inl rfl, rfl⟩
  | some e =>
      dsimp only
      rw [wp_ite]
      exact ⟨fun _ => ⟨fun _ _ => .inl rfl, rfl⟩, fun _ => Erased.refl s⟩

/-- Dropping a reference to a page. -/
theorem page_decref_erases (pp : Nat) (s : Kernel) :
    wp (pageDecref pp) (fun _ s' => Erased s s') (fun _ _ => True) s := by
  simp only [pageDecref, pageFree, modifyPage, panic, wp_bind, wp_modify, wp_gets, wp_ite, wp_exit,
    wp_pure]
  refine ⟨fun _ => ⟨fun _ => trivial, fun _ => ?_⟩, fun _ => ?_⟩
  · exact ⟨fun _ _ => .inl rfl, rfl⟩
  · exact ⟨fun _ _ => .inl rfl, rfl⟩

/-- A check of a physical address that returns gives its page number. -/
theorem pa2page_returns (pa : Word) (s : Kernel) :
    wp (pa2page pa) (fun p s' => p = pgnum pa ∧ s' = s) (fun _ _ => True) s := by
  rw [pa2page, wp_bind, wp_gets, wp_ite]
  exact ⟨fun _ => trivial, fun _ => ⟨rfl, rfl⟩⟩

/-- The entry that `pgdir_walk` finds without creating a table. -/
theorem pgdir_walk_returns (dir : Nat) (va : Word) (s : Kernel) :
    wp (pgdirWalk dir va false) (fun r s' => s' = s ∧
      if hasFlag (s.mem dir (pdx va)) pteP then r = some ⟨pgnum (s.mem dir (pdx va)), ptx va⟩
      else r = none) (fun _ _ => True) s := by
  rw [pgdirWalk, wp_bind, haveTable, wp_bind, readWord, wp_gets]
  cases hpde : hasFlag (s.mem dir (pdx va)) pteP with
  | false => exact ⟨rfl, rfl⟩
  | true =>
      simp only [if_true, wp_pure, wp_bind, wp_gets, kaddr, wp_ite, pgnum_pte_addr]
      exact ⟨fun _ => ⟨fun _ => trivial, fun _ => ⟨trivial, trivial⟩⟩, fun h => absurd trivial h⟩

/-- `page_remove` overwrites entries with zero, and the page is not mapped any more. -/
theorem page_remove_erases (k : CpuId) (dir : Nat) (va : Word) (s : Kernel) :
    wp (pageRemove k dir va) (fun _ s' => Erased s s' ∧ Gone s' dir (pgnum va)) (fun _ _ => True)
      s := by
  rw [pageRemove, wp_bind, pageLookup, wp_bind]
  refine wp_mono_ret (pgdir_walk_returns dir va s) fun r t hres => ?_
  obtain ⟨ht, hwalk⟩ := hres
  subst ht
  have hgone : (hasFlag (t.mem dir (pdx va)) pteP = true →
      hasFlag (t.mem (pgnum (t.mem dir (pdx va))) (ptx va)) pteP = false) →
      Gone t dir (pgnum va) := by
    intro h
    rw [Gone, pgnum_div, pgnum_mod]
    exact h
  cases hpde : hasFlag (t.mem dir (pdx va)) pteP with
  | false =>
      rw [hpde] at hwalk
      cases hwalk
      exact ⟨Erased.refl t, hgone fun h => absurd (hpde.symm.trans h) (by decide)⟩
  | true =>
      rw [hpde] at hwalk
      cases hwalk
      rw [wp_bind, readWord, wp_gets, wp_ite]
      refine ⟨fun hpte => ?_, fun hpte => ⟨Erased.refl t, hgone fun _ => by simpa using hpte⟩⟩
      rw [wp_bind]
      refine wp_mono_ret (pa2page_returns _ t) fun pp t' hres => ?_
      obtain ⟨_, ht'⟩ := hres
      subst ht'
      show wp (do
        writeWord (pgnum (t'.mem dir (pdx va))) (ptx va) 0
        tlbInvalidate k dir va
        pageDecref pp) _ _ t'
      have hzero : Erased t' (t'.setWord (pgnum (t'.mem dir (pdx va))) (ptx va) 0) := by
        refine ⟨fun p i => ?_, rfl⟩
        show Function.update t'.mem _ (Function.update _ _ _) p i = _ ∨
          Function.update t'.mem _ (Function.update _ _ _) p i = _
        by_cases hp : p = pgnum (t'.mem dir (pdx va))
        · subst hp
          rw [Function.update_self]
          by_cases hi : i = ptx va
          · subst hi
            rw [Function.update_self]
            exact .inr rfl
          · rw [Function.update_of_ne hi]
            exact .inl rfl
        · rw [Function.update_of_ne hp]
          exact .inl rfl
      have hout : Gone (t'.setWord (pgnum (t'.mem dir (pdx va))) (ptx va) 0) dir (pgnum va) := by
        intro hpresent
        rw [hzero.present hpresent, pgnum_div, pgnum_mod]
        show hasFlag (Function.update t'.mem _ (Function.update _ _ _) _ _) _ = _
        rw [Function.update_self, Function.update_self]
        exact zero_not_present
      rw [wp_bind, writeWord, wp_modify, wp_bind]
      refine wp_mono_ret (tlb_invalidate_erases k dir va _) fun _ t₁ h₁ => ?_
      refine wp_mono_ret (page_decref_erases pp t₁) fun _ t₂ h₂ => ?_
      have hrest := h₁.trans h₂
      exact ⟨hzero.trans hrest, hout.erased hrest⟩

/-- The address of the argument array. -/
theorem argv_store_to_nat {args : List (List Byte)} (hcount : args.length ≤ 32)
    (hroom : stringSize args ≤ 512) : (argvStore args).toNat = 4005552128 - stringSize args -
      (4005552128 - stringSize args) % 4 - 4 * (args.length + 1) := by
  have htop : ustacktop.toNat = 4005552128 := by decide +kernel
  have hfour : (4 : Word).toNat = 4 := rfl
  have hsize : (BitVec.ofNat 32 (stringSize args)).toNat = stringSize args := by
    rw [BitVec.toNat_ofNat]
    omega
  have hslots : (BitVec.ofNat 32 (4 * (args.length + 1))).toNat = 4 * (args.length + 1) := by
    rw [BitVec.toNat_ofNat]
    omega
  have hstore : (ustacktop - BitVec.ofNat 32 (stringSize args)).toNat =
      4005552128 - stringSize args := by
    rw [BitVec.toNat_sub, hsize, htop]
    omega
  unfold argvStore
  dsimp only
  rw [BitVec.toNat_sub, BitVec.toNat_sub, hslots, BitVec.toNat_umod, hstore, hfour]
  omega

end Labs.Jos
