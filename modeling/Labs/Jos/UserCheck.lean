import Labs.Jos.PmapSpec
import Labs.Jos.UserMem

/-!
# The check of user buffers

`user_mem_check` walks over the pages of a buffer. Its verdict is compared here with what the
page tables say about each byte, for any start, length and permissions: addresses of a range are
natural numbers, so that a range may run past the end of the address space.
-/

namespace Labs.Jos

open Prog

/-- The entry of page number `n` in the address space of `e`, with the directory entry above it. -/
def Kernel.mapping (s : Kernel) (e : EnvIx) (n : Nat) : Option (Word × Word) :=
  match (s.envs e).envPgdir with
  | none => none
  | some dir =>
      let pde := s.mem dir (n / 1024)
      if hasFlag pde pteP then some (pde, s.mem (pgnum pde) (n % 1024)) else none

/-- Page number `n` is below `ULIM`, and its entry is present with all bits of `perm`. -/
def Kernel.allows (s : Kernel) (e : EnvIx) (perm : Word) (n : Nat) : Bool :=
  n < pgnum ulim && match s.mapping e n with
  | none => false
  | some (_, pte) => hasFlag pte pteP && pte &&& perm == perm

/-- The byte at address `a` is below `ULIM` and mapped with all bits of `perm`. -/
def Kernel.accessible (s : Kernel) (e : EnvIx) (perm : Word) (a : Nat) : Prop :=
  a < ulim.toNat ∧ s.allows e perm (a / 4096) = true

/-- Address `a` lies in the range of `len` bytes from `va` on. -/
def InRange (va len : Word) (a : Nat) : Prop := va.toNat ≤ a ∧ a < va.toNat + len.toNat

/-- The directory of environment `e` as the kernel sets it up: its page tables are pages of
memory, and user code has no access at or above `ULIM`. -/
structure DirOk (s : Kernel) (e : EnvIx) (dir : Nat) : Prop where
  pgdir : (s.envs e).envPgdir = some dir
  tables : ∀ d < 1024, hasFlag (s.mem dir d) pteP = true → pgnum (s.mem dir d) < s.npages
  kernel : ∀ n pde pte, pgnum ulim ≤ n → n < 1048576 → s.mapping e n = some (pde, pte) →
    hasFlag pte pteP = true → hasFlag pte pteU = false

/-- `user_mem_check` returns 0 if all bytes of the range are accessible, and otherwise fails with
the lowest address that is not. -/
def ExactCheck (s : Kernel) (e : EnvIx) (va len perm : Word) : Prop :=
  ∃ r s', userMemCheck e va len perm s = .ret r s' ∧
    (r = 0 ↔ ∀ a, InRange va len a → s.accessible e perm a) ∧
    (r ≠ 0 → r = -eFault ∧ InRange va len s'.userMemCheckAddr.toNat ∧
      ¬ s.accessible e perm s'.userMemCheckAddr.toNat ∧
      ∀ a, InRange va len a → a < s'.userMemCheckAddr.toNat → s.accessible e perm a)

/-- A state that represents an abstract memory has sound directories. -/
theorem Rep.dir_ok {v : Scope} {m : Space} {s : Kernel} {e : EnvIx} {dir : Nat}
    (h : Rep v m s.mm) (hdir : (s.envs e).envPgdir = some dir) : DirOk s e dir := by
  have hrole : m.role dir = .dir e := (h.tables.dir e dir).1 hdir
  have hsmall := h.small
  have hlt : dir < s.npages := h.lt_npages (by rw [hrole]; exact fun heq => (by cases heq))
  have hkern : ∀ d, 955 ≤ d → d < 1024 → d ≠ 957 → hasFlag (s.mem dir d) pteP = true →
      m.role (pgnum (s.mem dir d)) = .kern d := by
    intro d hd hd' hself hpresent
    have hhigh : s.mem dir d = m.kmem s.kernPgdir d := by
      rw [show s.mem dir d = _ from h.tables.high e dir d hrole hd hd', if_neg hself]
      rfl
    refine (h.tables.ktable d _).2 ⟨hd, hd', hself, ?_, ?_⟩
    · exact hhigh ▸ hpresent
    · exact congrArg pgnum hhigh.symm
  refine ⟨hdir, fun d hd hpresent => ?_, fun n pde pte hn hn' hmap hpresent => ?_⟩
  · by_cases hlow : d < 955
    · have htable := (h.tables.pde e dir d _ hrole hlow).2 ⟨hpresent, rfl⟩
      exact h.lt_npages (htable ▸ fun heq => (by cases heq))
    · by_cases hself : d = 957
      · have hhigh := h.tables.high e dir d hrole (by omega) hd
        rw [if_pos hself] at hhigh
        have hsmall' : dir < 1048576 := Nat.lt_of_lt_of_le hlt (Nat.le_trans hsmall (by decide))
        rw [show s.mem dir d = _ from hhigh, pgnum_or_of_lt (by decide),
          pgnum_or_of_lt (by decide), pgnum_page2pa hsmall']
        exact hlt
      · have hrole' := hkern d (by omega) hd hself hpresent
        exact h.lt_npages (by rw [hrole']; exact fun heq => (by cases heq))
  · rw [pgnum_eq, ulim_to_nat] at hn
    rw [Kernel.mapping, hdir] at hmap
    dsimp only at hmap
    split at hmap
    case isTrue hpde =>
      have hrole' := hkern (n / 1024) (by omega) (by omega) (by omega) hpde
      cases hmap
      rw [show s.mem _ (n % 1024) = _ from h.tables.kpte _ _ _ hrole' (Nat.mod_lt _ (by decide))]
      exact (h.tables.kflags _ _ _ hrole' (Nat.mod_lt _ (by decide))).2 (by omega)
    case isFalse => cases hmap

/-- Bits of `perm` that an entry has are bits of the entry. -/
theorem has_flag_of_and {w perm flag : Word} (h : w &&& perm = perm)
    (hflag : hasFlag perm flag = true) : hasFlag w flag = true := by
  by_contra hno
  have hzero : w &&& flag = 0 := by simpa [hasFlag] using hno
  have hperm : perm &&& flag = 0 := by
    rw [← h, BitVec.and_assoc, BitVec.and_comm perm, ← BitVec.and_assoc, hzero]
    exact BitVec.zero_and
  simp [hasFlag, hperm] at hflag

/-- `ROUNDDOWN(a, PGSIZE)` is the start of the page of `a`. -/
theorem rounddown_to_nat (a : Word) : (rounddown a).toNat = a.toNat / 4096 * 4096 := by
  have hmod : (a % pgsizeW).toNat = a.toNat % 4096 := BitVec.toNat_umod
  unfold rounddown
  rw [BitVec.toNat_sub_of_le (BitVec.le_def.2 (hmod ▸ Nat.mod_le _ _)), hmod]
  omega

section Check

variable {s : Kernel} {e : EnvIx} {dir : Nat} {va len perm stop : Word}

/-- The page of an accessible address begins below `ULIM`. -/
theorem accessible_iff {a : Nat} :
    s.accessible e perm a ↔ s.allows e perm (a / 4096) = true := by
  refine ⟨fun h => h.2, fun h => ⟨?_, h⟩⟩
  have hlow : a / 4096 < pgnum ulim := by
    rw [Kernel.allows, Bool.and_eq_true, decide_eq_true_eq] at h
    exact h.1
  rw [pgnum_eq, ulim_to_nat] at hlow
  rw [ulim_to_nat]
  omega

/-- `pgdir_walk` in a directory that has the table. -/
theorem pgdir_walk_present (hpresent : hasFlag (s.mem dir (pdx va)) pteP = true)
    (hlt : pgnum (s.mem dir (pdx va)) < s.npages) :
    pgdirWalk dir va false s = .ret (some ⟨pgnum (s.mem dir (pdx va)), ptx va⟩) s := by
  have hwp : wp (pgdirWalk dir va false)
      (fun r s' => r = some ⟨pgnum (s.mem dir (pdx va)), ptx va⟩ ∧ s' = s) (fun _ _ => False) s := by
    rw [pgdirWalk, wp_bind, haveTable, wp_bind, readWord, wp_gets, hpresent]
    simp only [if_true, wp_pure, wp_bind, wp_gets]
    rw [wp_kaddr (by rw [pgnum_pte_addr]; exact hlt), pgnum_pte_addr]
    exact ⟨rfl, rfl⟩
  obtain ⟨r, s', hcall, rfl, rfl⟩ := ret_of_wp hwp
  exact hcall

/-- `pgdir_walk` in a directory that lacks the table. -/
theorem pgdir_walk_absent (habsent : hasFlag (s.mem dir (pdx va)) pteP = false) :
    pgdirWalk dir va false s = .ret none s := by
  have hwp : wp (pgdirWalk dir va false) (fun r s' => r = none ∧ s' = s) (fun _ _ => False) s := by
    rw [pgdirWalk, wp_bind, haveTable, wp_bind, readWord, wp_gets, habsent]
    exact ⟨rfl, rfl⟩
  obtain ⟨r, s', hcall, rfl, rfl⟩ := ret_of_wp hwp
  exact hcall

/-- One iteration of the loop of `user_mem_check`: go on if the page of `addr` is allowed. -/
theorem user_mem_check_loop_succ (hok : DirOk s e dir) (hperm : hasFlag perm pteU = true)
    (fuel : Nat) (addr : Word) :
    userMemCheckLoop dir stop perm (fuel + 1) addr s =
      if addr < stop then
        if s.allows e perm (pgnum addr) then
          userMemCheckLoop dir stop perm fuel (addr + pgsizeW) s
        else .ret false s
      else .ret true s := by
  rw [userMemCheckLoop]
  by_cases hstop : addr < stop
  · rw [if_pos hstop, if_pos hstop]
    cases hpresent : hasFlag (s.mem dir (pdx addr)) pteP with
    | false =>
        have hno : s.allows e perm (pgnum addr) = false := by
          simp [Kernel.allows, Kernel.mapping, hok.pgdir, pgnum_div, hpresent]
        rw [bind_of_ret (pgdir_walk_absent hpresent), hno]
        rfl
    | true =>
        have hwalk := pgdir_walk_present hpresent (hok.tables _ (pdx_lt addr) hpresent)
        have hmap : s.mapping e (pgnum addr) = some (s.mem dir (pdx addr),
            s.mem (pgnum (s.mem dir (pdx addr))) (ptx addr)) := by
          simp [Kernel.mapping, hok.pgdir, pgnum_div, pgnum_mod, hpresent]
        rw [bind_of_ret hwalk]
        show (if hasFlag (s.mem (pgnum (s.mem dir (pdx addr))) (ptx addr)) pteP &&
            s.mem (pgnum (s.mem dir (pdx addr))) (ptx addr) &&& perm == perm then
            userMemCheckLoop dir stop perm fuel (addr + pgsizeW) else pure false : Kern Bool) s = _
        generalize hw : s.mem (pgnum (s.mem dir (pdx addr))) (ptx addr) = w at hmap
        -- a page that passes the test of the loop lies below `ULIM`
        have hsame : s.allows e perm (pgnum addr) = (hasFlag w pteP && w &&& perm == perm) := by
          rw [Kernel.allows, hmap]
          by_cases hlow : pgnum addr < pgnum ulim
          · simp [hlow]
          · have hlt : pgnum addr < 1048576 := by
              have := addr.isLt
              rw [pgnum_eq]
              omega
            have hkernel := hok.kernel _ _ _ (Nat.le_of_not_lt hlow) hlt hmap
            have htest : (hasFlag w pteP && w &&& perm == perm) = false := by
              by_contra hyes
              rw [Bool.not_eq_false, Bool.and_eq_true, beq_iff_eq] at hyes
              rw [has_flag_of_and hyes.2 hperm] at hkernel
              exact absurd (hkernel hyes.1) (by decide)
            simp [hlow, htest]
        rw [hsame]
        cases hasFlag w pteP && w &&& perm == perm <;> rfl
  · rw [if_neg hstop, if_neg hstop]
    rfl

/-- The loop of `user_mem_check` from a page boundary on finds out whether the remaining pages
are allowed. -/
theorem user_mem_check_loop_spec (stop : Word) (hok : DirOk s e dir)
    (hperm : hasFlag perm pteU = true) (fuel : Nat) (addr : Word)
    (halign : addr.toNat % 4096 = 0) (hfuel : 1048576 < fuel + addr.toNat / 4096) :
    ∃ b, userMemCheckLoop dir stop perm fuel addr s = .ret b s ∧
      (b = true ↔ ∀ n, addr.toNat / 4096 ≤ n → n * 4096 < stop.toNat →
        s.allows e perm n = true) := by
  induction fuel generalizing addr with
  | zero =>
      have := addr.isLt
      omega
  | succ fuel ih =>
      rw [user_mem_check_loop_succ hok hperm, pgnum_eq]
      by_cases hstop : addr < stop
      · have hstop' : addr.toNat < stop.toNat := hstop
        rw [if_pos hstop]
        cases hpage : s.allows e perm (addr.toNat / 4096) with
        | false =>
            refine ⟨false, rfl, fun h => (by cases h), fun hall => ?_⟩
            exact hpage ▸ hall (addr.toNat / 4096) (Nat.le_refl _) (by omega)
        | true =>
            have hlow : addr.toNat < ulim.toNat := (accessible_iff.2 hpage).1
            rw [ulim_to_nat] at hlow
            have hnext : (addr + pgsizeW).toNat = addr.toNat + 4096 := by
              rw [BitVec.toNat_add, show pgsizeW.toNat = 4096 from rfl]
              omega
            obtain ⟨b, hloop, hb⟩ := ih (addr + pgsizeW) (by omega) (by omega)
            refine ⟨b, hloop, hb.trans ⟨fun hall n hn hn' => ?_, fun hall n hn hn' => ?_⟩⟩
            · by_cases hfirst : n = addr.toNat / 4096
              · rw [hfirst]
                exact hpage
              · exact hall n (by omega) hn'
            · exact hall n (by omega) hn'
      · have hge : stop.toNat ≤ addr.toNat := Nat.le_of_not_lt hstop
        rw [if_neg hstop]
        refine ⟨true, rfl, fun _ n hn hn' => ?_, fun _ => rfl⟩
        omega

/-- The range of a buffer that does not wrap around is accessible when its pages are allowed. -/
theorem accessible_range_iff (hwrap : va.toNat + len.toNat < 2 ^ 32) (hne : len ≠ 0) :
    (∀ n, (rounddown va).toNat / 4096 ≤ n → n * 4096 < (va + len).toNat →
        s.allows e perm n = true) ↔ ∀ a, InRange va len a → s.accessible e perm a := by
  rw [BitVec.toNat_add, Nat.mod_eq_of_lt hwrap, rounddown_to_nat]
  have hpos : 0 < len.toNat := by
    by_contra hzero
    exact hne (BitVec.eq_of_toNat_eq (by simpa using hzero))
  constructor
  · rintro hall a ⟨hlow, hhigh⟩
    exact accessible_iff.2 (hall (a / 4096) (by omega) (by omega))
  · intro hall n hn hn'
    -- the first byte of the range on page `n`
    by_cases hstart : n * 4096 < va.toNat
    · have hpage : va.toNat / 4096 = n := by omega
      exact hpage ▸ accessible_iff.1 (hall va.toNat ⟨Nat.le_refl _, by omega⟩)
    · have hpage : n * 4096 / 4096 = n := by omega
      exact hpage ▸ accessible_iff.1 (hall (n * 4096) ⟨by omega, hn'⟩)

/-- What `user_mem_check` returns. -/
theorem user_mem_check_spec (va len : Word) (hok : DirOk s e dir) (hperm : hasFlag perm pteU = true) :
    userMemCheck e va len perm s = .ret 0 s ∧ len ≠ 0 ∧
        (∀ a, InRange va len a → s.accessible e perm a) ∨
      userMemCheck e va len perm s = .ret (-eFault) { s with userMemCheckAddr := va } ∧
        (len = 0 ∨ ∃ a, InRange va len a ∧ ¬ s.accessible e perm a) := by
  have hva := va.isLt
  have hulim := ulim_to_nat
  rw [userMemCheck]
  by_cases hearly : ulim ≤ va ∨ va + len ≤ va
  · refine .inr ⟨?_, ?_⟩
    · rw [if_pos hearly]
      rfl
    · by_cases hne : len = 0
      · exact .inl hne
      -- a range that starts at or above `ULIM`, or wraps around, has a byte there
      · have hpos : 0 < len.toNat := by
          by_contra hzero
          exact hne (BitVec.eq_of_toNat_eq (by simpa using hzero))
        have hlen := len.isLt
        refine .inr ⟨max va.toNat ulim.toNat, ⟨Nat.le_max_left _ _, ?_⟩, fun hacc => ?_⟩
        · rcases hearly with hhigh | hwrap
          · have hhigh' : ulim.toNat ≤ va.toNat := hhigh
            omega
          · have hwrap' : (va + len).toNat ≤ va.toNat := hwrap
            rw [BitVec.toNat_add] at hwrap'
            omega
        · have hlow := hacc.1
          omega
  · have hlow : va.toNat < ulim.toNat := Nat.lt_of_not_le fun h => hearly (.inl h)
    have hgrow : va.toNat < (va + len).toNat := Nat.lt_of_not_le fun h => hearly (.inr h)
    have hlen := len.isLt
    rw [BitVec.toNat_add] at hgrow
    have hwrap : va.toNat + len.toNat < 2 ^ 32 := by omega
    have hne : len ≠ 0 := by
      rintro rfl
      rw [show (0 : Word).toNat = 0 from rfl] at hgrow
      omega
    obtain ⟨b, hloop, hb⟩ := user_mem_check_loop_spec (va + len) hok hperm 1048577
      (rounddown va) (by rw [rounddown_to_nat]; omega) (by omega)
    rw [accessible_range_iff hwrap hne] at hb
    have hdir : gets (fun s => (s.envs e).envPgdir) s = (.ret (some dir) s : Outcome _ Exit _) := by
      rw [← hok.pgdir]
      rfl
    have hderef : deref (some dir) s = .ret dir s := rfl
    rw [if_neg hearly, bind_of_ret hdir, bind_of_ret hderef, bind_of_ret hloop]
    cases b with
    | true => exact .inl ⟨rfl, hne, hb.1 rfl⟩
    | false =>
        refine .inr ⟨rfl, .inr ?_⟩
        by_contra hno
        have hall : ∀ a, InRange va len a → s.accessible e perm a := by
          intro a hin
          by_contra hnot
          exact hno ⟨a, hin, hnot⟩
        exact absurd (hb.2 hall) (by decide)

end Check

/-- `user_mem_check` is exact on a range that is not empty if the whole range is accessible, or
its first byte is not. -/
theorem user_mem_check_exact_iff (s : Kernel) (e : EnvIx) (dir : Nat) (va len perm : Word)
    (hok : DirOk s e dir) (hperm : hasFlag perm pteU = true) :
    ExactCheck s e va len perm ↔ len ≠ 0 ∧ (¬ s.accessible e perm va.toNat ∨
      ∀ a, InRange va len a → s.accessible e perm a) := by
  have hfirst : len ≠ 0 → InRange va len va.toNat := by
    intro hne
    have hpos : 0 < len.toNat := by
      by_contra hzero
      exact hne (BitVec.eq_of_toNat_eq (by simpa using hzero))
    exact ⟨Nat.le_refl _, by omega⟩
  rcases user_mem_check_spec va len hok hperm with
    ⟨hcall, hne, hall⟩ | ⟨hcall, hbad⟩
  · refine ⟨fun _ => ⟨hne, .inr hall⟩, fun _ => ⟨0, s, hcall, ⟨fun _ => hall, fun _ => rfl⟩, ?_⟩⟩
    exact fun h => absurd rfl h
  · constructor
    · rintro ⟨r, s', hret, hzero, hfail⟩
      rw [hcall] at hret
      cases hret
      obtain ⟨-, hin, hnot, -⟩ := hfail (by decide)
      refine ⟨?_, .inl hnot⟩
      rintro rfl
      have hlt := hin.2
      simp at hlt
    · rintro ⟨hne, hcase⟩
      obtain ⟨a, hin, hnot⟩ := hbad.resolve_left hne
      have hva : ¬ s.accessible e perm va.toNat := hcase.resolve_right fun hall => hnot (hall a hin)
      refine ⟨_, _, hcall, ⟨fun h => absurd h (by decide), fun hall => absurd (hall a hin) hnot⟩, ?_⟩
      intro _
      exact ⟨rfl, hfirst hne, hva, fun a hin hlt => absurd hin.1 (Nat.not_le_of_lt hlt)⟩

/-- Environment 0, whose directory is page 1, runs on CPU 0. It maps page 4 at address 0, and
nothing else. -/
def onePage : Kernel :=
  { npages := 6, npagesBasemem := 6, nextfree := 0, pages := fun _ => {}, pageFreeList := none
    mem := fun p i =>
      if p = 1 ∧ i = 0 then mkPde 3 else if p = 3 ∧ i = 0 then mkPte 4 (pteU ||| pteW) else 0
    kernPgdir := 0, mmioBase := 0
    envs := fun e =>
      if e = 0 then { envId := 0x1000, envStatus := .running, envPgdir := some 1 } else {}
    envFreeList := none, cpus := fun _ => { cr3 := 1, cpuEnv := some 0 }, kernelLock := some 0
    panicstr := none, ticks := 0, userMemCheckAddr := 0, e1000 := {}, consIn := [], consOut := []
    accesses := [], frees := [], pageFrees := [] }

theorem one_page_dir_ok : DirOk onePage 0 1 := by
  have hzero : ∀ d, d ≠ 0 → onePage.mem 1 d = 0 := by
    intro d hd
    simp [onePage, hd]
  refine ⟨rfl, fun d _ hpresent => ?_, fun n pde pte hn _ hmap _ => ?_⟩
  · by_cases hd : d = 0
    · subst hd
      decide +kernel
    · rw [hzero d hd] at hpresent
      exact absurd hpresent (by decide)
  · rw [pgnum_eq, ulim_to_nat] at hn
    have hnone : onePage.mapping 0 n = none := by
      show (if hasFlag (onePage.mem 1 (n / 1024)) pteP then _ else none) = _
      rw [hzero (n / 1024) (by omega)]
      rfl
    rw [hnone] at hmap
    cases hmap

/-- For a buffer of two pages from address 0 on, of which only the first is mapped, the reported
address is 0. -/
theorem user_mem_check_not_first_bad :
    DirOk onePage 0 1 ∧ hasFlag pteU pteU = true ∧ ¬ ExactCheck onePage 0 0 8192 pteU := by
  refine ⟨one_page_dir_ok, by decide, fun hexact => ?_⟩
  obtain ⟨r, s', hret, -, hfail⟩ := hexact
  have hzero : onePage.accessible 0 pteU (0 : Word).toNat := ⟨by decide +kernel, by decide +kernel⟩
  have hsecond : ¬ onePage.accessible 0 pteU 4096 := fun hacc => absurd hacc.2 (by decide +kernel)
  rcases user_mem_check_spec 0 8192 one_page_dir_ok (show hasFlag pteU pteU = true
    by decide) with ⟨-, -, hall⟩ | ⟨hcall, -⟩
  · exact hsecond (hall 4096 ⟨by decide, by decide⟩)
  · rw [hcall] at hret
    cases hret
    exact (hfail (by decide)).2.2.1 hzero

/-- The first two bytes of the mapped page. -/
theorem user_mem_check_exact_iff_mapped : ExactCheck onePage 0 0 2 pteU := by
  refine (user_mem_check_exact_iff onePage 0 1 0 2 pteU one_page_dir_ok (by decide)).2
    ⟨by decide, .inr fun a hin => accessible_iff.2 ?_⟩
  have hpage : a / 4096 = 0 := by
    have hlt : a < 0 + 2 := hin.2
    omega
  rw [hpage]
  decide +kernel

end Labs.Jos
