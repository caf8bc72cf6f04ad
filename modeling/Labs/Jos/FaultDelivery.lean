import Labs.Jos.StackImage
import Labs.Jos.UpcallReturns
import Labs.Jos.UserAccess

/-!
# The kernel delivers page faults

`page_fault_handler` of the kernel model against what it does with the user's machine. The machine
has the memory that the page tables of the environment give to user code, and the rights that they
grant. The handler returns exactly if `deliver` finds a place for the record, and the environment
then has the machine of `deliver`.
-/

namespace Labs.Jos.Upcall

open Ia32 Prog

variable {s t : Kernel} {k : CpuId} {c : EnvIx} {dir : Nat} {va upcall faultVa : Word} {m : Machine}

/-- The machine has the memory and the rights of the environment `c`. -/
structure Views (s : Kernel) (c : EnvIx) (m : Machine) : Prop where
  may : ∀ store a, m.may store a = true ↔ s.grants c store a
  mem : ∀ (va : Word) b, s.userRead c va = some b → m.mem va.toNat = b

/-- No other page of `c` is the same page of memory as that of the address `a`. -/
def Sole (s : Kernel) (c : EnvIx) (a : Nat) : Prop :=
  ∀ n pde pte pde' pte', s.mapping c (a / 4096) = some (pde, pte) →
    s.mapping c n = some (pde', pte') → s.allows c pteU n = true → pgnum pte' = pgnum pte →
      n = a / 4096

/-- What is allowed has an entry. -/
theorem mapping_of_allows {perm : Word} {n : Nat} (h : s.allows c perm n = true) :
    ∃ pde pte, s.mapping c n = some (pde, pte) ∧ hasFlag pte pteP = true ∧ pte &&& perm = perm ∧
      n < 980992 := by
  rw [Kernel.allows, Bool.and_eq_true, decide_eq_true_eq, pgnum_eq, ulim_to_nat] at h
  obtain ⟨hlow, hentry⟩ := h
  cases hmap : s.mapping c n with
  | none =>
      rw [hmap] at hentry
      cases hentry
  | some e =>
      obtain ⟨pde, pte⟩ := e
      rw [hmap] at hentry
      obtain ⟨hpresent, hperm⟩ := Bool.and_eq_true_iff.1 hentry
      exact ⟨pde, pte, rfl, hpresent, beq_iff_eq.1 hperm, hlow⟩

/-- Rights depend only on the entries of the pages below `ULIM`. -/
theorem allows_congr (h : ∀ n < 1048576, t.mapping c n = s.mapping c n) (perm : Word) (n : Nat) :
    t.allows c perm n = s.allows c perm n := by
  unfold Kernel.allows
  by_cases hn : n < 1048576
  · rw [h n hn]
  · have hhigh : ¬ n < pgnum ulim := by
      rw [pgnum_eq, ulim_to_nat]
      omega
    rw [decide_eq_false hhigh, Bool.false_and, Bool.false_and]

theorem Sole.congr {a : Nat} (hsole : Sole s c a) (ha : a / 4096 < 1048576)
    (h : ∀ n < 1048576, t.mapping c n = s.mapping c n) : Sole t c a := by
  intro n pde pte pde' pte' hmap hmap' hallows
  rw [allows_congr h] at hallows
  obtain ⟨-, -, -, -, -, hn⟩ := mapping_of_allows hallows
  rw [h _ ha] at hmap
  rw [h n (by omega)] at hmap'
  exact hsole n pde pte pde' pte' hmap hmap' hallows

/-- A store to a page that user code may write leaves the page tables of `c` alone. -/
theorem mapping_set_byte {pde pte : Word} {n off : Nat} {b : Byte} (h : Entered s k c dir)
    (hallows : s.allows c pteU n = true) (hmap : s.mapping c n = some (pde, pte))
    (hpde : hasFlag pde pteW = true) (hpte : hasFlag pte pteW = true) (henvs : t.envs = s.envs)
    (hmem : t.mem = (s.setPhysByte (pgnum pte) off b).mem) {j : Nat} (hj : j < 1048576) :
    t.mapping c j = s.mapping c j := by
  obtain ⟨hdir, htables⟩ := h.apart n pde pte hallows hmap hpde hpte
  have hother : ∀ p, p ≠ pgnum pte → t.mem p = s.mem p := by
    intro p hp
    rw [hmem]
    exact Function.update_of_ne hp _ _
  unfold Kernel.mapping
  rw [henvs, h.pgdir]
  dsimp only
  rw [hother dir (Ne.symm hdir)]
  by_cases hd : hasFlag (s.mem dir (j / 1024)) pteP = true
  · rw [if_pos hd, if_pos hd, hother _ (Ne.symm (htables (j / 1024) (by omega) hd))]
  · rw [if_neg hd, if_neg hd]

/-- A byte of memory after a store. -/
theorem phys_byte_set (s : Kernel) (p off : Nat) (b : Byte) (q x : Nat) :
    (s.setPhysByte p off b).physByte q x = if q = p ∧ x = off then b else s.physByte q x := by
  by_cases hq : q = p
  · subst hq
    have hwords : (s.setPhysByte q off b).mem q = setPageByte (s.mem q) off b :=
      Function.update_self _ _ _
    rw [show (s.setPhysByte q off b).physByte q x =
      pageByte ((s.setPhysByte q off b).mem q) x from rfl, hwords, page_byte_set]
    by_cases hx : x = off
    · rw [hx, Function.update_self, if_pos ⟨rfl, rfl⟩]
    · rw [Function.update_of_ne hx, if_neg fun hboth => hx hboth.2]
      rfl
  · rw [if_neg fun hboth => hq hboth.1]
    unfold Kernel.physByte
    rw [show (s.setPhysByte p off b).mem q = s.mem q from Function.update_of_ne hq _ _]

/-- What user code reads after a store to a page of its own. -/
theorem user_read_set {pde pte : Word} {b : Byte}
    (hmap : s.mapping c (va.toNat / 4096) = some (pde, pte)) (hsole : Sole s c va.toNat)
    (hmaps : ∀ n < 1048576, t.mapping c n = s.mapping c n)
    (hmem : t.mem = (s.setPhysByte (pgnum pte) (pgoff va) b).mem) {va' : Word} {b' : Byte}
    (h : t.userRead c va' = some b') :
    va' = va ∧ b' = b ∨ va' ≠ va ∧ s.userRead c va' = some b' := by
  unfold Kernel.userRead at h
  split at h
  case isFalse => cases h
  case isTrue hallows =>
    rw [allows_congr hmaps] at hallows
    obtain ⟨pde', pte', hmap', -, -, hlow⟩ := mapping_of_allows hallows
    rw [hmaps _ (by omega), hmap'] at h
    have hbyte : t.physByte (pgnum pte') (pgoff va') =
        (s.setPhysByte (pgnum pte) (pgoff va) b).physByte (pgnum pte') (pgoff va') := by
      unfold Kernel.physByte
      rw [hmem]
    have hb' : (s.setPhysByte (pgnum pte) (pgoff va) b).physByte (pgnum pte') (pgoff va') = b' :=
      hbyte.symm.trans (Option.some.inj h)
    rw [phys_byte_set] at hb'
    by_cases hva : va' = va
    · subst hva
      rw [pgnum_eq, hmap] at hmap'
      cases hmap'
      rw [if_pos ⟨rfl, rfl⟩] at hb'
      exact .inl ⟨rfl, hb'.symm⟩
    · refine .inr ⟨hva, ?_⟩
      have hne : ¬ (pgnum pte' = pgnum pte ∧ pgoff va' = pgoff va) := by
        intro hboth
        obtain ⟨hpage, hoff⟩ := hboth
        have hn := hsole _ _ _ _ _ hmap hmap' hallows hpage
        rw [pgnum_eq] at hn
        rw [pgoff_eq, pgoff_eq] at hoff
        exact hva (BitVec.eq_of_toNat_eq (by omega))
      rw [if_neg hne] at hb'
      rw [Kernel.userRead, if_pos hallows, hmap', ← hb']
      rfl

/-- The kernel's store of a byte is the machine's. -/
theorem store_byte_views (h : Entered s k c dir) (hviews : Views s c m)
    (hgrant : s.grants c true va.toNat) (hsole : Sole s c va.toNat) (b : Byte) :
    ∃ t, storeByte k va b s = .ret () t ∧ Entered t k c dir ∧
      Views t c { m with mem := Function.update m.mem va.toNat b } ∧ t.envs = s.envs ∧
      ∀ n < 1048576, t.mapping c n = s.mapping c n := by
  obtain ⟨t, hret, hentered, hgrants⟩ := store_byte_granted h hgrant b
  have hallows := accessible_iff.mp hgrant.1
  obtain ⟨pde, pte, hmap, hpde, hpte⟩ := hgrant.2 rfl
  obtain ⟨_, _, hmap', hpresent, -, -⟩ := mapping_of_allows hallows
  rw [hmap] at hmap'
  cases hmap'
  have hwalk := walk_of_mapping h.pgdir hmap hpresent
  rw [hpde, hpte, ← pgnum_eq] at hwalk
  have hstore : storeByte k va b s = .ret ()
      (({ s with accesses := ⟨true, va⟩ :: s.accesses } : Kernel).setPhysByte (pgnum pte)
        (pgoff va) b) := by
    rw [storeByte, get_bind, h.cr3, hwalk]
    rfl
  have ht : t = ({ s with accesses := ⟨true, va⟩ :: s.accesses } : Kernel).setPhysByte (pgnum pte)
      (pgoff va) b := by
    rw [hret] at hstore
    exact (Outcome.ret.inj hstore).2
  have hmem : t.mem = (s.setPhysByte (pgnum pte) (pgoff va) b).mem := by
    rw [ht]
    rfl
  have henvs : t.envs = s.envs := by
    rw [ht]
    rfl
  have hmaps : ∀ n < 1048576, t.mapping c n = s.mapping c n :=
    fun n hn => mapping_set_byte h hallows hmap hpde hpte henvs hmem hn
  refine ⟨t, hret, hentered, ⟨fun store a => ?_, fun va' b' hread => ?_⟩, henvs, hmaps⟩
  · rw [hgrants]
    exact hviews.may store a
  · dsimp only
    rcases user_read_set hmap hsole hmaps hmem hread with ⟨rfl, rfl⟩ | ⟨hne, hread'⟩
    · rw [Function.update_self]
    · rw [Function.update_of_ne fun heq => hne (BitVec.eq_of_toNat_eq heq)]
      exact hviews.mem va' b' hread'

/-- The kernel's stores of several bytes are the machine's. -/
theorem store_bytes_views (bytes : List Byte) {va : Word} (h : Entered s k c dir)
    (hviews : Views s c m) (hfits : va.toNat + bytes.length < 2 ^ 32)
    (hgrants : ∀ i < bytes.length, s.grants c true (va.toNat + i))
    (hsole : ∀ i < bytes.length, Sole s c (va.toNat + i)) :
    ∃ t, storeBytes k bytes va s = .ret () t ∧ Entered t k c dir ∧
      Views t c { m with mem := m.mem.store va.toNat bytes } ∧ t.envs = s.envs := by
  induction bytes generalizing s m va with
  | nil =>
      have hmem : m.mem.store va.toNat [] = m.mem := by
        funext x
        exact if_neg fun hin => by
          rw [List.length_nil] at hin
          omega
      rw [hmem]
      exact ⟨s, rfl, h, hviews, rfl⟩
  | cons b rest ih =>
      rw [List.length_cons] at hfits hgrants hsole
      obtain ⟨t, hstore, ht, hviews', henvs, hmaps⟩ := store_byte_views h hviews
        (hgrants 0 (Nat.succ_pos _)) (hsole 0 (Nat.succ_pos _)) b
      have hnext : (va + 1).toNat = va.toNat + 1 := by
        rw [BitVec.toNat_add, show (1 : Word).toNat = 1 from rfl]
        omega
      have hgrants' : ∀ i < rest.length, t.grants c true ((va + 1).toNat + i) := by
        intro i hi
        rw [hnext, ← hviews'.may, Nat.add_right_comm]
        exact (hviews.may _ _).2 (hgrants (i + 1) (Nat.succ_lt_succ hi))
      have hsole' : ∀ i < rest.length, Sole t c ((va + 1).toNat + i) := by
        intro i hi
        rw [hnext, Nat.add_right_comm]
        exact (hsole (i + 1) (Nat.succ_lt_succ hi)).congr (by omega) hmaps
      obtain ⟨u, hstores, hu, hviews'', henvs'⟩ := ih ht hviews' (by omega) hgrants' hsole'
      refine ⟨u, ?_, hu, ?_, henvs'.trans henvs⟩
      · rw [storeBytes, bind_of_ret hstore]
        exact hstores
      · rw [store_cons, ← hnext]
        exact hviews''

/-! ## The handler -/

theorem and_writable {w : Word} (huser : w &&& pteU = pteU) (hw : hasFlag w pteW = true) :
    w &&& (pteW ||| pteU) = pteW ||| pteU := by
  have hbit : w &&& pteW = pteW := by
    rw [has_flag_w] at hw
    rw [show pteW = BitVec.twoPow 32 1 from rfl, BitVec.and_twoPow, hw, if_pos rfl]
  rw [BitVec.and_or_distrib_left, hbit, huser]

/-- Where the machine may write, the check of the kernel passes. -/
theorem check_of_writable (h : Entered s k c dir) (hviews : Views s c m) {len : Word} {n : Nat}
    (hlen : len.toNat = n) (hpos : 0 < n) (hwrite : writable m va.toNat n = true) :
    userMemAssert k c va len pteW s = .ret () s := by
  have hne : len ≠ 0 := by
    intro hzero
    rw [hzero] at hlen
    exact absurd hlen (Nat.ne_of_lt hpos)
  refine user_mem_assert_accessible h.toDirOk hne fun a hin => ?_
  obtain ⟨hlo, hhi⟩ := hin
  have hmay := List.all_eq_true.1 hwrite (a - va.toNat) (List.mem_range.2 (by omega))
  rw [Nat.add_sub_cancel' hlo] at hmay
  obtain ⟨hacc, hentry⟩ := (hviews.may true a).1 hmay
  obtain ⟨pde, pte, hmap, -, hw⟩ := hentry rfl
  have hallows := accessible_iff.1 hacc
  refine accessible_iff.2 ?_
  rw [Kernel.allows, hmap, Bool.and_eq_true, Bool.and_eq_true, beq_iff_eq] at hallows ⊢
  obtain ⟨hlow, hpresent, huser⟩ := hallows
  exact ⟨hlow, hpresent, and_writable huser hw⟩

/-- The environment goes on at `eip`, with the stack pointer `esp`. -/
def restartAt (esp eip : Word) (env : Env) : Env :=
  { env with envTf := { env.envTf with esp := esp, eip := eip } }

/-- What `page_fault_handler` does when there is an upcall. -/
theorem page_fault_handler_eq {tf : Trapframe} (faultVa : Word) (h : Entered s k c dir) (huser : tf.cs &&& 3 ≠ 0)
    (hupcall : (s.envs c).envPgfaultUpcall = upcall) (hset : upcall ≠ 0) :
    pageFaultHandler k tf faultVa s = (do
      userMemAssert k c (uxstacktop - pgsizeW) pgsizeW pteW
      userMemAssert k c (faultStack tf.esp) 52 pteW
      storeBytes k (encodeUTrapframe faultVa tf) (faultStack tf.esp)
      modifyEnv c (restartAt (faultStack tf.esp) upcall) : Kern Unit) s := by
  rw [pageFaultHandler, if_neg huser, curenv, gets_bind, h.cur,
    bind_of_ret (show deref (some c) s = .ret c s from rfl), gets_bind, hupcall, if_neg hset]
  rfl

/-- A check for writing that passes. -/
theorem assert_writable (h : Entered s k c dir) (va len : Word) :
    wp (userMemAssert k c va len pteW)
      (fun _ t => t = s ∧ ∀ a, InRange va len a → s.accessible c (pteW ||| pteU) a)
      (fun _ _ => True) s := by
  rw [userMemAssert, wp_bind]
  rcases user_mem_check_spec va len h.toDirOk (show hasFlag (pteW ||| pteU) pteU = true by decide)
    with ⟨hcall, -, hall⟩ | ⟨hcall, -⟩
  · rw [wp_of_ret hcall]
    exact ⟨rfl, hall⟩
  · rw [wp_of_ret hcall, if_pos (by decide)]
    have hcur : ({ s with userMemCheckAddr := va } : Kernel).ctl.cpuEnv k = some c := h.cur
    exact wp_mono (acts_env_destroy (g := .none) (.inl hcur)) (fun _ _ hne => absurd hcur hne.1)
      fun _ _ _ => trivial

/-- A store returns only if the directory entry lets the processor write. -/
theorem store_bytes_writable {b : Byte} {rest : List Byte} (h : Entered s k c dir) :
    wp (storeBytes k (b :: rest) va)
      (fun _ _ => hasFlag (s.mem dir (va.toNat / 4096 / 1024)) pteW = true) (fun _ _ => True) s := by
  rw [storeBytes, wp_bind, storeByte, wp_bind, wp_get, h.cr3]
  cases hwalk : walk s.mem dir (pgnum va) with
  | none =>
      exact wp_mono (leaves_kernel_page_fault (g := .none) va s) (fun _ _ => False.elim)
        fun _ _ _ => trivial
  | some x =>
      dsimp only
      rw [wp_ite]
      refine ⟨fun hx => ?_, fun _ => wp_mono (leaves_kernel_page_fault (g := .none) va s)
        (fun _ _ => False.elim) fun _ _ _ => trivial⟩
      have hpde : hasFlag (s.mem dir (va.toNat / 4096 / 1024)) pteW = true := by
        rw [walk, pgnum_eq] at hwalk
        split at hwalk
        case isFalse => cases hwalk
        case isTrue =>
          cases hwalk
          exact (Bool.and_eq_true_iff.1 hx).1
      exact wp_of_forall (fun _ _ => wp_of_forall (fun _ _ => hpde) fun _ _ => trivial)
        fun _ _ => trivial

/-- What may be written by the page table entry, in a region of which the directory entry allows
it. -/
theorem grants_of_accessible (h : Entered s k c dir) {a : Nat}
    (hacc : s.accessible c (pteW ||| pteU) a)
    (hpde : hasFlag (s.mem dir (a / 4096 / 1024)) pteW = true) : s.grants c true a := by
  obtain ⟨pde, pte, hmap, hpresent, hperm, hlow⟩ := mapping_of_allows (accessible_iff.1 hacc)
  have hflag : ∀ flag, (pteW ||| pteU) &&& flag = flag → pte &&& flag = flag := by
    intro flag hsub
    rw [← hsub, ← BitVec.and_assoc, hperm]
  refine ⟨accessible_iff.2 ?_, fun _ => ⟨pde, pte, hmap, ?_, has_flag_of_and hperm (by decide)⟩⟩
  · rw [Kernel.allows, hmap, Bool.and_eq_true, Bool.and_eq_true, decide_eq_true_eq, beq_iff_eq,
      pgnum_eq, ulim_to_nat]
    exact ⟨hlow, hpresent, hflag pteU (by decide)⟩
  · rw [Kernel.mapping, h.pgdir] at hmap
    dsimp only at hmap
    split at hmap
    case isFalse => cases hmap
    case isTrue =>
      cases hmap
      exact hpde

/-- The machine of `c` does not depend on what else is in its `struct Env`. -/
theorem views_set_env {f : Env → Env} (hdir : (f (s.envs c)).envPgdir = (s.envs c).envPgdir)
    (h : Entered s k c dir) (hviews : Views s c m) :
    Entered (s.setEnv c f) k c dir ∧ Views (s.setEnv c f) c m := by
  have henv : ((s.setEnv c f).envs c).envPgdir = (s.envs c).envPgdir := by
    rw [show (s.setEnv c f).envs c = f (s.envs c) from Function.update_self _ _ _, hdir]
  have hmaps : ∀ n, (s.setEnv c f).mapping c n = s.mapping c n := by
    intro n
    unfold Kernel.mapping
    rw [henv]
    rfl
  have hallows : ∀ perm n, (s.setEnv c f).allows c perm n = s.allows c perm n :=
    fun perm n => allows_congr (fun n _ => hmaps n) perm n
  refine ⟨⟨⟨henv.trans h.pgdir, h.tables, fun n pde pte hlo hhi hm => ?_⟩, h.cur, h.cr3,
    fun n pde pte hall hm => ?_⟩, fun store a => ?_, fun va b hread => ?_⟩
  · rw [hmaps] at hm
    exact h.kernel n pde pte hlo hhi hm
  · rw [hallows] at hall
    rw [hmaps] at hm
    exact h.apart n pde pte hall hm
  · rw [hviews.may]
    unfold Kernel.grants Kernel.accessible
    rw [hallows, hmaps]
  · refine hviews.mem va b ?_
    unfold Kernel.userRead at hread ⊢
    rw [hallows, hmaps] at hread
    exact hread

/-- The record lies in the part of the address space of the directory entry of the exception
stack. -/
theorem record_region {a : Nat} (esp : Word) (hlo : (faultStack esp).toNat ≤ a)
    (hhi : a < (faultStack esp).toNat + 52) : a / 4096 / 1024 = 954 := by
  have htop := uxstacktop_eq
  have hstack := uxstack_eq
  have hrecord := top_record
  rcases fault_stack_cases esp with ⟨hon, hu⟩ | ⟨-, hu⟩
  · omega
  · rw [hu] at hlo hhi
    omega

/-- The handler returns only if there is a place for the record. -/
theorem delivers_of_returns {tf : Trapframe} (faultVa : Word) (h : Entered s k c dir) (hviews : Views s c m)
    (huser : tf.cs &&& 3 ≠ 0) (hset : (s.envs c).envPgfaultUpcall ≠ 0) :
    wp (pageFaultHandler k tf faultVa)
      (fun _ _ => ∃ m', deliver (s.envs c).envPgfaultUpcall faultVa tf m = some m')
      (fun _ _ => True) s := by
  unfold wp
  rw [page_fault_handler_eq faultVa h huser rfl hset]
  change wp _ _ _ s
  rw [wp_bind]
  refine wp_mono_ret (assert_writable h _ _) fun _ s₁ hfirst => ?_
  obtain ⟨hsame, hpage⟩ := hfirst
  rw [hsame, wp_bind]
  refine wp_mono_ret (assert_writable h _ _) fun _ s₂ hsecond => ?_
  obtain ⟨hsame', hrecord⟩ := hsecond
  rw [hsame', wp_bind]
  have hcons : encodeUTrapframe faultVa tf =
      (encodeUTrapframe faultVa tf).head (by simp [encodeUTrapframe, wordBytes]) ::
        (encodeUTrapframe faultVa tf).tail := (List.cons_head_tail _).symm
  rw [hcons]
  refine wp_mono_ret (store_bytes_writable h) fun _ s₃ hpde => ?_
  rw [record_region tf.esp (Nat.le_refl _) (Nat.lt_add_of_pos_right (by decide))] at hpde
  have hmay : ∀ a, s.accessible c (pteW ||| pteU) a → a / 4096 / 1024 = 954 →
      m.may true a = true := by
    intro a hacc hregion
    refine (hviews.may _ _).2 (grants_of_accessible h hacc ?_)
    rw [hregion]
    exact hpde
  have hfirst : writable m uxstack 4096 = true := by
    refine List.all_eq_true.2 fun i hi => ?_
    have hi' : i < pgsizeW.toNat := List.mem_range.1 hi
    have hlast := List.mem_range.1 hi
    have hstack := uxstack_eq
    exact hmay _ (hpage _ ⟨Nat.le_add_right _ _, Nat.add_lt_add_left hi' _⟩) (by omega)
  have hsecond : writable m (faultStack tf.esp).toNat 52 = true := by
    refine List.all_eq_true.2 fun i hi => ?_
    have hi' : i < (52 : Word).toNat := List.mem_range.1 hi
    exact hmay _ (hrecord _ ⟨Nat.le_add_right _ _, Nat.add_lt_add_left hi' _⟩)
      (record_region tf.esp (Nat.le_add_right _ _) (Nat.add_lt_add_left (List.mem_range.1 hi) _))
  unfold deliver
  dsimp only
  rw [hfirst, hsecond]
  exact ⟨_, rfl⟩

/-- `page_fault_handler` returns exactly if the machine has a place for the record. The environment
then has the machine with the record, and goes on at its upcall. -/
theorem page_fault_handler_delivers (s : Kernel) (k : CpuId) (c : EnvIx) (dir : Nat) (m : Machine)
    (faultVa : Word) (tf : Trapframe) (h : Entered s k c dir) (hviews : Views s c m)
    (huser : tf.cs &&& 3 ≠ 0) (hset : (s.envs c).envPgfaultUpcall ≠ 0)
    (hsole : ∀ i < 52, Sole s c ((faultStack tf.esp).toNat + i)) :
    (∀ m', deliver (s.envs c).envPgfaultUpcall faultVa tf m = some m' →
      ∃ t, pageFaultHandler k tf faultVa s = .ret () t ∧ Entered t k c dir ∧ Views t c m' ∧
        t.envs = Function.update s.envs c (restartAt (m'.reg .esp) m'.eip (s.envs c))) ∧
      (deliver (s.envs c).envPgfaultUpcall faultVa tf m = none →
        ∃ e t, pageFaultHandler k tf faultVa s = .exit e t) := by
  refine ⟨fun m' hm' => ?_, fun hnone => ?_⟩
  · unfold deliver at hm'
    dsimp only at hm'
    split at hm'
    case isFalse => cases hm'
    case isTrue hwrite =>
      obtain ⟨hpage, hrecord⟩ := Bool.and_eq_true_iff.1 hwrite
      have hgrants : ∀ i < 52, s.grants c true ((faultStack tf.esp).toNat + i) := fun i hi =>
        (hviews.may _ _).1 (List.all_eq_true.1 hrecord i (List.mem_range.2 hi))
      have hlow : (faultStack tf.esp).toNat + 52 < 2 ^ 32 := by
        have hlast := (hgrants 51 (by decide)).1.1
        rw [ulim_to_nat] at hlast
        omega
      obtain ⟨t, hstores, ht, hviews', henvs⟩ := store_bytes_views (encodeUTrapframe faultVa tf) h
        hviews hlow hgrants hsole
      obtain ⟨hentered, hviews''⟩ := views_set_env
        (f := restartAt (faultStack tf.esp) (s.envs c).envPgfaultUpcall) rfl ht hviews'
      have hcheck : userMemAssert k c (uxstacktop - pgsizeW) pgsizeW pteW s = .ret () s :=
        check_of_writable h hviews (show pgsizeW.toNat = 4096 from rfl) (by decide) hpage
      have hcheck' : userMemAssert k c (faultStack tf.esp) 52 pteW s = .ret () s :=
        check_of_writable h hviews (show (52 : Word).toNat = 52 from rfl) (by decide) hrecord
      cases hm'
      refine ⟨_, ?_, hentered, ⟨hviews''.may, hviews''.mem⟩, ?_⟩
      · rw [page_fault_handler_eq faultVa h huser rfl hset, bind_of_ret hcheck,
          bind_of_ret hcheck', bind_of_ret hstores]
        rfl
      · rw [← henvs]
        rfl
  · have hreturns := delivers_of_returns faultVa h hviews huser hset
    rw [hnone] at hreturns
    obtain ⟨e, t, hexit, -⟩ := exit_of_wp (wp_mono_ret hreturns fun _ _ hsome => by
      obtain ⟨m', hm'⟩ := hsome
      cases hm')
    exact ⟨e, t, hexit⟩

/-- Environment 0 with an exception stack and an upcall. -/
def stackKernel : Kernel :=
  { onePage with
    mem := fun p i =>
      if p = 1 ∧ i = 954 then mkPde 3 else if p = 3 ∧ i = 1023 then mkPte 4 (pteU ||| pteW) else 0
    envs := fun e => if e = 0 then
      { envStatus := .running, envPgdir := some 1, envPgfaultUpcall := 0x00800100 } else {} }

theorem stack_kernel_pde (d : Nat) :
    stackKernel.mem 1 d = if d = 954 then mkPde 3 else 0 := by
  by_cases hd : d = 954
  · subst hd
    rfl
  · simp [stackKernel, hd]

theorem stack_kernel_mapping {n : Nat} {pde pte : Word}
    (h : stackKernel.mapping 0 n = some (pde, pte)) : n / 1024 = 954 ∧ pde = mkPde 3 ∧
      pte = if n % 1024 = 1023 then mkPte 4 (pteU ||| pteW) else 0 := by
  rw [Kernel.mapping, show (stackKernel.envs 0).envPgdir = some 1 from rfl] at h
  dsimp only at h
  rw [stack_kernel_pde] at h
  by_cases hd : n / 1024 = 954
  · rw [if_pos hd, if_pos (by decide), show pgnum (mkPde 3) = 3 by decide] at h
    cases h
    exact ⟨hd, rfl, by simp [stackKernel]⟩
  · rw [if_neg hd, if_neg (by decide)] at h
    cases h

/-- The only page that user code may access is the exception stack. -/
theorem stack_kernel_allows {n : Nat} (h : stackKernel.allows 0 pteU n = true) :
    n = 977919 := by
  obtain ⟨pde, pte, hmap, hpresent, -⟩ := mapping_of_allows h
  obtain ⟨hd, -, hpte⟩ := stack_kernel_mapping hmap
  by_cases ht : n % 1024 = 1023
  · omega
  · rw [hpte, if_neg ht] at hpresent
    exact absurd hpresent (by decide)

theorem stack_kernel_grants (store : Bool) (a : Nat) :
    stackKernel.grants 0 store a ↔ a / 4096 = 977919 := by
  constructor
  · exact fun h => stack_kernel_allows (accessible_iff.1 h.1)
  · intro ha
    refine ⟨accessible_iff.2 ?_, fun _ => ⟨mkPde 3, mkPte 4 (pteU ||| pteW), ?_, ?_⟩⟩
    · rw [ha]
      decide +kernel
    · rw [ha]
      rfl
    · decide

theorem stack_kernel_entered : Entered stackKernel 0 0 1 := by
  refine ⟨⟨rfl, fun d _ hp => ?_, fun n pde pte hlo _ hm _ => ?_⟩, rfl, rfl,
    fun n pde pte hall hm _ _ => ?_⟩
  · rw [stack_kernel_pde] at hp ⊢
    by_cases hd : d = 954
    · rw [if_pos hd]
      show pgnum (mkPde 3) < 6
      decide
    · rw [if_neg hd] at hp
      exact absurd hp (by decide)
  · rw [pgnum_eq, ulim_to_nat] at hlo
    have hd := (stack_kernel_mapping hm).1
    omega
  · obtain ⟨-, -, rfl⟩ := stack_kernel_mapping hm
    rw [stack_kernel_allows hall]
    refine ⟨by decide, fun d _ hp => ?_⟩
    rw [stack_kernel_pde] at hp ⊢
    by_cases hd : d = 954
    · rw [if_pos hd]
      decide
    · rw [if_neg hd] at hp
      exact absurd hp (by decide)

/-- The machine of that environment, somewhere on its normal stack. -/
def stackMachine : Machine :=
  plain (fun _ a => decide (a / 4096 = 977919)) fun _ h => h

theorem stack_kernel_views : Views stackKernel 0 stackMachine := by
  refine ⟨fun store a => ?_, fun va b hread => ?_⟩
  · rw [stack_kernel_grants]
    exact decide_eq_true_iff
  · unfold Kernel.userRead at hread
    split at hread
    case isFalse => cases hread
    case isTrue hallows =>
      have hn := stack_kernel_allows hallows
      have hmap : stackKernel.mapping 0 977919 = some (mkPde 3, mkPte 4 (pteU ||| pteW)) := rfl
      rw [hn, hmap] at hread
      have hzero : stackKernel.mem 4 = fun _ => 0 := rfl
      have hpage : pgnum (mkPte 4 (pteU ||| pteW)) = 4 := by decide
      rw [Option.map_some, hpage, Kernel.physByte, hzero] at hread
      have hb := Option.some.inj hread
      rw [← hb]
      simp [byteOf, stackMachine, plain]

/-- A fault at the normal stack is delivered to the top of the exception stack. -/
theorem page_fault_handler_delivers_plain :
    (∀ m', deliver 0x00800100 0xeebfdffc (frameOf stackMachine) stackMachine = some m' →
      ∃ t, pageFaultHandler 0 (frameOf stackMachine) 0xeebfdffc stackKernel = .ret () t ∧
        Entered t 0 0 1 ∧ Views t 0 m' ∧
        t.envs = Function.update stackKernel.envs 0
          (restartAt (m'.reg .esp) m'.eip (stackKernel.envs 0))) ∧
      (deliver 0x00800100 0xeebfdffc (frameOf stackMachine) stackMachine = none →
        ∃ e t, pageFaultHandler 0 (frameOf stackMachine) 0xeebfdffc stackKernel = .exit e t) := by
  refine page_fault_handler_delivers stackKernel 0 0 1 stackMachine 0xeebfdffc (frameOf stackMachine)
    stack_kernel_entered stack_kernel_views (by decide) (by decide)
    fun i hi n pde pte pde' pte' _ _ hallows _ => ?_
  have hesp : (frameOf stackMachine).esp.toNat = 4005552128 := rfl
  have hstack := uxstack_eq
  have hrecord := top_record
  rw [stack_kernel_allows hallows]
  rcases fault_stack_cases (frameOf stackMachine).esp with ⟨hon, -⟩ | ⟨-, hu⟩
  · omega
  · rw [hu]
    omega

end Labs.Jos.Upcall
