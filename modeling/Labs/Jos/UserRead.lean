import Labs.Base.ArgVec
import Labs.Jos.UserCheck

/-!
# Reading user memory

What the kernel reads through a user address when the environment may read there itself. The check
of `user_mem_assert` succeeds, and the loads return the bytes without a fault. Between the check and
the loads only the address space of the CPU and the log of accesses change.
-/

namespace Labs.Jos

open Prog

/-- The byte that user code of `e` reads at `va`, if it may. -/
def Kernel.userRead (s : Kernel) (e : EnvIx) (va : Word) : Option Byte :=
  if s.allows e pteU (pgnum va) then
    (s.mapping e (pgnum va)).map fun m => s.physByte (pgnum m.2) (pgoff va)
  else none

/-- User code of `e` reads `bytes` from `va` on. -/
def BytesAt (s : Kernel) (e : EnvIx) (va : Word) (bytes : List Byte) : Prop :=
  ∀ i < bytes.length, s.userRead e (va + BitVec.ofNat 32 i) = some (bytes.getD i 0)

/-- The memory, the environments and the number of pages are the same. -/
structure Seen (s s' : Kernel) : Prop where
  mem : s'.mem = s.mem
  envs : s'.envs = s.envs
  npages : s'.npages = s.npages

variable {s s' s₁ : Kernel} {k : CpuId} {e : EnvIx} {dir : Nat} {va : Word} {b : Byte}
  {bytes : List Byte}

namespace Seen

theorem refl (s : Kernel) : Seen s s := ⟨rfl, rfl, rfl⟩

theorem trans (h : Seen s s₁) (h' : Seen s₁ s') : Seen s s' :=
  ⟨h'.mem.trans h.mem, h'.envs.trans h.envs, h'.npages.trans h.npages⟩

/-- The page tables map the same. -/
theorem mapping (h : Seen s s') (e : EnvIx) (n : Nat) : s'.mapping e n = s.mapping e n := by
  unfold Kernel.mapping
  rw [h.mem, h.envs]

theorem allows (h : Seen s s') (e : EnvIx) (perm : Word) (n : Nat) :
    s'.allows e perm n = s.allows e perm n := by
  unfold Kernel.allows
  rw [h.mapping]

theorem user_read (h : Seen s s') (e : EnvIx) (va : Word) :
    s'.userRead e va = s.userRead e va := by
  unfold Kernel.userRead Kernel.physByte
  rw [h.allows, h.mapping, h.mem]

theorem bytes_at (h : Seen s s') (hbytes : BytesAt s e va bytes) : BytesAt s' e va bytes := by
  intro i hi
  rw [h.user_read]
  exact hbytes i hi

theorem dir_ok (h : Seen s s') (hok : DirOk s e dir) : DirOk s' e dir where
  pgdir := by
    rw [h.envs]
    exact hok.pgdir
  tables := by
    rw [h.mem, h.npages]
    exact hok.tables
  kernel n pde pte hlo hhi hmap := by
    rw [h.mapping] at hmap
    exact hok.kernel n pde pte hlo hhi hmap

end Seen

/-- Loading the directory register. -/
theorem lcr3_seen (k : CpuId) (dir : Nat) (s : Kernel) :
    ∃ s', lcr3 k dir s = .ret () s' ∧ Seen s s' ∧ (s'.cpus k).cr3 = dir := by
  refine ⟨_, rfl, ⟨rfl, rfl, rfl⟩, ?_⟩
  simp [Kernel.setCpu]

/-- A byte that can be read is mapped below `ULIM`. -/
theorem accessible_of_user_read (h : s.userRead e va = some b) :
    s.accessible e pteU va.toNat := by
  rw [accessible_iff, ← pgnum_eq]
  unfold Kernel.userRead at h
  split at h
  case isTrue hallows => exact hallows
  case isFalse => cases h

/-- Its address is below `ULIM`. -/
theorem user_read_lt (h : s.userRead e va = some b) : va.toNat < 4018143232 := by
  have hlt := (accessible_of_user_read h).1
  rwa [ulim_to_nat] at hlt

/-- The walk of the CPU finds the entries of the address space. -/
theorem walk_of_mapping {n : Nat} {pde pte : Word} (hdir : (s.envs e).envPgdir = some dir)
    (hmap : s.mapping e n = some (pde, pte)) (hpte : hasFlag pte pteP = true) :
    walk s.mem dir n = some ⟨pgnum pte, hasFlag pde pteW && hasFlag pte pteW,
      hasFlag pde pteU && hasFlag pte pteU⟩ := by
  unfold Kernel.mapping at hmap
  rw [hdir] at hmap
  dsimp only at hmap
  split at hmap
  case isTrue hpde =>
    cases hmap
    rw [walk]
    exact if_pos (Bool.and_eq_true_iff.mpr ⟨hpde, hpte⟩)
  case isFalse => cases hmap

/-- The load of a byte that can be read. -/
theorem load_byte_user (hdir : (s.envs e).envPgdir = some dir) (hcr3 : (s.cpus k).cr3 = dir)
    (h : s.userRead e va = some b) :
    ∃ s', loadByte k va s = .ret b s' ∧ Seen s s' ∧ (s'.cpus k).cr3 = dir := by
  unfold Kernel.userRead at h
  split at h
  case isFalse => cases h
  case isTrue hallows =>
    rw [Kernel.allows, Bool.and_eq_true] at hallows
    cases hmap : s.mapping e (pgnum va) with
    | none =>
        rw [hmap] at h
        cases h
    | some m =>
        obtain ⟨pde, pte⟩ := m
        rw [hmap] at h hallows
        have hpte : hasFlag pte pteP = true := (Bool.and_eq_true _ _ ▸ hallows.2).1
        have hbyte : s.physByte (pgnum pte) (pgoff va) = b := Option.some.inj h
        unfold loadByte
        rw [get_bind, hcr3, walk_of_mapping hdir hmap hpte, ← hbyte]
        exact ⟨_, rfl, ⟨rfl, rfl, rfl⟩, hcr3⟩

/-- The first byte of several, and the others. -/
theorem bytes_at_cons : BytesAt s e va (b :: bytes) ↔
    s.userRead e va = some b ∧ BytesAt s e (va + 1) bytes :=
  ArgVec.reads_cons

/-- The loads of bytes that can be read. -/
theorem load_bytes_user (hdir : (s.envs e).envPgdir = some dir) (hcr3 : (s.cpus k).cr3 = dir)
    (h : BytesAt s e va bytes) :
    ∃ s', loadBytes k bytes.length va s = .ret bytes s' ∧ Seen s s' ∧ (s'.cpus k).cr3 = dir := by
  induction bytes generalizing s va with
  | nil => exact ⟨s, rfl, Seen.refl s, hcr3⟩
  | cons b rest ih =>
      obtain ⟨hbyte, hrest⟩ := bytes_at_cons.mp h
      obtain ⟨s₁, hload, hseen, hcr3₁⟩ := load_byte_user hdir hcr3 hbyte
      have hdir₁ : (s₁.envs e).envPgdir = some dir := by
        rw [hseen.envs]
        exact hdir
      obtain ⟨s₂, hloads, hseen₂, hcr3₂⟩ := ih hdir₁ hcr3₁ (hseen.bytes_at hrest)
      refine ⟨s₂, ?_, hseen.trans hseen₂, hcr3₂⟩
      rw [List.length_cons, loadBytes, bind_of_ret hload, bind_of_ret hloads]
      rfl

/-- `user_mem_assert` lets an accessible range pass. -/
theorem user_mem_assert_accessible {len perm : Word} (hok : DirOk s e dir) (hne : len ≠ 0)
    (h : ∀ a, InRange va len a → s.accessible e (perm ||| pteU) a) :
    userMemAssert k e va len perm s = .ret () s := by
  have huser : (perm ||| pteU) &&& pteU = pteU := by
    ext i hi
    rw [BitVec.getElem_and, BitVec.getElem_or]
    cases pteU[i] <;> simp
  have hperm : hasFlag (perm ||| pteU) pteU = true := has_flag_of_and huser (by decide)
  rcases user_mem_check_spec va len hok hperm with ⟨hcall, -, -⟩ | ⟨-, hbad⟩
  · rw [userMemAssert, bind_of_ret hcall]
    rfl
  · exfalso
    rcases hbad with hzero | ⟨a, hin, hnot⟩
    · exact hne hzero
    · exact hnot (h a hin)

/-- Bytes that can be read are accessible. -/
theorem BytesAt.accessible (h : BytesAt s e va bytes) (hlen : bytes.length < 2 ^ 28) {a : Nat}
    (hin : InRange va (BitVec.ofNat 32 bytes.length) a) : s.accessible e pteU a := by
  obtain ⟨hlo, hhi⟩ := hin
  rw [BitVec.toNat_ofNat, Nat.mod_eq_of_lt (by omega)] at hhi
  have hpos := h 0 (by omega)
  rw [BitVec.add_zero] at hpos
  have hva := user_read_lt hpos
  have hacc := accessible_of_user_read (h (a - va.toNat) (by omega))
  rw [BitVec.toNat_add, BitVec.toNat_ofNat] at hacc
  have haddr : (va.toNat + (a - va.toNat) % 2 ^ 32) % 2 ^ 32 = a := by omega
  rwa [haddr] at hacc

end Labs.Jos
