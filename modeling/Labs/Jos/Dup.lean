import Labs.Base.Prog
import Labs.Jos.AddrSpace

/-!
# Duplicating a file descriptor

`dup` of `lib/fd.c` with `fd_lookup`, `close` and `fd_close`. A file descriptor is a page of the
caller's address space from `FDTABLE` on, and its data page lies `MAXFD` pages higher, so that
`dup` is made of page system calls. The address of the new descriptor is computed without a check
of its range, and wraps around.
-/

namespace Labs.Jos.Fd

open Prog

/-- `MAXFD`. -/
def maxfd : Nat := 32

/-- The page numbers of `FDTABLE` and `FILEDATA`. -/
def fdtable : Nat := 0xD0000

def filedata : Nat := fdtable + maxfd

/-- The page number of `INDEX2FD(i)`. Addresses have 32 bits, page numbers have 20. -/
def index2fd (i : Int) : Nat := ((fdtable + i) % 0x100000).toNat

/-- The page number of `INDEX2DATA(i)`. -/
def index2data (i : Int) : Nat := ((filedata + i) % 0x100000).toNat

def fd2num (fd : Nat) : Int := ((fd : Int) - fdtable) % 0x100000

def fd2data (fd : Nat) : Nat := index2data (fd2num fd)

/-- `uvpt[PGNUM(va)]`, of which the present bit and the permissions are used. -/
def uvpt (v : Vm) (e : EnvIx) (n : Nat) : Word := (v.map e n).elim 0 Prod.snd

/-- What `fd_lookup` checks. It returns `-E_INVAL` for another number. -/
def Lookup (v : Vm) (e : EnvIx) (fdnum : Int) : Prop :=
  0 ≤ fdnum ∧ fdnum < maxfd ∧ (v.map e (index2fd fdnum)).isSome = true

instance (v : Vm) (e : EnvIx) (fdnum : Int) : Decidable (Lookup v e fdnum) :=
  inferInstanceAs (Decidable (_ ∧ _ ∧ _))

/-- The entries of `devtab`. -/
inductive Dev where
  | devfile
  | devsock
  | devpipe
  | devcons
  deriving DecidableEq

def Dev.devId : Dev → Word
  | .devfile => 'f'.toNat
  | .devsock => 's'.toNat
  | .devpipe => 'p'.toNat
  | .devcons => 'c'.toNat

def devLookup (devId : Word) : Option Dev :=
  [Dev.devfile, .devsock, .devpipe, .devcons].find? fun dev => dev.devId == devId

/-- `sys_page_unmap(0, va)`, which does nothing at an address that is not the user's. -/
def sysPageUnmap (e : EnvIx) (n : Nat) : Prog Vm Int Unit :=
  modify fun v => if n < userPages then v.sysPageUnmap e n else v

/-- `sys_page_map(0, src, 0, dst, perm)`, with the answer whether there is memory for a page
table. -/
def sysPageMap (e : EnvIx) (mem : Bool) (src dst : Nat) (perm : Word) : Prog Vm Int Unit := do
  match (← get).sysPageMap e src e dst perm with
  | none => exit (-eInval)
  | some v => if mem then modify fun _ => v else exit (-eNoMem)

/-- `dev_close`. Only `devpipe_close` changes mappings; the others send messages, or do nothing. -/
def Dev.close (e : EnvIx) (fd : Nat) : Dev → Prog Vm Int Unit
  | .devpipe => do
      sysPageUnmap e fd
      sysPageUnmap e (fd2data fd)
  | _ => pure ()

/-- `fd->fd_dev_id`. -/
def fdDevId (v : Vm) (e : EnvIx) (fd : Nat) : Word := (v.map e fd).elim 0 fun x => v.mem x.1 0

/-- `dev_lookup` and `dev_close` in `fd_close`. -/
def devClose (e : EnvIx) (fd : Nat) (devId : Word) : Prog Vm Int Unit :=
  match devLookup devId with
  | some dev => dev.close e fd
  | none => pure ()

/-- `fd_close(fd, must_exist)`, without its return value. -/
def fdClose (e : EnvIx) (fd : Nat) : Prog Vm Int Unit := do
  let v ← get
  if Lookup v e (fd2num fd) ∧ index2fd (fd2num fd) = fd then
    devClose e fd (fdDevId v e fd)
    sysPageUnmap e fd
  else pure ()

/-- `close`, without its return value, which `dup` does not look at. -/
def close (e : EnvIx) (fdnum : Int) : Prog Vm Int Unit := do
  let v ← get
  if Lookup v e fdnum then fdClose e (index2fd fdnum) else pure ()

/-- The answers to the two calls of `sys_page_map` in `dup`: whether there is memory for a page
table. -/
structure Memory where
  data : Bool
  fd : Bool

/-- `sys_page_map` of `dup`, with the permissions of the page at `src`. -/
def copyPage (e : EnvIx) (mem : Bool) (src dst : Nat) : Prog Vm Int Unit := do
  let v ← get
  sysPageMap e mem src dst (uvpt v e src &&& (pteSyscall ||| pteShare))

/-- The part of `dup` that can go to `err`. -/
def dupPages (e : EnvIx) (m : Memory) (oldfd newfd ova nva : Nat) : Prog Vm Int Unit := do
  let v ← get
  if (v.map e ova).isSome then
    copyPage e m.data ova nva
  copyPage e m.fd oldfd newfd

/-- `dup`, which returns the new number, or leaves with an error. -/
def dup (e : EnvIx) (m : Memory) (old new : Int) : Prog Vm Int Int := do
  let v ← get
  if Lookup v e old then
    close e new
    let newfd := index2fd new
    rescue (dupPages e m (index2fd old) newfd (fd2data (index2fd old)) (fd2data newfd)) fun r => do
      sysPageUnmap e newfd
      sysPageUnmap e (fd2data newfd)
      exit r
    pure new
  else exit (-eInval)

/-! ## What `dup` is to do -/

/-- Two page numbers have the same page with the same permissions. -/
def SamePage (v : Vm) (e : EnvIx) (n n' : Nat) : Prop :=
  ∃ p w w', v.map e n = some (p, w) ∧ v.map e n' = some (p, w') ∧
    w &&& pteSyscall = w' &&& pteSyscall

/-- A descriptor number that the table has room for. -/
def InTable (i : Int) : Prop := 0 ≤ i ∧ i < maxfd

/-- The pages of descriptor `i` are mapped in `v'` as they are in `v`. -/
def SameFd (v v' : Vm) (e : EnvIx) (i : Int) : Prop :=
  v'.map e (index2fd i) = v.map e (index2fd i) ∧ v'.map e (index2data i) = v.map e (index2data i)

/-- What a call of `dup` that returns `r` has to ensure. -/
structure Law (v : Vm) (e : EnvIx) (old new : Int) (r : Int) (v' : Vm) : Prop where
  number : 0 ≤ r → r = new ∧ InTable new
  fd : 0 ≤ r → SamePage v' e (index2fd old) (index2fd new)
  data : 0 ≤ r → (v'.map e (index2data old)).isSome = true →
    SamePage v' e (index2data old) (index2data new)
  isOpen : 0 ≤ r → Lookup v' e old
  failedOpen : r < 0 → (Lookup v' e old ↔ Lookup v e old)
  failedOthers : r < 0 → ∀ i, InTable i → i ≠ new → SameFd v v' e i

/-! ## When it does it -/

/-- The entry that `sys_page_map` makes of the one at page number `n`. -/
def copied (v : Vm) (e : EnvIx) (n : Nat) : Option (Nat × Word) :=
  (v.map e n).map fun x => (x.1, (x.2 &&& (pteSyscall ||| pteShare)) ||| pteP)

/-- The `sys_page_map` of `dup` succeeds from `src` to `dst`. -/
def Maps (v : Vm) (e : EnvIx) (mem : Bool) (src dst : Nat) : Prop :=
  (v.sysPageMap e src e dst (uvpt v e src &&& (pteSyscall ||| pteShare))).isSome = true ∧
    mem = true

/-- Both calls of `sys_page_map` succeed. -/
def BothMap (v : Vm) (e : EnvIx) (m : Memory) (old new : Int) : Prop :=
  ((v.map e (index2data old)).isSome = true →
    Maps v e m.data (index2data old) (fd2data (index2fd new))) ∧
  Maps v e m.fd (index2fd old) (index2fd new)

/-- Page number `n` belongs to a descriptor. -/
def FdPage (n : Nat) : Prop := ∃ i, InTable i ∧ (n = index2fd i ∨ n = index2data i)

/-- If page number `n` belongs to a descriptor, the entry there is `x`. -/
def Holds (v : Vm) (e : EnvIx) (n : Nat) (x : Option (Nat × Word)) : Prop :=
  FdPage n → v.map e n = x

/-- A number outside the table does no harm: `dup` returns it as a negative number and has mapped
what was there, or it fails and has unmapped nothing. -/
def Harmless (v : Vm) (e : EnvIx) (m : Memory) (old new : Int) : Prop :=
  (BothMap v e m old new → new < 0 ∧ Holds v e (index2fd new) (copied v e (index2fd old)) ∧
    ((v.map e (index2data old)).isSome = true →
      Holds v e (fd2data (index2fd new)) (copied v e (index2data old)))) ∧
  (¬ BothMap v e m old new →
    Holds v e (index2fd new) none ∧ Holds v e (fd2data (index2fd new)) none)

/-- `dup` does what it is to do. -/
def Meets (v : Vm) (e : EnvIx) (m : Memory) (old new : Int) : Prop :=
  wp (dup e m old new) (Law v e old new) (Law v e old new) v

/-- The calls on which `dup` does what it is to do. -/
def Lawful (v : Vm) (e : EnvIx) (m : Memory) (old new : Int) : Prop :=
  Lookup v e old → (InTable new ∧ new ≠ old) ∨ (¬ InTable new ∧ Harmless v e m old new)

/-! ## Page numbers -/

theorem fd2num_index2fd (i : Int) : fd2num (index2fd i) = i % 0x100000 := by
  unfold fd2num index2fd fdtable
  omega

theorem fd2num_of_in_table {i : Int} (hi : InTable i) : fd2num (index2fd i) = i := by
  rw [fd2num_index2fd]
  have := hi.1
  have := hi.2
  unfold maxfd at this
  omega

theorem fd2data_index2fd (i : Int) : fd2data (index2fd i) = index2data i := by
  unfold fd2data
  rw [fd2num_index2fd]
  unfold index2data filedata fdtable maxfd
  omega

theorem index2fd_of_in_table {i : Int} (hi : InTable i) : (index2fd i : Int) = 0xD0000 + i := by
  have := hi.1
  have := hi.2
  unfold index2fd fdtable maxfd at *
  omega

theorem index2data_of_in_table {i : Int} (hi : InTable i) : (index2data i : Int) = 0xD0020 + i := by
  have := hi.1
  have := hi.2
  unfold index2data filedata fdtable maxfd at *
  omega

/-- The two pages of a number differ. -/
theorem index2data_ne_index2fd (i : Int) : index2data i ≠ index2fd i := by
  unfold index2data index2fd filedata fdtable maxfd
  omega

/-- Numbers in the table have pages of their own. -/
theorem pages_apart {i j : Int} (hi : InTable i) (hj : InTable j) (hne : i ≠ j) :
    index2fd i ≠ index2fd j ∧ index2fd i ≠ index2data j ∧ index2data i ≠ index2fd j ∧
      index2data i ≠ index2data j := by
  have h1 := index2fd_of_in_table hi
  have h2 := index2fd_of_in_table hj
  have h3 := index2data_of_in_table hi
  have h4 := index2data_of_in_table hj
  unfold InTable maxfd at hi hj
  omega

theorem index2fd_lt {i : Int} (hi : InTable i) : index2fd i < userPages := by
  have h := index2fd_of_in_table hi
  unfold InTable maxfd at hi
  rw [user_pages_eq]
  omega

theorem index2data_lt {i : Int} (hi : InTable i) : index2data i < userPages := by
  have h := index2data_of_in_table hi
  unfold InTable maxfd at hi
  rw [user_pages_eq]
  omega

/-! ## What the parts of `dup` do -/

variable {v v' : Vm} {e : EnvIx} {m : Memory} {mem : Bool} {n n' src dst : Nat} {old new : Int}

theorem in_table_of_lookup (h : Lookup v e old) : InTable old := ⟨h.1, h.2.1⟩

theorem lookup_congr (h : v'.map e (index2fd old) = v.map e (index2fd old)) :
    Lookup v' e old ↔ Lookup v e old := by
  unfold Lookup
  rw [h]

theorem wp_page_unmap {Q : Unit → Vm → Prop} {E : Int → Vm → Prop}
    (h : ∀ v', (∀ n', v'.map e n' = if n' = n ∧ n < userPages then none else v.map e n') →
      v'.mem = v.mem → Q () v') :
    wp (sysPageUnmap e n) Q E v := by
  show Q () (if n < userPages then v.sysPageUnmap e n else v)
  by_cases hn : n < userPages
  · rw [if_pos hn]
    refine h _ (fun n' => ?_) (Vm.mem_page_remove v e n)
    rw [Vm.sysPageUnmap, Vm.map_page_remove]
    simp [hn]
  · rw [if_neg hn]
    exact h v (fun n' => by simp [hn]) rfl

/-- `Maps` looks at the entry of the source only. -/
theorem maps_congr (h : v'.map e src = v.map e src) :
    Maps v' e mem src dst ↔ Maps v e mem src dst := by
  have huvpt : uvpt v' e src = uvpt v e src := by
    unfold uvpt
    rw [h]
  unfold Maps Vm.sysPageMap
  rw [huvpt, h]
  split
  · rfl
  · split
    · rfl
    · cases v.map e src with
      | none => rfl
      | some x => cases hshare : pteShareable x.2 (uvpt v e src &&& (pteSyscall ||| pteShare)) <;>
          simp [hshare]

/-- `sys_page_map` of `dup` makes a copy of the entry, or fails and changes nothing. -/
theorem copy_page_spec (v : Vm) (e : EnvIx) (mem : Bool) (src dst : Nat) :
    wp (copyPage e mem src dst)
      (fun _ v' => Maps v e mem src dst ∧ dst < userPages ∧ (v.map e src).isSome = true ∧
        ∀ n, v'.map e n = if n = dst then copied v e src else v.map e n)
      (fun r v' => ¬ Maps v e mem src dst ∧ r < 0 ∧ v' = v) v := by
  unfold copyPage sysPageMap
  simp only [wp_bind, wp_get]
  cases hmap : v.sysPageMap e src e dst (uvpt v e src &&& (pteSyscall ||| pteShare)) with
  | none => exact ⟨fun h => by simp [Maps, hmap] at h, by decide, rfl⟩
  | some v' =>
      cases mem with
      | false => exact ⟨fun h => by simp [Maps] at h, by decide, rfl⟩
      | true =>
          obtain ⟨hdst, -, p, w, hsrc, -, rfl⟩ := Vm.sys_page_map_some hmap
          refine ⟨⟨by rw [hmap]; rfl, rfl⟩, hdst, by rw [hsrc]; rfl, fun n => ?_⟩
          rw [Vm.map_page_insert, copied, uvpt, hsrc]
          simp

/-- Whatever the device does, it changes no page but the two of the descriptor. -/
theorem dev_close_spec (v : Vm) (e : EnvIx) (i : Int) (devId : Word) :
    wp (devClose e (index2fd i) devId)
      (fun _ v' => ∀ n, n ≠ index2fd i → n ≠ index2data i → v'.map e n = v.map e n)
      (fun _ _ => False) v := by
  unfold devClose
  cases devLookup devId with
  | none => exact fun _ _ _ => rfl
  | some dev =>
      cases dev with
      | devpipe =>
          show wp (sysPageUnmap e (index2fd i) >>= fun _ => sysPageUnmap e (fd2data (index2fd i)))
            _ _ v
          rw [wp_bind]
          refine wp_page_unmap fun v₁ hv₁ _ => wp_page_unmap fun v₂ hv₂ _ n hfd hdata => ?_
          rw [fd2data_index2fd] at hv₂
          rw [hv₂, if_neg fun h => hdata h.1, hv₁, if_neg fun h => hfd h.1]
      | devfile | devsock | devcons => exact fun _ _ _ => rfl

/-- `close` of a number in the table removes its `Fd` page, and no page of another number. -/
theorem close_in_table (v : Vm) (e : EnvIx) (hnew : InTable new) :
    wp (close e new)
      (fun _ v' => v'.map e (index2fd new) = none ∧
        ∀ n, n ≠ index2fd new → n ≠ index2data new → v'.map e n = v.map e n)
      (fun _ _ => False) v := by
  have hnum := fd2num_of_in_table hnew
  have hlt := index2fd_lt hnew
  unfold close
  simp only [wp_bind, wp_get, wp_ite]
  refine ⟨fun hlook => ?_, fun hlook => ?_⟩
  · unfold fdClose
    simp only [wp_bind, wp_get, wp_ite, hnum]
    refine ⟨fun _ => ?_, fun h => absurd ⟨hlook, trivial⟩ h⟩
    refine wp_mono_ret (dev_close_spec v e new _) fun _ v₁ hv₁ => ?_
    refine wp_page_unmap fun v₂ hv₂ _ => ⟨?_, fun n hfd hdata => ?_⟩
    · rw [hv₂, if_pos ⟨rfl, hlt⟩]
    · rw [hv₂, if_neg fun h => hfd h.1, hv₁ n hfd hdata]
  · refine ⟨?_, fun _ _ _ => rfl⟩
    by_contra hsome
    exact hlook ⟨hnew.1, hnew.2, Option.ne_none_iff_isSome.1 hsome⟩

/-- `close` of a number outside the table does nothing. -/
theorem close_outside (v : Vm) (e : EnvIx) (hnew : ¬ InTable new) :
    wp (close e new) (fun _ v' => v' = v) (fun _ _ => False) v := by
  unfold close
  simp only [wp_bind, wp_get, wp_ite]
  exact ⟨fun hlook => absurd (in_table_of_lookup hlook) hnew, fun _ => rfl⟩

/-- The state after the first `sys_page_map`, if there is a data page. -/
def DataCopied (v v' : Vm) (e : EnvIx) (ova nva : Nat) : Prop :=
  ∀ n, v'.map e n = if n = nva ∧ (v.map e ova).isSome = true then copied v e ova else v.map e n

/-- `v'` comes from `v` by both copies. -/
def Copied (v v' : Vm) (e : EnvIx) (m : Memory) (oldfd newfd ova nva : Nat) : Prop :=
  ∃ v₁, DataCopied v v₁ e ova nva ∧
    ((v.map e ova).isSome = true → Maps v e m.data ova nva) ∧
    Maps v₁ e m.fd oldfd newfd ∧ (v₁.map e oldfd).isSome = true ∧
    ∀ n, v'.map e n = if n = newfd then copied v₁ e oldfd else v₁.map e n

/-- `v'` comes from `v` by the copies until one fails. -/
def Failed (v v' : Vm) (e : EnvIx) (m : Memory) (oldfd newfd ova nva : Nat) : Prop :=
  (¬ ((v.map e ova).isSome = true → Maps v e m.data ova nva) ∧ v' = v) ∨
    (((v.map e ova).isSome = true → Maps v e m.data ova nva ∧ nva < userPages) ∧
      DataCopied v v' e ova nva ∧ ¬ Maps v' e m.fd oldfd newfd)

/-- The two copies, and where they stop when one fails. -/
theorem dup_pages_spec (v : Vm) (e : EnvIx) (m : Memory) (oldfd newfd ova nva : Nat) :
    wp (dupPages e m oldfd newfd ova nva)
      (fun _ v' => Copied v v' e m oldfd newfd ova nva)
      (fun r v' => r < 0 ∧ Failed v v' e m oldfd newfd ova nva) v := by
  unfold dupPages
  simp only [wp_bind, wp_get]
  by_cases hdata : (v.map e ova).isSome = true
  · rw [if_pos hdata, wp_bind]
    refine wp_mono (copy_page_spec v e m.data ova nva) (fun _ v₁ h₁ => ?_) (fun r v₁ h₁ => ?_)
    · obtain ⟨hmaps, hlt, -, hmap⟩ := h₁
      have hcopied : DataCopied v v₁ e ova nva := fun n => by
        rw [hmap]
        simp [hdata]
      refine wp_mono (copy_page_spec v₁ e m.fd oldfd newfd) (fun _ v₂ h₂ => ?_)
        (fun r v₂ h₂ => ?_)
      · exact ⟨v₁, hcopied, fun _ => hmaps, h₂.1, h₂.2.2.1, h₂.2.2.2⟩
      · obtain ⟨hfail, hr, rfl⟩ := h₂
        exact ⟨hr, .inr ⟨fun _ => ⟨hmaps, hlt⟩, hcopied, hfail⟩⟩
    · exact ⟨h₁.2.1, .inl ⟨fun h => h₁.1 (h hdata), h₁.2.2⟩⟩
  · rw [if_neg hdata]
    have hcopied : DataCopied v v e ova nva := fun n => by simp [hdata]
    refine wp_mono (copy_page_spec v e m.fd oldfd newfd) (fun _ v₂ h₂ => ?_) (fun r v₂ h₂ => ?_)
    · exact ⟨v, hcopied, fun h => absurd h hdata, h₂.1, h₂.2.2.1, h₂.2.2.2⟩
    · obtain ⟨hfail, hr, rfl⟩ := h₂
      exact ⟨hr, .inr ⟨fun h => absurd h hdata, hcopied, hfail⟩⟩

/-- The ways in which `dup` of an open descriptor ends, after `close` has made `v₀` of `v`. -/
theorem dup_of_lookup {C : Vm → Prop} {Q E : Int → Vm → Prop} (hlook : Lookup v e old)
    (hclose : wp (close e new) (fun _ v₀ => C v₀) (fun _ _ => False) v)
    (hret : ∀ v₀ v', C v₀ →
      Copied v₀ v' e m (index2fd old) (index2fd new) (index2data old) (index2data new) → Q new v')
    (herr : ∀ v₀ v₁ v' r, C v₀ → r < 0 →
      Failed v₀ v₁ e m (index2fd old) (index2fd new) (index2data old) (index2data new) →
      (∀ n, v'.map e n = if (n = index2fd new ∨ n = index2data new) ∧ n < userPages then none
        else v₁.map e n) → E r v') :
    wp (dup e m old new) Q E v := by
  unfold dup
  simp only [wp_bind, wp_get, if_pos hlook, wp_rescue, fd2data_index2fd]
  refine wp_mono hclose (fun _ v₀ hv₀ => ?_) (fun _ _ h => h.elim)
  refine wp_mono (dup_pages_spec v₀ e m _ _ _ _) (fun _ v' hv' => hret v₀ v' hv₀ hv')
    fun r v₁ hv₁ => ?_
  refine wp_page_unmap fun v₂ hv₂ _ => wp_page_unmap fun v₃ hv₃ _ => ?_
  refine herr v₀ v₁ v₃ r hv₀ hv₁.1 hv₁.2 fun n => ?_
  rw [hv₃, hv₂]
  by_cases hfd : n = index2fd new
  · subst hfd
    simp [(index2data_ne_index2fd new).symm]
  · by_cases hdata : n = index2data new
    · subst hdata
      simp [hfd]
    · simp [hfd, hdata]

/-- The flags of a present entry pass through `sys_page_map`. -/
theorem copied_perm {w : Word} (hp : hasFlag w pteP = true) :
    ((w &&& (pteSyscall ||| pteShare)) ||| pteP) &&& pteSyscall = w &&& pteSyscall := by
  rw [has_flag_p] at hp
  have hmask : pteSyscall ||| pteShare = pteSyscall := by decide
  rw [hmask]
  ext i hi
  rw [BitVec.getLsbD_eq_getElem (by omega)] at hp
  simp only [BitVec.getElem_and, BitVec.getElem_or]
  by_cases hzero : i = 0
  · subst hzero
    have hsyscall : pteSyscall.getLsbD 0 = true := by decide
    rw [BitVec.getLsbD_eq_getElem (by omega)] at hsyscall
    simp [hp, hsyscall]
  · have hbit : pteP[i] = false := by
      unfold pteP
      simp [hzero]
    simp [hbit]

/-- A copied entry is of the same page, with the same permissions. -/
theorem same_page_of_copied (hsrc : v'.map e src = v.map e src)
    (hdst : v'.map e dst = copied v e src) (hmaps : Maps v e mem src dst) :
    SamePage v' e src dst := by
  obtain ⟨v₁, hv₁⟩ := Option.isSome_iff_exists.1 hmaps.1
  have hpresent : ∃ p w, v.map e src = some (p, w) ∧ hasFlag w pteP = true := by
    unfold Vm.sysPageMap at hv₁
    split at hv₁
    · cases hv₁
    · split at hv₁
      · cases hv₁
      · split at hv₁
        · cases hv₁
        · rename_i p w hmap
          split at hv₁
          · rename_i hshare
            rw [pteShareable, Bool.and_eq_true] at hshare
            exact ⟨p, w, hmap, hshare.1⟩
          · cases hv₁
  obtain ⟨p, w, hmap, hp⟩ := hpresent
  refine ⟨p, w, (w &&& (pteSyscall ||| pteShare)) ||| pteP, by rw [hsrc, hmap], ?_, ?_⟩
  · rw [hdst, copied, hmap]
    rfl
  · exact (copied_perm hp).symm

/-! ## Another number of the table -/

/-- The data page of a descriptor, copied to another page number, and nothing else. -/
theorem DataCopied.of_ne {ova nva : Nat} (h : DataCopied v v' e ova nva) (hn : n ≠ nva) :
    v'.map e n = v.map e n := by
  rw [h n, if_neg fun h => hn h.1]

/-- `dup` to another number of the table does what it is to do. -/
theorem meets_in_table (hlook : Lookup v e old) (hnew : InTable new) (hne : new ≠ old) :
    Meets v e m old new := by
  have hold := in_table_of_lookup hlook
  obtain ⟨h₁, h₂, h₃, h₄⟩ := pages_apart hold hnew (Ne.symm hne)
  refine dup_of_lookup hlook (close_in_table v e hnew) (fun v₀ v' hclosed hcopied => ?_)
    (fun v₀ v₁ v' r hclosed hr hfailed hv' => ?_)
  · obtain ⟨-, hkept⟩ := hclosed
    obtain ⟨v₁, hdata, hmaps, hmapsFd, hfd, hv'⟩ := hcopied
    have hold₁ : v₁.map e (index2fd old) = v₀.map e (index2fd old) := hdata.of_ne h₂
    have hold' : v'.map e (index2fd old) = v₁.map e (index2fd old) := by
      rw [hv', if_neg h₁]
    have hova' : v'.map e (index2data old) = v₀.map e (index2data old) := by
      rw [hv', if_neg h₃, hdata.of_ne h₄]
    refine ⟨fun _ => ⟨rfl, hnew⟩, fun _ => ?_, fun _ hsome => ?_, fun _ => ?_, fun h => ?_,
      fun h => ?_⟩
    · exact same_page_of_copied hold' (by rw [hv', if_pos rfl]) hmapsFd
    · rw [hova'] at hsome
      refine same_page_of_copied hova' ?_ (hmaps hsome)
      rw [hv', if_neg (index2data_ne_index2fd new), hdata, if_pos ⟨rfl, hsome⟩]
    · refine (lookup_congr ?_).2 hlook
      rw [hold', hold₁, hkept _ h₁ h₂]
    · exact absurd hnew.1 (by omega)
    · exact absurd hnew.1 (by omega)
  · obtain ⟨-, hkept⟩ := hclosed
    -- a failed copy has changed no page but the second one of `new`
    have hsame : ∀ n, n ≠ index2fd new → n ≠ index2data new → v'.map e n = v.map e n := by
      intro n hfd hdata
      rw [hv', if_neg fun h => h.1.elim hfd hdata]
      rcases hfailed with ⟨-, rfl⟩ | ⟨-, hcopied, -⟩
      · exact hkept n hfd hdata
      · rw [hcopied.of_ne hdata, hkept n hfd hdata]
    refine ⟨fun h => absurd hr (by omega), fun h => absurd hr (by omega),
      fun h => absurd hr (by omega), fun h => absurd hr (by omega), fun _ => ?_,
      fun _ i hi hnei => ?_⟩
    · exact lookup_congr (hsame _ h₁ h₂)
    · obtain ⟨k₁, k₂, k₃, k₄⟩ := pages_apart hi hnew hnei
      exact ⟨hsame _ k₁ k₂, hsame _ k₃ k₄⟩

/-! ## The same number -/

/-- What a program ensures, when its result decides a condition. -/
theorem wp_iff {σ ε α : Type} {x : Prog σ ε α} {Q : α → σ → Prop} {E : ε → σ → Prop} {s : σ}
    {C : Prop} (h : wp x (fun a s' => Q a s' ↔ C) (fun r s' => E r s' ↔ C) s) :
    wp x Q E s ↔ C := by
  unfold wp at *
  cases hx : x s with
  | ret a s' =>
      rw [hx] at h
      exact h
  | exit r s' =>
      rw [hx] at h
      exact h

/-- `dup(fd, fd)` closes `fd` and then has nothing to copy. -/
theorem not_meets_self (hlook : Lookup v e old) : ¬ Meets v e m old old := by
  have hold := in_table_of_lookup hlook
  have hne := index2data_ne_index2fd old
  refine (iff_false _).mp ?_
  refine wp_iff (dup_of_lookup hlook (close_in_table v e hold) (fun v₀ v' hclosed hcopied => ?_)
    (fun v₀ v₁ v' r hclosed hr hfailed hv' => ?_))
  · obtain ⟨v₁, hdata, -, -, hfd, -⟩ := hcopied
    rw [hdata.of_ne hne.symm, hclosed.1] at hfd
    cases hfd
  · refine iff_of_false (fun hlaw => ?_) id
    have hopen : Lookup v' e old := (hlaw.failedOpen hr).2 hlook
    have hsome := hopen.2.2
    rw [hv', if_pos ⟨.inl rfl, index2fd_lt hold⟩] at hsome
    cases hsome

/-! ## A number outside the table -/

theorem copied_of_map (h : v'.map e n = v.map e n) : copied v' e n = copied v e n := by
  unfold copied
  rw [h]

theorem FdPage.fd (hold : InTable old) : FdPage (index2fd old) := ⟨old, hold, .inl rfl⟩

theorem FdPage.lt (h : FdPage n) : n < userPages := by
  obtain ⟨i, hi, rfl | rfl⟩ := h
  · exact index2fd_lt hi
  · exact index2data_lt hi

/-- With a number outside the table only a failure that changes no descriptor is in order. -/
theorem law_outside_iff {r : Int} (hlook : Lookup v e old) (hnew : ¬ InTable new) :
    Law v e old new r v' ↔ r < 0 ∧ ∀ n, FdPage n → v'.map e n = v.map e n := by
  have hold := in_table_of_lookup hlook
  constructor
  · intro hlaw
    have hr : r < 0 := by
      by_contra hr
      exact hnew (hlaw.number (by omega)).2
    refine ⟨hr, ?_⟩
    rintro n ⟨i, hi, hn⟩
    have hsame := hlaw.failedOthers hr i hi fun h => hnew (h ▸ hi)
    rcases hn with rfl | rfl
    · exact hsame.1
    · exact hsame.2
  · rintro ⟨hr, hsame⟩
    exact ⟨fun h => absurd hr (by omega), fun h => absurd hr (by omega),
      fun h => absurd hr (by omega), fun h => absurd hr (by omega),
      fun _ => lookup_congr (hsame _ (.fd hold)),
      fun _ i hi _ => ⟨hsame _ ⟨i, hi, .inl rfl⟩, hsame _ ⟨i, hi, .inr rfl⟩⟩⟩

/-- The data page that is copied first may land on the `Fd` page of `old`; it does no harm there
when it was there before. -/
theorem DataCopied.keeps_old {ova nva : Nat} (h : DataCopied v v' e ova nva) (hold : InTable old)
    (hholds : (v.map e ova).isSome = true → Holds v e nva (copied v e ova)) :
    v'.map e (index2fd old) = v.map e (index2fd old) := by
  rw [h]
  split
  · rename_i hcase
    have hpage : FdPage nva := hcase.1 ▸ .fd hold
    rw [hcase.1, hholds hcase.2 hpage]
  · rfl

/-- When both copies succeed. -/
theorem law_of_copied (hlook : Lookup v e old) (hnew : ¬ InTable new)
    (h : Copied v v' e m (index2fd old) (index2fd new) (index2data old) (index2data new)) :
    Law v e old new new v' ↔ Harmless v e m old new := by
  obtain ⟨v₁, hdata, hmaps, hmapsFd, hfd, hv'⟩ := h
  have hold := in_table_of_lookup hlook
  have hne := index2data_ne_index2fd new
  rw [law_outside_iff hlook hnew]
  unfold Harmless BothMap
  rw [fd2data_index2fd]
  constructor
  · rintro ⟨hneg, hsame⟩
    have hholds : (v.map e (index2data old)).isSome = true →
        Holds v e (index2data new) (copied v e (index2data old)) := by
      intro hsome hpage
      rw [← hsame _ hpage, hv', if_neg hne, hdata, if_pos ⟨rfl, hsome⟩]
    have hold₁ := hdata.keeps_old hold hholds
    refine ⟨fun _ => ⟨hneg, fun hpage => ?_, hholds⟩,
      fun h => absurd ⟨hmaps, (maps_congr hold₁).1 hmapsFd⟩ h⟩
    rw [← hsame _ hpage, hv', if_pos rfl, copied_of_map hold₁]
  · rintro ⟨hboth, hnot⟩
    have hholds : (v.map e (index2data old)).isSome = true →
        Holds v e (index2data new) (copied v e (index2data old)) := by
      by_cases hcase : (v.map e (index2data old)).isSome = true → Maps v e m.data (index2data old)
          (index2data new)
      · by_cases hcaseFd : Maps v e m.fd (index2fd old) (index2fd new)
        · exact (hboth ⟨hcase, hcaseFd⟩).2.2
        · -- then the first copy has gone over the `Fd` page of `old`
          intro hsome hpage
          have hnone := (hnot fun h => hcaseFd h.2).2 hpage
          have hneold : index2fd old ≠ index2data new := by
            intro heq
            rw [← heq] at hnone
            exact absurd hlook.2.2 (by rw [hnone]; decide)
          exact absurd ((maps_congr (hdata.of_ne hneold)).1 hmapsFd) hcaseFd
      · exact absurd hmaps hcase
    have hold₁ := hdata.keeps_old hold hholds
    obtain ⟨hneg, hholdsFd, -⟩ := hboth ⟨hmaps, (maps_congr hold₁).1 hmapsFd⟩
    refine ⟨hneg, fun n hpage => ?_⟩
    rw [hv']
    split
    · rename_i hn
      subst hn
      rw [copied_of_map hold₁, hholdsFd hpage]
    · rw [hdata]
      split
      · rename_i hn
        obtain ⟨rfl, hsome⟩ := hn
        rw [hholds hsome hpage]
      · rfl

/-- When one of the copies fails. -/
theorem law_of_failed {v₁ : Vm} {r : Int} (hlook : Lookup v e old) (hnew : ¬ InTable new)
    (hr : r < 0)
    (h : Failed v v₁ e m (index2fd old) (index2fd new) (index2data old) (index2data new))
    (hv' : ∀ n, v'.map e n = if (n = index2fd new ∨ n = index2data new) ∧ n < userPages then none
      else v₁.map e n) :
    Law v e old new r v' ↔ Harmless v e m old new := by
  have hold := in_table_of_lookup hlook
  have hlaw : Law v e old new r v' ↔
      Holds v e (index2fd new) none ∧ Holds v e (index2data new) none := by
    rw [law_outside_iff hlook hnew]
    have hcleared : ∀ n, FdPage n → v'.map e n =
        if n = index2fd new ∨ n = index2data new then none else v.map e n := by
      intro n hpage
      rw [hv']
      simp only [hpage.lt, and_true]
      split
      · rfl
      · rename_i hn
        rcases h with ⟨-, rfl⟩ | ⟨-, hdata, -⟩
        · rfl
        · exact hdata.of_ne fun h => hn (.inr h)
    constructor
    · rintro ⟨-, hsame⟩
      exact ⟨fun hpage => by rw [← hsame _ hpage, hcleared _ hpage, if_pos (.inl rfl)],
        fun hpage => by rw [← hsame _ hpage, hcleared _ hpage, if_pos (.inr rfl)]⟩
    · rintro ⟨hfd, hdata⟩
      refine ⟨hr, fun n hpage => ?_⟩
      rw [hcleared n hpage]
      split
      · rename_i hn
        rcases hn with rfl | rfl
        · exact (hfd hpage).symm
        · exact (hdata hpage).symm
      · rfl
  rw [hlaw]
  unfold Harmless BothMap
  rw [fd2data_index2fd]
  constructor
  · intro hholds
    have hneold : index2fd old ≠ index2data new := by
      intro heq
      have hnone := hholds.2 (heq ▸ .fd hold)
      rw [← heq] at hnone
      exact absurd hlook.2.2 (by rw [hnone]; decide)
    refine ⟨fun hboth => ?_, fun _ => hholds⟩
    rcases h with ⟨hfail, -⟩ | ⟨-, hdata, hfail⟩
    · exact absurd hboth.1 hfail
    · exact absurd ((maps_congr (hdata.of_ne hneold)).2 hboth.2) hfail
  · rintro ⟨hboth, hnot⟩
    refine hnot fun hmaps => ?_
    rcases h with ⟨hfail, -⟩ | ⟨-, hdata, hfail⟩
    · exact hfail hmaps.1
    · exact hfail ((maps_congr (hdata.keeps_old hold (hboth hmaps).2.2)).2 hmaps.2)

/-- `dup` to a number outside the table does what it is to do when it does no harm. -/
theorem meets_outside_iff (hlook : Lookup v e old) (hnew : ¬ InTable new) :
    Meets v e m old new ↔ Harmless v e m old new := by
  refine wp_iff (dup_of_lookup hlook (close_outside v e hnew) (fun v₀ v' hv₀ hcopied => ?_)
    (fun v₀ v₁ v' r hv₀ hr hfailed hv' => ?_))
  · subst hv₀
    exact law_of_copied hlook hnew hcopied
  · subst hv₀
    exact law_of_failed hlook hnew hr hfailed hv'

/-! ## All calls -/

/-- A number that is not open is refused before anything is done. -/
theorem meets_closed (hlook : ¬ Lookup v e old) : Meets v e m old new := by
  unfold Meets dup
  simp only [wp_bind, wp_get, if_neg hlook, wp_exit]
  exact ⟨fun h => absurd h (by decide), fun h => absurd h (by decide),
    fun h => absurd h (by decide), fun h => absurd h (by decide), fun _ => Iff.rfl,
    fun _ _ _ _ => ⟨rfl, rfl⟩⟩

/-- `dup` does what it is to do when the old number is not open, when the new number is another one
of the table, and when a new number outside the table does no harm. -/
theorem dup_meets_iff (v : Vm) (e : EnvIx) (m : Memory) (old new : Int) :
    Meets v e m old new ↔ Lawful v e m old new := by
  unfold Lawful
  by_cases hlook : Lookup v e old
  · by_cases hnew : InTable new
    · by_cases hne : new = old
      · subst hne
        refine iff_of_false (not_meets_self hlook) fun h => ?_
        rcases h hlook with h | h
        · exact h.2 rfl
        · exact h.1 hnew
      · exact iff_of_true (meets_in_table hlook hnew hne) fun _ => .inl ⟨hnew, hne⟩
    · rw [meets_outside_iff hlook hnew]
      exact ⟨fun h _ => .inr ⟨hnew, h⟩,
        fun h => (h hlook).elim (fun h => absurd h.1 hnew) And.right⟩
  · exact iff_of_true (meets_closed hlook) fun h => absurd h hlook

/-- An environment with the file descriptor 0 alone. -/
def oneOpen : Vm where
  map _ n := if n = fdtable then some (7, pteP ||| pteW ||| pteU ||| pteShare) else none
  ref _ := 1
  free _ := false
  mem _ _ := 0
  shared _ := true

/-- `dup(0, 0)` fails and leaves the descriptor closed. -/
theorem dup_self_closes : ¬ Meets oneOpen 0 ⟨true, true⟩ 0 0 :=
  not_meets_self ⟨by decide, by decide, by decide⟩

end Labs.Jos.Fd
