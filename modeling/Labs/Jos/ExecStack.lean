import Labs.Jos.ExecPages
import Labs.Jos.StackImage

/-!
# The stack that exec builds

`sys_exec` maps a new page below `USTACKTOP` in the address space of the caller, fills the segments
and then stores the arguments through the page tables. The page is the image of the argument
vectors, whatever the segments are, as long as they lie in user memory beside the page.
-/

namespace Labs.Jos

open Prog
open ArgVec (Fits)

/-! ## Before the scheduler -/

/-- The part of `execReplace` before the new program runs: the error, or `none` when the new image is
in place. -/
def execPlace (k : CpuId) (c : EnvIx) (pgdir : Nat) (binary : Word) (elf : Elf)
    (segs : List Proghdr) (args : List (List Byte)) : Kern (Option Int) := do
  let keepLo := rounddown binary
  execUnmapUser k pgdir keepLo (keepLo + roundup (stagingSize segs))
  if ← execAllocSegments k pgdir segs then
    if argvStore args - 8 < ustacktop - pgsizeW then pure (some (-eNoMem))
    else
      execFill k pgdir binary segs args
      modifyEnv c fun env => { env with envTf := { env.envTf with
        eip := elf.eEntry
        esp := argvStore args - 8
        eflags := env.envTf.eflags ||| flIf } }
      pure none
  else pure (some (-eInval))

/-- `sys_exec` up to the point where the new program runs: the error, or `none`. -/
def execImage (k : CpuId) (c : EnvIx) (binary argv : Word) : Kern (Option Int) := do
  match ← execPrepare k c binary argv with
  | .error r => pure (some r)
  | .ok (pgdir, elf, segs, args) => execPlace k c pgdir binary elf segs args

theorem exec_replace_eq (k : CpuId) (c : EnvIx) (pgdir : Nat) (binary : Word) (elf : Elf)
    (segs : List Proghdr) (args : List (List Byte)) :
    execReplace k c pgdir binary elf segs args = (do
      match ← execPlace k c pgdir binary elf segs args with
      | some r => pure r
      | none => do
          schedYield k
          pure 0) := by
  unfold execReplace execPlace
  dsimp only
  rw [bind_assoc]
  congr 1
  funext _
  rw [bind_assoc]
  congr 1
  funext ok
  cases ok with
  | false => rfl
  | true =>
      rw [if_pos rfl, if_pos rfl]
      split
      · rfl
      · simp only [bind_assoc, pure_bind]

/-- `sys_exec` places the new image and then runs an environment. -/
theorem sys_exec_image_eq (k : CpuId) (c : EnvIx) (binary argv : Word) :
    sysExec k c binary argv = (do
      match ← execImage k c binary argv with
      | some r => pure r
      | none => do
          schedYield k
          pure 0) := by
  rw [sys_exec_eq, execImage, bind_assoc]
  congr 1
  funext r
  cases r with
  | error e => rfl
  | ok x => exact exec_replace_eq k c _ binary _ _ _

/-! ## Filling the page -/

/-- The segment lies in user memory, and none of its bytes on the stack page. -/
structure Proghdr.Clear (ph : Proghdr) : Prop where
  pages : InUser ph.pVa ph.pMemsz
  bytes : ∀ j < ph.pMemsz.toNat, pgnum (ph.pVa + BitVec.ofNat 32 j) < userPages ∧
    pgnum (ph.pVa + BitVec.ofNat 32 j) ≠ Fork.ustackPn

/-- CPU `k` has loaded the directory `dir` of the map `f`. Page `pp` is the stack page and mapped
nowhere else, and it holds `m`. -/
structure StackFill (s : Kernel) (k : CpuId) (dir pp : Nat) (f : PageMap) (m : Bytes) : Prop where
  maps : s.maps dir f
  cr3 : (s.cpus k).cr3 = dir
  stack : f Fork.ustackPn = some (pp, (pteU ||| pteW ||| pteP) ||| pteP)
  only : ∀ n w, f n = some (pp, w) → n = Fork.ustackPn
  bytes : ∀ x < 4096, pageByte (s.mem pp) x = m x

namespace StackFill

variable {s : Kernel} {k : CpuId} {dir pp a slot off : Nat} {f : PageMap} {m : Bytes}
  {va binary : Word} {bytes : List Byte} {strs : List (List Byte)}

/-- A load that returns leaves everything as it is. -/
theorem load (h : StackFill s k dir pp f m) (va : Word) :
    wp (loadByte k va) (fun _ s' => StackFill s' k dir pp f m) (fun _ _ => True) s := by
  refine wp_mono (load_byte_spec (g := .none) va s) (fun b s' ⟨hlook, _⟩ => ?_)
    fun _ _ _ => trivial
  obtain ⟨log, addr, rfl⟩ := hlook
  exact ⟨h.maps, h.cr3, h.stack, h.only, h.bytes⟩

/-- A store that returns changes a byte of the stack page only if its address lies there. -/
theorem store (h : StackFill s k dir pp f m) (hn : pgnum va < userPages) (b : Byte) :
    wp (storeByte k va b) (fun _ s' => StackFill s' k dir pp f
      (if pgnum va = Fork.ustackPn then Function.update m (pgoff va) b else m)) (fun _ _ => True)
      s := by
  have hfault : ∀ Q : Unit → Kernel → Prop,
      wp (kernelPageFault k va : Kern Unit) Q (fun _ _ => True) s := fun Q =>
    wp_mono (leaves_kernel_page_fault (g := .none) va s) (fun _ _ => False.elim)
      fun _ _ _ => trivial
  rw [storeByte, wp_bind, wp_get, h.cr3]
  cases hwalk : walk s.mem dir (pgnum va) with
  | none => exact hfault _
  | some x =>
      dsimp only
      rw [wp_ite]
      refine ⟨fun _ => ?_, fun _ => hfault _⟩
      obtain ⟨w, hmap⟩ := map_of_walk h.maps hn hwalk
      rw [logAccess, wp_bind, wp_modify, wp_modify]
      have hkept := set_phys_byte_maps h.maps hmap (pgoff va) b
      refine ⟨hkept, h.cr3, h.stack, h.only, fun y hy => ?_⟩
      show pageByte (Function.update s.mem x.page (setPageByte (s.mem x.page) (pgoff va) b) pp) y = _
      by_cases hstack : pgnum va = Fork.ustackPn
      · have hpage : x.page = pp := by
          rw [hstack, h.stack] at hmap
          exact (congrArg Prod.fst (Option.some.inj hmap)).symm
        rw [if_pos hstack, hpage, Function.update_self, page_byte_set]
        by_cases hyo : y = pgoff va
        · rw [hyo, Function.update_self, Function.update_self]
        · rw [Function.update_of_ne hyo, Function.update_of_ne hyo]
          exact h.bytes y hy
      · -- the page is mapped elsewhere, so it is another one
        have hne : pp ≠ x.page := by
          rintro rfl
          exact hstack (h.only _ _ hmap)
        rw [if_neg hstack, Function.update_of_ne hne]
        exact h.bytes y hy

/-- A store beside the stack page. -/
theorem store_beside (h : StackFill s k dir pp f m)
    (hva : pgnum va < userPages ∧ pgnum va ≠ Fork.ustackPn) (b : Byte) :
    wp (storeByte k va b) (fun _ s' => StackFill s' k dir pp f m) (fun _ _ => True) s := by
  have hstore := h.store hva.1 b
  rw [if_neg hva.2] at hstore
  exact hstore

/-- Stores into the stack page. -/
theorem store_all (h : StackFill s k dir pp f m) (hle : a + bytes.length ≤ 4096) :
    wp (storeBytes k bytes (stackPage + BitVec.ofNat 32 a))
      (fun _ s' => StackFill s' k dir pp f (m.store a bytes)) (fun _ _ => True) s := by
  induction bytes generalizing a m s with
  | nil =>
      refine ⟨h.maps, h.cr3, h.stack, h.only, fun x hx => ?_⟩
      rw [Bytes.store_of_not (by simp)]
      exact h.bytes x hx
  | cons b rest ih =>
      rw [List.length_cons] at hle
      obtain ⟨hpn, hoff⟩ := pgnum_stack_page (show a < 4096 by omega)
      have hstore := h.store (show pgnum (stackPage + BitVec.ofNat 32 a) < userPages by
        rw [hpn, Fork.ustack_pn_eq, user_pages_eq]; decide) b
      rw [if_pos hpn, hoff] at hstore
      rw [storeBytes, wp_bind, store_cons]
      refine wp_mono_ret hstore fun _ t ht => ?_
      have hnext : stackPage + BitVec.ofNat 32 a + 1 = stackPage + BitVec.ofNat 32 (a + 1) := by
        rw [BitVec.add_assoc, BitVec.ofNat_add]
        rfl
      rw [hnext]
      exact ih ht (by omega)

theorem store_word (h : StackFill s k dir pp f m) (hle : a + 4 ≤ 4096) (w : Word) :
    wp (storeBytes k (wordBytes w) (stackPage + BitVec.ofNat 32 a))
      (fun _ s' => StackFill s' k dir pp f (m.store a (ArgVec.wordBytes w))) (fun _ _ => True)
      s := by
  rw [← word_bytes_eq]
  exact h.store_all hle

/-- The staged bytes of a segment are moved to their place. -/
theorem memmove_user (h : StackFill s k dir pp f m) {dst src n : Word}
    (hclear : ∀ j < n.toNat, pgnum (dst + BitVec.ofNat 32 j) < userPages ∧
      pgnum (dst + BitVec.ofNat 32 j) ≠ Fork.ustackPn) :
    wp (memmoveUser k dst src n) (fun _ s' => StackFill s' k dir pp f m) (fun _ _ => True) s := by
  refine wp_for_upto (I := fun _ s' => StackFill s' k dir pp f m) h ?_
  intro j hj t ht
  dsimp only
  generalize hi : (if src < dst ∧ dst < src + n then n - 1 - BitVec.ofNat 32 j
    else BitVec.ofNat 32 j) = i
  have hin : i.toNat < n.toNat := by
    rw [← hi]
    split
    · have hone : (1 : Word).toNat = 1 := rfl
      have hn := n.isLt
      rw [BitVec.toNat_sub, BitVec.toNat_sub, BitVec.toNat_ofNat, hone]
      omega
    · rw [BitVec.toNat_ofNat]
      exact Nat.lt_of_le_of_lt (Nat.mod_le _ _) hj
  rw [wp_bind]
  refine wp_mono_ret (ht.load _) fun b t₁ h₁ => ?_
  have hva := hclear i.toNat hin
  rw [BitVec.ofNat_toNat, BitVec.setWidth_eq] at hva
  exact h₁.store_beside hva b

/-- A segment is filled. -/
theorem fill_segment (h : StackFill s k dir pp f m) {ph : Proghdr} (hclear : ph.Clear)
    (hgood : ph.malformed = false) :
    wp (execFillSegment k binary ph) (fun _ s' => StackFill s' k dir pp f m) (fun _ _ => True)
      s := by
  have hle : ph.pFilesz.toNat ≤ ph.pMemsz.toNat := Nat.le_of_not_lt (of_decide_eq_false hgood)
  rw [execFillSegment, wp_bind]
  refine wp_mono_ret (h.memmove_user fun j hj => hclear.bytes j (by omega)) fun _ t ht => ?_
  refine wp_for_upto (I := fun _ s' => StackFill s' k dir pp f m) ht ?_
  intro j hj t₁ h₁
  have hrest : (ph.pMemsz - ph.pFilesz).toNat = ph.pMemsz.toNat - ph.pFilesz.toNat :=
    BitVec.toNat_sub_of_le hle
  rw [hrest] at hj
  have hva := hclear.bytes (ph.pFilesz.toNat + j) (by omega)
  have haddr : ph.pVa + BitVec.ofNat 32 (ph.pFilesz.toNat + j) =
      ph.pVa + ph.pFilesz + BitVec.ofNat 32 j := by
    rw [BitVec.ofNat_add, BitVec.ofNat_toNat, BitVec.setWidth_eq, BitVec.add_assoc]
  rw [haddr] at hva
  exact h₁.store_beside hva 0

/-- The arguments and their addresses are stored. -/
theorem store_args (h : StackFill s k dir pp f m) (hle : slot + 4 * strs.length ≤ off)
    (htop : off + ArgVec.size strs ≤ 4096) :
    wp (execStoreArgs k (terminated strs) (stackPage + BitVec.ofNat 32 slot)
      (stackPage + BitVec.ofNat 32 off))
      (fun _ s' => StackFill s' k dir pp f (ArgVec.storeArgs stackPage strs slot off m))
      (fun _ _ => True) s := by
  induction strs generalizing slot off m s with
  | nil => exact h
  | cons str rest ih =>
      rw [List.length_cons] at hle
      rw [ArgVec.size_cons] at htop
      have hlen : (str ++ [0]).length = str.length + 1 := List.length_append
      have hslot : stackPage + BitVec.ofNat 32 slot + 4 = stackPage + BitVec.ofNat 32 (slot + 4) := by
        rw [BitVec.add_assoc, BitVec.ofNat_add]
        rfl
      have hnext : stackPage + BitVec.ofNat 32 off + BitVec.ofNat 32 (str ++ [0]).length =
          stackPage + BitVec.ofNat 32 (off + (str.length + 1)) := by
        rw [BitVec.add_assoc, BitVec.ofNat_add, hlen]
      show wp (do
        storeBytes k (wordBytes (stackPage + BitVec.ofNat 32 off)) (stackPage + BitVec.ofNat 32 slot)
        storeBytes k (str ++ [0]) (stackPage + BitVec.ofNat 32 off)
        execStoreArgs k (terminated rest) (stackPage + BitVec.ofNat 32 slot + 4)
          (stackPage + BitVec.ofNat 32 off + BitVec.ofNat 32 (str ++ [0]).length)) _ _ s
      rw [hslot, hnext, wp_bind]
      refine wp_mono_ret (h.store_word (by omega) _) fun _ t₁ h₁ => ?_
      rw [wp_bind]
      refine wp_mono_ret (h₁.store_all (by rw [hlen]; omega)) fun _ t₂ h₂ => ?_
      exact ih h₂ (by omega) (by omega)

end StackFill

/-! ## The new image -/

variable {s t : Kernel} {k : CpuId} {c : EnvIx} {dir : Nat} {f : PageMap} {argv binary : Word}
  {segs : List Proghdr} {args strs : List (List Byte)}

/-- The arguments that `sys_exec` accepts fit on the page, and their array is where the image has
it. -/
theorem exec_addresses (hcount : strs.length ≤ 32) (hroom : argSize strs ≤ 512) :
    Fits 4096 strs ∧
      argvStore (terminated strs) = stackPage + BitVec.ofNat 32 (ArgVec.slotsAt 4096 strs) ∧
      ustacktop - BitVec.ofNat 32 (stringSize (terminated strs)) =
        stackPage + BitVec.ofNat 32 (ArgVec.stringsAt 4096 strs) ∧
      (∀ n ≤ ArgVec.slotsAt 4096 strs, stackPage + BitVec.ofNat 32 (ArgVec.slotsAt 4096 strs) -
        BitVec.ofNat 32 n = stackPage + BitVec.ofNat 32 (ArgVec.slotsAt 4096 strs - n)) := by
  have hlen : (terminated strs).length = strs.length := List.length_map _
  have hsize : stringSize (terminated strs) = ArgVec.size strs := string_size_terminated strs
  rw [arg_size_eq] at hroom
  have hstrings : ArgVec.stringsAt 4096 strs = 4096 - ArgVec.size strs := rfl
  have hslots : ArgVec.slotsAt 4096 strs =
      ArgVec.stringsAt 4096 strs / 4 * 4 - 4 * (strs.length + 1) := rfl
  have haddr : ∀ x ≤ 4096, (stackPage + BitVec.ofNat 32 x).toNat = 4005548032 + x := by
    intro x hx
    rw [BitVec.toNat_add, BitVec.toNat_ofNat, stack_page_to_nat]
    omega
  refine ⟨⟨by omega, by omega⟩, ?_, ?_, fun n hn => ?_⟩
  · apply BitVec.eq_of_toNat_eq
    rw [argv_store_to_nat (by rw [hlen]; exact hcount) (by rw [hsize]; exact hroom), hlen, hsize,
      haddr _ (by omega)]
    omega
  · apply BitVec.eq_of_toNat_eq
    rw [BitVec.toNat_sub, BitVec.toNat_ofNat, hsize, haddr _ (by omega), ustacktop_to_nat]
    omega
  · apply BitVec.eq_of_toNat_eq
    rw [BitVec.toNat_sub, BitVec.toNat_ofNat, haddr _ (by omega), haddr _ (by omega)]
    omega

/-- Directory `dir` maps a page below `USTACKTOP` that holds `m`. -/
def StackIn (s : Kernel) (dir : Nat) (m : Bytes) : Prop :=
  ∃ f pp, s.maps dir f ∧ f Fork.ustackPn = some (pp, (pteU ||| pteW ||| pteP) ||| pteP) ∧
    ∀ x < 4096, pageByte (s.mem pp) x = m x

/-- The new stack page is mapped and nothing is stored in it yet. -/
theorem stack_page_alloc (h : ∃ f, s.maps dir f) :
    wp (execRegionAlloc k dir (ustacktop - pgsizeW) pgsizeW (pteU ||| pteW ||| pteP))
      (fun _ s' => ∃ f pp, StackFill (s'.loaded k dir) k dir pp f fun _ => 0) (fun _ _ => True)
      s := by
  obtain ⟨f, hf⟩ := h
  have hone : regionPages (ustacktop - pgsizeW) pgsizeW = 1 := by decide +kernel
  have hva : rounddown (ustacktop - pgsizeW) + BitVec.ofNat 32 (0 * pgsize) = stackPage := by
    decide +kernel
  obtain ⟨hpn, -⟩ := pgnum_stack_page (x := 0) (by decide)
  rw [BitVec.add_zero] at hpn
  rw [execRegionAlloc, alloc_region_eq, hone, for_upto_succ, for_upto_zero, wp_bind, wp_pure, hva]
  refine wp_mono_ret (alloc_page_maps _ hf (by decide +kernel) (by decide))
    fun _ t hres => ?_
  obtain ⟨pp, hnew, ht, hzero⟩ := hres
  rw [hpn] at ht
  refine ⟨_, pp, ht, loaded_cr3 t k dir, Function.update_self _ _ _, fun n w hw => ?_,
    fun x _ => ?_⟩
  · by_contra hne
    rw [Function.update_of_ne hne] at hw
    exact hnew n w hw
  · show byteOf (t.mem pp (x / 4)) (x % 4) = 0
    rw [hzero]
    simp [byteOf]

/-- `execFill` makes the stack page the image of the arguments. -/
theorem exec_fill_spec (binary : Word) (h : ∃ f, s.maps dir f) (hclear : ∀ ph ∈ segs, ph.Clear)
    (hgood : ∀ ph ∈ segs, ph.malformed = false) (hcount : strs.length ≤ 32)
    (hroom : argSize strs ≤ 512) :
    wp (execFill k dir binary segs (terminated strs))
      (fun _ s' => StackIn s' dir (stackImage strs)) (fun _ _ => True) s := by
  obtain ⟨hfits, hargv, hstrings, hbelow⟩ := exec_addresses hcount hroom
  obtain ⟨hslot, hle, htop⟩ := hfits.slots_at
  have hlen : (terminated strs).length = strs.length := List.length_map _
  have hend : stackPage + BitVec.ofNat 32 (ArgVec.slotsAt 4096 strs) +
      BitVec.ofNat 32 (4 * strs.length) =
        stackPage + BitVec.ofNat 32 (ArgVec.slotsAt 4096 strs + 4 * strs.length) := by
    rw [BitVec.add_assoc, BitVec.ofNat_add]
  have hfour : stackPage + BitVec.ofNat 32 (ArgVec.slotsAt 4096 strs) - 4 =
      stackPage + BitVec.ofNat 32 (ArgVec.slotsAt 4096 strs - 4) := hbelow 4 (by omega)
  have height : stackPage + BitVec.ofNat 32 (ArgVec.slotsAt 4096 strs) - 8 =
      stackPage + BitVec.ofNat 32 (ArgVec.slotsAt 4096 strs - 8) := hbelow 8 hslot
  rw [execFill, hargv, hstrings, hlen, hend, hfour, height, wp_bind]
  refine wp_mono_ret (stack_page_alloc h) fun _ t₀ ⟨f, pp, h₀⟩ => ?_
  rw [wp_bind, wp_of_ret (lcr3_eq k dir t₀), wp_bind]
  refine wp_mono_ret (wp_for_each (I := fun s' => StackFill s' k dir pp f fun _ => 0) h₀
    fun ph hph t ht => ht.fill_segment (hclear ph hph) (hgood ph hph)) fun _ t₁ h₁ => ?_
  rw [wp_bind]
  refine wp_mono_ret (h₁.store_args
    (show ArgVec.slotsAt 4096 strs + 4 * strs.length ≤ ArgVec.stringsAt 4096 strs by omega)
    (by omega)) fun _ t₂ h₂ => ?_
  rw [wp_bind]
  refine wp_mono_ret (h₂.store_word (by omega) 0) fun _ t₃ h₃ => ?_
  rw [wp_bind]
  refine wp_mono_ret (h₃.store_word (by omega) _) fun _ t₄ h₄ => ?_
  rw [wp_bind]
  refine wp_mono_ret (h₄.store_word (by omega) _) fun _ t₅ h₅ => ?_
  rw [wp_bind, wp_gets, wp_of_ret (lcr3_eq k _ t₅)]
  exact ⟨f, pp, h₅.maps, h₅.stack, h₅.bytes⟩

/-- The allocation goes through only if no segment is malformed. -/
theorem exec_alloc_segments_true (k : CpuId) (dir : Nat) (segs : List Proghdr) (s : Kernel) :
    wp (execAllocSegments k dir segs)
      (fun b _ => b = true → ∀ ph ∈ segs, ph.malformed = false) (fun _ _ => True) s := by
  induction segs generalizing s with
  | nil => exact fun _ ph hph => (by cases hph)
  | cons ph rest ih =>
      rw [exec_alloc_segments_cons, wp_ite]
      refine ⟨fun _ h => (by cases h), fun hgood => ?_⟩
      rw [wp_bind]
      refine wp_mono_ret (wp_of_forall (Q := fun _ _ => True) (fun _ _ => trivial)
        fun _ _ => trivial) fun _ t _ => ?_
      refine wp_mono_ret (ih t) fun b _ hb htrue ph' hph' => ?_
      rcases List.mem_cons.1 hph' with rfl | hrest
      · exact decide_eq_false hgood
      · exact hb htrue ph' hrest

/-- If the new image is in place, its stack is the image of the arguments. -/
theorem exec_place_spec {elf : Elf} (hmaps : ∃ f, s.maps dir f)
    (hdir : (s.envs c).envPgdir = some dir) (hcur : (s.cpus k).cpuEnv = some c)
    (hclear : ∀ ph ∈ segs, ph.Clear) (hcount : strs.length ≤ 32) (hroom : argSize strs ≤ 512) :
    wp (execPlace k c dir binary elf segs (terminated strs)) (fun r t => r = none →
      StackIn t dir (stackImage strs) ∧ (t.envs c).envPgdir = some dir ∧
        (t.envs c).envTf.esp = stackStart strs) (fun _ _ => True) s := by
  have hquiet : ∀ s₁ s₂ : Kernel, Quiet s₁ s₂ → (s₁.envs c).envPgdir = some dir →
      (s₁.cpus k).cpuEnv = some c →
        (s₂.envs c).envPgdir = some dir ∧ (s₂.cpus k).cpuEnv = some c := by
    intro s₁ s₂ h hd hc
    have henvs : s₂.envs = s₁.envs := congrArg Ctl.envs h.1
    have hcpu : (s₂.cpus k).cpuEnv = (s₁.cpus k).cpuEnv := congrFun (congrArg Ctl.cpuEnv h.1) k
    rw [henvs, hcpu]
    exact ⟨hd, hc⟩
  rw [execPlace, wp_bind]
  refine wp_mono (wp_and (exec_unmap_user_maps hmaps) (quiet_exec_unmap_user k dir _ _ s))
    (fun _ t₁ ⟨hmaps₁, hq₁⟩ => ?_) fun _ _ _ => trivial
  obtain ⟨hdir₁, hcur₁⟩ := hquiet s t₁ hq₁ hdir hcur
  rw [wp_bind]
  refine wp_mono (wp_and (wp_and (exec_alloc_segments_maps hmaps₁ fun ph hph => (hclear ph hph).pages)
    (exec_alloc_segments_true k dir segs t₁)) (quiet_exec_alloc_segments k dir segs t₁))
    (fun b t₂ ⟨⟨hmaps₂, hgood⟩, hq₂⟩ => ?_) fun _ _ _ => trivial
  obtain ⟨hdir₂, hcur₂⟩ := hquiet t₁ t₂ hq₂ hdir₁ hcur₁
  rw [wp_ite, wp_ite]
  refine ⟨fun htrue => ⟨fun _ h => (by cases h), fun _ => ?_⟩, fun _ h => (by cases h)⟩
  rw [wp_bind]
  refine wp_mono (wp_and (exec_fill_spec (k := k) binary hmaps₂ hclear (hgood htrue)
    hcount hroom) (own_exec_fill (g := .none) (c := c) dir binary segs (terminated strs) t₂))
    (fun _ t₃ ⟨hstack, hown⟩ => ?_) fun _ _ _ => trivial
  obtain ⟨hdir₃, -⟩ := hquiet t₂ t₃ (hown hcur₂) hdir₂ hcur₂
  rw [modifyEnv, wp_bind, wp_modify, wp_pure]
  intro _
  obtain ⟨f, pp, hmaps₃, hmap, hbytes⟩ := hstack
  obtain ⟨hfits, hargv, -, hbelow⟩ := exec_addresses hcount hroom
  refine ⟨⟨f, pp, hmaps₃, hmap, hbytes⟩, ?_, ?_⟩
  · show (Function.update t₃.envs c _ c).envPgdir = some dir
    rw [Function.update_self]
    exact hdir₃
  · show (Function.update t₃.envs c _ c).envTf.esp = stackStart strs
    rw [Function.update_self]
    show argvStore (terminated strs) - 8 = _
    rw [hargv]
    exact hbelow 8 hfits.slots_at.1

/-! ## The arguments -/

/-- What user code of the caller reads is what the kernel reads with its directory loaded. -/
theorem user_byte_of_read {va : Word} {b : Byte} (hdir : (s.envs c).envPgdir = some dir)
    (h : s.userRead c va = some b) : (s.loaded k dir).userByte k va = some b := by
  unfold Kernel.userRead at h
  split at h
  case isFalse => cases h
  case isTrue hallows =>
    rw [Kernel.allows, Bool.and_eq_true] at hallows
    cases hmap : s.mapping c (pgnum va) with
    | none =>
        rw [hmap] at h
        cases h
    | some x =>
        obtain ⟨pde, pte⟩ := x
        rw [hmap] at h hallows
        have hpte : hasFlag pte pteP = true := (Bool.and_eq_true _ _ ▸ hallows.2).1
        unfold Kernel.userByte
        rw [loaded_cr3]
        show (walk s.mem dir (pgnum va)).map _ = _
        rw [walk_of_mapping hdir hmap hpte]
        exact h

theorem user_bytes_of_read {va : Word} {bytes : List Byte}
    (hdir : (s.envs c).envPgdir = some dir) (h : BytesAt s c va bytes) :
    (s.loaded k dir).userBytes k bytes.length va = some bytes :=
  user_bytes_iff.2 ⟨rfl, fun i hi => user_byte_of_read hdir (h i hi)⟩

/-- The arguments that `sys_exec` accepts are the strings of the caller's array. -/
theorem args_terminated (hdir : (s.envs c).envPgdir = some dir) (hargv : ArgvAt s c argv strs)
    (hargs : ArgsIn (s.loaded k dir) k argv args) : args = terminated strs := by
  have hslot : ∀ i p, BytesAt s c (argv + BitVec.ofNat 32 (4 * i)) (wordBytes p) →
      SlotIn (s.loaded k dir) k argv i p := fun i p h =>
    ⟨wordBytes p, user_bytes_of_read hdir h, word_at_word_bytes p⟩
  have hend := hslot strs.length 0 hargv.last
  have hget : ∀ i str, strs[i]? = some str → ∀ p, SlotIn (s.loaded k dir) k argv i p →
      p ≠ 0 ∧ CStringIn (s.loaded k dir) k p (str ++ [0]) := by
    intro i str hstr p hp
    obtain ⟨q, hne, hq, hat⟩ := hargv.arg i str hstr
    obtain rfl := hp.unique (hslot i q hq)
    exact ⟨hne, user_bytes_of_read hdir hat.bytes, str, rfl, hat.chars⟩
  have hlen : args.length = strs.length := by
    rcases Nat.lt_trichotomy args.length strs.length with hlt | heq | hgt
    · -- the null pointer that was read would be that of a string
      exact absurd rfl (hget _ _ (List.getElem?_eq_getElem hlt) 0 hargs.last).1
    · exact heq
    · obtain ⟨-, p, hne, hp, -⟩ := hargs.read _ _ (List.getElem?_eq_getElem hgt)
      exact absurd (hp.unique hend) hne
  refine List.ext_getElem? fun i => ?_
  rw [terminated, List.getElem?_map]
  cases hstr : strs[i]? with
  | none => exact List.getElem?_eq_none (by rw [hlen]; exact List.getElem?_eq_none_iff.1 hstr)
  | some str =>
      have hi : i < args.length := hlen ▸ (List.getElem?_eq_some_iff.1 hstr).1
      obtain ⟨-, p, -, hp, hread⟩ := hargs.read i _ (List.getElem?_eq_getElem hi)
      rw [List.getElem?_eq_getElem hi, hread.unique (hget i str hstr p hp).2]
      rfl

/-- The segments that `sys_exec` finds at `binary` are clear of the stack page. -/
def SegmentsClear (s : Kernel) (k : CpuId) (dir : Nat) (binary : Word) : Prop :=
  ∀ elf segs, (s.loaded k dir).execHeader k binary = some (elf, segs) → ∀ ph ∈ segs, ph.Clear

/-- The page below `USTACKTOP` of `c` holds `m`, and user code of `c` may read it. -/
def Kernel.holdsStack (s : Kernel) (c : EnvIx) (m : Bytes) : Prop :=
  ∃ pde pte, s.mapping c Fork.ustackPn = some (pde, pte) ∧ hasFlag pte pteP = true ∧
    hasFlag pte pteU = true ∧ ∀ x < 4096, s.physByte (pgnum pte) x = m x

/-- The user bit of an entry. -/
theorem and_pte_u {w : Word} (h : hasFlag w pteU = true) : w &&& pteU = pteU := by
  rw [has_flag_u] at h
  have hbit : (pteU : Word) = BitVec.twoPow 32 2 := by decide
  rw [hbit, BitVec.and_twoPow, if_pos h]

/-- What user code reads on its stack page. -/
theorem Kernel.holdsStack.reads {m : Bytes} (h : s.holdsStack c m) {x : Nat} (hx : x < 4096) :
    s.userRead c (stackPage + BitVec.ofNat 32 x) = some (m x) := by
  obtain ⟨pde, pte, hmap, hpte, huser, hbytes⟩ := h
  obtain ⟨hpn, hoff⟩ := pgnum_stack_page hx
  have hallows : s.allows c pteU Fork.ustackPn = true := by
    rw [Kernel.allows, hmap, Fork.ustack_pn_eq, pgnum_eq, ulim_to_nat]
    dsimp only
    rw [hpte, and_pte_u huser]
    rfl
  rw [Kernel.userRead, hpn, hoff, if_pos hallows, hmap]
  exact congrArg some (hbytes x hx)

/-- The stack that the new program finds. -/
theorem StackIn.holds {m : Bytes} (h : StackIn s dir m) (hdir : (s.envs c).envPgdir = some dir) :
    s.holdsStack c m := by
  obtain ⟨f, pp, hmaps, hmap, hbytes⟩ := h
  obtain ⟨hpde, hpte, hentry⟩ := entry_of_maps hmaps hmap
  have hmapping : s.mapping c Fork.ustackPn = some (s.mem dir (Fork.ustackPn / 1024),
      s.mem (pgnum (s.mem dir (Fork.ustackPn / 1024))) (Fork.ustackPn % 1024)) := by
    rw [Kernel.mapping, hdir]
    exact if_pos hpde
  have hpage := congrArg Prod.fst hentry
  have hflags := congrArg Prod.snd hentry
  refine ⟨_, _, hmapping, hpte, ?_, fun x hx => ?_⟩
  · generalize s.mem (pgnum (s.mem dir (Fork.ustackPn / 1024))) (Fork.ustackPn % 1024) = w
      at hflags
    have hsubset : (w &&& 0xFFF#32) &&& pteU = w &&& pteU := by
      rw [BitVec.and_assoc]
      rfl
    rw [hasFlag, ← hsubset, show w &&& 0xFFF#32 = (pteU ||| pteW ||| pteP) ||| pteP from hflags]
    decide
  · show s.physByte (entryOf _).1 x = m x
    rw [hpage]
    exact hbytes x hx

/-- The stack of an image that `sys_exec` has put in place. -/
theorem exec_image_spec (hdir : (s.envs c).envPgdir = some dir) (hcur : (s.cpus k).cpuEnv = some c)
    (hmaps : s.maps dir f) (hargv : ArgvAt s c argv strs) (hclear : SegmentsClear s k dir binary) :
    wp (execImage k c binary argv) (fun r t => r = none → Fits 4096 strs ∧
      t.holdsStack c (stackImage strs) ∧ (t.envs c).envTf.esp = stackStart strs)
      (fun _ _ => True) s := by
  rw [execImage, wp_bind]
  refine wp_mono_ret (exec_prepare_spec hcur binary argv) fun r t ⟨ht, hr⟩ => ?_
  cases r with
  | error e => exact fun h => (by cases h)
  | ok x =>
      obtain ⟨dir', elf, segs, args⟩ := x
      obtain ⟨hdir', haccepts, hargs⟩ := hr
      rw [hdir] at hdir'
      cases hdir'
      obtain ⟨elf', hheader, -⟩ := haccepts.header
      obtain rfl := args_terminated hdir hargv hargs
      have hcount : strs.length ≤ 32 := by
        have hle := hargs.count
        rwa [terminated, List.length_map] at hle
      have hroom : argSize strs ≤ 512 := string_size_terminated strs ▸ hargs.room
      have hmaps' : t.maps dir f := by
        unfold Kernel.maps Kernel.shape Kernel.sound
        rw [ht.mem, ht.npages, ht.pages, ht.free]
        exact hmaps
      refine wp_mono_ret (exec_place_spec ⟨f, hmaps'⟩ (by rw [ht.envs]; exact hdir)
        (ht.cur.trans hcur) (hclear elf' segs hheader) hcount hroom) fun r t' hr hnone => ?_
      obtain ⟨hstack, hdir₁, hesp⟩ := hr hnone
      exact ⟨(exec_addresses hcount hroom).1, hstack.holds hdir₁, hesp⟩

end Labs.Jos
