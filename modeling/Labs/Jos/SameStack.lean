import Labs.Jos.ExecStack
import Labs.Jos.SpawnStack

/-!
# spawn and exec build the same stack

`init_stack` fills the page at a temporary address of the parent and moves it into the child,
`sys_exec` fills it through the page tables of the caller from its copies of the strings. Both make
it the image of the argument vector. `init_stack` loses arguments that lie in the page at `UTEMP`
itself, which is reserved for temporary mappings.
-/

namespace Labs.Jos

open Prog
open Spawn (Answers HoldsStack besideTemp initStack userRead utemp utempPn)

variable {v v' : Vm} {s t : Kernel} {e child c : EnvIx} {ans : Answers} {k : CpuId} {dir : Nat}
  {f : PageMap} {argv argv' binary esp : Word} {strs : List (List Byte)}

/-- For the same strings the child of `spawn` and the program of `exec` start with the same stack
pointer and the same stack page, and read the strings from there. -/
theorem same_stack (hcount : v.Counted) (hfree : ∀ p, ans.page = some p → v.free p = true)
    (hargv : ArgVec.Holds (besideTemp v e) argv strs)
    (hspawn : initStack e child ans argv v = .ret (.ok esp) v')
    (hdir : (s.envs c).envPgdir = some dir) (hcur : (s.cpus k).cpuEnv = some c)
    (hmaps : s.maps dir f) (hargv' : ArgvAt s c argv' strs) (hclear : SegmentsClear s k dir binary)
    (hexec : execImage k c binary argv' s = .ret none t) :
    (∃ m, HoldsStack v' child m ∧ t.holdsStack c m) ∧ esp = (t.envs c).envTf.esp ∧
      ArgVec.Starts (userRead v' child) esp strs ∧ ArgVec.Starts (t.userRead c) esp strs := by
  have himage := exec_image_spec (k := k) hdir hcur hmaps hargv' hclear
  rw [wp_of_ret hexec] at himage
  obtain ⟨hfits, hholds', hesp'⟩ := himage rfl
  have hinit := Spawn.init_stack_spec child hcount hfree hargv hfits
  rw [wp_of_ret hspawn] at hinit
  obtain ⟨hesp, hholds⟩ := hinit esp rfl
  have hchars := chars_of_holds hargv
  refine ⟨⟨_, hholds, hholds'⟩, hesp.trans hesp'.symm, ?_, ?_⟩
  · rw [hesp]
    exact stack_image_starts hfits hchars fun x hx => hholds.reads hx
  · rw [hesp]
    exact stack_image_starts hfits hchars fun x hx => hholds'.reads hx

/-! ## A caller

It has two pages. The first holds the header of an image without segments, the array of a string at
`UTEMP + 4080` and the array of a string in the same page; the other is the page at `UTEMP`. -/

def callerWords (i : Nat) : Word :=
  if i = 0 then elfMagic else if i = 21 then utemp + 4080 else if i = 23 then 100
  else if i = 25 then 0x6261 else 0

def tempWords (i : Nat) : Word := if i = 1020 then 0x64636261 else 0

/-- What the directory of the caller maps. -/
def callerMap (n : Nat) : Option (Nat × Word) :=
  if n = 0 then some (4, pteU ||| pteW ||| pteP)
  else if n = 1024 then some (6, pteU ||| pteW ||| pteP) else none

/-- The tables of the caller. -/
def callerTables (d : Nat) : Option Nat := if d = 0 then some 3 else if d = 1 then some 5 else none

/-- The caller as the kernel has it, with two free pages. -/
def callerKernel : Kernel :=
  { onePage with
    npages := 9, npagesBasemem := 9, pageFreeList := some 7
    pages := fun p => if p = 7 then { ppLink := some 8 } else if p = 8 then {} else { ppRef := 1 }
    mem := fun p i =>
      if p = 1 ∧ i = 0 then mkPde 3 else if p = 1 ∧ i = 1 then mkPde 5
      else if p = 3 ∧ i = 0 then mkPte 4 (pteU ||| pteW)
      else if p = 5 ∧ i = 0 then mkPte 6 (pteU ||| pteW)
      else if p = 4 then callerWords i else if p = 6 then tempWords i else 0 }

/-- The caller as user code has it, with one free page. -/
def callerVm : Vm where
  map := fun e n => if e = 0 then callerMap n else none
  ref := fun _ => 1
  free := fun p => decide (p = 7)
  mem := fun p i => if p = 4 then callerWords i else if p = 6 then tempWords i else 0
  shared := fun _ => false

theorem caller_map_cases {n p : Nat} {w : Word} (h : callerMap n = some (p, w)) :
    w = pteU ||| pteW ||| pteP ∧ (n = 0 ∧ p = 4 ∨ n = 1024 ∧ p = 6) := by
  unfold callerMap at h
  split at h
  case isTrue hn =>
    cases h
    exact ⟨rfl, .inl ⟨hn, rfl⟩⟩
  case isFalse =>
    split at h
    case isTrue hn =>
      cases h
      exact ⟨rfl, .inr ⟨hn, rfl⟩⟩
    case isFalse => cases h

theorem caller_tables_cases {d q : Nat} (h : callerTables d = some q) :
    d = 0 ∧ q = 3 ∨ d = 1 ∧ q = 5 := by
  unfold callerTables at h
  split at h
  case isTrue hd =>
    cases h
    exact .inl ⟨hd, rfl⟩
  case isFalse =>
    split at h
    case isTrue hd =>
      cases h
      exact .inr ⟨hd, rfl⟩
    case isFalse => cases h

theorem caller_kernel_shape : callerKernel.shape 1 callerTables callerMap where
  small := by decide
  pde d _ := by
    unfold callerTables
    by_cases hzero : d = 0
    · subst hzero
      decide +kernel
    · by_cases hone : d = 1
      · subst hone
        decide +kernel
      · have hmem : callerKernel.mem 1 d = 0 := by simp [callerKernel, hzero, hone]
        rw [if_neg hzero, if_neg hone, hmem]
        rfl
  pte d q t hq ht := by
    rcases caller_tables_cases hq with ⟨rfl, rfl⟩ | ⟨rfl, rfl⟩
    · by_cases hzero : t = 0
      · subst hzero
        decide +kernel
      · have hmem : callerKernel.mem 3 t = 0 := by simp [callerKernel, hzero]
        rw [hmem, read_entry_zero, callerMap, if_neg (by omega), if_neg (by omega)]
    · by_cases hzero : t = 0
      · subst hzero
        decide +kernel
      · have hmem : callerKernel.mem 5 t = 0 := by simp [callerKernel, hzero]
        rw [hmem, read_entry_zero, callerMap, if_neg (by omega), if_neg (by omega)]
  bare d t hd ht := by
    unfold callerTables at hd
    split at hd
    case isTrue => cases hd
    case isFalse hzero =>
      split at hd
      case isTrue => cases hd
      case isFalse hone => rw [callerMap, if_neg (by omega), if_neg (by omega)]
  low d q hq := by
    rcases caller_tables_cases hq with ⟨rfl, -⟩ | ⟨rfl, -⟩ <;> decide
  inj d d' q hq hq' := by
    rcases caller_tables_cases hq with ⟨rfl, rfl⟩ | ⟨rfl, rfl⟩ <;>
      rcases caller_tables_cases hq' with ⟨rfl, h⟩ | ⟨rfl, h⟩ <;> first | rfl | cases h
  table d q hq := by
    rcases caller_tables_cases hq with ⟨-, rfl⟩ | ⟨-, rfl⟩ <;> decide
  mapped n x hx := by
    obtain ⟨-, ⟨-, hp⟩ | ⟨-, hp⟩⟩ := caller_map_cases (p := x.1) (w := x.2) hx <;> rw [hp] <;> decide
  free := by
    refine ⟨[7, 8], ⟨rfl, rfl, rfl⟩, fun p hp => ?_⟩
    have hcases : p = 7 ∨ p = 8 := by simpa using hp
    refine ⟨?_, ?_, fun d hd => ?_⟩
    · rcases hcases with rfl | rfl <;> decide
    · rcases hcases with rfl | rfl <;> decide
    · rcases caller_tables_cases hd with ⟨-, rfl⟩ | ⟨-, rfl⟩ <;> omega

/-- A page that is mapped at one place has one reference there. -/
theorem map_count_le_one {f : PageMap} {p : Nat} (h : ∀ n n' w w', f n = some (p, w) →
    f n' = some (p, w') → n = n') : mapCount f p ≤ 1 := by
  unfold mapCount fiberCard
  refine Finset.card_le_one.2 fun n hn n' hn' => ?_
  obtain ⟨⟨q, w⟩, hq, rfl⟩ := Option.map_eq_some_iff.1 (Finset.mem_filter.1 hn).2
  obtain ⟨⟨q', w'⟩, hq', heq⟩ := Option.map_eq_some_iff.1 (Finset.mem_filter.1 hn').2
  obtain rfl : q' = q := heq
  exact h n n' w w' hq hq'

theorem caller_kernel_maps : callerKernel.maps 1 callerMap := by
  refine ⟨callerTables, caller_kernel_shape, fun n x hx => ?_, fun n x hx => ?_,
    fun l hl n x hx hmem => ?_, fun p => ?_⟩
  · rw [user_pages_eq]
    obtain ⟨-, ⟨rfl, -⟩ | ⟨rfl, -⟩⟩ := caller_map_cases (p := x.1) (w := x.2) hx <;> decide
  · obtain ⟨-, ⟨-, hp⟩ | ⟨-, hp⟩⟩ := caller_map_cases (p := x.1) (w := x.2) hx
    · refine ⟨by omega, fun d hd => ?_⟩
      rcases caller_tables_cases hd with ⟨-, h⟩ | ⟨-, h⟩ <;> omega
    · refine ⟨by omega, fun d hd => ?_⟩
      rcases caller_tables_cases hd with ⟨-, h⟩ | ⟨-, h⟩ <;> omega
  · have hlist : Chain (fun p => (callerKernel.pages p).ppLink) callerKernel.pageFreeList [7, 8] :=
      ⟨rfl, rfl, rfl⟩
    rw [Chain.unique hl hlist] at hmem
    have hcases : x.1 = 7 ∨ x.1 = 8 := by simpa using hmem
    obtain ⟨-, ⟨-, hp⟩ | ⟨-, hp⟩⟩ := caller_map_cases (p := x.1) (w := x.2) hx <;> omega
  · by_cases hfree : p = 7 ∨ p = 8
    · have hzero : mapCount callerMap p = 0 := fiber_card_eq_zero fun n _ hn => by
        obtain ⟨⟨q, w⟩, hq, rfl⟩ := Option.map_eq_some_iff.1 hn
        have hq' : q = 7 ∨ q = 8 := hfree
        obtain ⟨-, ⟨-, hp⟩ | ⟨-, hp⟩⟩ := caller_map_cases hq <;> omega
      rw [hzero]
      exact Nat.zero_le _
    · have hone : (callerKernel.pages p).ppRef = 1 := by
        rw [not_or] at hfree
        simp [callerKernel, hfree.1, hfree.2]
      rw [hone]
      refine map_count_le_one fun n n' w w' hn hn' => ?_
      obtain ⟨-, ⟨h, hp⟩ | ⟨h, hp⟩⟩ := caller_map_cases hn <;>
        obtain ⟨-, ⟨h', hp'⟩ | ⟨h', hp'⟩⟩ := caller_map_cases hn' <;> omega

theorem caller_vm_counted : callerVm.Counted := by
  have hcases : ∀ e n p w, callerVm.map e n = some (p, w) → e = 0 ∧ callerMap n = some (p, w) := by
    intro e n p w h
    by_cases he : e = 0
    · subst he
      exact ⟨rfl, h⟩
    · have hnone : callerVm.map e n = none := if_neg he
      rw [hnone] at h
      cases h
  refine ⟨fun p => ?_, fun e n p w h => ?_, fun e n x h => ?_, fun e n p w h => ?_,
    fun e n p w h hshare => ?_⟩
  · have hle := @Vm.count_le_card callerVm p {((0 : EnvIx), if p = 4 then 0 else 1024)}
      fun e n w h => by
        obtain ⟨rfl, h'⟩ := hcases e n p w h
        rw [Finset.mem_singleton]
        obtain ⟨-, ⟨rfl, rfl⟩ | ⟨rfl, rfl⟩⟩ := caller_map_cases h' <;> rfl
    rw [Finset.card_singleton] at hle
    exact hle
  · obtain ⟨-, h'⟩ := hcases e n p w h
    obtain ⟨-, ⟨-, rfl⟩ | ⟨-, rfl⟩⟩ := caller_map_cases h' <;> rfl
  · obtain ⟨-, h'⟩ := hcases e n x.1 x.2 h
    rw [user_pages_eq]
    obtain ⟨-, ⟨rfl, -⟩ | ⟨rfl, -⟩⟩ := caller_map_cases h' <;> decide
  · obtain ⟨-, h'⟩ := hcases e n p w h
    obtain ⟨rfl, -⟩ := caller_map_cases h'
    decide
  · obtain ⟨-, h'⟩ := hcases e n p w h
    obtain ⟨rfl, -⟩ := caller_map_cases h'
    exact absurd hshare (by decide)

/-- Bytes are read if each of them is. -/
theorem reads_of_all {mem : ArgVec.View} {va : Word} {bytes : List Byte}
    (h : (List.range bytes.length).all (fun i =>
      mem (va + BitVec.ofNat 32 i) == some (bytes.getD i 0)) = true) : ArgVec.Reads mem va bytes := by
  intro i hi
  rw [List.all_eq_true] at h
  exact eq_of_beq (h i (List.mem_range.2 hi))

/-- An array of one string. -/
theorem holds_one {mem : ArgVec.View} (ptr : Word) {str : List Byte} (hne : ptr ≠ 0)
    (hptr : ArgVec.Reads mem argv (ArgVec.wordBytes ptr)) (hstr : ArgVec.IsString mem ptr str)
    (hend : ArgVec.Reads mem (argv + 4) (ArgVec.wordBytes 0)) : ArgVec.Holds mem argv [str] := by
  refine ⟨fun i x hx => ?_, hend⟩
  cases i with
  | zero =>
      cases hx
      refine ⟨ptr, hne, ?_, hstr⟩
      rw [Nat.mul_zero, BitVec.add_zero]
      exact hptr
  | succ i => cases hx

theorem caller_segments_clear : SegmentsClear callerKernel 0 1 0 := by
  intro elf segs hheader ph hph
  have hnone : (match (callerKernel.loaded 0 1).execHeader 0 0 with
      | some (_, segs) => segs.isEmpty
      | none => true) = true := by decide +kernel
  rw [hheader] at hnone
  rw [List.isEmpty_iff.1 hnone] at hph
  cases hph

/-- For the string in the first page. -/
theorem same_stack_caller : ∃ esp v' t,
    initStack 0 1 ⟨some 7, true⟩ 92 callerVm = .ret (.ok esp) v' ∧
    execImage 0 0 0 92 callerKernel = .ret none t ∧
    (∃ m, HoldsStack v' 1 m ∧ t.holdsStack 0 m) ∧ esp = (t.envs 0).envTf.esp ∧
    ArgVec.Starts (userRead v' 1) esp [[0x61, 0x62]] ∧
    ArgVec.Starts (t.userRead 0) esp [[0x61, 0x62]] := by
  have hargv : ArgVec.Holds (besideTemp callerVm 0) 92 [[0x61, 0x62]] :=
    holds_one 100 (by decide) (reads_of_all (by decide +kernel))
      ⟨by decide, reads_of_all (by decide +kernel)⟩ (reads_of_all (by decide +kernel))
  have hargv' : ArgvAt callerKernel 0 92 [[0x61, 0x62]] :=
    argv_at_iff.2 (holds_one 100 (by decide) (reads_of_all (by decide +kernel))
      ⟨by decide, reads_of_all (by decide +kernel)⟩ (reads_of_all (by decide +kernel)))
  have hspawn : (match initStack 0 1 ⟨some 7, true⟩ 92 callerVm with
      | .ret (.ok _) _ => true
      | _ => false) = true := by decide +kernel
  have hexec : (match execImage 0 0 0 92 callerKernel with
      | .ret none _ => true
      | _ => false) = true := by decide +kernel
  split at hspawn
  case h_2 => cases hspawn
  case h_1 esp v' hret =>
    split at hexec
    case h_2 => cases hexec
    case h_1 t hret' =>
      exact ⟨esp, v', t, hret, hret', same_stack caller_vm_counted
        (fun p hp => by cases hp; rfl) hargv hret rfl rfl caller_kernel_maps hargv'
        caller_segments_clear hret'⟩

/-- For the string at `UTEMP + 4080` the pages are different: `init_stack` has overwritten it by the
time it copies it. -/
theorem stack_of_temp_string : ∃ esp v' t,
    callerVm.Counted ∧ callerVm.free 7 = true ∧
    ArgVec.Holds (userRead callerVm 0) 84 [[0x61, 0x62, 0x63, 0x64]] ∧
    initStack 0 1 ⟨some 7, true⟩ 84 callerVm = .ret (.ok esp) v' ∧
    callerKernel.maps 1 callerMap ∧ ArgvAt callerKernel 0 84 [[0x61, 0x62, 0x63, 0x64]] ∧
    SegmentsClear callerKernel 0 1 0 ∧ execImage 0 0 0 84 callerKernel = .ret none t ∧
    ¬ ∃ m, HoldsStack v' 1 m ∧ t.holdsStack 0 m := by
  have hargv : ArgVec.Holds (userRead callerVm 0) 84 [[0x61, 0x62, 0x63, 0x64]] :=
    holds_one (utemp + 4080) (by decide) (reads_of_all (by decide +kernel))
      ⟨by decide, reads_of_all (by decide +kernel)⟩ (reads_of_all (by decide +kernel))
  have hargv' : ArgvAt callerKernel 0 84 [[0x61, 0x62, 0x63, 0x64]] :=
    argv_at_iff.2 (holds_one (utemp + 4080) (by decide) (reads_of_all (by decide +kernel))
      ⟨by decide, reads_of_all (by decide +kernel)⟩ (reads_of_all (by decide +kernel)))
  have hspawn : (match initStack 0 1 ⟨some 7, true⟩ 84 callerVm with
      | .ret (.ok _) v' => userRead v' 1 (stackPage + 4091) == some 0xFB
      | _ => false) = true := by decide +kernel
  have hexec : (match execImage 0 0 0 84 callerKernel with
      | .ret none _ => true
      | _ => false) = true := by decide +kernel
  split at hspawn
  case h_2 => cases hspawn
  case h_1 esp v' hret =>
    split at hexec
    case h_2 => cases hexec
    case h_1 t hret' =>
      refine ⟨esp, v', t, caller_vm_counted, rfl, hargv, hret, caller_kernel_maps, hargv',
        caller_segments_clear, hret', ?_⟩
      rintro ⟨m, hm, hm'⟩
      have himage := exec_image_spec (k := 0) (c := 0) rfl rfl caller_kernel_maps hargv'
        caller_segments_clear
      rw [wp_of_ret hret'] at himage
      have hbyte := (himage rfl).2.1.reads (x := 4091) (by decide)
      have hsame := (hm'.reads (x := 4091) (by decide)).symm.trans hbyte
      have hother := (hm.reads (x := 4091) (by decide)).symm.trans (eq_of_beq hspawn)
      have hletter : stackImage [[0x61, 0x62, 0x63, 0x64]] 4091 = 0x61 := by decide +kernel
      rw [Option.some.inj hother, hletter] at hsame
      exact absurd hsame (by decide)

end Labs.Jos
