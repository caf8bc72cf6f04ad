import Labs.Jos.StackImage

/-!
# The stack of a spawned program

`init_stack` of `lib/spawn.c`, with the accesses of user code to its memory. The parent counts its
arguments, fills a page at `UTEMP` as if the page lay below `USTACKTOP` already, and maps it there
in the child. Memory above `UTOP` is not part of the model, and an access there is a fault.
-/

namespace Labs.Jos.Spawn

open Prog
open Fork (ustackPn)
open ArgVec (Fits IsString Reads)

/-- `UTEMP`. -/
def utemp : Word := ptsize

def utempPn : Nat := pgnum utemp

theorem utemp_to_nat : utemp.toNat = 4194304 := by decide

theorem utemp_pn_eq : utempPn = 1024 := by decide

/-- `UTEMP2USTACK(addr)`. -/
def utemp2ustack (addr : Word) : Word := addr + (ustacktop - pgsizeW) - utemp

/-- Why a program ends otherwise than by returning. -/
inductive Stop where
  /-- The page tables refuse an access. -/
  | fault (va : Word)
  | panic (msg : String)
  /-- A loop that does not end. -/
  | hang
  deriving DecidableEq

/-! ## User code -/

/-- The byte that user code of `e` reads at `va`, if it may. -/
def userRead (v : Vm) (e : EnvIx) (va : Word) : Option Byte :=
  (v.map e (pgnum va)).bind fun x =>
    if hasFlag x.2 pteU then some (pageByte (v.mem x.1) (pgoff va)) else none

/-- Store a byte at offset `off` of page `p`. -/
def setByte (v : Vm) (p off : Nat) (b : Byte) : Vm :=
  { v with mem := Function.update v.mem p (setPageByte (v.mem p) off b) }

def load (e : EnvIx) (va : Word) : Prog Vm Stop Byte := do
  match userRead (← get) e va with
  | some b => pure b
  | none => exit (.fault va)

def store (e : EnvIx) (va : Word) (b : Byte) : Prog Vm Stop Unit := do
  match (← get).map e (pgnum va) with
  | some (p, w) =>
      if hasFlag w pteU && hasFlag w pteW then modify fun v => setByte v p (pgoff va) b
      else exit (.fault va)
  | none => exit (.fault va)

def loadWord (e : EnvIx) (va : Word) : Prog Vm Stop Word := do
  let b₀ ← load e va
  let b₁ ← load e (va + 1)
  let b₂ ← load e (va + 2)
  let b₃ ← load e (va + 3)
  pure (b₃ ++ b₂ ++ b₁ ++ b₀)

def storeAll (e : EnvIx) : List Byte → Word → Prog Vm Stop Unit
  | [], _ => pure ()
  | b :: rest, va => do
      store e va b
      storeAll e rest (va + 1)

def storeWord (e : EnvIx) (va w : Word) : Prog Vm Stop Unit := storeAll e (wordBytes w) va

/-- The loop of `strlen`, which has come to `s` with `n`. -/
def strlenLoop (e : EnvIx) : Nat → Word → Word → Prog Vm Stop Word
  | 0, _, _ => exit .hang
  | fuel + 1, s, n => do
      if (← load e s) = 0 then pure n else strlenLoop e fuel (s + 1) (n + 1)

def strlen (e : EnvIx) (s : Word) : Prog Vm Stop Word := strlenLoop e (2 ^ 32) s 0

/-- The loop of `strcpy`. -/
def strcpyLoop (e : EnvIx) : Nat → Word → Word → Prog Vm Stop Unit
  | 0, _, _ => exit .hang
  | fuel + 1, dst, src => do
      let b ← load e src
      store e dst b
      if b = 0 then pure () else strcpyLoop e fuel (dst + 1) (src + 1)

def strcpy (e : EnvIx) (dst src : Word) : Prog Vm Stop Unit := strcpyLoop e (2 ^ 32) dst src

/-- `sys_page_alloc(envid, va, perm)` for page number `n`, which takes the page `page` unless memory
is short. -/
def sysPageAlloc (e : EnvIx) (page : Option Nat) (n : Nat) (perm : Word) : Prog Vm Stop Int := do
  if userPages ≤ n ∨ badPerm perm then pure (-eInval)
  else
    match page with
    | none => pure (-eNoMem)
    | some p => do
        modify fun v => v.sysPageAlloc e p n perm
        pure 0

/-- `sys_page_map` between page numbers, with the answer whether there is memory for a page table. -/
def sysPageMap (table : Bool) (src : EnvIx) (srcpn : Nat) (dst : EnvIx) (dstpn : Nat)
    (perm : Word) : Prog Vm Stop Int := do
  match (← get).sysPageMap src srcpn dst dstpn perm with
  | none => pure (-eInval)
  | some v =>
      if table then do
        modify fun _ => v
        pure 0
      else pure (-eNoMem)

def sysPageUnmap (e : EnvIx) (n : Nat) : Prog Vm Stop Int := do
  if userPages ≤ n then pure (-eInval)
  else
    modify fun v => v.sysPageUnmap e n
    pure 0

/-! ## `init_stack` -/

/-- The first loop, which has found `argc` arguments of size `size`. -/
def countArgs (e : EnvIx) (argv : Word) : Nat → Word → Word → Prog Vm Stop (Word × Word)
  | 0, _, _ => exit .hang
  | fuel + 1, argc, size => do
      if (← loadWord e (argv + 4 * argc)) = 0 then pure (argc, size)
      else
        let n ← strlen e (← loadWord e (argv + 4 * argc))
        countArgs e argv fuel (argc + 1) (size + (n + 1))

/-- The second loop from iteration `i` on, with `n` to go. It returns `string_store`. -/
def storeArgs (e : EnvIx) (argv argvStore : Word) : Nat → Word → Word → Prog Vm Stop Word
  | 0, _, stringStore => pure stringStore
  | n + 1, i, stringStore => do
      storeWord e (argvStore + 4 * i) (utemp2ustack stringStore)
      strcpy e stringStore (← loadWord e (argv + 4 * i))
      let len ← strlen e (← loadWord e (argv + 4 * i))
      storeArgs e argv argvStore n (i + 1) (stringStore + (len + 1))

/-- The answers of the kernel to `init_stack`: the page that `sys_page_alloc` takes, and whether
`sys_page_map` has memory for a page table. -/
structure Answers where
  page : Option Nat
  table : Bool

/-- The permissions of the stack page. -/
def stackPerm : Word := pteP ||| pteU ||| pteW

/-- Fill the page at `UTEMP`. -/
def fillStack (e : EnvIx) (argv argc stringStore argvStore : Word) : Prog Vm Stop Unit := do
  let stringEnd ← storeArgs e argv argvStore argc.toNat 0 stringStore
  storeWord e (argvStore + 4 * argc) 0
  if stringEnd ≠ utemp + pgsizeW then
    exit (.panic "assertion failed: string_store == (char*)UTEMP + PGSIZE")
  else
    storeWord e (argvStore - 4) (utemp2ustack argvStore)
    storeWord e (argvStore - 8) argc

/-- Move the page at `UTEMP` into the child. -/
def giveStack (e child : EnvIx) (table : Bool) : Prog Vm Stop Int := do
  let r ← sysPageMap table e utempPn child ustackPn stackPerm
  if r < 0 then
    let _ ← sysPageUnmap e utempPn
    pure r
  else
    let r ← sysPageUnmap e utempPn
    if r < 0 then
      let _ ← sysPageUnmap e utempPn
      pure r
    else pure 0

/-- `init_stack`, which returns `*init_esp` or the error. -/
def initStack (e child : EnvIx) (a : Answers) (argv : Word) : Prog Vm Stop (Except Int Word) := do
  let (argc, stringSize) ← countArgs e argv (2 ^ 30) 0 0
  let stringStore := utemp + pgsizeW - stringSize
  let argvStore := stringStore - stringStore % 4 - 4 * (argc + 1)
  if argvStore - 8 < utemp then pure (.error (-eNoMem))
  else
    let r ← sysPageAlloc e a.page utempPn stackPerm
    if r < 0 then pure (.error r)
    else
      fillStack e argv argc stringStore argvStore
      let r ← giveStack e child a.table
      if r < 0 then pure (.error r) else pure (.ok (utemp2ustack (argvStore - 8)))

/-- What user code of `e` reads outside of the page at `UTEMP`. -/
def besideTemp (v : Vm) (e : EnvIx) : ArgVec.View := fun va =>
  if pgnum va = utempPn then none else userRead v e va

/-! ## Reading -/

variable {v u u' : Vm} {e child : EnvIx} {p n a : Nat} {m : Bytes} {va argv src : Word} {b : Byte}
  {str bytes : List Byte} {strs : List (List Byte)}

theorem load_eq (h : userRead u e va = some b) : load e va u = .ret b u := by
  rw [load, get_bind, h]
  rfl

/-- The word of the four bytes that are read. -/
theorem load_word_eq {w : Word} (h : Reads (userRead u e) va (ArgVec.wordBytes w)) :
    loadWord e va u = .ret w u := by
  have hbyte : ∀ i < 4, userRead u e (va + BitVec.ofNat 32 i) =
      some ((ArgVec.wordBytes w).getD i 0) := h
  have h₀ : userRead u e va = some (w.extractLsb' 0 8) := by
    have hfirst := hbyte 0 (by decide)
    rwa [BitVec.add_zero] at hfirst
  have h₁ : userRead u e (va + 1) = some (w.extractLsb' 8 8) := hbyte 1 (by decide)
  have h₂ : userRead u e (va + 2) = some (w.extractLsb' 16 8) := hbyte 2 (by decide)
  have h₃ : userRead u e (va + 3) = some (w.extractLsb' 24 8) := hbyte 3 (by decide)
  have hword : w.extractLsb' 24 8 ++ w.extractLsb' 16 8 ++ w.extractLsb' 8 8 ++
      w.extractLsb' 0 8 = w := Bytes.load32_store32 (m := fun _ => 0) (a := 0) w
  rw [loadWord, bind_of_ret (load_eq h₀), bind_of_ret (load_eq h₁), bind_of_ret (load_eq h₂),
    bind_of_ret (load_eq h₃)]
  exact congrArg (fun w => Outcome.ret w u) hword

theorem strlen_loop_eq {fuel : Nat} (hchars : (0 : Byte) ∉ str)
    (h : Reads (userRead u e) va (str ++ [0])) (hfuel : str.length < fuel) (k : Word) :
    strlenLoop e fuel va k u = .ret (k + BitVec.ofNat 32 str.length) u := by
  induction str generalizing fuel va k with
  | nil =>
      obtain ⟨fuel, rfl⟩ := Nat.exists_eq_add_one.2 hfuel
      rw [strlenLoop, bind_of_ret (load_eq (ArgVec.reads_cons.1 h).1), if_pos rfl]
      exact congrArg (fun k => Outcome.ret k u) (BitVec.add_zero k).symm
  | cons c rest ih =>
      obtain ⟨fuel, rfl⟩ := Nat.exists_eq_add_one.2 (Nat.zero_lt_of_lt hfuel)
      obtain ⟨hc, hrest⟩ := ArgVec.reads_cons.1 h
      rw [List.mem_cons, not_or] at hchars
      rw [strlenLoop, bind_of_ret (load_eq hc), if_neg (Ne.symm hchars.1),
        ih hchars.2 hrest (Nat.lt_of_succ_lt_succ hfuel)]
      show Outcome.ret (k + BitVec.ofNat 32 1 + _) u = _
      rw [BitVec.add_assoc, ← BitVec.ofNat_add, Nat.add_comm 1]
      rfl

theorem strlen_eq (h : IsString (userRead u e) va str) (hlen : str.length < 2 ^ 32) :
    strlen e va u = .ret (BitVec.ofNat 32 str.length) u := by
  rw [strlen, strlen_loop_eq h.chars h.bytes hlen]
  exact congrArg (fun k => Outcome.ret k u) (BitVec.zero_add _)

theorem slot_eq (argv : Word) (i : Nat) :
    argv + 4 * BitVec.ofNat 32 i = argv + BitVec.ofNat 32 (4 * i) := by
  rw [BitVec.ofNat_mul]
  rfl

theorem one_more (i : Nat) : (BitVec.ofNat 32 i + 1 : Word) = BitVec.ofNat 32 (i + 1) :=
  (BitVec.ofNat_add i 1).symm

/-- A string that fits on the page. -/
theorem length_of_fits {i : Nat} (hfits : Fits 4096 strs) (hstr : strs[i]? = some str) :
    str.length < 4096 ∧ strs.length < 1024 := by
  have hin := ArgVec.size_take_lt hstr
  obtain ⟨hsize, hroom⟩ := hfits
  unfold ArgVec.stringsAt at hroom
  omega

/-- The first loop counts the arguments and measures them. -/
theorem count_args_eq (h : ArgVec.Holds (userRead u e) argv strs) (hfits : Fits 4096 strs)
    {fuel i : Nat} (hi : i ≤ strs.length) (hfuel : strs.length < fuel + i) :
    countArgs e argv fuel (BitVec.ofNat 32 i) (BitVec.ofNat 32 (ArgVec.size (strs.take i))) u =
      .ret (BitVec.ofNat 32 strs.length, BitVec.ofNat 32 (ArgVec.size strs)) u := by
  induction fuel generalizing i with
  | zero => omega
  | succ fuel ih =>
      rw [countArgs]
      by_cases hlast : i = strs.length
      · have hnull := h.last
        rw [← hlast, ← slot_eq] at hnull
        rw [bind_of_ret (load_word_eq hnull), if_pos rfl, hlast, List.take_length]
        rfl
      · have hstr : strs[i]? = some strs[i] := List.getElem?_eq_getElem (by omega)
        obtain ⟨ptr, hne, hslot, hbytes⟩ := h.arg i _ hstr
        obtain ⟨hlen, -⟩ := length_of_fits hfits hstr
        rw [← slot_eq] at hslot
        rw [bind_of_ret (load_word_eq hslot), if_neg hne, bind_of_ret (load_word_eq hslot),
          bind_of_ret (strlen_eq hbytes (by omega)), one_more, one_more, ← BitVec.ofNat_add]
        have hnext := ih (i := i + 1) (by omega) (by omega)
        have hsize := arg_size_take_succ hstr
        rw [arg_size_eq, arg_size_eq] at hsize
        rw [hsize] at hnext
        exact hnext

/-! ## Filling the page -/

/-- The new page `p` is mapped at `UTEMP` of `e` and holds `m`; the other pages are as in `v`. -/
structure Filling (v : Vm) (e : EnvIx) (p : Nat) (m : Bytes) (u : Vm) : Prop where
  map : u.map = (v.sysPageAlloc e p utempPn stackPerm).map
  mem : ∀ q, q ≠ p → u.mem q = v.mem q
  bytes : ∀ x < 4096, pageByte (u.mem p) x = m x

theorem Filling.start (v : Vm) (e : EnvIx) (p : Nat) :
    Filling v e p (fun _ => 0) (v.sysPageAlloc e p utempPn stackPerm) where
  map := rfl
  mem q hq := by
    rw [Vm.mem_sys_page_alloc, if_neg hq]
  bytes x _ := by
    rw [Vm.mem_sys_page_alloc, if_pos rfl]
    show byteOf 0 _ = 0
    simp [byteOf]

/-- The page is at `UTEMP`, and the other entries are as they were. -/
theorem Filling.map_eq (h : Filling v e p m u) (e' : EnvIx) (n : Nat) :
    u.map e' n = if e' = e ∧ n = utempPn then some (p, stackPerm ||| pteP) else v.map e' n := by
  rw [h.map, Vm.map_sys_page_alloc]

/-- What can be read outside of `UTEMP` stays the same. -/
theorem Filling.reads (h : Filling v e p m u) (hnew : ∀ n w, v.map e n ≠ some (p, w))
    (hread : besideTemp v e va = some b) : userRead u e va = some b := by
  unfold besideTemp at hread
  split at hread
  case isTrue => cases hread
  case isFalse hbeside =>
    unfold userRead at hread ⊢
    rw [h.map_eq, if_neg fun hat => hbeside hat.2]
    cases hmap : v.map e (pgnum va) with
    | none =>
        rw [hmap] at hread
        cases hread
    | some x =>
        have hne : x.1 ≠ p := by
          rintro rfl
          exact hnew _ x.2 hmap
        rw [hmap] at hread
        rw [Option.bind_some, h.mem _ hne]
        exact hread

theorem pgnum_utemp {x : Nat} (hx : x < 4096) :
    pgnum (utemp + BitVec.ofNat 32 x) = utempPn ∧ pgoff (utemp + BitVec.ofNat 32 x) = x := by
  have hsum : (utemp + BitVec.ofNat 32 x).toNat = 4194304 + x := by
    rw [BitVec.toNat_add, BitVec.toNat_ofNat, utemp_to_nat]
    omega
  rw [pgnum_eq, pgoff_eq, hsum, utemp_pn_eq]
  omega

/-- A store into the page. -/
theorem Filling.store (h : Filling v e p m u) {x : Nat} (hx : x < 4096) (b : Byte) :
    ∃ u', store e (utemp + BitVec.ofNat 32 x) b u = .ret () u' ∧
      Filling v e p (Function.update m x b) u' := by
  obtain ⟨hpn, hoff⟩ := pgnum_utemp hx
  refine ⟨setByte u p x b, ?_, h.map, fun q hq => ?_, fun y hy => ?_⟩
  · rw [Spawn.store, get_bind, hpn, h.map_eq, if_pos ⟨rfl, rfl⟩, hoff]
    rfl
  · show Function.update u.mem p _ q = _
    rw [Function.update_of_ne hq]
    exact h.mem q hq
  · show pageByte (Function.update u.mem p _ p) y = _
    rw [Function.update_self, page_byte_set]
    by_cases hyx : y = x
    · rw [hyx, Function.update_self, Function.update_self]
    · rw [Function.update_of_ne hyx, Function.update_of_ne hyx]
      exact h.bytes y hy

theorem next_utemp (a : Nat) :
    utemp + BitVec.ofNat 32 a + 1 = utemp + BitVec.ofNat 32 (a + 1) := by
  rw [BitVec.add_assoc, one_more]

theorem Filling.store_all (h : Filling v e p m u) (hle : a + bytes.length ≤ 4096) :
    ∃ u', storeAll e bytes (utemp + BitVec.ofNat 32 a) u = .ret () u' ∧
      Filling v e p (m.store a bytes) u' := by
  induction bytes generalizing a m u with
  | nil =>
      refine ⟨u, rfl, h.map, h.mem, fun x hx => ?_⟩
      rw [Bytes.store_of_not (by simp)]
      exact h.bytes x hx
  | cons c rest ih =>
      rw [List.length_cons] at hle
      obtain ⟨u₁, hstore, h₁⟩ := h.store (show a < 4096 by omega) c
      obtain ⟨u₂, hrest, h₂⟩ := ih h₁ (a := a + 1) (by omega)
      refine ⟨u₂, ?_, ?_⟩
      · rw [storeAll, bind_of_ret hstore, next_utemp]
        exact hrest
      · rw [store_cons]
        exact h₂

theorem Filling.store_word (h : Filling v e p m u) (hle : a + 4 ≤ 4096) (w : Word) :
    ∃ u', storeWord e (utemp + BitVec.ofNat 32 a) w u = .ret () u' ∧
      Filling v e p (m.store a (ArgVec.wordBytes w)) u' := by
  rw [← word_bytes_eq]
  exact h.store_all hle

/-- `strcpy` into the page. -/
theorem Filling.strcpy_loop (h : Filling v e p m u) (hnew : ∀ n w, v.map e n ≠ some (p, w))
    {fuel : Nat} (hchars : (0 : Byte) ∉ str) (hsrc : Reads (besideTemp v e) src (str ++ [0]))
    (hle : a + (str.length + 1) ≤ 4096) (hfuel : str.length < fuel) :
    ∃ u', strcpyLoop e fuel (utemp + BitVec.ofNat 32 a) src u = .ret () u' ∧
      Filling v e p (m.store a (str ++ [0])) u' := by
  induction str generalizing fuel a src m u with
  | nil =>
      obtain ⟨fuel, rfl⟩ := Nat.exists_eq_add_one.2 hfuel
      obtain ⟨u₁, hstore, h₁⟩ := h.store_all (show a + ([0] : List Byte).length ≤ 4096 from hle)
      refine ⟨u₁, ?_, h₁⟩
      obtain ⟨hzero, -⟩ := ArgVec.reads_cons.1 hsrc
      rw [strcpyLoop, bind_of_ret (load_eq (h.reads hnew hzero))]
      rw [storeAll, storeAll] at hstore
      rw [show (0 : Byte) = 0 from rfl, if_pos rfl]
      exact hstore
  | cons c rest ih =>
      obtain ⟨fuel, rfl⟩ := Nat.exists_eq_add_one.2 (Nat.zero_lt_of_lt hfuel)
      obtain ⟨hc, hrest⟩ := ArgVec.reads_cons.1 hsrc
      rw [List.mem_cons, not_or] at hchars
      rw [List.length_cons] at hle hfuel
      obtain ⟨u₁, hstore, h₁⟩ := h.store (show a < 4096 by omega) c
      obtain ⟨u₂, hloop, h₂⟩ := ih h₁ hchars.2 hrest (a := a + 1) (by omega)
        (Nat.lt_of_succ_lt_succ hfuel)
      refine ⟨u₂, ?_, ?_⟩
      · rw [strcpyLoop, bind_of_ret (load_eq (h.reads hnew hc)), bind_of_ret hstore,
          if_neg (Ne.symm hchars.1), next_utemp]
        exact hloop
      · rw [List.cons_append, store_cons]
        exact h₂

/-- An address at `UTEMP` is that of the same place on the stack page. -/
theorem utemp2ustack_eq (a : Nat) :
    utemp2ustack (utemp + BitVec.ofNat 32 a) = stackPage + BitVec.ofNat 32 a := by
  unfold utemp2ustack stackPage
  generalize utemp = t
  generalize ustacktop - pgsizeW = s
  generalize BitVec.ofNat 32 a = x
  rw [BitVec.add_comm t x, BitVec.add_assoc, BitVec.add_comm t s, ← BitVec.add_assoc,
    BitVec.add_sub_cancel, BitVec.add_comm]

/-- The second loop stores the arguments and their addresses. -/
theorem Filling.store_args (h : Filling v e p m u) (hnew : ∀ n w, v.map e n ≠ some (p, w))
    {slot off i : Nat}
    (hargs : ∀ j str, strs[j]? = some str → ∃ ptr, ptr ≠ 0 ∧
      Reads (besideTemp v e) (argv + BitVec.ofNat 32 (4 * (i + j))) (ArgVec.wordBytes ptr) ∧
        IsString (besideTemp v e) ptr str)
    (hle : slot + 4 * i + 4 * strs.length ≤ off) (htop : off + ArgVec.size strs ≤ 4096) :
    ∃ u', storeArgs e argv (utemp + BitVec.ofNat 32 slot) strs.length (BitVec.ofNat 32 i)
        (utemp + BitVec.ofNat 32 off) u =
          .ret (utemp + BitVec.ofNat 32 (off + ArgVec.size strs)) u' ∧
      Filling v e p (ArgVec.storeArgs stackPage strs (slot + 4 * i) off m) u' := by
  induction strs generalizing i off m u with
  | nil => exact ⟨u, rfl, h⟩
  | cons str rest ih =>
      rw [List.length_cons] at hle
      rw [ArgVec.size_cons] at htop
      obtain ⟨ptr, -, hptr, hstr⟩ := hargs 0 str rfl
      rw [Nat.add_zero, ← slot_eq] at hptr
      obtain ⟨u₁, hslot, h₁⟩ := h.store_word (a := slot + 4 * i) (by omega)
        (stackPage + BitVec.ofNat 32 off)
      obtain ⟨u₂, hcopy, h₂⟩ := h₁.strcpy_loop hnew (a := off) hstr.chars hstr.bytes (by omega)
        (show str.length < 2 ^ 32 by omega)
      have hread₁ := load_word_eq (hptr.mono fun _ _ => h₁.reads hnew)
      have hread₂ := load_word_eq (hptr.mono fun _ _ => h₂.reads hnew)
      have hlen := strlen_eq (hstr.mono fun _ _ => h₂.reads hnew) (by omega)
      obtain ⟨u₃, hrest, h₃⟩ := ih h₂ (i := i + 1)
        (fun j str' hj => by
          have harg := hargs (j + 1) str' hj
          rwa [show i + (j + 1) = i + 1 + j by omega] at harg)
        (show slot + 4 * (i + 1) + 4 * rest.length ≤ off + (str.length + 1) by omega) (by omega)
      refine ⟨u₃, ?_, ?_⟩
      · rw [List.length_cons, storeArgs, slot_eq, BitVec.add_assoc, ← BitVec.ofNat_add,
          utemp2ustack_eq, bind_of_ret hslot, bind_of_ret hread₁, strcpy, bind_of_ret hcopy,
          bind_of_ret hread₂, bind_of_ret hlen, one_more, one_more, BitVec.add_assoc,
          ← BitVec.ofNat_add, hrest, ArgVec.size_cons, Nat.add_assoc]
      · exact h₃

/-- The page is filled with the arguments, and no assertion fails. -/
theorem Filling.fill_stack (h : Filling v e p (fun _ => 0) u)
    (hnew : ∀ n w, v.map e n ≠ some (p, w)) (hargv : ArgVec.Holds (besideTemp v e) argv strs)
    (hfits : Fits 4096 strs) :
    ∃ u', fillStack e argv (BitVec.ofNat 32 strs.length)
        (utemp + BitVec.ofNat 32 (ArgVec.stringsAt 4096 strs))
        (utemp + BitVec.ofNat 32 (ArgVec.slotsAt 4096 strs)) u = .ret () u' ∧
      Filling v e p (stackImage strs) u' := by
  obtain ⟨hslot, hle, htop⟩ := hfits.slots_at
  have hcount : (BitVec.ofNat 32 strs.length).toNat = strs.length := by
    rw [BitVec.toNat_ofNat]
    omega
  obtain ⟨u₁, hloop, h₁⟩ := h.store_args hnew (i := 0)
    (fun j str hj => by
      rw [Nat.zero_add]
      exact hargv.arg j str hj)
    (show ArgVec.slotsAt 4096 strs + 4 * 0 + 4 * strs.length ≤ ArgVec.stringsAt 4096 strs by omega)
    (by omega)
  obtain ⟨u₂, hnull, h₂⟩ := h₁.store_word (a := ArgVec.slotsAt 4096 strs + 4 * strs.length)
    (by omega) 0
  obtain ⟨u₃, hptr, h₃⟩ := h₂.store_word (a := ArgVec.slotsAt 4096 strs - 4) (by omega)
    (stackPage + BitVec.ofNat 32 (ArgVec.slotsAt 4096 strs))
  obtain ⟨u₄, hargc, h₄⟩ := h₃.store_word (a := ArgVec.slotsAt 4096 strs - 8) (by omega)
    (BitVec.ofNat 32 strs.length)
  have hbelow : ∀ k ≤ ArgVec.slotsAt 4096 strs,
      utemp + BitVec.ofNat 32 (ArgVec.slotsAt 4096 strs) - BitVec.ofNat 32 k =
        utemp + BitVec.ofNat 32 (ArgVec.slotsAt 4096 strs - k) := by
    intro k hk
    apply BitVec.eq_of_toNat_eq
    rw [BitVec.toNat_sub, BitVec.toNat_add, BitVec.toNat_add, BitVec.toNat_ofNat,
      BitVec.toNat_ofNat, BitVec.toNat_ofNat, utemp_to_nat]
    omega
  have hend : utemp + BitVec.ofNat 32 (ArgVec.stringsAt 4096 strs + ArgVec.size strs) =
      utemp + pgsizeW := by
    rw [htop]
    rfl
  have hloop' : storeArgs e argv (utemp + BitVec.ofNat 32 (ArgVec.slotsAt 4096 strs)) strs.length 0
      (utemp + BitVec.ofNat 32 (ArgVec.stringsAt 4096 strs)) u =
        .ret (utemp + BitVec.ofNat 32 (ArgVec.stringsAt 4096 strs + ArgVec.size strs)) u₁ := hloop
  have hfour : utemp + BitVec.ofNat 32 (ArgVec.slotsAt 4096 strs) - 4 =
      utemp + BitVec.ofNat 32 (ArgVec.slotsAt 4096 strs - 4) := hbelow 4 (by omega)
  have height : utemp + BitVec.ofNat 32 (ArgVec.slotsAt 4096 strs) - 8 =
      utemp + BitVec.ofNat 32 (ArgVec.slotsAt 4096 strs - 8) := hbelow 8 (by omega)
  refine ⟨u₄, ?_, h₄⟩
  rw [fillStack, hcount, bind_of_ret hloop', slot_eq, BitVec.add_assoc, ← BitVec.ofNat_add,
    bind_of_ret hnull, hend, if_neg (not_not_intro rfl), utemp2ustack_eq, hfour, bind_of_ret hptr,
    height, hargc]

/-! ## The stack of the child -/

/-- The page below `USTACKTOP` of `e` holds `m`, and user code of `e` may read it. -/
def HoldsStack (v : Vm) (e : EnvIx) (m : Bytes) : Prop :=
  ∃ p w, v.map e ustackPn = some (p, w) ∧ hasFlag w pteU = true ∧
    ∀ x < 4096, pageByte (v.mem p) x = m x

/-- What user code reads on its stack page. -/
theorem HoldsStack.reads (h : HoldsStack v e m) {x : Nat} (hx : x < 4096) :
    userRead v e (stackPage + BitVec.ofNat 32 x) = some (m x) := by
  obtain ⟨p, w, hmap, huser, hbytes⟩ := h
  obtain ⟨hpn, hoff⟩ := pgnum_stack_page hx
  rw [userRead, hpn, hoff, hmap]
  show (if hasFlag w pteU then some (pageByte (v.mem p) x) else none) = _
  rw [if_pos huser, hbytes x hx]

/-- If the page is given to the child, the child has it below `USTACKTOP`. -/
theorem give_stack_spec (h : Filling v e p m u) (child : EnvIx) (table : Bool) :
    wp (giveStack e child table) (fun r v' => 0 ≤ r → HoldsStack v' child m) (fun _ _ => True)
      u := by
  have hunmap : ∀ u₁ : Vm, sysPageUnmap e utempPn u₁ = .ret 0 (u₁.sysPageUnmap e utempPn) := by
    intro u₁
    rw [sysPageUnmap, if_neg (by rw [user_pages_eq, utemp_pn_eq]; decide)]
    rfl
  have hneg : ∀ r : Int, r < 0 → wp (do
      let _ ← sysPageUnmap e utempPn
      pure r) (fun r v' => 0 ≤ r → HoldsStack v' child m) (fun _ _ => True) u := by
    intro r hr
    rw [wp_bind, wp_of_ret (hunmap u)]
    exact fun hle => absurd hr (by omega)
  rw [giveStack, wp_bind, sysPageMap, wp_bind, wp_get]
  cases hmap : u.sysPageMap e utempPn child ustackPn stackPerm with
  | none =>
      rw [wp_pure, wp_ite]
      exact ⟨hneg _, fun hle => absurd (by decide) hle⟩
  | some u₁ =>
      cases table with
      | false =>
          dsimp only
          rw [if_neg (by decide), wp_pure, wp_ite]
          exact ⟨hneg _, fun hle => absurd (by decide) hle⟩
      | true =>
          dsimp only
          rw [if_pos rfl, wp_bind, wp_modify, wp_pure, if_neg (by decide), wp_bind,
            wp_of_ret (hunmap u₁), if_neg (by decide), wp_pure]
          intro _
          obtain ⟨-, -, q, w, hsrc, -, rfl⟩ := Vm.sys_page_map_some hmap
          rw [h.map_eq, if_pos ⟨rfl, rfl⟩] at hsrc
          cases hsrc
          refine ⟨p, stackPerm ||| pteP, ?_, by decide, fun x hx => ?_⟩
          · rw [Vm.sysPageUnmap, Vm.map_page_remove, if_neg, Vm.map_page_insert,
              if_pos ⟨rfl, rfl⟩]
            rintro ⟨-, hpn⟩
            rw [Fork.ustack_pn_eq, utemp_pn_eq] at hpn
            cases hpn
          · rw [Vm.sysPageUnmap, Vm.mem_page_remove, Vm.mem_page_insert]
            exact h.bytes x hx

/-- The addresses that `init_stack` computes. -/
theorem stack_addresses (hfits : Fits 4096 strs) :
    utemp + pgsizeW - BitVec.ofNat 32 (ArgVec.size strs) =
        utemp + BitVec.ofNat 32 (ArgVec.stringsAt 4096 strs) ∧
      utemp + BitVec.ofNat 32 (ArgVec.stringsAt 4096 strs) -
          (utemp + BitVec.ofNat 32 (ArgVec.stringsAt 4096 strs)) % 4 -
            4 * (BitVec.ofNat 32 strs.length + 1) =
        utemp + BitVec.ofNat 32 (ArgVec.slotsAt 4096 strs) ∧
      utemp + BitVec.ofNat 32 (ArgVec.slotsAt 4096 strs) - 8 =
        utemp + BitVec.ofNat 32 (ArgVec.slotsAt 4096 strs - 8) := by
  obtain ⟨hslot, hle, htop⟩ := hfits.slots_at
  have hpage : pgsizeW.toNat = 4096 := rfl
  have hfour : (4 : Word).toNat = 4 := rfl
  have height : (8 : Word).toNat = 8 := rfl
  have haddr : ∀ x ≤ 4096, (utemp + BitVec.ofNat 32 x).toNat = 4194304 + x := by
    intro x hx
    rw [BitVec.toNat_add, BitVec.toNat_ofNat, utemp_to_nat]
    omega
  refine ⟨?_, ?_, ?_⟩
  · apply BitVec.eq_of_toNat_eq
    rw [BitVec.toNat_sub, BitVec.toNat_add, BitVec.toNat_add, BitVec.toNat_ofNat,
      BitVec.toNat_ofNat, utemp_to_nat, hpage]
    omega
  · have hcount : (4 * (BitVec.ofNat 32 strs.length + 1) : Word).toNat = 4 * (strs.length + 1) := by
      rw [one_more, BitVec.toNat_mul, BitVec.toNat_ofNat, hfour]
      omega
    apply BitVec.eq_of_toNat_eq
    have hdef : ArgVec.slotsAt 4096 strs =
        ArgVec.stringsAt 4096 strs / 4 * 4 - 4 * (strs.length + 1) := rfl
    rw [BitVec.toNat_sub, BitVec.toNat_sub, BitVec.toNat_umod, hcount, hfour,
      haddr _ (by omega), haddr _ (by omega)]
    omega
  · apply BitVec.eq_of_toNat_eq
    rw [BitVec.toNat_sub, height, haddr _ (by omega), haddr _ (by omega)]
    omega

/-- `init_stack` that accepts its arguments gives the child the page of the arguments, and returns
the stack pointer to it. -/
theorem init_stack_spec (child : EnvIx) (hcount : v.Counted) {ans : Answers}
    (hfree : ∀ p, ans.page = some p → v.free p = true)
    (hargv : ArgVec.Holds (besideTemp v e) argv strs) (hfits : Fits 4096 strs) :
    wp (initStack e child ans argv) (fun r v' => ∀ esp, r = .ok esp →
      esp = stackStart strs ∧ HoldsStack v' child (stackImage strs)) (fun _ _ => True) v := by
  have hread : ∀ x b, besideTemp v e x = some b → userRead v e x = some b := by
    intro x b hx
    unfold besideTemp at hx
    split at hx
    · cases hx
    · exact hx
  have hholds : ArgVec.Holds (userRead v e) argv strs := by
    refine ⟨fun i str hstr => ?_, hargv.last.mono hread⟩
    obtain ⟨ptr, hne, hptr, hbytes⟩ := hargv.arg i str hstr
    exact ⟨ptr, hne, hptr.mono hread, hbytes.mono hread⟩
  obtain ⟨hslot, hle, htop⟩ := hfits.slots_at
  have hargs : countArgs e argv (2 ^ 30) 0 0 v =
      .ret (BitVec.ofNat 32 strs.length, BitVec.ofNat 32 (ArgVec.size strs)) v :=
    count_args_eq hholds hfits (i := 0) (Nat.zero_le _) (by omega)
  obtain ⟨hstrings, hslots, hesp⟩ := stack_addresses hfits
  rw [initStack, wp_bind, wp_of_ret hargs]
  dsimp only
  rw [hstrings, hslots, hesp, wp_ite]
  refine ⟨fun _ _ h => (by cases h), fun _ => ?_⟩
  unfold sysPageAlloc
  rw [wp_bind, wp_ite]
  refine ⟨fun _ => ?_, fun _ => ?_⟩
  · rw [wp_pure, if_pos (by decide)]
    exact fun _ h => (by cases h)
  · cases hpage : ans.page with
    | none =>
        rw [wp_pure, if_pos (by decide)]
        exact fun _ h => (by cases h)
    | some p =>
        have hnew : ∀ n w, v.map e n ≠ some (p, w) := fun n w => hcount.not_mapped (hfree p hpage)
        obtain ⟨u, hfill, hfilled⟩ := (Filling.start v e p).fill_stack hnew hargv hfits
        rw [wp_bind, wp_modify, wp_pure, if_neg (by decide), wp_bind, wp_of_ret hfill, wp_bind]
        refine wp_mono_ret (give_stack_spec hfilled child ans.table) fun r v' hr => ?_
        rw [wp_ite]
        refine ⟨fun _ _ h => (by cases h), fun hpos esp h => ?_⟩
        cases h
        refine ⟨?_, hr (by omega)⟩
        rw [utemp2ustack_eq]
        rfl

end Labs.Jos.Spawn
