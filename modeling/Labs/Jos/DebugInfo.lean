import Labs.Jos.StabRegion
import Labs.Jos.UserCheck

/-!
# Debugging information of a user program

`debuginfo_eip` of `kern/kdebug.c`, with every load from user memory and every index of a stab. The
kernel takes the place and the size of both tables from user memory. A load is checked against the
ranges that `user_mem_check` has accepted so far: a run that comes to another address or to an index
outside the table, stops there.
-/

namespace Labs.Jos.Kdebug

open Prog

def ustabdata : Word := 0x200000

/-- `N_FUN`. -/
def nFun : Int := 0x24

/-- `N_SLINE`. -/
def nSline : Int := 0x44

/-- `N_SOL`. -/
def nSol : Int := 0x84

/-- `N_PSYM`. -/
def nPsym : Int := 0xa0

/-- Why a run does not come to its end. -/
inductive Stop where
  /-- A byte of user memory outside the accepted ranges. -/
  | address (va : Word)
  /-- An index outside the table. -/
  | index (i : Int)
  | hang
  | kernel (reason : Exit)

/-- The kernel, and the ranges that `user_mem_check` has accepted. -/
structure World where
  kern : Kernel
  accepted : List (Word × Word)

/-- The byte lies in an accepted range. -/
def World.Accepted (w : World) (va : Word) : Prop := ∃ x ∈ w.accepted, InRange x.1 x.2 va.toNat

instance (va len : Word) (a : Nat) : Decidable (InRange va len a) :=
  inferInstanceAs (Decidable (_ ∧ _))

instance (w : World) (va : Word) : Decidable (w.Accepted va) :=
  inferInstanceAs (Decidable (∃ x ∈ w.accepted, InRange x.1 x.2 va.toNat))

/-- `user_mem_check(curenv, va, len, PTE_U)`. -/
def check (curenv : EnvIx) (va len : Word) : Prog World Stop Int := do
  let r ← rescue (zoom World.kern (fun s w => { w with kern := s })
    (userMemCheck curenv va len pteU)) fun reason => exit (.kernel reason)
  if r < 0 then pure r
  else
    modify fun w => { w with accepted := (va, len) :: w.accepted }
    pure r

/-! ## Loads from user memory -/

/-- Load a byte of user memory, whose contents are `mem`. -/
def loadByte (mem : Word → Byte) (va : Word) : Prog World Stop Byte := do
  let w ← get
  if w.Accepted va then pure (mem va) else exit (.address va)

def loadHalf (mem : Word → Byte) (va : Word) : Prog World Stop (BitVec 16) := do
  let lo ← loadByte mem va
  let hi ← loadByte mem (va + 1)
  pure (hi ++ lo)

def loadWord (mem : Word → Byte) (va : Word) : Prog World Stop Word := do
  let lo ← loadHalf mem va
  let hi ← loadHalf mem (va + 2)
  pure (hi ++ lo)

/-- What such loads yield. -/
def half (mem : Word → Byte) (va : Word) : BitVec 16 := mem (va + 1) ++ mem va

def word (mem : Word → Byte) (va : Word) : Word := half mem (va + 2) ++ half mem va

/-- `struct UserStabData`. -/
structure UserStabData where
  stabs : Word
  stabEnd : Word
  stabstr : Word
  stabstrEnd : Word

/-- `*usd`. -/
def usd (mem : Word → Byte) : UserStabData where
  stabs := word mem ustabdata
  stabEnd := word mem (ustabdata + 4)
  stabstr := word mem (ustabdata + 8)
  stabstrEnd := word mem (ustabdata + 12)

namespace UserStabData

variable (d : UserStabData)

/-- `stab_end - stabs`, which counts entries of 12 bytes. C leaves the difference of pointers that
are no whole number of entries apart undefined; here it is rounded towards zero. -/
def count : Int := (d.stabEnd - d.stabs).toInt.tdiv 12

/-- The address of byte `off` of entry `i`. -/
def addr (i : Int) (off : Word) : Word := d.stabs + BitVec.ofInt 32 (12 * i) + off

/-- Load a field of entry `i`. -/
def field {α : Type} (load : Word → Prog World Stop α) (off : Word) (i : Int) :
    Prog World Stop α := do
  if 0 ≤ i ∧ i < d.count then load (d.addr i off) else exit (.index i)

/-- The loads of the fields. -/
def loads (mem : Word → Byte) : Stabs (Prog World Stop) where
  nStrx := d.field (loadWord mem) 0
  nType := d.field (loadByte mem) 4
  nDesc := d.field (loadHalf mem) 6
  nValue := d.field (loadWord mem) 8

/-- The entries in memory. -/
def table (mem : Word → Byte) (i : Int) : Stab where
  nStrx := word mem (d.addr i 0)
  nType := mem (d.addr i 4)
  nDesc := half mem (d.addr i 6)
  nValue := word mem (d.addr i 8)

end UserStabData

/-- The two tables that a search is made in, and how they are read. -/
structure Tables where
  stabs : Stabs (Prog World Stop)
  count : Int
  byte : Word → Prog World Stop Byte
  stabstr : Word
  stabstrEnd : Word

/-! ## The lookup -/

/-- `struct Eipdebuginfo`. A name is that of the kernel's `"<unknown>"` if it is `none`, and otherwise
a pointer. -/
structure Eipdebuginfo where
  eipFile : Option Word
  eipLine : Int
  eipFnName : Option Word
  eipFnNamelen : Int
  eipFnAddr : Word
  eipFnNarg : Int

/-- `*info` at the start. -/
def Eipdebuginfo.start (addr : Word) : Eipdebuginfo := ⟨none, 0, none, 9, addr, 0⟩

namespace Tables

variable (t : Tables)

/-- `stab_binsearch`. -/
def search (type left right : Int) (addr : Word) : Prog World Stop (Int × Int) := do
  match ← stabBinsearch t.stabs type left right addr with
  | some region => pure region
  | none => exit .hang

/-- `stabstr + stabs[i].n_strx`, if that is in the string table, and otherwise the old name. -/
def name (i : Int) (old : Option Word) : Prog World Stop (Option Word) := do
  let strx ← t.stabs.nStrx i
  if strx < t.stabstrEnd - t.stabstr then pure (some (t.stabstr + strx)) else pure old

/-- Fill in the function, and find the entries and the address for the search of the line. -/
def findFunction (file func : Int × Int) (addr : Word) (info : Eipdebuginfo) :
    Prog World Stop (Eipdebuginfo × (Int × Int) × Word) := do
  if func.1 ≤ func.2 then
    let name ← t.name func.1 info.eipFnName
    let value ← t.stabs.nValue func.1
    pure ({ info with eipFnName := name, eipFnAddr := value }, func, addr - value)
  else
    -- Couldn't find function stab!  Maybe we're in an assembly file.
    pure ({ info with eipFnAddr := addr }, file, addr)

/-- `strfind`, with at most `n` characters before the end of the string. -/
def strfind (c : Byte) : Nat → Word → Prog World Stop Word
  | 0, _ => exit .hang
  | n + 1, s => do
      let b ← t.byte s
      if b = 0 ∨ b = c then pure s else strfind c n (s + 1)

/-- `strfind(info->eip_fn_name, ':') - info->eip_fn_name`. -/
def nameLength : Option Word → Prog World Stop Int
  | none => pure 9
  | some s => do
      let stop ← t.strfind 58 (t.stabstrEnd - s).toNat s
      pure (stop - s).toInt

/-- At most `n` passes of the loop that looks for the file of a line, backwards from `lline`. -/
def backPasses (lfile : Int) : Nat → Int → Prog World Stop Int
  | 0, lline => pure lline
  | n + 1, lline => do
      if lfile ≤ lline then
        let type ← t.stabs.nType lline
        if (type.toNat : Int) = nSol then pure lline
        else if (type.toNat : Int) = nSo then
          let value ← t.stabs.nValue lline
          if value ≠ 0 then pure lline else backPasses lfile n (lline - 1)
        else backPasses lfile n (lline - 1)
      else pure lline

/-- The loop that looks for the file of a line. -/
def back (lfile lline : Int) : Prog World Stop Int :=
  t.backPasses lfile (lline + 1 - lfile).toNat lline

/-- At most `n` passes of the loop that counts arguments. -/
def argPasses (rfun : Int) : Nat → Int → Int → Prog World Stop Int
  | 0, _, narg => pure narg
  | n + 1, lline, narg => do
      if lline < rfun then
        let type ← t.stabs.nType lline
        if (type.toNat : Int) = nPsym then argPasses rfun n (lline + 1) (narg + 1) else pure narg
      else pure narg

/-- `eip_file`, with the entry that the backward search has come to. -/
def fileName (lfile lline : Int) (old : Option Word) : Prog World Stop (Option Word) :=
  if lfile ≤ lline then t.name lline old else pure old

/-- `eip_fn_narg`. -/
def argCount (func : Int × Int) (narg : Int) : Prog World Stop Int :=
  if func.1 < func.2 then
    t.argPasses func.2 (func.2 - (func.1 + 1)).toNat (func.1 + 1) narg
  else pure narg

/-- The end of the function, after a line has been found. -/
def findFile (file func : Int × Int) (lline : Int) (info : Eipdebuginfo) :
    Prog World Stop (Int × Eipdebuginfo) := do
  let desc ← t.stabs.nDesc lline
  let lline ← t.back file.1 lline
  let name ← t.fileName file.1 lline info.eipFile
  let narg ← t.argCount func info.eipFnNarg
  pure (0, { info with eipLine := desc.toNat, eipFile := name, eipFnNarg := narg })

/-- The search for the line, in the entries of the function. -/
def findLine (file func : Int × Int) (addr : Word) (info : Eipdebuginfo) :
    Prog World Stop (Int × Eipdebuginfo) := do
  let found ← t.findFunction file func addr info
  let namelen ← t.nameLength found.1.eipFnName
  let info := { found.1 with eipFnNamelen := namelen }
  let line ← t.search nSline found.2.1.1 found.2.1.2 found.2.2
  if line.1 ≤ line.2 then t.findFile file func line.1 info else pure (-1, info)

/-- The part of `debuginfo_eip` after the tables have been found. -/
def lookup (addr : Word) (info : Eipdebuginfo) : Prog World Stop (Int × Eipdebuginfo) := do
  -- String table validity checks
  if t.stabstrEnd ≤ t.stabstr then pure (-1, info)
  else
    let last ← t.byte (t.stabstrEnd - 1)
    if last ≠ 0 then pure (-1, info)
    else
      let file ← t.search nSo 0 (t.count - 1) addr
      if file.1 = 0 then pure (-1, info)
      else
        let func ← t.search nFun file.1 file.2 addr
        t.findLine file func addr info

end Tables

/-- The tables of a user program. -/
def UserStabData.tables (d : UserStabData) (mem : Word → Byte) : Tables where
  stabs := d.loads mem
  count := d.count
  byte := loadByte mem
  stabstr := d.stabstr
  stabstrEnd := d.stabstrEnd

/-- `*usd`, loaded. -/
def loadUsd (mem : Word → Byte) : Prog World Stop UserStabData := do
  let stabs ← loadWord mem ustabdata
  let stabEnd ← loadWord mem (ustabdata + 4)
  let stabstr ← loadWord mem (ustabdata + 8)
  let stabstrEnd ← loadWord mem (ustabdata + 12)
  pure ⟨stabs, stabEnd, stabstr, stabstrEnd⟩

/-- `debuginfo_eip`, with the kernel's own tables for its own addresses. -/
def debuginfoEip (kernel : Tables) (curenv : EnvIx) (mem : Word → Byte) (addr : Word) :
    Prog World Stop (Int × Eipdebuginfo) := do
  let info := Eipdebuginfo.start addr
  if ulim ≤ addr then kernel.lookup addr info
  else
    -- Make sure this memory is valid.
    let r ← check curenv ustabdata 16
    if r < 0 then pure (-1, info)
    else
      let d ← loadUsd mem
      -- Make sure the STABS and string table memory is valid.
      let r ← check curenv d.stabs (BitVec.ofInt 32 d.count)
      if r < 0 then pure (-1, info)
      else
        let r ← check curenv d.stabstr (d.stabstrEnd - d.stabstr)
        if r < 0 then pure (-1, info)
        else (d.tables mem).lookup addr info

/-! ## What is to be shown -/

/-- The function terminates, and stays inside the accepted ranges and inside the table. -/
def Safe (kernel : Tables) (curenv : EnvIx) (mem : Word → Byte) (s : Kernel) (addr : Word) : Prop :=
  ∃ r w, debuginfoEip kernel curenv mem addr ⟨s, []⟩ = .ret r w

/-- `user_mem_check(curenv, va, len, PTE_U)` returns 0. -/
def Accepts (s : Kernel) (curenv : EnvIx) (va len : Word) : Prop :=
  userMemCheck curenv va len pteU s = .ret 0 s

/-- The validity checks let a table that is not empty pass. -/
structure Checked (s : Kernel) (curenv : EnvIx) (mem : Word → Byte) : Prop where
  header : Accepts s curenv ustabdata 16
  table : Accepts s curenv (usd mem).stabs (BitVec.ofInt 32 (usd mem).count)
  strings : Accepts s curenv (usd mem).stabstr ((usd mem).stabstrEnd - (usd mem).stabstr)
  order : (usd mem).stabstr < (usd mem).stabstrEnd
  terminated : mem ((usd mem).stabstrEnd - 1) = 0
  nonempty : 0 < (usd mem).count

namespace UserStabData

variable (d : UserStabData)

/-- One of the three ranges that are checked. -/
def InChecked (a : Word) : Prop :=
  InRange ustabdata 16 a.toNat ∨ InRange d.stabs (BitVec.ofInt 32 d.count) a.toNat ∨
    InRange d.stabstr (d.stabstrEnd - d.stabstr) a.toNat

/-- All bytes of the table lie in the ranges that are checked. -/
def Covered : Prop :=
  ∀ i, 0 ≤ i → i < d.count → ∀ off : Word, off.toNat < 12 → d.InChecked (d.addr i off)

/-- No byte of the table lies in the range of `*usd` or of the string table. -/
def Apart : Prop :=
  ∀ i, 0 ≤ i → i < d.count → ∀ off : Word, off.toNat < 12 →
    ¬ InRange ustabdata 16 (d.addr i off).toNat ∧
      ¬ InRange d.stabstr (d.stabstrEnd - d.stabstr) (d.addr i off).toNat

end UserStabData

/-! ## Programs that change nothing -/

section Yields

variable {α β : Type} {w : World} {P : α → Prop} {Q : β → Prop}

/-- In state `w` the program returns a value with the property `P`, and changes nothing. -/
def Yields (x : Prog World Stop α) (w : World) (P : α → Prop) : Prop := ∃ a, x w = .ret a w ∧ P a

theorem yields_pure {a : α} (h : P a) : Yields (pure a) w P := ⟨a, rfl, h⟩

theorem yields_of_ret {x : Prog World Stop α} {a : α} (h : x w = .ret a w) (ha : P a) :
    Yields x w P :=
  ⟨a, h, ha⟩

theorem Yields.bind {x : Prog World Stop α} {f : α → Prog World Stop β} (h : Yields x w P)
    (hf : ∀ a, P a → Yields (f a) w Q) : Yields (x >>= f) w Q := by
  obtain ⟨a, hx, ha⟩ := h
  obtain ⟨b, hb, hQ⟩ := hf a ha
  exact ⟨b, by rw [bind_of_ret hx, hb], hQ⟩

end Yields

/-! ## The lookup in tables that can be read -/

/-- In state `w` the entries of the tables are those of `tab`, the strings are those of `mem`, and
the last string ends. -/
structure Readable (t : Tables) (tab : Int → Stab) (mem : Word → Byte) (w : World) : Prop where
  stabs : Serves t.stabs tab 0 t.count w
  byte : ∀ a : Word, t.stabstr.toNat ≤ a.toNat → a.toNat < t.stabstrEnd.toNat →
    t.byte a w = .ret (mem a) w
  order : t.stabstr < t.stabstrEnd
  terminated : mem (t.stabstrEnd - 1) = 0

namespace Readable

variable {t : Tables} {tab : Int → Stab} {mem : Word → Byte} {w : World} {addr : Word}
  {type l r : Int} {info : Eipdebuginfo} {file func : Int × Int}

theorem search (h : Readable t tab mem w) (type : Int) (hl : 0 ≤ l) (hle : l ≤ r) (hr : r < t.count) :
    Yields (t.search type l r addr) w fun region =>
      Id.run (stabBinsearch (Stabs.pure tab) type l r addr) = some region := by
  have hserves : Serves t.stabs tab l (r + 1) w :=
    ⟨fun i hi hi' => h.stabs.nStrx i (by omega) (by omega),
      fun i hi hi' => h.stabs.nType i (by omega) (by omega),
      fun i hi hi' => h.stabs.nDesc i (by omega) (by omega),
      fun i hi hi' => h.stabs.nValue i (by omega) (by omega)⟩
  obtain ⟨region, heq, -⟩ := stab_binsearch_result tab type addr hle
  refine ⟨region, ?_, heq⟩
  rw [Tables.search, bind_of_ret (hserves.stab_binsearch type hle addr), heq]
  rfl

/-- A name in the string table. -/
def InStrings (t : Tables) (name : Option Word) : Prop :=
  ∀ s, name = some s → t.stabstr.toNat ≤ s.toNat ∧ s.toNat < t.stabstrEnd.toNat

theorem name {i : Int} {old : Option Word} (h : Readable t tab mem w) (hi : 0 ≤ i)
    (hi' : i < t.count) (hold : InStrings t old) :
    Yields (t.name i old) w (InStrings t) := by
  have horder : t.stabstr.toNat < t.stabstrEnd.toNat := h.order
  have hend := t.stabstrEnd.isLt
  refine (yields_of_ret (P := fun _ => True) (h.stabs.nStrx i hi hi') trivial).bind fun strx _ => ?_
  split
  case isTrue hlt =>
    refine yields_pure ?_
    rintro s hs
    cases hs
    have hlt' : strx.toNat < (t.stabstrEnd - t.stabstr).toNat := hlt
    rw [BitVec.toNat_sub_of_le (BitVec.le_of_lt h.order)] at hlt'
    rw [BitVec.toNat_add]
    omega
  case isFalse => exact yields_pure hold

/-- `strfind` stops at the end of the string table at the latest. -/
theorem strfind (h : Readable t tab mem w) (c : Byte) (n : Nat) (s : Word)
    (hs : t.stabstr.toNat ≤ s.toNat) (hs' : s.toNat < t.stabstrEnd.toNat)
    (hn : n = t.stabstrEnd.toNat - s.toNat) :
    Yields (t.strfind c n s) w fun _ => True := by
  induction n generalizing s with
  | zero => omega
  | succ n ih =>
      rw [Tables.strfind]
      refine (yields_of_ret (P := fun b => b = mem s) (h.byte s hs hs') rfl).bind fun b hb => ?_
      split
      case isTrue => exact yields_pure trivial
      case isFalse hgo =>
        have hend := t.stabstrEnd.isLt
        have hone : (1 : Word).toNat = 1 := rfl
        -- the last byte of the string table is zero
        have hlast : s.toNat + 1 ≠ t.stabstrEnd.toNat := by
          intro heq
          have hs1 : s = t.stabstrEnd - 1 := by
            apply BitVec.eq_of_toNat_eq
            rw [BitVec.toNat_sub_of_le (by rw [BitVec.le_def, hone]; omega), hone]
            omega
          refine hgo (.inl ?_)
          rw [hb, hs1]
          exact h.terminated
        have hnext : (s + 1).toNat = s.toNat + 1 := by
          rw [BitVec.toNat_add, hone]
          omega
        exact ih (s + 1) (by omega) (by omega) (by omega)

theorem name_length (h : Readable t tab mem w) {name : Option Word} (hname : InStrings t name) :
    Yields (t.nameLength name) w fun _ => True := by
  cases name with
  | none => exact yields_pure trivial
  | some s =>
      obtain ⟨hs, hs'⟩ := hname s rfl
      have hfuel : (t.stabstrEnd - s).toNat = t.stabstrEnd.toNat - s.toNat :=
        BitVec.toNat_sub_of_le (by rw [BitVec.le_def]; omega)
      exact (h.strfind 58 _ s hs hs' hfuel).bind fun _ _ => yields_pure trivial

theorem back_passes (h : Readable t tab mem w) {lfile : Int} (hfile : 0 ≤ lfile) (n : Nat)
    (lline : Int) (hline : lline < t.count) :
    Yields (t.backPasses lfile n lline) w fun l => l ≤ lline := by
  induction n generalizing lline with
  | zero => exact yields_pure (Int.le_refl _)
  | succ n ih =>
      rw [Tables.backPasses]
      split
      case isTrue hle =>
        refine (yields_of_ret (P := fun _ => True) (h.stabs.nType lline (by omega) hline)
          trivial).bind fun ty _ => ?_
        obtain ⟨l, hl, hle'⟩ := ih (lline - 1) (by omega)
        split
        case isTrue => exact yields_pure (Int.le_refl _)
        case isFalse =>
          split
          case isTrue =>
            refine (yields_of_ret (P := fun _ => True) (h.stabs.nValue lline (by omega) hline)
              trivial).bind fun value _ => ?_
            split
            case isTrue => exact yields_pure (Int.le_refl _)
            case isFalse => exact ⟨l, hl, by omega⟩
          case isFalse => exact ⟨l, hl, by omega⟩
      case isFalse => exact yields_pure (Int.le_refl _)

theorem arg_passes (h : Readable t tab mem w) {rfun : Int} (hfun : rfun ≤ t.count) (n : Nat)
    (lline narg : Int) (hline : 0 ≤ lline) :
    Yields (t.argPasses rfun n lline narg) w fun _ => True := by
  induction n generalizing lline narg with
  | zero => exact yields_pure trivial
  | succ n ih =>
      rw [Tables.argPasses]
      split
      case isTrue hlt =>
        refine (yields_of_ret (P := fun _ => True) (h.stabs.nType lline hline (by omega))
          trivial).bind fun ty _ => ?_
        split
        case isTrue => exact ih (lline + 1) (narg + 1) (by omega)
        case isFalse => exact yields_pure trivial
      case isFalse => exact yields_pure trivial

/-- The end of the lookup stays inside the table. -/
theorem find_file (h : Readable t tab mem w) (hfile : 0 ≤ file.1) (hfunc : 0 ≤ func.1)
    (hfunc' : func.2 ≤ t.count) {lline : Int} (hline : 0 ≤ lline) (hline' : lline < t.count)
    (hinfo : InStrings t info.eipFile) :
    Yields (t.findFile file func lline info) w fun _ => True := by
  refine (yields_of_ret (P := fun _ => True) (h.stabs.nDesc lline hline hline')
    trivial).bind fun desc _ => ?_
  refine (h.back_passes hfile _ lline hline').bind fun l hl => ?_
  have hname : Yields (t.fileName file.1 l info.eipFile) w fun _ => True := by
    unfold Tables.fileName
    split
    case isTrue hle =>
      obtain ⟨nm, hnm, -⟩ := h.name (i := l) (by omega) (by omega) hinfo
      exact ⟨nm, hnm, trivial⟩
    case isFalse => exact yields_pure trivial
  refine hname.bind fun nm _ => ?_
  have hargs : Yields (t.argCount func info.eipFnNarg) w fun _ => True := by
    unfold Tables.argCount
    split
    case isTrue => exact h.arg_passes hfunc' _ _ _ (by omega)
    case isFalse => exact yields_pure trivial
  exact hargs.bind fun narg _ => yields_pure trivial

/-- The region in which the line is searched lies in the file. -/
theorem find_function (h : Readable t tab mem w) (hfile : 0 ≤ file.1) (hle : file.1 ≤ file.2)
    (hfile' : file.2 < t.count) (hinfo : InStrings t info.eipFnName)
    (hfunc : func.1 ≤ func.2 → file.1 ≤ func.1 ∧ func.2 ≤ file.2) :
    Yields (t.findFunction file func addr info) w fun found =>
      InStrings t found.1.eipFnName ∧ found.1.eipFile = info.eipFile ∧
        file.1 ≤ found.2.1.1 ∧ found.2.1.1 ≤ found.2.1.2 ∧ found.2.1.2 ≤ file.2 := by
  unfold Tables.findFunction
  split
  case isTrue hle' =>
    obtain ⟨hlo, hhi⟩ := hfunc hle'
    refine (h.name (i := func.1) (by omega) (by omega) hinfo).bind fun nm hnm => ?_
    refine (yields_of_ret (P := fun _ => True) (h.stabs.nValue func.1 (by omega) (by omega))
      trivial).bind fun value _ => ?_
    exact yields_pure ⟨hnm, rfl, hlo, hle', hhi⟩
  case isFalse => exact yields_pure ⟨hinfo, rfl, Int.le_refl _, hle, Int.le_refl _⟩

/-- The search for the line stays inside the table. A region of the line that begins above index 0
leaves room for a search that sinks. -/
theorem find_line (h : Readable t tab mem w) (hfile : 1 ≤ file.1) (hle : file.1 ≤ file.2)
    (hfile' : file.2 < t.count) (hinfo : InStrings t info.eipFnName)
    (hinfo' : InStrings t info.eipFile)
    (hfunc : func = (file.1, file.1 - 1) ∨ (file.1 ≤ func.1 ∧ func.1 ≤ func.2 ∧ func.2 ≤ file.2)) :
    Yields (t.findLine file func addr info) w fun _ => True := by
  have hfunc₁ : 0 ≤ func.1 ∧ func.2 ≤ t.count := by
    rcases hfunc with rfl | hfunc
    · exact ⟨by show 0 ≤ file.1; omega, by show file.1 - 1 ≤ t.count; omega⟩
    · omega
  have hfunc₂ : func.1 ≤ func.2 → file.1 ≤ func.1 ∧ func.2 ≤ file.2 := by
    intro hle'
    rcases hfunc with rfl | hfunc
    · exact absurd hle' (by show ¬ file.1 ≤ file.1 - 1; omega)
    · omega
  refine (h.find_function (by omega) hle hfile' hinfo hfunc₂).bind fun found hfound => ?_
  obtain ⟨hname, hsame, hlo, hmid, hhi⟩ := hfound
  refine (h.name_length hname).bind fun len _ => ?_
  refine (h.search nSline (by omega) hmid (by omega)).bind fun line hline => ?_
  split
  case isTrue hlines =>
    obtain ⟨region, hregion, hresult⟩ :=
      stab_binsearch_result tab nSline found.2.2 hmid
    rw [hline] at hregion
    cases hregion
    have hbounds : 0 ≤ line.1 ∧ line.1 < t.count := by
      cases hresult with
      | none => exact absurd hlines (by show ¬ found.2.1.1 ≤ found.2.1.1 - 1; omega)
      | found hl hlr hr => exact ⟨by show 0 ≤ _; omega, by show _ < t.count; omega⟩
      | sunk _ => exact ⟨by show 0 ≤ found.2.1.1 - 1; omega, by show found.2.1.1 - 1 < t.count; omega⟩
    exact h.find_file (by omega) hfunc₁.1 hfunc₁.2 hbounds.1 hbounds.2 (by rw [hsame]; exact hinfo')
  case isFalse => exact yields_pure trivial

/-- The whole lookup stays inside the table when the search of the file does not sink. -/
theorem lookup (h : Readable t tab mem w) (addr : Word) (hcount : 0 < t.count)
    (hbound : (addr.toNat : Int) + t.count + 1 < 2 ^ 32) (hsinks : ¬ Sinks tab addr (t.count - 1)) :
    Yields (t.lookup addr (Eipdebuginfo.start addr)) w fun _ => True := by
  have horder : t.stabstr.toNat < t.stabstrEnd.toNat := h.order
  have hone : (1 : Word).toNat = 1 := rfl
  have hlast : (t.stabstrEnd - 1).toNat = t.stabstrEnd.toNat - 1 :=
    BitVec.toNat_sub_of_le (by rw [BitVec.le_def, hone]; omega)
  unfold Tables.lookup
  rw [if_neg (show ¬ t.stabstrEnd ≤ t.stabstr by rw [BitVec.not_le]; exact h.order)]
  refine (yields_of_ret (P := fun b => b = 0) (h.byte _ (by omega) (by omega))
    h.terminated).bind fun b hb => ?_
  rw [if_neg (show ¬ b ≠ 0 from not_not_intro hb)]
  refine (h.search nSo (Int.le_refl 0) (by omega) (by omega)).bind fun file hfile => ?_
  split
  case isTrue => exact yields_pure trivial
  case isFalse hne =>
    have hfile₁ : 1 ≤ file.1 ∧ file.1 ≤ file.2 ∧ file.2 < t.count := by
      obtain ⟨region, hregion, hresult⟩ := stab_binsearch_result tab nSo addr
        (show 0 ≤ t.count - 1 by omega)
      rw [hfile] at hregion
      cases hregion
      cases hresult with
      | none => exact absurd rfl hne
      | found hl hlr hr =>
          change ¬ _ = (0 : Int) at hne
          refine ⟨?_, hlr, ?_⟩
          · show 1 ≤ _
            omega
          · show _ < t.count
            omega
      | sunk _ => exact absurd ((file_search_sinks_iff hcount (by omega) hfile).1 rfl) hsinks
    have htype : IsType tab nSo file.1 := by
      rcases stab_binsearch_type (by omega) (by omega) hfile with hzero | hout | htype
      · exact absurd hzero hne
      · omega
      · exact htype
    refine (h.search nFun (by omega) hfile₁.2.1 hfile₁.2.2).bind fun func hfunc => ?_
    refine h.find_line hfile₁.1 hfile₁.2.1 hfile₁.2.2 (fun s hs => (by cases hs))
      (fun s hs => (by cases hs)) ?_
    obtain ⟨region, hregion, hresult⟩ :=
      stab_binsearch_result tab nFun addr hfile₁.2.1
    rw [hfunc] at hregion
    cases hregion
    cases hresult with
    | none => exact .inl rfl
    | found hl hlr hr => exact .inr ⟨hl, hlr, hr⟩
    | sunk hfun =>
        -- the first entry of the region is that of the file, not of a function
        exact absurd (hfun.symm.trans htype) (by decide)

end Readable

/-! ## Loads in accepted ranges -/

section Accepted

variable {w : World} {mem : Word → Byte} {va : Word} {d : UserStabData} {i : Int}

theorem load_byte_accepted (h : w.Accepted va) : loadByte mem va w = .ret (mem va) w := by
  show (if w.Accepted va then pure (mem va) else exit (.address va) : Prog World Stop Byte) w = _
  rw [if_pos h]
  rfl

theorem load_byte_refused (h : ¬ w.Accepted va) : loadByte mem va w = .exit (.address va) w := by
  show (if w.Accepted va then pure (mem va) else exit (.address va) : Prog World Stop Byte) w = _
  rw [if_neg h]
  rfl

theorem load_half_accepted (h₀ : w.Accepted va) (h₁ : w.Accepted (va + 1)) :
    loadHalf mem va w = .ret (half mem va) w := by
  rw [loadHalf, bind_of_ret (load_byte_accepted h₀), bind_of_ret (load_byte_accepted h₁)]
  rfl

theorem load_word_accepted (h₀ : w.Accepted va) (h₁ : w.Accepted (va + 1))
    (h₂ : w.Accepted (va + 2)) (h₃ : w.Accepted (va + 2 + 1)) :
    loadWord mem va w = .ret (word mem va) w := by
  rw [loadWord, bind_of_ret (load_half_accepted h₀ h₁), bind_of_ret (load_half_accepted h₂ h₃)]
  rfl

/-- A field of an entry of the table. -/
theorem field_of_lt {α : Type} {load : Word → Prog World Stop α} {off : Word} (hi : 0 ≤ i)
    (hi' : i < d.count) : d.field load off i = load (d.addr i off) :=
  if_pos ⟨hi, hi'⟩

/-- The entries of a table whose bytes are accepted. -/
theorem serves_of_accepted
    (h : ∀ i, 0 ≤ i → i < d.count → ∀ off : Word, off.toNat < 12 → w.Accepted (d.addr i off)) :
    Serves (d.loads mem) (d.table mem) 0 d.count w := by
  have hat : ∀ i, 0 ≤ i → i < d.count → ∀ off k : Word, (off + k).toNat < 12 →
      w.Accepted (d.addr i off + k) := by
    intro i hi hi' off k hk
    have haddr : d.addr i off + k = d.addr i (off + k) := BitVec.add_assoc _ _ _
    rw [haddr]
    exact h i hi hi' _ hk
  refine ⟨fun i hi hi' => ?_, fun i hi hi' => ?_, fun i hi hi' => ?_, fun i hi hi' => ?_⟩
  · show d.field (loadWord mem) 0 i w = _
    rw [field_of_lt hi hi', load_word_accepted (h i hi hi' 0 (by decide))
      (hat i hi hi' 0 1 (by decide)) (hat i hi hi' 0 2 (by decide))]
    · rfl
    · rw [BitVec.add_assoc]
      exact hat i hi hi' 0 (2 + 1) (by decide)
  · show d.field (loadByte mem) 4 i w = _
    rw [field_of_lt hi hi', load_byte_accepted (h i hi hi' 4 (by decide))]
    rfl
  · show d.field (loadHalf mem) 6 i w = _
    rw [field_of_lt hi hi', load_half_accepted (h i hi hi' 6 (by decide))
      (hat i hi hi' 6 1 (by decide))]
    rfl
  · show d.field (loadWord mem) 8 i w = _
    rw [field_of_lt hi hi', load_word_accepted (h i hi hi' 8 (by decide))
      (hat i hi hi' 8 1 (by decide)) (hat i hi hi' 8 2 (by decide))]
    · rfl
    · rw [BitVec.add_assoc]
      exact hat i hi hi' 8 (2 + 1) (by decide)

/-- `*usd` can be loaded when it has been accepted. -/
theorem load_usd (h : (ustabdata, 16) ∈ w.accepted) : loadUsd mem w = .ret (usd mem) w := by
  have hbyte : ∀ va : Word, InRange ustabdata 16 va.toNat → w.Accepted va :=
    fun va hva => ⟨_, h, hva⟩
  rw [loadUsd,
    bind_of_ret (load_word_accepted (hbyte _ (by decide)) (hbyte _ (by decide))
      (hbyte _ (by decide)) (hbyte _ (by decide))),
    bind_of_ret (load_word_accepted (hbyte _ (by decide)) (hbyte _ (by decide))
      (hbyte _ (by decide)) (hbyte _ (by decide))),
    bind_of_ret (load_word_accepted (hbyte _ (by decide)) (hbyte _ (by decide))
      (hbyte _ (by decide)) (hbyte _ (by decide))),
    bind_of_ret (load_word_accepted (hbyte _ (by decide)) (hbyte _ (by decide))
      (hbyte _ (by decide)) (hbyte _ (by decide)))]
  rfl

end Accepted

/-! ## The checks -/

section Checks

variable {kernel : Tables} {curenv : EnvIx} {mem : Word → Byte} {s : Kernel} {addr va len : Word}
  {dir : Nat} {l : List (Word × Word)}

theorem check_accepts (h : Accepts s curenv va len) :
    check curenv va len ⟨s, l⟩ = .ret 0 ⟨s, (va, len) :: l⟩ := by
  have hcall : rescue (zoom World.kern (fun s w => { w with kern := s })
      (userMemCheck curenv va len pteU)) (fun reason => exit (.kernel reason)) ⟨s, l⟩ =
      (.ret 0 ⟨s, l⟩ : Outcome World Stop Int) := by
    unfold rescue zoom
    dsimp only
    rw [show userMemCheck curenv va len pteU s = .ret 0 s from h]
  rw [check, bind_of_ret hcall]
  rfl

theorem check_refuses (hok : DirOk s curenv dir) (h : ¬ Accepts s curenv va len) :
    ∃ s', check curenv va len ⟨s, l⟩ = .ret (-eFault) ⟨s', l⟩ := by
  rcases user_mem_check_spec va len hok (by decide : hasFlag pteU pteU = true) with
    ⟨hret, -⟩ | ⟨hret, -⟩
  · exact absurd hret h
  · refine ⟨{ s with userMemCheckAddr := va }, ?_⟩
    have hcall : rescue (zoom World.kern (fun s w => { w with kern := s })
        (userMemCheck curenv va len pteU)) (fun reason => exit (.kernel reason)) ⟨s, l⟩ =
        (.ret (-eFault) ⟨{ s with userMemCheckAddr := va }, l⟩ : Outcome World Stop Int) := by
      unfold rescue zoom
      dsimp only
      rw [hret]
    rw [check, bind_of_ret hcall]
    rfl

/-- The ranges that have been accepted when the lookup begins. -/
def checkedRanges (d : UserStabData) : List (Word × Word) :=
  [(d.stabstr, d.stabstrEnd - d.stabstr), (d.stabs, BitVec.ofInt 32 d.count), (ustabdata, 16)]

theorem accepted_iff {d : UserStabData} :
    (World.mk s (checkedRanges d)).Accepted va ↔ d.InChecked va := by
  unfold World.Accepted checkedRanges UserStabData.InChecked
  simp only [List.mem_cons, List.not_mem_nil, or_false, exists_eq_or_imp, exists_eq_left]
  tauto

/-- When all three ranges are accepted, the lookup decides. -/
theorem debuginfo_eip_checked (haddr : addr < ulim) (h₁ : Accepts s curenv ustabdata 16)
    (h₂ : Accepts s curenv (usd mem).stabs (BitVec.ofInt 32 (usd mem).count))
    (h₃ : Accepts s curenv (usd mem).stabstr ((usd mem).stabstrEnd - (usd mem).stabstr)) :
    debuginfoEip kernel curenv mem addr ⟨s, []⟩ =
      ((usd mem).tables mem).lookup addr (Eipdebuginfo.start addr)
        ⟨s, checkedRanges (usd mem)⟩ := by
  have hnot : ¬ ulim ≤ addr := by
    rw [BitVec.not_le]
    exact haddr
  have hzero : ¬ (0 : Int) < 0 := by decide
  unfold debuginfoEip
  rw [if_neg hnot, bind_of_ret (check_accepts h₁), if_neg hzero,
    bind_of_ret (load_usd List.mem_cons_self), bind_of_ret (check_accepts h₂), if_neg hzero,
    bind_of_ret (check_accepts h₃), if_neg hzero]
  rfl

/-- A range that is refused ends the function. -/
theorem safe_of_refused (hok : DirOk s curenv dir) (haddr : addr < ulim)
    (h : ¬ (Accepts s curenv ustabdata 16 ∧
      Accepts s curenv (usd mem).stabs (BitVec.ofInt 32 (usd mem).count) ∧
      Accepts s curenv (usd mem).stabstr ((usd mem).stabstrEnd - (usd mem).stabstr))) :
    Safe kernel curenv mem s addr := by
  have hnot : ¬ ulim ≤ addr := by
    rw [BitVec.not_le]
    exact haddr
  have hzero : ¬ (0 : Int) < 0 := by decide
  have hneg : -eFault < 0 := by decide
  unfold Safe debuginfoEip
  rw [if_neg hnot]
  by_cases h₁ : Accepts s curenv ustabdata 16
  · rw [bind_of_ret (check_accepts h₁), if_neg hzero, bind_of_ret (load_usd List.mem_cons_self)]
    by_cases h₂ : Accepts s curenv (usd mem).stabs (BitVec.ofInt 32 (usd mem).count)
    · rw [bind_of_ret (check_accepts h₂), if_neg hzero]
      obtain ⟨s', hret⟩ := check_refuses (l := [((usd mem).stabs,
        BitVec.ofInt 32 (usd mem).count), (ustabdata, 16)]) hok fun h₃ => h ⟨h₁, h₂, h₃⟩
      rw [bind_of_ret hret, if_pos hneg]
      exact ⟨_, _, rfl⟩
    · obtain ⟨s', hret⟩ := check_refuses (l := [(ustabdata, 16)]) hok h₂
      rw [bind_of_ret hret, if_pos hneg]
      exact ⟨_, _, rfl⟩
  · obtain ⟨s', hret⟩ := check_refuses (l := []) hok h₁
    rw [bind_of_ret hret, if_pos hneg]
    exact ⟨_, _, rfl⟩

/-- The last byte of a string table that is not empty. -/
theorem load_last_string {d : UserStabData} (horder : d.stabstr < d.stabstrEnd) :
    loadByte mem (d.stabstrEnd - 1) ⟨s, checkedRanges d⟩ =
      .ret (mem (d.stabstrEnd - 1)) ⟨s, checkedRanges d⟩ := by
  have horder' : d.stabstr.toNat < d.stabstrEnd.toNat := horder
  have hone : (1 : Word).toNat = 1 := rfl
  refine load_byte_accepted (accepted_iff.2 (.inr (.inr ⟨?_, ?_⟩)))
  · rw [BitVec.toNat_sub_of_le (by rw [BitVec.le_def, hone]; omega), hone]
    omega
  · rw [BitVec.toNat_sub_of_le (by rw [BitVec.le_def, hone]; omega), hone,
      BitVec.toNat_sub_of_le (BitVec.le_of_lt horder)]
    omega

/-- When a check fails, the function returns before it looks at the table. -/
theorem safe_of_not_checked (hok : DirOk s curenv dir) (haddr : addr < ulim)
    (h : ¬ Checked s curenv mem) : Safe kernel curenv mem s addr := by
  by_cases hranges : Accepts s curenv ustabdata 16 ∧
      Accepts s curenv (usd mem).stabs (BitVec.ofInt 32 (usd mem).count) ∧
      Accepts s curenv (usd mem).stabstr ((usd mem).stabstrEnd - (usd mem).stabstr)
  case neg => exact safe_of_refused hok haddr hranges
  obtain ⟨h₁, h₂, h₃⟩ := hranges
  unfold Safe
  rw [debuginfo_eip_checked haddr h₁ h₂ h₃]
  unfold Tables.lookup
  by_cases horder : (usd mem).stabstr < (usd mem).stabstrEnd
  · have hnot : ¬ ((usd mem).tables mem).stabstrEnd ≤ ((usd mem).tables mem).stabstr := by
      rw [BitVec.not_le]
      exact horder
    have hlast : ((usd mem).tables mem).byte (((usd mem).tables mem).stabstrEnd - 1)
        ⟨s, checkedRanges (usd mem)⟩ = .ret _ _ := load_last_string horder
    rw [if_neg hnot, bind_of_ret hlast]
    by_cases hterm : mem ((usd mem).stabstrEnd - 1) = 0
    · have hcount : ¬ 0 < (usd mem).count := fun hpos => h ⟨h₁, h₂, h₃, horder, hterm, hpos⟩
      rw [if_neg (not_not_intro hterm)]
      have hempty : ((usd mem).tables mem).count - 1 < 0 := by
        show (usd mem).count - 1 < 0
        omega
      have hsearch : ((usd mem).tables mem).search nSo 0 (((usd mem).tables mem).count - 1) addr
          ⟨s, checkedRanges (usd mem)⟩ = .ret (0, 0 - 1) ⟨s, checkedRanges (usd mem)⟩ := by
        rw [Tables.search, bind_of_ret (stab_binsearch_empty hempty addr _)]
        rfl
      rw [bind_of_ret hsearch]
      exact ⟨_, _, rfl⟩
    · rw [if_pos hterm]
      exact ⟨_, _, rfl⟩
  · rw [if_pos (show ((usd mem).tables mem).stabstrEnd ≤ ((usd mem).tables mem).stabstr from
      BitVec.not_lt.1 horder)]
    exact ⟨_, _, rfl⟩

/-- A table takes at most half of the address space. -/
theorem count_bound (d : UserStabData) : 12 * d.count < 2147483648 := by
  have hlt := BitVec.toInt_lt (x := d.stabEnd - d.stabs)
  unfold UserStabData.count
  generalize (d.stabEnd - d.stabs).toInt = n at hlt
  have hsign : Int.sign 12 = 1 := rfl
  rw [Int.tdiv_eq_ediv, hsign]
  split <;> omega

theorem of_int_to_nat {i : Int} (hi : 0 ≤ i) (hi' : i < 4294967296) :
    (BitVec.ofInt 32 i).toNat = i.toNat := by
  obtain ⟨n, rfl⟩ := Int.eq_ofNat_of_zero_le hi
  rw [BitVec.ofInt_natCast, BitVec.toNat_ofNat, Int.toNat_natCast]
  exact Nat.mod_eq_of_lt (by omega)

/-- The place of a byte of the table, modulo the size of the address space. -/
theorem addr_to_nat (d : UserStabData) {i : Int} {off : Word} (hi : 0 ≤ i)
    (hi' : 12 * i < 2147483648) :
    (d.addr i off).toNat = (d.stabs.toNat + (12 * i).toNat + off.toNat) % 4294967296 := by
  have hint := of_int_to_nat (i := 12 * i) (by omega) (by omega)
  unfold UserStabData.addr
  rw [BitVec.toNat_add, BitVec.toNat_add, hint]
  omega

/-- With all of the table accepted, the function stays inside it when the search of the file does
not sink. -/
theorem safe_of_covered (haddr : addr < ulim) (h : Checked s curenv mem) (hcov : (usd mem).Covered)
    (hsinks : ¬ Sinks ((usd mem).table mem) addr ((usd mem).count - 1)) :
    Safe kernel curenv mem s addr := by
  have hpos := h.nonempty
  have hbound := count_bound (usd mem)
  have haddr' : addr.toNat < ulim.toNat := haddr
  rw [ulim_to_nat] at haddr'
  have hreadable : Readable ((usd mem).tables mem) ((usd mem).table mem) mem
      ⟨s, checkedRanges (usd mem)⟩ := by
    refine ⟨serves_of_accepted fun i hi hi' off hoff => accepted_iff.2 (hcov i hi hi' off hoff),
      fun a hlo hhi => ?_, h.order, h.terminated⟩
    refine load_byte_accepted (accepted_iff.2 (.inr (.inr ⟨hlo, ?_⟩)))
    change (usd mem).stabstr.toNat ≤ a.toNat at hlo
    change a.toNat < (usd mem).stabstrEnd.toNat at hhi
    rw [BitVec.toNat_sub_of_le (BitVec.le_of_lt h.order)]
    omega
  obtain ⟨r, hret, -⟩ := hreadable.lookup addr hpos
    (by show (addr.toNat : Int) + (usd mem).count + 1 < 2 ^ 32; omega) hsinks
  exact ⟨r, _, by rw [debuginfo_eip_checked haddr h.header h.table h.strings, hret]⟩

theorem search_exit {t : Tables} {type lo hi : Int} {e : Stop} {w w' : World} (hle : lo ≤ hi)
    (hload : t.stabs.nType (mid lo hi) w = .exit e w') :
    t.search type lo hi addr w = .exit e w' :=
  bind_of_exit (stab_binsearch_exit hle hload addr)

/-- When the checks pass, the lookup comes to the search of the file. -/
theorem lookup_of_checked (h : Checked s curenv mem) :
    ((usd mem).tables mem).lookup addr (Eipdebuginfo.start addr) ⟨s, checkedRanges (usd mem)⟩ =
      (((usd mem).tables mem).search nSo 0 ((usd mem).count - 1) addr >>= fun file =>
        if file.1 = 0 then pure (-1, Eipdebuginfo.start addr)
        else ((usd mem).tables mem).search nFun file.1 file.2 addr >>= fun func =>
          ((usd mem).tables mem).findLine file func addr (Eipdebuginfo.start addr))
        ⟨s, checkedRanges (usd mem)⟩ := by
  have hnot : ¬ ((usd mem).tables mem).stabstrEnd ≤ ((usd mem).tables mem).stabstr := by
    rw [BitVec.not_le]
    exact h.order
  have hlast : ((usd mem).tables mem).byte (((usd mem).tables mem).stabstrEnd - 1)
      ⟨s, checkedRanges (usd mem)⟩ = .ret _ _ := load_last_string h.order
  unfold Tables.lookup
  rw [if_neg hnot, bind_of_ret hlast, if_neg (not_not_intro h.terminated)]
  rfl

/-- The first index of the search lies behind the accepted part of the table: `user_mem_check` gets
the number of entries for the number of bytes. -/
theorem not_safe_of_apart (haddr : addr < ulim) (h : Checked s curenv mem)
    (hapart : (usd mem).Apart) : ¬ Safe kernel curenv mem s addr := by
  have hpos := h.nonempty
  have hbound := count_bound (usd mem)
  have hrange := mid_bounds (l := 0) (r := (usd mem).count - 1) (by omega)
  have hmid : (usd mem).count ≤ 12 * mid 0 ((usd mem).count - 1) + 4 := by
    unfold mid
    rw [Int.zero_add, Int.tdiv_eq_ediv, if_pos (.inl (by omega))]
    omega
  have hlen := of_int_to_nat (i := (usd mem).count) (by omega) (by omega)
  have hout : ¬ (usd mem).InChecked ((usd mem).addr (mid 0 ((usd mem).count - 1)) 4) := by
    obtain ⟨hheader, hstrings⟩ := hapart (mid 0 ((usd mem).count - 1)) hrange.1 (by omega) 4
      (by decide)
    rintro (hin | hin | hin)
    · exact hheader hin
    · -- byte `12 * ((n - 1) / 2) + 4` is not one of the first `n`
      obtain ⟨hlo, hhi⟩ := hin
      have hfour : (4 : Word).toNat = 4 := rfl
      rw [addr_to_nat _ hrange.1 (by omega), hfour] at hlo hhi
      rw [hlen] at hhi
      have hlt := (usd mem).stabs.isLt
      omega
    · exact hstrings hin
  have hload : ((usd mem).tables mem).stabs.nType (mid 0 ((usd mem).count - 1))
      ⟨s, checkedRanges (usd mem)⟩ =
        .exit (.address ((usd mem).addr (mid 0 ((usd mem).count - 1)) 4))
          ⟨s, checkedRanges (usd mem)⟩ := by
    show (usd mem).field (loadByte mem) 4 _ _ = _
    rw [field_of_lt hrange.1 (by omega)]
    exact load_byte_refused fun hacc => hout (accepted_iff.1 hacc)
  rintro ⟨r, w, hret⟩
  rw [debuginfo_eip_checked haddr h.header h.table h.strings, lookup_of_checked h,
    bind_of_exit (search_exit (by omega) hload)] at hret
  cases hret

/-- When the search of the file sinks, the next search begins below the table. -/
theorem not_safe_of_sinks (haddr : addr < ulim) (h : Checked s curenv mem)
    (hcov : (usd mem).Covered)
    (hsinks : Sinks ((usd mem).table mem) addr ((usd mem).count - 1)) :
    ¬ Safe kernel curenv mem s addr := by
  have hpos := h.nonempty
  have haddr' : addr.toNat < ulim.toNat := haddr
  rw [ulim_to_nat] at haddr'
  have hserves : Serves ((usd mem).loads mem) ((usd mem).table mem) 0 ((usd mem).count - 1 + 1)
      ⟨s, checkedRanges (usd mem)⟩ := by
    rw [Int.sub_add_cancel]
    exact serves_of_accepted fun i hi hi' off hoff => accepted_iff.2 (hcov i hi hi' off hoff)
  obtain ⟨file, hfile, hresult⟩ := stab_binsearch_result ((usd mem).table mem) nSo addr
    (show 0 ≤ (usd mem).count - 1 by omega)
  have hout := (file_search_sinks_iff hpos (by omega) hfile).2 hsinks
  have hregion : file = (-1, -1) := by
    cases hresult with
    | none => exact absurd hout (by decide)
    | found hl _ _ => exact absurd hout (by show ¬ _ = (-1 : Int); omega)
    | sunk _ => rfl
  have hsearch : ((usd mem).tables mem).search nSo 0 ((usd mem).count - 1) addr
      ⟨s, checkedRanges (usd mem)⟩ = .ret file ⟨s, checkedRanges (usd mem)⟩ := by
    have hret := hserves.stab_binsearch nSo (by omega) addr
    rw [hfile] at hret
    exact bind_of_ret hret
  have hload : ((usd mem).tables mem).stabs.nType (mid (-1) (-1))
      ⟨s, checkedRanges (usd mem)⟩ = .exit (.index (-1)) ⟨s, checkedRanges (usd mem)⟩ := rfl
  rintro ⟨r, w, hret⟩
  rw [debuginfo_eip_checked haddr h.header h.table h.strings, lookup_of_checked h,
    bind_of_ret hsearch, hregion, if_neg (by decide),
    bind_of_exit (search_exit (Int.le_refl _) hload)] at hret
  cases hret

end Checks

/-! ## A page with debugging information -/

/-- The page of `USTABDATA` is mapped, and nothing else. -/
def debugPage : Kernel :=
  { onePage with
    mem := fun p i =>
      if p = 1 ∧ i = 0 then mkPde 3 else if p = 3 ∧ i = 512 then mkPte 4 pteU else 0 }

theorem debug_page_dir_ok : DirOk debugPage 0 1 := by
  have hzero : ∀ d, d ≠ 0 → debugPage.mem 1 d = 0 := by
    intro d hd
    simp [debugPage, hd]
  refine ⟨rfl, fun d _ hpresent => ?_, fun n pde pte hn _ hmap _ => ?_⟩
  · by_cases hd : d = 0
    · subst hd
      decide +kernel
    · rw [hzero d hd] at hpresent
      exact absurd hpresent (by decide)
  · rw [pgnum_eq, ulim_to_nat] at hn
    have hnone : debugPage.mapping 0 n = none := by
      show (if hasFlag (debugPage.mem 1 (n / 1024)) pteP then _ else none) = _
      rw [hzero (n / 1024) (by omega)]
      rfl
    rw [hnone] at hmap
    cases hmap

/-- All ranges of the page are accepted. -/
theorem debug_page_accepts {va len : Word} (hlen : len ≠ 0) (hlo : 0x200000 ≤ va.toNat)
    (hhi : va.toNat + len.toNat ≤ 0x201000) : Accepts debugPage 0 va len := by
  rcases user_mem_check_spec va len debug_page_dir_ok (by decide : hasFlag pteU pteU = true) with
    ⟨hret, -⟩ | ⟨-, hzero | ⟨a, hin, hnot⟩⟩
  · exact hret
  · exact absurd hzero hlen
  · refine absurd (accessible_iff.2 ?_) hnot
    rw [show a / 4096 = 512 by have := hin.1; have := hin.2; omega]
    decide +kernel

/-- One entry behind `*usd`, which is all zero, and a string table between two bytes of the page. -/
def oneEntry (stabstr stabstrEnd : Byte) (va : Word) : Byte :=
  ([0x10, 0, 0x20, 0, 0x1C, 0, 0x20, 0, stabstr, 0, 0x20, 0, stabstrEnd, 0, 0x20, 0] :
    List Byte).getD (va - 0x200000).toNat 0

/-- The string table is the byte behind the entry. -/
theorem usd_string_behind : usd (oneEntry 0x1C 0x1D) = ⟨0x200010, 0x20001C, 0x20001C, 0x20001D⟩ :=
  rfl

/-- The string table begins before the entry and ends behind it. -/
theorem usd_string_around : usd (oneEntry 0 0x20) = ⟨0x200010, 0x20001C, 0x200000, 0x200020⟩ :=
  rfl

theorem string_behind_checked : Checked debugPage 0 (oneEntry 0x1C 0x1D) := by
  refine ⟨debug_page_accepts (by decide) (by decide) (by decide), ?_, ?_, ?_, ?_, ?_⟩ <;>
    rw [usd_string_behind]
  · exact debug_page_accepts (by decide) (by decide) (by decide)
  · exact debug_page_accepts (by decide) (by decide) (by decide)
  · decide
  · decide
  · decide

theorem string_behind_apart : (usd (oneEntry 0x1C 0x1D)).Apart := by
  rw [usd_string_behind]
  intro i hi hi' off hoff
  have hcount : (UserStabData.mk 0x200010 0x20001C 0x20001C 0x20001D).count = 1 := by decide
  have hbase : (0x200010 : Word).toNat = 0x200010 := rfl
  have hzero : i = 0 := by omega
  subst hzero
  unfold InRange
  rw [addr_to_nat _ (Int.le_refl 0) (by decide)]
  constructor
  · rintro ⟨-, hlt⟩
    change (0x200010 + 0 + off.toNat) % 4294967296 < 0x200000 + 16 at hlt
    omega
  · rintro ⟨hle, -⟩
    change 0x20001C ≤ (0x200010 + 0 + off.toNat) % 4294967296 at hle
    omega

theorem string_around_covered : (usd (oneEntry 0 0x20)).Covered := by
  rw [usd_string_around]
  intro i hi hi' off hoff
  have hcount : (UserStabData.mk 0x200010 0x20001C 0x200000 0x200020).count = 1 := by decide
  have hzero : i = 0 := by omega
  subst hzero
  refine .inr (.inr ?_)
  unfold InRange
  rw [addr_to_nat _ (Int.le_refl 0) (by decide)]
  show 0x200000 ≤ (0x200010 + 0 + off.toNat) % 4294967296 ∧
    (0x200010 + 0 + off.toNat) % 4294967296 < 0x200000 + 0x20
  omega

/-- The entry is not that of a file. -/
theorem string_around_not_sinks : ¬ Sinks ((usd (oneEntry 0 0x20)).table (oneEntry 0 0x20)) 0x800020
    ((usd (oneEntry 0 0x20)).count - 1) := by
  intro h
  have htype : ¬ IsType ((usd (oneEntry 0 0x20)).table (oneEntry 0 0x20)) nSo 0 := by decide
  have hcount : (usd (oneEntry 0 0x20)).count - 1 = 0 := by decide
  rw [hcount] at h
  cases h with
  | down hr hlast hm hgt hrest =>
      have hle : _ ≤ (0 : Int) := hlast.le
      have hzero := Int.le_antisymm hle hm
      subst hzero
      exact htype (hlast.isType hm)

/-- Tables of the kernel that are empty. -/
def noTables : Tables :=
  ⟨⟨fun _ => pure 0, fun _ => pure 0, fun _ => pure 0, fun _ => pure 0⟩, 0, fun _ => pure 0, 0, 0⟩

/-- On a user address `debuginfo_eip` terminates, stays inside the ranges that `user_mem_check` has
accepted and inside the table, when a validity check fails or the table is empty, and when all of the
table is accepted and the search of the file does not sink below it. On a table apart from the other
two ranges, and on one that is accepted, it does so in no other case. -/
theorem debuginfo_eip_safe (kernel : Tables) (curenv : EnvIx) (dir : Nat) (mem : Word → Byte)
    (s : Kernel) (addr : Word) (hok : DirOk s curenv dir) (haddr : addr < ulim) :
    (¬ Checked s curenv mem ∨ ((usd mem).Covered ∧
        ¬ Sinks ((usd mem).table mem) addr ((usd mem).count - 1)) →
      Safe kernel curenv mem s addr) ∧
    ((usd mem).Covered ∨ (usd mem).Apart → Safe kernel curenv mem s addr →
      ¬ Checked s curenv mem ∨ ((usd mem).Covered ∧
        ¬ Sinks ((usd mem).table mem) addr ((usd mem).count - 1))) := by
  constructor
  · intro hcond
    by_cases hchecked : Checked s curenv mem
    · obtain ⟨hcov, hsinks⟩ := hcond.resolve_left (not_not_intro hchecked)
      exact safe_of_covered haddr hchecked hcov hsinks
    · exact safe_of_not_checked hok haddr hchecked
  · intro hcase hsafe
    by_cases hchecked : Checked s curenv mem
    · rcases hcase with hcov | hapart
      · exact .inr ⟨hcov, fun hsinks => not_safe_of_sinks haddr hchecked hcov hsinks hsafe⟩
      · exact absurd hsafe (not_safe_of_apart haddr hchecked hapart)
    · exact .inl hchecked

/-- A table that lies inside the string table. -/
theorem debuginfo_eip_safe_inside : Safe noTables 0 (oneEntry 0 0x20) debugPage 0x800020 :=
  (debuginfo_eip_safe noTables 0 1 (oneEntry 0 0x20) debugPage 0x800020 debug_page_dir_ok
    (by decide +kernel)).1 (.inr ⟨string_around_covered, string_around_not_sinks⟩)

/-- A table of one entry, of which `user_mem_check` has accepted one byte. -/
theorem debuginfo_eip_not_safe : ¬ Safe noTables 0 (oneEntry 0x1C 0x1D) debugPage 0x800020 :=
  not_safe_of_apart (by decide +kernel) string_behind_checked string_behind_apart

end Labs.Jos.Kdebug
