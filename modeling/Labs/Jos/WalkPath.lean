import Labs.Jos.FsRead
import Mathlib.Data.List.Induction

/-!
# Walking along a path

`walk_path` of `fs/fs.c` with all that it sets: `*pdir`, `*pf` and `lastelem`. A path is the bytes
before its zero byte. The walk sees no more of a path than the list of its elements, and on a tree
of directories the elements decide what it returns and what it sets.
-/

namespace Labs.Jos.Fs

open Prog

/-- The elements of a path: what stands between slashes, without the empty ones. -/
def elements (path : List Byte) : List (List Byte) := (path.splitOn slash).filter (· ≠ [])

namespace Walk

/-- The disk, and what the pointers `pdir`, `pf` and `lastelem` point to. There is nothing behind a
`pdir` or a `lastelem` that is null, and the value `none` of `*pdir` or `*pf` is the null
pointer. -/
structure State where
  disk : Bytes
  pdir : Option (Option Nat)
  pf : Option Nat
  lastelem : Option (List Byte)

namespace State

/-- `if (pdir) *pdir = dir`. -/
def setPdir (w : State) (dir : Option Nat) : State := { w with pdir := w.pdir.map fun _ => dir }

/-- `*pf = f`. -/
def setPf (w : State) (f : Option Nat) : State := { w with pf := f }

/-- `if (lastelem) strcpy(lastelem, name)`. -/
def setLastelem (w : State) (name : List Byte) : State :=
  { w with lastelem := w.lastelem.map fun _ => name }

/-- What the walk sets at its start. -/
def cleared (w : State) : State := (w.setPdir none).setPf none

/-- What the walk sets when it finds the file `f` in `dir`. -/
def found (w : State) (dir : Option Nat) (f : Nat) : State := (w.setPdir dir).setPf (some f)

/-- What the walk sets when only the last element is missing, from the directory `dir`. -/
def missing (w : State) (dir : Nat) (name : List Byte) : State :=
  ((w.setPdir (some dir)).setLastelem name).setPf none

end State

/-- Run a function that works on the disk alone. -/
def onDisk {α : Type} (x : Prog Bytes Stop α) : Prog State Stop α :=
  zoom State.disk (fun m w => { w with disk := m }) x

/-- The call of `dir_lookup` for the element `name`, and what follows when it fails. The element is
the last one when nothing of the path is left. -/
def lookup (dir : Nat) (name : List Byte) (last : Bool) : Prog State Stop Nat :=
  rescue (onDisk (dirLookup dir name)) fun
    | .panic => exit .panic
    | .error r => do
        if r = -eNotFound ∧ last then
          modify fun w => w.missing dir name
        exit (.error r)

/-- The loop of `walk_path` with `path` left, at the file `f` that was found in `dir`. -/
def walkFrom : Nat → Option Nat → Nat → List Byte → Prog State Stop Unit
  | _, dir, f, [] => modify fun w => w.found dir f
  | 0, _, _, _ :: _ => exit .panic
  | n + 1, _, f, c :: path => do
      let name := (c :: path).takeWhile (· != slash)
      if maxnamelen ≤ name.length then exit (.error (-eBadPath))
      else
        let path := skipSlash ((c :: path).dropWhile (· != slash))
        onDisk (bcPgfault (fType f))
        let w ← get
        if w.disk.load32 (fType f) ≠ ftypeDir then exit (.error (-eNotFound))
        else
          let g ← lookup f name (path == [])
          walkFrom n (some f) g path

/-- `walk_path`, which returns 0 unless it leaves with an error. -/
def walkPath (path : List Byte) : Prog State Stop Unit := do
  let path := skipSlash path
  modify State.cleared
  walkFrom path.length none sRoot path

/-! ## The walk along a list of elements -/

/-- One step of the walk: the length of the element, the type of the file, and the lookup. -/
def enter (f : Nat) (name : List Byte) (last : Bool) : Prog State Stop Nat := do
  if maxnamelen ≤ name.length then exit (.error (-eBadPath))
  else
    onDisk (bcPgfault (fType f))
    let w ← get
    if w.disk.load32 (fType f) ≠ ftypeDir then exit (.error (-eNotFound))
    else lookup f name last

/-- The walk along elements, from the file `f` in `dir` on. -/
def walkElements : Option Nat → Nat → List (List Byte) → Prog State Stop Unit
  | dir, f, [] => modify fun w => w.found dir f
  | _, f, name :: rest => do
      let g ← enter f name (rest == [])
      walkElements (some f) g rest

end Walk

/-- One step of the walk on the disk alone: the length of the element, the type of the file, and
`dir_lookup`. -/
def step (f : Nat) (name : List Byte) : Prog Bytes Stop Nat := do
  if maxnamelen ≤ name.length then exit (.error (-eBadPath))
  else
    bcPgfault (fType f)
    let m ← get
    if m.load32 (fType f) ≠ ftypeDir then exit (.error (-eNotFound))
    else dirLookup f name

/-! ## The elements of a path -/

variable {path : List Byte}

@[simp] theorem elements_nil : elements [] = [] := rfl

theorem elements_slash (path : List Byte) : elements (slash :: path) = elements path := by
  unfold elements
  rw [show slash :: path = [] ++ slash :: path from rfl, List.splitOn_append_cons_self,
    List.splitOn_nil]
  rfl

theorem elements_append_slash {name : List Byte} (hne : name ≠ []) (hslash : slash ∉ name)
    (path : List Byte) : elements (name ++ slash :: path) = name :: elements path := by
  unfold elements
  rw [List.splitOn_append_cons_self, List.splitOn_eq_singleton hslash, List.filter_append,
    List.filter_cons_of_pos (by simpa using hne)]
  rfl

theorem elements_name {name : List Byte} (hne : name ≠ []) (hslash : slash ∉ name) :
    elements name = [name] := by
  unfold elements
  rw [List.splitOn_eq_singleton hslash, List.filter_cons_of_pos (by simpa using hne)]
  rfl

/-- Slashes at the start add no element. -/
theorem elements_skip_slash (path : List Byte) : elements (skipSlash path) = elements path := by
  induction path with
  | nil => rfl
  | cons c path ih =>
      by_cases hc : c = slash
      · rw [hc, elements_slash, ← ih]
        simp [skipSlash]
      · simp [skipSlash, hc]

/-- The first element of a path that starts with no slash, and the elements behind it. -/
theorem elements_cons {c : Byte} (hc : c ≠ slash) (path : List Byte) :
    elements (c :: path) = (c :: path).takeWhile (· != slash) ::
      elements (skipSlash ((c :: path).dropWhile (· != slash))) := by
  have hne : (c :: path).takeWhile (· != slash) ≠ [] := by simp [hc]
  have hslash : slash ∉ (c :: path).takeWhile (· != slash) := by
    intro hmem
    have := List.mem_takeWhile_imp hmem
    simp at this
  rw [elements_skip_slash]
  conv_lhs => rw [← List.takeWhile_append_dropWhile (p := (· != slash)) (l := c :: path)]
  cases hdrop : (c :: path).dropWhile (· != slash) with
  | nil => rw [List.append_nil, elements_name hne hslash, elements_nil]
  | cons d rest =>
      have hd : d = slash := by
        have := List.head_dropWhile_not (· != slash) (l := c :: path) (by simp [hdrop])
        simpa [hdrop] using this
      rw [hd, elements_append_slash hne hslash, elements_slash]

theorem skip_slash_head {c : Byte} {rest : List Byte} (h : skipSlash path = c :: rest) :
    c ≠ slash := by
  unfold skipSlash at h
  have hne : path.dropWhile (· == slash) ≠ [] := by simp [h]
  have hhead := List.head_dropWhile_not (· == slash) hne
  simpa [h] using hhead

theorem skip_slash_head? (path : List Byte) : (skipSlash path).head? ≠ some slash := by
  cases hskip : skipSlash path with
  | nil => simp
  | cons d rest => simpa using skip_slash_head hskip

/-- A path has no elements exactly when it consists of slashes. -/
theorem skip_slash_eq_nil (path : List Byte) : skipSlash path = [] ↔ elements path = [] := by
  rw [← elements_skip_slash]
  refine ⟨fun h => by rw [h, elements_nil], fun h => ?_⟩
  cases hskip : skipSlash path with
  | nil => rfl
  | cons c rest =>
      rw [hskip, elements_cons (skip_slash_head hskip)] at h
      cases h

/-- Every element of a path is a name: it is not empty, and it is made of the bytes of the path. -/
theorem mem_elements {name : List Byte} (h : name ∈ elements path) :
    name ≠ [] ∧ ∀ b ∈ name, b ∈ path := by
  induction hlen : path.length using Nat.strong_induction_on generalizing path with
  | _ n ih =>
      cases path with
      | nil => cases h
      | cons c path =>
          by_cases hc : c = slash
          · rw [hc, elements_slash] at h
            have hpath := ih path.length (by rw [← hlen]; simp) h rfl
            exact ⟨hpath.1, fun b hb => List.mem_cons_of_mem c (hpath.2 b hb)⟩
          · rw [elements_cons hc] at h
            obtain rfl | h := List.mem_cons.mp h
            · exact ⟨by simp [hc], fun b hb => (List.takeWhile_sublist _).subset hb⟩
            · have hshort := rest_length_lt c path
              have hrest := ih _ (by omega) h rfl
              refine ⟨hrest.1, fun b hb => ?_⟩
              exact (List.dropWhile_sublist _).subset
                ((List.dropWhile_sublist _).subset (hrest.2 b hb))

namespace Walk

/-- A round of the loop of `walk_path` is a step along the first element. -/
theorem walk_from_cons (n : Nat) (dir : Option Nat) (f : Nat) (c : Byte) (path : List Byte) :
    walkFrom (n + 1) dir f (c :: path) =
      enter f ((c :: path).takeWhile (· != slash))
        (skipSlash ((c :: path).dropWhile (· != slash)) == []) >>= fun g =>
      walkFrom n (some f) g (skipSlash ((c :: path).dropWhile (· != slash))) := by
  rw [walkFrom, enter]
  split
  case isTrue _ => rfl
  case isFalse _ =>
    simp only [bind_assoc]
    congr 1
    funext _
    congr 1
    funext w
    split <;> rfl

/-- The loop of `walk_path` walks along the elements. -/
theorem walk_from_eq {n : Nat} (dir : Option Nat) (f : Nat) (hn : path.length ≤ n)
    (hhead : path.head? ≠ some slash) :
    walkFrom n dir f path = walkElements dir f (elements path) := by
  induction n generalizing dir f path with
  | zero =>
      obtain rfl : path = [] := List.eq_nil_of_length_eq_zero (by omega)
      rfl
  | succ n ih =>
      cases path with
      | nil => rfl
      | cons c path =>
          have hc : c ≠ slash := fun h => hhead (by simp [h])
          have hshort := rest_length_lt c path
          rw [walk_from_cons, elements_cons hc, walkElements]
          generalize hrest : skipSlash ((c :: path).dropWhile (· != slash)) = rest
          have hlast : (rest == []) = (elements rest == []) := by
            rw [Bool.eq_iff_iff, beq_iff_eq, beq_iff_eq, ← hrest, skip_slash_eq_nil,
              elements_skip_slash]
          rw [hlast]
          congr 1
          funext g
          rw [List.length_cons, hrest] at hshort
          rw [List.length_cons] at hn
          exact ih (some f) g (by omega) (hrest ▸ skip_slash_head? _)

/-- `walk_path` is the walk along the elements of the path, from the root. -/
theorem walk_path_eq (path : List Byte) :
    walkPath path = (do
      modify State.cleared
      walkElements none sRoot (elements path)) := by
  unfold walkPath
  simp only
  rw [walk_from_eq none sRoot (Nat.le_refl _) (skip_slash_head? path), elements_skip_slash]

/-- A step does on the disk what it does without the pointers, and it changes them only when it
fails. -/
theorem enter_follows {f : Nat} {name : List Byte} {last : Bool} {w : State}
    {Q : Nat → Bytes → Prop} {E : Stop → Bytes → Prop} (h : wp (step f name) Q E w.disk) :
    wp (enter f name last) (fun g w' => Q g w'.disk ∧ w' = { w with disk := w'.disk })
      (fun e w' => E e w'.disk) w := by
  revert h
  unfold step enter onDisk lookup
  rw [wp_ite, wp_ite]
  refine fun ⟨hlong, hshort⟩ => ⟨hlong, fun hlen => ?_⟩
  rw [wp_bind, wp_zoom]
  refine wp_mono (wp_bind.mp (hshort hlen)) (fun _ m hm => ?_) fun _ _ he => he
  rw [wp_bind, wp_get]
  revert hm
  rw [wp_bind, wp_get, wp_ite, wp_ite]
  refine fun ⟨hfile, hdir⟩ => ⟨hfile, fun htype => ?_⟩
  rw [wp_rescue, onDisk, wp_zoom]
  refine wp_mono (hdir htype) (fun g m hg => ⟨hg, rfl⟩) fun e m he => ?_
  cases e with
  | panic => exact he
  | error r =>
      dsimp only
      split
      · exact he
      · exact he

/-- How a walk ends beside one on the disk alone: in the same way, with the same disk, and with the
file that the other one returns in `*pf`. -/
def Follows : Outcome Bytes Stop Nat → Outcome State Stop Unit → Prop
  | .ret f m, .ret () w => w.disk = m ∧ w.pf = some f
  | .exit e m, .exit e' w => e' = e ∧ w.disk = m
  | _, _ => False

theorem walk_elements_follows {names : List (List Byte)} {dir : Option Nat} {f : Nat} {w : State}
    {Q : Nat → Bytes → Prop} {E : Stop → Bytes → Prop}
    (h : wp (names.foldlM step f) Q E w.disk) :
    wp (walkElements dir f names) (fun _ w' => ∃ g, w'.pf = some g ∧ Q g w'.disk)
      (fun e w' => E e w'.disk) w := by
  induction names generalizing dir f w with
  | nil => exact ⟨f, rfl, h⟩
  | cons name rest ih =>
      rw [List.foldlM_cons, wp_bind] at h
      rw [walkElements, wp_bind]
      exact wp_mono_ret (enter_follows h) fun g w' hg => ih hg.1

/-- The walk is the left fold of the steps over the elements of the path. -/
theorem walk_path_follows (path : List Byte) (w : State) :
    Follows ((elements path).foldlM step sRoot w.disk) (walkPath path w) := by
  have hwalk : ∀ {Q E}, wp ((elements path).foldlM step sRoot) Q E w.disk →
      wp (walkPath path) (fun _ w' => ∃ g, w'.pf = some g ∧ Q g w'.disk)
        (fun e w' => E e w'.disk) w := by
    intro Q E h
    rw [walk_path_eq, wp_bind, wp_modify]
    exact walk_elements_follows h
  cases hfold : (elements path).foldlM step sRoot w.disk with
  | ret f m =>
      have h := hwalk (Q := fun g m' => g = f ∧ m' = m) (E := fun _ _ => False)
        ((wp_of_ret hfold).mpr ⟨rfl, rfl⟩)
      obtain ⟨_, w', hrun, g, hpf, rfl, hdisk⟩ := ret_of_wp h
      rw [hrun]
      exact ⟨hdisk, hpf⟩
  | exit e m =>
      have h := hwalk (Q := fun _ _ => False) (E := fun e' m' => e' = e ∧ m' = m)
        ((wp_of_exit hfold).mpr ⟨rfl, rfl⟩)
      obtain ⟨e', w', hrun, he, hdisk⟩ := exit_of_wp (wp_mono h (fun _ _ h => h.elim fun _ h => h.2)
        fun _ _ h => h)
      rw [hrun]
      exact ⟨he, hdisk⟩

end Walk

/-! ## The walk of `file_open` -/

/-- A round of the loop without the pointers is a step along the first element. -/
theorem walk_round (n f : Nat) (c : Byte) (path : List Byte) :
    walkFrom (n + 1) f (c :: path) =
      step f ((c :: path).takeWhile (· != slash)) >>= fun g =>
      walkFrom n g (skipSlash ((c :: path).dropWhile (· != slash))) := by
  rw [walkFrom, step]
  split
  case isTrue _ => rfl
  case isFalse _ =>
    simp only [bind_assoc]
    congr 1
    funext _
    congr 1
    funext m
    split <;> rfl

theorem walk_fold {n f : Nat} (hn : path.length ≤ n) (hhead : path.head? ≠ some slash) :
    walkFrom n f path = (elements path).foldlM step f := by
  induction n generalizing f path with
  | zero =>
      obtain rfl : path = [] := List.eq_nil_of_length_eq_zero (by omega)
      rfl
  | succ n ih =>
      cases path with
      | nil => rfl
      | cons c path =>
          have hc : c ≠ slash := fun h => hhead (by simp [h])
          have hshort := rest_length_lt c path
          rw [walk_round, elements_cons hc, List.foldlM_cons]
          congr 1
          funext g
          rw [List.length_cons] at hn hshort
          exact ih (by omega) (skip_slash_head? _)

/-- `file_open`, which asks for no directory and no last element, is the same fold. -/
theorem file_open_eq (path : List Byte) : fileOpen path = (elements path).foldlM step sRoot := by
  unfold fileOpen walkPath
  rw [walk_fold (skip_slash_length_le path) (skip_slash_head? path), elements_skip_slash]

/-! ## Trees of directories -/

/-- The file is a directory. -/
def IsDir (m : Bytes) (f : Nat) : Prop := m.load32 (fType f) = ftypeDir

instance (m : Bytes) (f : Nat) : Decidable (IsDir m f) := inferInstanceAs (Decidable (_ = _))

/-- The entries in the blocks of a directory, in their order. -/
def entries (blocks : List Nat) : List Nat :=
  blocks.flatMap fun blk => (List.range blkfiles).map fun j => blk + sizeofFile * j

/-- A tree of directories on the disk: the root is a file, the named entries of a directory are
files, and a directory has the blocks that its size promises. -/
structure DirTree (m : Bytes) where
  file : Nat → Prop
  blocks : Nat → List Nat
  root : file sRoot
  typeRead : ∀ f, file f → Returns (bcPgfault (fType f)) m ()
  sizeRead : ∀ f, file f → Returns (bcPgfault (fSize f)) m ()
  size : ∀ f, file f → IsDir m f →
    m.load32 (fSize f) = BitVec.ofNat 32 (4096 * (blocks f).length) ∧
      4096 * (blocks f).length < 2 ^ 31
  block : ∀ f, file f → IsDir m f → ∀ i blk, (blocks f)[i]? = some blk →
    Returns (fileGetBlock f (BitVec.ofNat 32 i)) m blk
  entry : ∀ f, file f → IsDir m f → ∀ g ∈ entries (blocks f), m g ≠ 0 → file g

namespace DirTree

variable {m : Bytes} (t : DirTree m)

/-- The file of a name in a directory: the first entry with this name. -/
def child (f : Nat) (name : List Byte) : Option Nat :=
  (entries (t.blocks f)).find? fun g => strcmp m g name

/-- The walk along names comes to the file `f`, in the directory `dir`. The root lies in no
directory. -/
inductive Reach : List (List Byte) → Option Nat → Nat → Prop
  | root : Reach [] none sRoot
  | step {names : List (List Byte)} {dir : Option Nat} {f g : Nat} {name : List Byte}
      (hreach : Reach names dir f) (hlen : name.length < maxnamelen) (hdir : IsDir m f)
      (hchild : t.child f name = some g) : Reach (names ++ [name]) (some f) g

/-- The walk reaches an element of 128 or more bytes. -/
def TooLong (names : List (List Byte)) : Prop :=
  ∃ pre name post dir f, names = pre ++ name :: post ∧ t.Reach pre dir f ∧
    maxnamelen ≤ name.length

/-- The walk reaches an element in a file that is no directory, or in a directory that has no entry
of that name. -/
def Missing (names : List (List Byte)) : Prop :=
  ∃ pre name post dir f, names = pre ++ name :: post ∧ t.Reach pre dir f ∧
    name.length < maxnamelen ∧ (¬ IsDir m f ∨ t.child f name = none)

/-- Only the last element `name` is missing, from the directory `f`. -/
def LastMissing (names : List (List Byte)) (f : Nat) (name : List Byte) : Prop :=
  ∃ pre dir, names = pre ++ [name] ∧ t.Reach pre dir f ∧ name.length < maxnamelen ∧ IsDir m f ∧
    t.child f name = none

theorem find_in_entries (name : List Byte) (blk : Nat) (rest : List Nat) :
    (entries (blk :: rest)).find? (fun g => strcmp m g name) =
      match findInBlock m blk name with
      | some g => some g
      | none => (entries rest).find? fun g => strcmp m g name := by
  unfold entries findInBlock
  rw [List.flatMap_cons, List.find?_append]
  generalize ((List.range blkfiles).map fun j => blk + sizeofFile * j).find?
    (fun f => strcmp m f name) = found
  cases found with
  | none => rfl
  | some g => rfl

variable {t} {f g : Nat} {name : List Byte}

/-- The loop of `dir_lookup` looks at the entries in their order. -/
theorem lookup_from_eq (hfile : t.file f) (hdir : IsDir m f) {n i : Nat}
    (hn : i + n = (t.blocks f).length) :
    dirLookupFrom f name n (BitVec.ofNat 32 i) m =
      match (entries ((t.blocks f).drop i)).find? fun g => strcmp m g name with
      | some g => .ret g m
      | none => .exit (.error (-eNotFound)) m := by
  induction n generalizing i with
  | zero =>
      rw [List.drop_eq_nil_of_le (by omega)]
      rfl
  | succ n ih =>
      have hi : i < (t.blocks f).length := by omega
      have hblock := t.block f hfile hdir i _ (List.getElem?_eq_getElem hi)
      rw [List.drop_eq_getElem_cons hi, find_in_entries, dirLookupFrom, bind_of_returns hblock]
      show (match findInBlock m (t.blocks f)[i] name with
        | some f => (pure f : Prog Bytes Stop Nat)
        | none => dirLookupFrom f name n (BitVec.ofNat 32 i + 1)) m = _
      cases findInBlock m (t.blocks f)[i] name with
      | some g => rfl
      | none =>
          have hnext : BitVec.ofNat 32 i + 1 = BitVec.ofNat 32 (i + 1) :=
            (BitVec.ofNat_add i 1).symm
          show dirLookupFrom f name n (BitVec.ofNat 32 i + 1) m = _
          rw [hnext]
          exact ih (by omega)

/-- In a tree, `dir_lookup` finds the child of the name. -/
theorem lookup_eq (hfile : t.file f) (hdir : IsDir m f) :
    dirLookup f name m =
      match t.child f name with
      | some g => .ret g m
      | none => .exit (.error (-eNotFound)) m := by
  obtain ⟨hsize, hlt⟩ := t.size f hfile hdir
  have hrem : 4096 * (t.blocks f).length % 4096 = 0 := Nat.mul_mod_right ..
  have hdiv : 4096 * (t.blocks f).length / 4096 = (t.blocks f).length :=
    Nat.mul_div_cancel_left _ (by decide)
  have hcount : (BitVec.ofNat 32 (t.blocks f).length).toNat = (t.blocks f).length := by
    rw [BitVec.toNat_ofNat]
    omega
  unfold dirLookup
  rw [bind_of_returns (t.sizeRead f hfile)]
  show (if _ then _ else _ : Prog Bytes Stop Nat) m = _
  rw [hsize, srem_block hlt, sdiv_block hlt, hrem, hdiv, hcount]
  refine (congrFun (if_neg fun hne => hne rfl) m).trans ?_
  exact lookup_from_eq hfile hdir (i := 0) (Nat.zero_add _)

/-- The child of a name is a file, and not an empty entry. -/
theorem child_file (hfile : t.file f) (hdir : IsDir m f) (hne : name ≠ [])
    (hstring : (0 : Byte) ∉ name) (hchild : t.child f name = some g) : t.file g := by
  have hnamed := List.find?_some hchild
  refine t.entry f hfile hdir g (List.mem_of_find?_eq_some hchild) fun hzero => ?_
  cases name with
  | nil => exact hne rfl
  | cons c rest =>
      have hc : m g = c := by
        have hboth := hnamed
        simp only [strcmp, Bool.and_eq_true, beq_iff_eq] at hboth
        exact hboth.1
      exact hstring (by simp [← hc, hzero])

/-- The walk only comes to files. -/
theorem Reach.file {names : List (List Byte)} {dir : Option Nat} (h : t.Reach names dir f)
    (hnames : ∀ name ∈ names, name ≠ [] ∧ (0 : Byte) ∉ name) : t.file f := by
  induction h with
  | root => exact t.root
  | @step names dir f g name _ _ hdir hchild ih =>
      obtain ⟨hne, hstring⟩ := hnames name (by simp)
      exact child_file (ih fun n hn => hnames n (List.mem_append_left _ hn)) hdir hne hstring hchild

end DirTree

namespace Walk

variable {m : Bytes} {t : DirTree m} {w : State} {f g : Nat} {name : List Byte} {last : Bool}

theorem on_disk_returns {α : Type} {x : Prog Bytes Stop α} {a : α} (hw : w.disk = m)
    (h : Returns x m a) : onDisk x w = .ret a w := by
  subst hw
  unfold Returns at h
  simp only [onDisk, zoom, h]

/-! ## A step in a tree -/

theorem enter_long (hlen : maxnamelen ≤ name.length) (w : State) :
    enter f name last w = .exit (.error (-eBadPath)) w := by
  unfold enter
  rw [if_pos hlen]
  rfl

/-- A step in a tree that gets to the type of the file. -/
theorem enter_short (hw : w.disk = m) (hfile : t.file f) (hlen : name.length < maxnamelen) :
    enter f name last w =
      if IsDir m f then lookup f name last w else .exit (.error (-eNotFound)) w := by
  unfold enter
  rw [if_neg (Nat.not_le.mpr hlen), bind_of_ret (on_disk_returns hw (t.typeRead f hfile)), get_bind,
    hw]
  by_cases hdir : IsDir m f
  · rw [if_pos hdir]
    exact congrFun (if_neg (not_not.mpr hdir)) w
  · rw [if_neg hdir]
    exact congrFun (if_pos hdir) w

theorem lookup_some (hw : w.disk = m) (hfile : t.file f) (hdir : IsDir m f)
    (hchild : t.child f name = some g) : lookup f name last w = .ret g w := by
  have hlookup : Returns (dirLookup f name) m g := by
    unfold Returns
    rw [t.lookup_eq hfile hdir, hchild]
  unfold lookup rescue
  rw [on_disk_returns hw hlookup]

theorem lookup_none (hw : w.disk = m) (hfile : t.file f) (hdir : IsDir m f)
    (hchild : t.child f name = none) :
    lookup f name last w =
      .exit (.error (-eNotFound)) (if last then w.missing f name else w) := by
  have hlookup : onDisk (dirLookup f name) w = .exit (.error (-eNotFound)) w := by
    subst hw
    unfold onDisk zoom
    rw [t.lookup_eq hfile hdir, hchild]
  unfold lookup rescue
  rw [hlookup]
  cases last <;> rfl

/-! ## The walk in a tree -/

/-- The walk gets to every file that its first elements reach, and has set nothing by then. -/
theorem walk_reach {pre : List (List Byte)} {dir : Option Nat} (hw : w.disk = m)
    (h : t.Reach pre dir f) (hnames : ∀ name ∈ pre, name ≠ [] ∧ (0 : Byte) ∉ name)
    (post : List (List Byte)) :
    walkElements none sRoot (pre ++ post) w = walkElements dir f post w := by
  induction h generalizing post with
  | root => rfl
  | @step names dir f g name hreach hlen hdir hchild ih =>
      have hpre : ∀ n ∈ names, n ≠ [] ∧ (0 : Byte) ∉ n :=
        fun n hn => hnames n (List.mem_append_left _ hn)
      have hfile := hreach.file hpre
      have henter : enter f name (post == []) w = .ret g w := by
        rw [enter_short hw hfile hlen, if_pos hdir, lookup_some hw hfile hdir hchild]
      rw [List.append_assoc, ih hpre]
      show walkElements dir f (name :: post) w = _
      rw [walkElements, bind_of_ret henter]

/-- The walk along all elements, or the element at which it stops. -/
theorem reach_or_stops (t : DirTree m) (names : List (List Byte)) :
    (∃ dir f, t.Reach names dir f) ∨ t.TooLong names ∨ t.Missing names := by
  induction names using List.reverseRecOn with
  | nil => exact .inl ⟨none, sRoot, .root⟩
  | append_singleton names name ih =>
      obtain ⟨dir, f, hreach⟩ | ⟨pre, c, post, dir, f, rfl, hreach, hlen⟩ |
        ⟨pre, c, post, dir, f, rfl, hreach, hrest⟩ := ih
      · by_cases hlen : maxnamelen ≤ name.length
        · exact .inr (.inl ⟨names, name, [], dir, f, rfl, hreach, hlen⟩)
        · have hlen := Nat.not_le.mp hlen
          by_cases hdir : IsDir m f
          · cases hchild : t.child f name with
            | none => exact .inr (.inr ⟨names, name, [], dir, f, rfl, hreach, hlen, .inr hchild⟩)
            | some g => exact .inl ⟨some f, g, .step hreach hlen hdir hchild⟩
          · exact .inr (.inr ⟨names, name, [], dir, f, rfl, hreach, hlen, .inl hdir⟩)
      · exact .inr (.inl ⟨pre, c, post ++ [name], dir, f, by simp, hreach, hlen⟩)
      · exact .inr (.inr ⟨pre, c, post ++ [name], dir, f, by simp, hreach, hrest⟩)

/-- What `walk_path` comes to in a tree of directories. -/
structure WalkSpec (t : DirTree w.disk) (path : List Byte) : Prop where
  /-- Paths with the same elements are walked in the same way. -/
  spelling : ∀ path', elements path' = elements path → walkPath path' = walkPath path
  /-- The walk is the left fold of the lookups over the elements. -/
  fold : Follows ((elements path).foldlM step sRoot w.disk) (walkPath path w)
  badPath : (∃ w', walkPath path w = .exit (.error (-eBadPath)) w') ↔ t.TooLong (elements path)
  notFound : (∃ w', walkPath path w = .exit (.error (-eNotFound)) w') ↔ t.Missing (elements path)
  /-- Otherwise it returns 0 with the file and its directory. -/
  found : ¬ t.TooLong (elements path) → ¬ t.Missing (elements path) →
    ∃ dir f, t.Reach (elements path) dir f ∧ walkPath path w = .ret () (w.found dir f)
  lastMissing : ∀ f name, t.LastMissing (elements path) f name →
    walkPath path w = .exit (.error (-eNotFound)) (w.missing f name)
  /-- In all other failures, `*pdir` and `*pf` are null and `lastelem` is as it was. -/
  cleared : ∀ e w', walkPath path w = .exit e w' →
    (∀ f name, ¬ t.LastMissing (elements path) f name) → w' = w.cleared

/-- The outcome of `walk_path` from the walk along the elements. -/
theorem walk_path_run (path : List Byte) (w : State) :
    walkPath path w = walkElements none sRoot (elements path) w.cleared := by
  rw [walk_path_eq]
  rfl

section Outcomes

variable {path : List Byte} {pre post : List (List Byte)} {dir : Option Nat}
  {t : DirTree w.disk} (hpath : (0 : Byte) ∉ path)
include hpath

theorem elements_names : ∀ name ∈ elements path, name ≠ [] ∧ (0 : Byte) ∉ name := fun _ h =>
  ⟨(mem_elements h).1, fun hzero => hpath ((mem_elements h).2 0 hzero)⟩

/-- The walk from the element that is reached on. -/
theorem walk_path_reach (hpre : elements path = pre ++ post) (hreach : t.Reach pre dir f) :
    walkPath path w = walkElements dir f post w.cleared ∧ t.file f := by
  have hnames : ∀ name ∈ pre, name ≠ [] ∧ (0 : Byte) ∉ name := fun n hn =>
    elements_names hpath n (hpre ▸ List.mem_append_left _ hn)
  rw [walk_path_run, hpre]
  exact ⟨walk_reach (w := w.cleared) rfl hreach hnames post, hreach.file hnames⟩

theorem walk_path_found (hreach : t.Reach (elements path) dir f) :
    walkPath path w = .ret () (w.found dir f) := by
  rw [(walk_path_reach hpath (List.append_nil _).symm hreach).1, walkElements]
  show Outcome.ret () (w.cleared.found dir f) = _
  cases w with
  | mk disk pdir pf lastelem => cases pdir <;> rfl

theorem walk_path_long (h : t.TooLong (elements path)) :
    walkPath path w = .exit (.error (-eBadPath)) w.cleared := by
  obtain ⟨pre, name, post, dir, f, hpre, hreach, hlen⟩ := h
  rw [(walk_path_reach hpath hpre hreach).1, walkElements, bind_of_exit (enter_long hlen _)]

/-- A walk that stops at an element that is missing. -/
theorem walk_path_stops (hpre : elements path = pre ++ name :: post) (hreach : t.Reach pre dir f)
    (hlen : name.length < maxnamelen) (hstop : ¬ IsDir w.disk f ∨ t.child f name = none) :
    walkPath path w = .exit (.error (-eNotFound))
      (if IsDir w.disk f ∧ post = [] then w.missing f name else w.cleared) := by
  obtain ⟨hrun, hfile⟩ := walk_path_reach hpath hpre hreach
  have hdisk : w.cleared.disk = w.disk := rfl
  rw [hrun, walkElements]
  refine bind_of_exit ?_
  rw [enter_short hdisk hfile hlen]
  by_cases hdir : IsDir w.disk f
  · rw [if_pos hdir, lookup_none hdisk hfile hdir (hstop.resolve_left (not_not.mpr hdir))]
    have hmissing : w.cleared.missing f name = w.missing f name := by
      cases w with
      | mk disk pdir pf lastelem => cases pdir <;> rfl
    cases post with
    | nil => simp [hdir, hmissing]
    | cons _ _ => simp
  · rw [if_neg hdir, if_neg fun h => hdir h.1]

theorem walk_path_missing (h : t.Missing (elements path)) :
    ∃ w', walkPath path w = .exit (.error (-eNotFound)) w' := by
  obtain ⟨pre, name, post, dir, f, hpre, hreach, hlen, hstop⟩ := h
  exact ⟨_, walk_path_stops hpath hpre hreach hlen hstop⟩

end Outcomes

/-- `walk_path` does on every tree of directories what `WalkSpec` says, for every path. -/
theorem walk_path_spec (t : DirTree w.disk) {path : List Byte} (hpath : (0 : Byte) ∉ path) :
    WalkSpec t path := by
  have hcases := reach_or_stops t (elements path)
  refine ⟨fun path' hsame => ?_, walk_path_follows path w,
    ⟨?_, fun h => ⟨_, walk_path_long hpath h⟩⟩, ⟨?_, walk_path_missing hpath⟩,
    fun hlong hmissing => ?_, ?_, ?_⟩
  · rw [walk_path_eq, walk_path_eq, hsame]
  · rintro ⟨w', hrun⟩
    obtain ⟨dir, f, hreach⟩ | hlong | hmissing := hcases
    · rw [walk_path_found hpath hreach] at hrun
      cases hrun
    · exact hlong
    · obtain ⟨w'', hrun'⟩ := walk_path_missing hpath hmissing
      rw [hrun'] at hrun
      cases hrun
  · rintro ⟨w', hrun⟩
    obtain ⟨dir, f, hreach⟩ | hlong | hmissing := hcases
    · rw [walk_path_found hpath hreach] at hrun
      cases hrun
    · rw [walk_path_long hpath hlong] at hrun
      cases hrun
    · exact hmissing
  · obtain ⟨dir, f, hreach⟩ := hcases.resolve_right (not_or.mpr ⟨hlong, hmissing⟩)
    exact ⟨dir, f, hreach, walk_path_found hpath hreach⟩
  · rintro f name ⟨pre, dir, hpre, hreach, hlen, hdir, hchild⟩
    rw [walk_path_stops hpath hpre hreach hlen (.inr hchild), if_pos ⟨hdir, rfl⟩]
  · intro e w' hrun hnot
    obtain ⟨dir, f, hreach⟩ | hlong | ⟨pre, name, post, dir, f, hpre, hreach, hlen, hstop⟩ := hcases
    · rw [walk_path_found hpath hreach] at hrun
      cases hrun
    · rw [walk_path_long hpath hlong] at hrun
      cases hrun
      rfl
    · rw [walk_path_stops hpath hpre hreach hlen hstop] at hrun
      cases hrun
      refine if_neg ?_
      rintro ⟨hdir, rfl⟩
      exact hnot f name ⟨pre, dir, hpre, hreach, hlen, hdir,
        hstop.resolve_left (not_not.mpr hdir)⟩

end Walk

/-! ## The tree of an image -/

section Image

variable {m : Bytes} {nblocks : Word} {used start : Nat} {files : List (List Byte × List Byte)}

/-- The root, and the entries of the directory that have files. -/
def imageFile (start : Nat) (files : List (List Byte × List Byte)) (f : Nat) : Prop :=
  f = sRoot ∨ ∃ q, q < files.length ∧ f = start * 4096 + sizeofFile * q

/-- The blocks of the only directory. -/
def imageBlocks (start : Nat) (files : List (List Byte × List Byte)) (f : Nat) : List Nat :=
  if f = sRoot then (List.range (dirBlocks files.length)).map fun b => (start + b) * 4096 else []

theorem IsImage.file_on_disk (himage : IsImage m nblocks used start files) {f : Nat}
    (h : imageFile start files f) : OnDisk nblocks f := by
  obtain rfl | ⟨q, hq, rfl⟩ := h
  · exact himage.root_on_disk
  · exact himage.entry_on_disk (List.getElem?_eq_getElem hq)

/-- The root is the only directory. -/
theorem IsImage.dir_eq_root (himage : IsImage m nblocks used start files)
    (hgood : GoodFiles files) {f : Nat} (h : imageFile start files f) (hdir : IsDir m f) :
    f = sRoot := by
  obtain rfl | ⟨q, hq, rfl⟩ := h
  · rfl
  · have hfile := (himage.file q _ _ (List.getElem?_eq_getElem hq)).2
      (hgood.short _ (List.getElem_mem hq))
    exact absurd (hfile.type.symm.trans hdir) (by decide)

/-- Every image that `fsformat` makes is a tree of directories. -/
def IsImage.dirTree (himage : IsImage m nblocks used start files) (hgood : GoodFiles files) :
    DirTree m where
  file := imageFile start files
  blocks := imageBlocks start files
  root := .inl rfl
  typeRead f h := himage.sized.returns_pgfault (by
    have := himage.file_on_disk h
    unfold OnDisk sizeofFile at this
    unfold fType
    omega)
  sizeRead f h := himage.sized.returns_pgfault (by
    have := himage.file_on_disk h
    unfold OnDisk sizeofFile at this
    unfold fSize
    omega)
  size f h hdir := by
    obtain rfl := himage.dir_eq_root hgood h hdir
    have hblocks := dir_blocks_le himage.count
    have hlength : (imageBlocks start files sRoot).length = dirBlocks files.length := by
      simp [imageBlocks]
    rw [hlength]
    exact ⟨himage.size, by omega⟩
  block f h hdir i blk hblk := by
    obtain rfl := himage.dir_eq_root hgood h hdir
    unfold imageBlocks at hblk
    rw [if_pos rfl, List.getElem?_map, Option.map_eq_some_iff] at hblk
    obtain ⟨b, hb, rfl⟩ := hblk
    obtain ⟨hi, rfl⟩ := List.getElem?_eq_some_iff.mp hb
    rw [List.getElem_range]
    exact himage.returns_dir_block (by simpa using hi)
  entry f h hdir g hg hne := by
    obtain rfl := himage.dir_eq_root hgood h hdir
    unfold entries imageBlocks at hg
    rw [if_pos rfl, List.mem_flatMap] at hg
    obtain ⟨blk, hblk, hg⟩ := hg
    obtain ⟨b, hb, rfl⟩ := List.mem_map.mp hblk
    obtain ⟨j, hj, rfl⟩ := List.mem_map.mp hg
    have hb := List.mem_range.mp hb
    have hj := List.mem_range.mp hj
    have hplace : (start + b) * 4096 + sizeofFile * j =
        start * 4096 + sizeofFile * (blkfiles * b + j) := by
      unfold sizeofFile blkfiles
      omega
    have hq : blkfiles * b + j < blkfiles * dirBlocks files.length := by
      have hle : blkfiles * (b + 1) ≤ blkfiles * dirBlocks files.length :=
        Nat.mul_le_mul_left _ (by omega)
      have hsplit : blkfiles * (b + 1) = blkfiles * b + blkfiles := Nat.mul_succ ..
      omega
    rw [hplace] at hne ⊢
    refine .inr ⟨blkfiles * b + j, ?_, rfl⟩
    by_contra hge
    exact hne (himage.empty _ (Nat.le_of_not_lt hge) hq)

/-- The walk along a path with too many slashes, in an image of one file. -/
theorem walk_path_spec_one_file : ∃ (img : Bytes) (t : DirTree img),
    Walk.WalkSpec (w := ⟨img, some none, none, some []⟩) t [slash, slash, 0x61, slash] := by
  have hsome : (fsformat 8 [([0x61], [1, 2, 3])] fun _ => 0).isSome = true := by decide +kernel
  obtain ⟨img, himg⟩ := Option.isSome_iff_exists.mp hsome
  have hgood : GoodFiles [([0x61], [1, 2, 3])] := by
    refine ⟨?_, ?_, ?_, List.nodup_singleton _⟩
    · decide
    · decide
    · decide
  obtain ⟨used, start, himage, -⟩ := fsformat_image himg
  exact ⟨img, himage.dirTree hgood,
    Walk.walk_path_spec (w := ⟨img, some none, none, some []⟩) _ (by decide)⟩

end Image

end Labs.Jos.Fs
