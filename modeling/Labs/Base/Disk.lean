import Labs.Base.FileTree
import Labs.Base.Prog
import Mathlib.Data.List.Infix
import Mathlib.Logic.Function.Basic

/-!
# Calls on a file tree

The calls of a kernel that create, rename and remove the entries of a file tree, and that open and
write its files. A call either returns, or is refused and changes nothing. The machine remembers the
places that calls have touched.
-/

namespace Labs.FileTree

open Path Prog

/-- A file tree whose names are known, so that an empty directory can be told. -/
structure Disk (α : Type) where
  tree : Tree α
  names : List Str
  covers : ∀ place name, (tree (place ++ [name])).isSome → name ∈ names

namespace Disk

variable {α : Type} (disk : Disk α)

/-- Make an entry, or replace it. -/
def put (place : List Str) (node : Node α) : Disk α where
  tree := Function.update disk.tree place (some node)
  names := place.getLast?.toList ++ disk.names
  covers := by
    intro dir name hsome
    by_cases hplace : dir ++ [name] = place
    · rw [← hplace]
      simp
    · rw [Function.update_of_ne hplace] at hsome
      exact List.mem_append_right _ (disk.covers dir name hsome)

/-- Remove an entry. -/
def remove (place : List Str) : Disk α where
  tree := Function.update disk.tree place none
  names := disk.names
  covers := by
    intro dir name hsome
    by_cases hplace : dir ++ [name] = place
    · rw [hplace, Function.update_self] at hsome
      cases hsome
    · rw [Function.update_of_ne hplace] at hsome
      exact disk.covers dir name hsome

/-- Move an entry, with all that lies below it, to the place of another. -/
def move (old new : List Str) : Disk α where
  tree := fun place =>
    if new <+: place then
      disk.tree (old ++ place.drop new.length)
    else if old <+: place then
      none
    else
      disk.tree place
  names := new.getLast?.toList ++ disk.names
  covers := by
    intro dir name hsome
    split at hsome
    case isTrue hnew =>
      obtain ⟨below, hbelow⟩ := hnew
      rcases List.eq_nil_or_concat below with hnil | ⟨front, last, hlast⟩
      · rw [hnil, List.append_nil] at hbelow
        rw [hbelow]
        simp
      · -- the name is that of an entry below the one that was moved
        rw [hlast, List.concat_eq_append, ← List.append_assoc] at hbelow
        obtain ⟨hdir, hname⟩ := List.append_inj' hbelow rfl
        rw [← hbelow, List.append_assoc, List.drop_left, ← List.append_assoc] at hsome
        rw [← List.singleton_injective hname]
        exact List.mem_append_right _ (disk.covers _ _ hsome)
    case isFalse =>
      split at hsome
      case isTrue => cases hsome
      case isFalse => exact List.mem_append_right _ (disk.covers dir name hsome)

/-- A disk with the given directories and nothing else. -/
def ofDirs : List (List Str) → Disk α
  | [] => { tree := fun _ => none, names := [], covers := fun _ _ h => (by cases h) }
  | place :: rest => (ofDirs rest).put place .dir

/-- The directory has no entry. -/
def isEmpty (place : List Str) : Bool :=
  disk.names.all fun name => (disk.tree (place ++ [name])).isNone

variable {disk}

/-- A disk of directories has no links. -/
theorem of_dirs_no_link {dirs : List (List Str)} {place : List Str} {target : Str} :
    (ofDirs dirs : Disk α).tree place ≠ some (.symlink target) := by
  induction dirs with
  | nil => exact fun h => (by cases h)
  | cons dir rest ih =>
      intro hlink
      by_cases hplace : place = dir
      · rw [hplace] at hlink
        have hself : (ofDirs (dir :: rest) : Disk α).tree dir = some .dir := Function.update_self _ _ _
        rw [hself] at hlink
        cases hlink
      · have hother : (ofDirs (dir :: rest) : Disk α).tree place = (ofDirs rest).tree place :=
          Function.update_of_ne hplace _ _
        exact ih (hother.symm.trans hlink)

/-- An empty directory has no entry under any name. -/
theorem is_empty_iff {place : List Str} :
    disk.isEmpty place ↔ ∀ name, disk.tree (place ++ [name]) = none := by
  unfold isEmpty
  rw [List.all_eq_true]
  constructor
  · intro hall name
    by_contra hnode
    have hsome := Option.isSome_iff_ne_none.2 hnode
    have hnone := hall name (disk.covers place name hsome)
    rw [Option.isNone_iff_eq_none] at hnone
    exact hnode hnone
  · intro hnone name _
    rw [hnone name]
    rfl

end Disk

/-- The errors of the calls, by their numbers. -/
def eperm : Errno := .other 1
def ebadf : Errno := .other 9
def eacces : Errno := .other 13
def ebusy : Errno := .other 16
def eexist : Errno := .other 17
def eisdir : Errno := .other 21
def einval : Errno := .other 22
def enotempty : Errno := .other 39

/-- The place of the entry that a path names. A link in the place of the entry is not followed. -/
def entryPlace {α : Type} (tree : Tree α) (refuse : Refusals) (path : Str) :
    Except Errno (List Str) :=
  match lastName path with
  | none => .error (if path = [] then .enoent else ebusy)
  | some (parts, name) =>
      if name = ['.'] ∨ name = ['.', '.'] ∨ name = [] then
        .error einval
      else
        match walk tree refuse true maxLinks [] parts with
        | .error e => .error e
        | .ok dir =>
            match tree dir with
            | some .dir =>
                match refuse dir name with
                | some e => .error e
                | none => .ok (dir ++ [name])
            | _ => .error .enotdir

/-- Go to a component that may be missing. -/
def seek {α : Type} (tree : Tree α) (refuse : Refusals) (place : List Str) (part : Str) :
    Except Errno (List Str) :=
  match tree place with
  | some .dir =>
      if part = [] ∨ part = ['.'] then
        .ok place
      else if part = ['.', '.'] then
        .ok place.dropLast
      else
        match refuse place part with
        | some e => .error e
        | none => .ok (place ++ [part])
  | _ => .error .enotdir

/-- Go to a component of a path, which may be missing if nothing comes after it. -/
def seekLast {α : Type} (tree : Tree α) (refuse : Refusals) (place : List Str) (part : Str)
    (rest : List Str) : Except Errno (List Str) :=
  if rest = [] then seek tree refuse place part else enter tree refuse place part

/-- Go along the components of a path, of which the last may be missing. All links are followed. -/
def walkNewWith {α : Type} (tree : Tree α) (refuse : Refusals)
    (jump : List Str → List Str → Except Errno (List Str)) :
    List Str → List Str → Except Errno (List Str)
  | place, [] => .ok place
  | place, part :: rest => do
      let next ← seekLast tree refuse place part rest
      match tree next with
      | some (.symlink target) =>
          jump (if target.head? = some '/' then [] else place) (target.splitOn '/' ++ rest)
      | _ => walkNewWith tree refuse jump next rest

/-- Go along the components of a path, through at most `links` symbolic links. -/
def walkNew {α : Type} (tree : Tree α) (refuse : Refusals) :
    Nat → List Str → List Str → Except Errno (List Str)
  | 0 => walkNewWith tree refuse fun _ _ => .error .eloop
  | links + 1 => walkNewWith tree refuse (walkNew tree refuse links)

/-- The place at which a path leads to a file, which may be missing. -/
def filePlace {α : Type} (tree : Tree α) (refuse : Refusals) (path : Str) :
    Except Errno (List Str) :=
  if path = [] then .error .enoent else walkNew tree refuse maxLinks [] (path.splitOn '/')

/-- An open file with the number of its inode and the offset of the next byte, or a socket with
what was sent to it. -/
inductive Opened where
  | file (inode offset : Nat) (writable : Bool)
  | socket (sent : List UInt8)

/-- The kernel's state: the file tree with the inode number of each file, the contents of the
inodes, the open files, and the places of the entries that were created, opened for writing,
renamed or removed. -/
structure Machine where
  disk : Disk Nat
  contents : Nat → List UInt8
  freshInode : Nat
  opened : List Opened
  touched : List (List Str)

/-- The tree of the machine. -/
abbrev Machine.tree (m : Machine) : Tree Nat := m.disk.tree

/-- What the kernel refuses for reasons of its own, such as a missing permission or a full disk:
lookups, changes of an entry, and connections. -/
structure Rules where
  lookup : Tree Nat → Refusals
  change : Tree Nat → List Str → Option Errno
  connect : Option Errno

/-- Programs that make calls. -/
abbrev Sys := Prog Machine Errno

/-- Raise the error of a result. -/
def ofExcept {β : Type} : Except Errno β → Sys β
  | .ok b => pure b
  | .error e => exit e

/-- Go on if the condition holds, and raise the error otherwise. -/
def require (p : Prop) [Decidable p] (e : Errno) : Sys Unit := if p then pure () else exit e

/-- The kernel lets the caller change the entry. -/
def allow (rules : Rules) (place : List Str) : Sys Unit := do
  let m ← get
  match rules.change m.tree place with
  | some e => exit e
  | none => pure ()

/-- Change the disk at some places. -/
def Machine.alter (m : Machine) (places : List (List Str)) (f : Disk Nat → Disk Nat) : Machine :=
  { m with disk := f m.disk, touched := places ++ m.touched }

/-- The place of the entry, looked up under the rules. -/
def lookupEntry (rules : Rules) (path : Str) : Sys (List Str) := do
  let m ← get
  ofExcept (entryPlace m.tree (rules.lookup m.tree) path)

/-- The path ends in a slash, which asks for a directory. -/
def slashed (path : Str) : Bool := path.getLast? = some '/'

/-- `os.mkdir`. -/
def mkdir (rules : Rules) (path : Str) : Sys Unit := do
  let place ← lookupEntry rules path
  let m ← get
  require (m.tree place).isNone eexist
  allow rules place
  modify fun m => m.alter [place] (·.put place .dir)

/-- The entry is a directory. -/
def isDir (m : Machine) (place : List Str) : Bool :=
  match m.tree place with
  | some .dir => true
  | _ => false

/-- `os.rmdir`. -/
def rmdir (rules : Rules) (path : Str) : Sys Unit := do
  let place ← lookupEntry rules path
  let m ← get
  require (m.tree place).isSome .enoent
  require (isDir m place) .enotdir
  require (m.disk.isEmpty place) enotempty
  allow rules place
  modify fun m => m.alter [place] (·.remove place)

/-- `os.unlink`. -/
def unlink (rules : Rules) (path : Str) : Sys Unit := do
  let place ← lookupEntry rules path
  let m ← get
  require (m.tree place).isSome .enoent
  require (isDir m place = false) eisdir
  require (slashed path = false) .enotdir
  allow rules place
  modify fun m => m.alter [place] (·.remove place)

/-- `os.symlink`. -/
def symlink (rules : Rules) (target path : Str) : Sys Unit := do
  require (target ≠ []) .enoent
  let place ← lookupEntry rules path
  let m ← get
  require (m.tree place).isNone eexist
  require (slashed path = false) .enoent
  allow rules place
  modify fun m => m.alter [place] (·.put place (.symlink target))

/-- An entry can take the place of another: a directory that of an empty directory, and anything
else that of anything but a directory. -/
def replaceable (m : Machine) (old new : List Str) : Except Errno Unit :=
  if (m.tree new).isNone then
    .ok ()
  else if isDir m old then
    if isDir m new then
      if m.disk.isEmpty new then .ok () else .error enotempty
    else
      .error .enotdir
  else if isDir m new then
    .error eisdir
  else
    .ok ()

/-- `os.rename`. Nothing happens when both paths name one entry. -/
def rename (rules : Rules) (oldPath newPath : Str) : Sys Unit := do
  let old ← lookupEntry rules oldPath
  let new ← lookupEntry rules newPath
  let m ← get
  require (m.tree old).isSome .enoent
  require (isDir m old ∨ (slashed oldPath = false ∧ slashed newPath = false)) .enotdir
  if old = new then
    pure ()
  else do
    require (¬ old <+: new) einval
    require (¬ new <+: old) enotempty
    ofExcept (replaceable m old new)
    allow rules old
    allow rules new
    modify fun m => m.alter [old, new] (·.move old new)

/-- `os.path.exists`. -/
def pathExists (rules : Rules) (path : Str) : Sys Bool := do
  let m ← get
  return (resolve m.tree (rules.lookup m.tree) true path).isOk

/-- Add an open file, and return its number. -/
def Machine.addOpened (m : Machine) (f : Opened) : Machine := { m with opened := m.opened ++ [f] }

/-- A new file at the place, open for writing. -/
def Machine.create (m : Machine) (place : List Str) : Machine :=
  { m.alter [place] (·.put place (.file m.freshInode)) with
    contents := Function.update m.contents m.freshInode []
    freshInode := m.freshInode + 1
    opened := m.opened ++ [.file m.freshInode 0 true] }

/-- The file at the place without its contents, open for writing. -/
def Machine.truncate (m : Machine) (place : List Str) (inode : Nat) : Machine :=
  { m.alter [place] id with
    contents := Function.update m.contents inode []
    opened := m.opened ++ [.file inode 0 true] }

/-- `open(path, 'w+b')`: create the file or empty it, and return the number of the open file. -/
def openWritable (rules : Rules) (path : Str) : Sys Nat := do
  let m ← get
  let place ← ofExcept (filePlace m.tree (rules.lookup m.tree) path)
  match m.tree place with
  | none => do
      allow rules place
      modify fun m => m.create place
      return m.opened.length
  | some (.file inode) => do
      allow rules place
      modify fun m => m.truncate place inode
      return m.opened.length
  | some _ => exit eisdir

/-- Bytes written over those at an offset. A gap in front of the offset is filled with zeros. -/
def writeAt (l : List UInt8) (offset : Nat) (data : List UInt8) : List UInt8 :=
  l.take offset ++ List.replicate (offset - l.length) 0 ++ data ++ l.drop (offset + data.length)

/-- `os.write`: write to an open file, and return the number of bytes. -/
def write (fileno : Nat) (data : List UInt8) : Sys Nat := do
  let m ← get
  match m.opened[fileno]? with
  | some (.file inode offset true) => do
      modify fun m =>
        { m with
          contents := Function.update m.contents inode (writeAt (m.contents inode) offset data)
          opened := m.opened.set fileno (.file inode (offset + data.length) true) }
      return data.length
  | some (.socket sent) => do
      modify fun m => { m with opened := m.opened.set fileno (.socket (sent ++ data)) }
      return data.length
  | _ => exit ebadf

/-- `os.ftruncate` to no bytes. -/
def ftruncate (fileno : Nat) : Sys Unit := do
  let m ← get
  match m.opened[fileno]? with
  | some (.file inode _ true) =>
      modify fun m => { m with contents := Function.update m.contents inode [] }
  | _ => exit einval

/-- Connect to a socket, and return the number of the open file. -/
def connect (rules : Rules) : Sys Nat := do
  let m ← get
  match rules.connect with
  | some e => exit e
  | none => do
      modify fun m => m.addOpened (.socket [])
      return m.opened.length

/-- Open an existing file for reading, and return the number of the open file. -/
def openReadable (inode : Nat) : Sys Nat := do
  let m ← get
  modify fun m => m.addOpened (.file inode 0 false)
  return m.opened.length

section Rules

variable {β : Type} {rules : Rules} {path : Str} {m : Machine} {E : Errno → Machine → Prop}

theorem wp_of_except {r : Except Errno β} {Q : β → Machine → Prop} (hE : ∀ e, E e m)
    (hQ : ∀ b, r = .ok b → Q b m) : wp (ofExcept r) Q E m := by
  cases r with
  | ok b => exact hQ b rfl
  | error e => exact hE e

theorem wp_require {p : Prop} [Decidable p] {e : Errno} {Q : Unit → Machine → Prop}
    (hE : ∀ e, E e m) (hQ : p → Q () m) : wp (require p e) Q E m := by
  unfold require
  rw [wp_ite]
  exact ⟨hQ, fun _ => hE e⟩

theorem wp_allow {place : List Str} {Q : Unit → Machine → Prop} (hE : ∀ e, E e m)
    (hQ : Q () m) : wp (allow rules place) Q E m := by
  unfold allow
  rw [wp_bind, wp_get]
  split
  · exact hE _
  · exact hQ

theorem wp_lookup_entry {Q : List Str → Machine → Prop} (hE : ∀ e, E e m)
    (hQ : ∀ place, entryPlace m.tree (rules.lookup m.tree) path = .ok place → Q place m) :
    wp (lookupEntry rules path) Q E m := by
  unfold lookupEntry
  rw [wp_bind, wp_get]
  exact wp_of_except hE hQ

/-- A directory is made where there was no entry. -/
theorem wp_mkdir {Q : Unit → Machine → Prop} (hE : ∀ e, E e m)
    (hQ : ∀ place, entryPlace m.tree (rules.lookup m.tree) path = .ok place →
      m.tree place = none → Q () (m.alter [place] (·.put place .dir))) :
    wp (mkdir rules path) Q E m := by
  unfold mkdir
  rw [wp_bind]
  refine wp_lookup_entry hE fun place hplace => ?_
  rw [wp_bind, wp_get, wp_bind]
  refine wp_require hE fun hnone => ?_
  rw [wp_bind]
  exact wp_allow hE (hQ place hplace (Option.isNone_iff_eq_none.1 hnone))

/-- A directory is removed when it has no entries. -/
theorem wp_rmdir {Q : Unit → Machine → Prop} (hE : ∀ e, E e m)
    (hQ : ∀ place, entryPlace m.tree (rules.lookup m.tree) path = .ok place →
      Q () (m.alter [place] (·.remove place))) :
    wp (rmdir rules path) Q E m := by
  unfold rmdir
  rw [wp_bind]
  refine wp_lookup_entry hE fun place hplace => ?_
  rw [wp_bind, wp_get, wp_bind]
  refine wp_require hE fun _ => ?_
  rw [wp_bind]
  refine wp_require hE fun _ => ?_
  rw [wp_bind]
  refine wp_require hE fun _ => ?_
  rw [wp_bind]
  exact wp_allow hE (hQ place hplace)

/-- An entry that is not a directory is removed. -/
theorem wp_unlink {Q : Unit → Machine → Prop} (hE : ∀ e, E e m)
    (hQ : ∀ place, entryPlace m.tree (rules.lookup m.tree) path = .ok place →
      Q () (m.alter [place] (·.remove place))) :
    wp (unlink rules path) Q E m := by
  unfold unlink
  rw [wp_bind]
  refine wp_lookup_entry hE fun place hplace => ?_
  rw [wp_bind, wp_get, wp_bind]
  refine wp_require hE fun _ => ?_
  rw [wp_bind]
  refine wp_require hE fun _ => ?_
  rw [wp_bind]
  refine wp_require hE fun _ => ?_
  rw [wp_bind]
  exact wp_allow hE (hQ place hplace)

/-- A link is made where there was no entry. -/
theorem wp_symlink {target : Str} {Q : Unit → Machine → Prop} (hE : ∀ e, E e m)
    (hQ : ∀ place, entryPlace m.tree (rules.lookup m.tree) path = .ok place →
      m.tree place = none → Q () (m.alter [place] (·.put place (.symlink target)))) :
    wp (symlink rules target path) Q E m := by
  unfold symlink
  rw [wp_bind]
  refine wp_require hE fun _ => ?_
  rw [wp_bind]
  refine wp_lookup_entry hE fun place hplace => ?_
  rw [wp_bind, wp_get, wp_bind]
  refine wp_require hE fun hnone => ?_
  rw [wp_bind]
  refine wp_require hE fun _ => ?_
  rw [wp_bind]
  exact wp_allow hE (hQ place hplace (Option.isNone_iff_eq_none.1 hnone))

/-- Renaming does nothing, or moves an entry to a place that is neither above nor below it. -/
theorem wp_rename {newPath : Str} {Q : Unit → Machine → Prop} (hE : ∀ e, E e m) (hsame : Q () m)
    (hQ : ∀ old new, entryPlace m.tree (rules.lookup m.tree) path = .ok old →
      entryPlace m.tree (rules.lookup m.tree) newPath = .ok new → ¬ old <+: new → ¬ new <+: old →
      Q () (m.alter [old, new] (·.move old new))) :
    wp (rename rules path newPath) Q E m := by
  unfold rename
  rw [wp_bind]
  refine wp_lookup_entry hE fun old hold => ?_
  rw [wp_bind]
  refine wp_lookup_entry hE fun new hnew => ?_
  rw [wp_bind, wp_get, wp_bind]
  refine wp_require hE fun _ => ?_
  rw [wp_bind]
  refine wp_require hE fun _ => ?_
  rw [wp_ite]
  refine ⟨fun _ => hsame, fun _ => ?_⟩
  rw [wp_bind]
  refine wp_require hE fun hbelow => ?_
  rw [wp_bind]
  refine wp_require hE fun habove => ?_
  rw [wp_bind]
  refine wp_of_except hE fun _ _ => ?_
  rw [wp_bind]
  refine wp_allow hE ?_
  rw [wp_bind]
  exact wp_allow hE (hQ old new hold hnew hbelow habove)

theorem wp_path_exists {Q : Bool → Machine → Prop} (hQ : ∀ there, Q there m) :
    wp (pathExists rules path) Q E m :=
  hQ _

/-- Opening a file for writing creates it or empties it. -/
theorem wp_open_writable {Q : Nat → Machine → Prop} (hE : ∀ e, E e m)
    (hcreate : ∀ place, filePlace m.tree (rules.lookup m.tree) path = .ok place →
      m.tree place = none → Q m.opened.length (m.create place))
    (htruncate : ∀ place inode, filePlace m.tree (rules.lookup m.tree) path = .ok place →
      m.tree place = some (.file inode) → Q m.opened.length (m.truncate place inode)) :
    wp (openWritable rules path) Q E m := by
  unfold openWritable
  rw [wp_bind, wp_get, wp_bind]
  refine wp_of_except hE fun place hplace => ?_
  split
  case h_1 hnone =>
    rw [wp_bind]
    exact wp_allow hE (hcreate place hplace hnone)
  case h_2 inode hfile =>
    rw [wp_bind]
    exact wp_allow hE (htruncate place inode hplace hfile)
  case h_3 => exact hE _

/-- The calls on open files leave the entries alone. -/
def SameEntries (m m' : Machine) : Prop := m'.disk = m.disk ∧ m'.touched = m.touched

theorem wp_write {fileno : Nat} {data : List UInt8} {Q : Nat → Machine → Prop} (hE : ∀ e, E e m)
    (hQ : ∀ n m', SameEntries m m' → Q n m') : wp (write fileno data) Q E m := by
  unfold write
  rw [wp_bind, wp_get]
  split
  case h_1 => exact hQ _ _ ⟨rfl, rfl⟩
  case h_2 => exact hQ _ _ ⟨rfl, rfl⟩
  case h_3 => exact hE _

theorem wp_ftruncate {fileno : Nat} {Q : Unit → Machine → Prop} (hE : ∀ e, E e m)
    (hQ : ∀ m', SameEntries m m' → Q () m') : wp (ftruncate fileno) Q E m := by
  unfold ftruncate
  rw [wp_bind, wp_get]
  split
  case h_1 => exact hQ _ ⟨rfl, rfl⟩
  case h_2 => exact hE _

theorem wp_connect {Q : Nat → Machine → Prop} (hE : ∀ e, E e m)
    (hQ : ∀ n m', SameEntries m m' → Q n m') : wp (connect rules) Q E m := by
  unfold connect
  rw [wp_bind, wp_get]
  split
  case h_1 => exact hE _
  case h_2 => exact hQ _ _ ⟨rfl, rfl⟩

theorem wp_open_readable {inode : Nat} {Q : Nat → Machine → Prop}
    (hQ : ∀ n m', SameEntries m m' → Q n m') : wp (openReadable inode) Q E m :=
  hQ _ _ ⟨rfl, rfl⟩

end Rules

end Labs.FileTree
