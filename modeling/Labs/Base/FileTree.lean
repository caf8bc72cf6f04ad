import Labs.Base.Path

/-!
# File trees

Resolution of a path in a tree of directories, files and symbolic links. A place in the tree is named
by the list of components on the way to it from the root, without links.
-/

namespace Labs.FileTree

open Path

/-- What lies at a place: a directory, a file with its attributes, or a symbolic link. -/
inductive Node (α : Type) where
  | dir
  | file (attr : α)
  | symlink (target : Str)

/-- The node at each place. -/
abbrev Tree (α : Type) := List Str → Option (Node α)

/-- The errors of a resolution. A lookup that is refused for a reason of its own, such as a missing
permission or a name that is too long, has another error. -/
inductive Errno where
  | enoent
  | enotdir
  | eloop
  | other (code : Nat)
  deriving DecidableEq, Repr

variable {α : Type}

/-- The lookups that end in an error, by the directory and the name. -/
abbrev Refusals := List Str → Str → Option Errno

/-- Go from a place to one component. An empty component and `.` stay in the directory, and `..`
goes to its parent. -/
def enter (tree : Tree α) (refuse : Refusals) (place : List Str) (part : Str) :
    Except Errno (List Str) :=
  match tree place with
  | some .dir =>
      if part = [] ∨ part = ['.'] then
        .ok place
      else if part = ['.', '.'] then
        .ok place.dropLast
      else
        match refuse place part with
        | some e => .error e
        | none =>
            match tree (place ++ [part]) with
            | none => .error .enoent
            | some _ => .ok (place ++ [part])
  | _ => .error .enotdir

/-- Go along the components of a path. A link on the way is followed by `jump`; a link at the end is
followed if `follow` holds. -/
def walkWith (tree : Tree α) (refuse : Refusals) (follow : Bool)
    (jump : List Str → List Str → Except Errno (List Str)) :
    List Str → List Str → Except Errno (List Str)
  | place, [] => .ok place
  | place, part :: rest => do
      let next ← enter tree refuse place part
      match tree next with
      | some (.symlink target) =>
          if rest = [] ∧ follow = false then
            return next
          else
            jump (if target.head? = some '/' then [] else place) (target.splitOn '/' ++ rest)
      | _ => walkWith tree refuse follow jump next rest

/-- Go along the components of a path, through at most `links` symbolic links. -/
def walk (tree : Tree α) (refuse : Refusals) (follow : Bool) :
    Nat → List Str → List Str → Except Errno (List Str)
  | 0 => walkWith tree refuse follow fun _ _ => .error .eloop
  | links + 1 => walkWith tree refuse follow (walk tree refuse follow links)

/-- The number of links after which a resolution gives up. -/
def maxLinks : Nat := 40

/-- Resolve a path from the root. -/
def resolve (tree : Tree α) (refuse : Refusals) (follow : Bool) (path : Str) :
    Except Errno (List Str) :=
  if path = [] then
    .error .enoent
  else
    walk tree refuse follow maxLinks [] (path.splitOn '/')

variable {tree : Tree α} {refuse : Refusals} {follow : Bool}

/-- A component that names an entry of its directory. -/
def IsEntry (part : Str) : Prop := part ≠ [] ∧ part ≠ ['.'] ∧ part ≠ ['.', '.']

/-- The places that a lookup can lead to. -/
theorem enter_cases {place next : List Str} {part : Str}
    (h : enter tree refuse place part = .ok next) :
    tree place = some .dir ∧
      (((part = [] ∨ part = ['.']) ∧ next = place) ∨
        (part = ['.', '.'] ∧ next = place.dropLast) ∨
        (IsEntry part ∧ next = place ++ [part] ∧ (tree next).isSome)) := by
  unfold enter at h
  split at h
  case h_1 hdir =>
    refine ⟨hdir, ?_⟩
    split at h
    case isTrue hstay =>
      cases h
      exact .inl ⟨hstay, rfl⟩
    case isFalse hstay =>
      split at h
      case isTrue hup =>
        cases h
        exact .inr (.inl ⟨hup, rfl⟩)
      case isFalse hup =>
        split at h
        case h_1 => cases h
        case h_2 =>
          split at h
          case h_1 => cases h
          case h_2 node hnode =>
            cases h
            simp only [not_or] at hstay
            exact .inr (.inr ⟨⟨hstay.1, hstay.2, hup⟩, rfl, by simp [hnode]⟩)
  case h_2 => cases h

end Labs.FileTree
