import Labs.Base.FileTree
import Mathlib.Data.List.Infix

/-!
# Serving a path

The functions of `http.c` that choose what is served for the name in a request: `forbidden_path`
filters the name, `split_path` cuts the path where `stat` finds something, and `http_serve` calls a
handler. The handler for directories comes back to `http_serve` with the name of an index file.
-/

namespace Labs.Zoo.Serve

open Path FileTree

/-- The attributes of a file that `stat` reports. -/
structure FileAttr where
  regular : Bool
  userExec : Bool
  uid : Int
  gid : Int

/-- A process that serves requests: the tree it sees, its working directory, the owner that its
scripts must have (`cgi_uid` and `cgi_gid`, negative for anybody), and the byte in front of the array
`name` of `http_serve_directory`. -/
structure Server where
  tree : FileTree.Tree FileAttr
  refuse : Refusals
  cwd : Str
  cgiUid : Int
  cgiGid : Int
  stray : Char

/-- The variables of the environment that the functions set and read. -/
structure Env where
  pathInfo : Option Str
  scriptName : Str

/-- What is called in the course of a request: one of the handlers with its path, or `http_err` with
its code. The last one stands for a string that does not fit its array. -/
inductive Call where
  | none (pn : Str)
  | file (pn : Str)
  | directory (pn : Str)
  | executable (pn : Str)
  | err (code : Nat)
  | overflow

/-- The system call `stat`. -/
def stat (server : Server) (path : Str) : Except Errno (Node FileAttr) := do
  let place ← resolve server.tree server.refuse true path
  match server.tree place with
  | some node => return node
  | none => throw .enoent

/-- The result of `stat` says that the path leads nowhere. -/
def missing : Except Errno (Node FileAttr) → Bool
  | .error .enoent => true
  | .error .enotdir => true
  | _ => false

/-- The inner loop of `split_path`, from the index `slash`: the index of the slash before it, or
zero. -/
def prevSlash (pn : Str) : Nat → Nat
  | 0 => 0
  | 1 => 0
  | slash + 2 => if pn[slash + 1]? = some '/' then slash + 1 else prevSlash pn (slash + 1)

theorem prev_slash_lt (pn : Str) {slash : Nat} (h : prevSlash pn slash ≠ 0) :
    prevSlash pn slash < slash := by
  induction slash using prevSlash.induct pn with
  | case1 => exact absurd rfl h
  | case2 => exact absurd rfl h
  | case3 slash hslash =>
      rw [prevSlash, if_pos hslash]
      omega
  | case4 slash hslash ih =>
      rw [prevSlash, if_neg hslash] at h ⊢
      exact Nat.lt_succ_of_lt (ih h)

/-- The outer loop of `split_path`: the index where the path is cut. -/
def cutAt (server : Server) (pn : Str) (slash : Nat) : Nat :=
  if missing (stat server (pn.take slash)) then
    if _h : prevSlash pn slash = 0 then 0 else cutAt server pn (prevSlash pn slash)
  else
    slash
termination_by slash
decreasing_by exact prev_slash_lt pn ‹_›

/-- The function `split_path`: the path in front of the cut, and the environment. When the path is
cut inside the document root, `SCRIPT_NAME` starts behind the cut. -/
def splitPath (server : Server) (env : Env) (pn : Str) : Str × Env :=
  let slash := cutAt server pn pn.length
  let env := if slash < pn.length then { env with pathInfo := some (pn.drop slash) } else env
  let scriptName :=
    if server.cwd.length ≤ slash then (pn.take slash).drop server.cwd.length
    else pn.drop server.cwd.length
  (pn.take slash, { env with scriptName := scriptName })

/-- The table `indices`. -/
def indices : List Str := ["index.html".toList, "index.php".toList, "index.cgi".toList]

/-- The name of the script that shows passwords. -/
def password : Str := "password.cgi".toList

/-- The name of the directories that hold databases. -/
def db : Str := "db".toList

section Pieces

variable {server : Server} {name : Str}

/-- The pieces of the path of a request: first those of the document root, and then some that come
from the name. None of the latter is the password script, and only the last may be `db`. -/
structure Divided (parts pieces front back : List Str) : Prop where
  eq : pieces = front ++ back
  front : front <+: [] :: parts
  password : ∀ part ∈ back, part ≠ password
  db : ∀ part ∈ back.dropLast, part ≠ db

/-- The first pieces of a divided path are divided in the same way. -/
theorem Divided.cut {parts all first front back : List Str} (h : Divided parts all front back)
    (hcut : first <+: all) : ∃ front back, Divided parts first front back := by
  rw [h.eq, List.prefix_iff_eq_take, List.take_append] at hcut
  have hfront := (List.take_prefix first.length front).trans h.front
  have hback := List.take_prefix (first.length - front.length) back
  refine ⟨_, _, hcut, hfront, fun part hmem => h.password part (hback.subset hmem), ?_⟩
  intro part hmem
  obtain ⟨rest, hrest⟩ := hback
  apply h.db part
  rw [← hrest]
  cases rest with
  | nil => simpa using hmem
  | cons next rest =>
      rw [List.dropLast_append_of_ne_nil (List.cons_ne_nil _ _)]
      exact List.mem_append_left _ (List.dropLast_subset _ hmem)

end Pieces

section Walk

variable {tree : FileTree.Tree FileAttr} {refuse : Refusals} {parts : List Str}

/-- The place lies below a directory on the way to the document root, by parts that satisfy `ok`. -/
def Within (parts : List Str) (ok : Str → Prop) (place : List Str) : Prop :=
  ∃ base extra, place = base ++ extra ∧ base <+: parts ∧ ∀ part ∈ extra, ok part

/-- A lookup of an admitted part stays within. -/
theorem Within.enter {ok : Str → Prop} {place next : List Str} {part : Str}
    (h : Within parts ok place) (hpart : ok part) (henter : enter tree refuse place part = .ok next) :
    Within parts ok next := by
  obtain ⟨base, extra, rfl, hbase, hextra⟩ := h
  obtain ⟨_, ⟨_, rfl⟩ | ⟨_, rfl⟩ | ⟨_, rfl, _⟩⟩ := enter_cases henter
  · exact ⟨base, extra, rfl, hbase, hextra⟩
  · by_cases hnil : extra = []
    · subst hnil
      refine ⟨base.dropLast, [], by simp, (List.dropLast_prefix base).trans hbase, by simp⟩
    · refine ⟨base, extra.dropLast, List.dropLast_append_of_ne_nil hnil, hbase, ?_⟩
      exact fun part' hmem => hextra part' (List.dropLast_subset _ hmem)
  · refine ⟨base, extra ++ [part], by simp, hbase, ?_⟩
    intro part' hmem
    rcases List.mem_append.1 hmem with hmem | hmem
    · exact hextra part' hmem
    · rw [List.mem_singleton.1 hmem]
      exact hpart

theorem Within.fold {ok : Str → Prop} {place last : List Str} {entries : List Str}
    (h : Within parts ok place) (hentries : ∀ part ∈ entries, ok part)
    (hfold : entries.foldlM (FileTree.enter tree refuse) place = .ok last) :
    Within parts ok last := by
  induction entries generalizing place with
  | nil =>
      cases hfold
      exact h
  | cons part entries ih =>
      rw [List.foldlM_cons] at hfold
      cases henter : FileTree.enter tree refuse place part with
      | error e =>
          rw [henter] at hfold
          cases hfold
      | ok next =>
          rw [henter] at hfold
          exact ih (h.enter (hentries part (by simp)) henter)
            (fun part' hmem => hentries part' (by simp [hmem])) hfold

/-- A place that may be served: it lies in no directory `db`, and is not the password script unless it
is a directory. -/
structure Safe (tree : FileTree.Tree FileAttr) (place : List Str) : Prop where
  outside : db ∉ place.dropLast
  other : tree place ≠ some .dir → place.getLast? ≠ some password

end Walk

section Cut

variable {server : Server}

end Cut

variable {server : Server}

end Labs.Zoo.Serve
