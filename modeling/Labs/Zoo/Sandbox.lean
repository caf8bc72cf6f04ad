import Labs.Base.Path
import Mathlib.Data.List.Forall2

/-!
# The sandbox of a profile

The path handling of `zoobar/pypysandbox.py`. A profile runs in a sandbox named after its owner,
which keeps the files the profile sees under `/tmp` in a directory of its own.
-/

namespace Labs.Zoo.Sandbox

open Path

/-- A character that `[^\w@\-]` does not match. Python's `\w` is a letter, a digit or `_`, of the
ASCII characters. -/
def plainChar (c : Char) : Bool :=
  c.isAlphanum || c == '_' || c == '@' || c == '-'

/-- Replace every other character by `_`. -/
def safeUsername (name : Str) : Str := name.map fun c => if plainChar c then c else '_'

/-- The directory `/tmp/sandbox-root`. -/
def sandboxRoot : Str := "/tmp/sandbox-root".toList

/-- The attribute `usertmp` of a sandbox, set by `MySandboxedProc.__init__`. -/
def usertmp (profileOwner : Str) : Str := join sandboxRoot (safeUsername profileOwner)

/-- The error numbers that the sandbox raises by itself. -/
inductive Errno where
  | eaccess
  | eperm
  deriving DecidableEq, Repr

/-- The loop of `tmp_real_path`: the parts of the rest of the path, without empty parts and `.`. -/
def realParts : List Str → Except Errno (List Str)
  | [] => .ok []
  | part :: rest =>
      if part = [] ∨ part = ['.'] then
        realParts rest
      else if part = ['.', '.'] then
        .error .eaccess
      else do
        let parts ← realParts rest
        return part :: parts

/-- The real path of a virtual path, or none if it does not lie under `/tmp`. -/
def tmpRealPath (usertmp vpathname : Str) : Except Errno (Option Str) :=
  if vpathname = "/tmp".toList then
    .ok (some usertmp)
  else if ¬ "/tmp/".toList <+: vpathname then
    .ok none
  else do
    let parts ← realParts ((vpathname.drop 5).splitOn '/')
    if parts = [] then
      return some usertmp
    return some (parts.foldl join usertmp)

/-- The test `is_tmp_path`. -/
def isTmpPath (vpathname : Str) : Bool :=
  vpathname = "/tmp".toList || "/tmp/".toList.isPrefixOf vpathname

/-- The flags of `open` that ask for writing: `O_WRONLY`, `O_RDWR`, `O_CREAT`, `O_TRUNC` and
`O_APPEND`. -/
def writeFlags : Nat := 0o1 ||| 0o2 ||| 0o100 ||| 0o1000 ||| 0o2000

/-- The requests of the sandboxed process that name a path. -/
inductive Request where
  | «open» (vpathname : Str) (flags : Nat)
  | mkdir (vpathname : Str)
  | rmdir (vpathname : Str)
  | rename (old new : Str)
  | unlink (vpathname : Str)
  | symlink (src dst : Str)

/-- The virtual paths that a request hands to `tmp_real_path`. -/
def Request.virtualPaths : Request → List Str
  | .open vpathname flags => if flags &&& writeFlags = 0 then [] else [vpathname]
  | .mkdir vpathname | .rmdir vpathname | .unlink vpathname => [vpathname]
  | .rename old new => [old, new]
  | .symlink src dst => if isTmpPath src then [src, dst] else [dst]

/-- The real path that a sandbox derives from a virtual path, if it derives one. -/
def derive (usertmp vpathname : Str) : Option Str :=
  match tmpRealPath usertmp vpathname with
  | .ok realpath => realpath
  | .error _ => none

/-- The real paths that a sandbox derives for its program. -/
def realPaths (usertmp : Str) (requests : List Request) : List Str :=
  (requests.flatMap Request.virtualPaths).filterMap (derive usertmp)

/-- The parts that the loop keeps are names of files: they hold no slash, and are not empty, `.` or
`..`. -/
theorem real_parts_names {rest parts : List Str} (h : realParts rest = .ok parts)
    (hslash : ∀ part ∈ rest, '/' ∉ part) :
    ∀ part ∈ parts, '/' ∉ part ∧ part ≠ [] ∧ part ≠ ['.'] ∧ part ≠ ['.', '.'] := by
  induction rest generalizing parts with
  | nil =>
      cases h
      simp
  | cons head rest ih =>
      have hrest : ∀ part ∈ rest, '/' ∉ part := fun part hmem => hslash part (by simp [hmem])
      rw [realParts] at h
      split at h
      case isTrue => exact ih h hrest
      case isFalse hskip =>
        split at h
        case isTrue => cases h
        case isFalse hup =>
          cases hparts : realParts rest with
          | error e =>
              rw [hparts] at h
              cases h
          | ok tail =>
              rw [hparts] at h
              cases h
              intro part hmem
              rcases List.mem_cons.1 hmem with rfl | hmem
              · simp only [not_or] at hskip
                exact ⟨hslash part (by simp), hskip.1, hskip.2, hup⟩
              · exact ih hparts hrest part hmem

/-- A real path is `usertmp` followed by names of files. -/
theorem real_path_components {tmp vpathname realpath : Str}
    (h : tmpRealPath tmp vpathname = .ok (some realpath)) :
    ∃ parts : List Str,
      (∀ part ∈ parts, '/' ∉ part ∧ part ≠ [] ∧ part ≠ ['.'] ∧ part ≠ ['.', '.']) ∧
      components realpath = components tmp ++ parts := by
  unfold tmpRealPath at h
  split at h
  case isTrue =>
    cases h
    exact ⟨[], by simp, by simp⟩
  case isFalse =>
    split at h
    case isTrue => cases h
    case isFalse =>
      cases hparts : realParts ((vpathname.drop 5).splitOn '/') with
      | error e =>
          rw [hparts] at h
          cases h
      | ok parts =>
          rw [hparts] at h
          have hnames := real_parts_names hparts fun part hmem => not_mem_of_mem_splitOn hmem
          by_cases hempty : parts = []
          · subst hempty
            cases h
            exact ⟨[], by simp, by simp⟩
          · simp only [bind, Except.bind, hempty, if_false, pure, Except.pure, Except.ok.injEq,
              Option.some.injEq] at h
            refine ⟨parts, hnames, ?_⟩
            rw [← h]
            exact components_join_all fun part hmem =>
              ⟨(hnames part hmem).1, (hnames part hmem).2.1, (hnames part hmem).2.2.1⟩

/-- A sanitised name holds neither a slash nor a dot. -/
theorem safe_username_chars {name : Str} {c : Char} (h : c ∈ safeUsername name) :
    c ≠ '/' ∧ c ≠ '.' := by
  obtain ⟨c', _, rfl⟩ := List.mem_map.1 h
  by_cases hplain : plainChar c' = true
  · rw [if_pos hplain]
    constructor
    · rintro rfl
      exact absurd hplain (by decide)
    · rintro rfl
      exact absurd hplain (by decide)
  · rw [if_neg hplain]
    decide

/-- The directory of a named owner is the one component below `sandboxRoot`. -/
theorem usertmp_components {name : Str} (hname : name ≠ []) :
    components (usertmp name) = components sandboxRoot ++ [safeUsername name] := by
  have hslash : '/' ∉ safeUsername name := fun h => (safe_username_chars h).1 rfl
  have hdot : safeUsername name ≠ ['.'] := by
    intro h
    exact (safe_username_chars (c := '.') (by rw [h]; simp)).2 rfl
  have hempty : safeUsername name ≠ [] := by simpa [safeUsername] using hname
  unfold usertmp
  rw [components_join, components_name hslash hempty hdot]
  intro hhead
  exact hslash (List.mem_of_mem_head? hhead)

/-- An owner whose name is empty gets the directory that holds all the others. -/
theorem usertmp_empty_components : components (usertmp []) = components sandboxRoot := by
  decide

/-- The paths that the sandboxes of two owners derive are kept apart: none is the same as, or a
directory on the way to, a path of the other. -/
def Separated (owner other : Str) : Prop :=
  ∀ requests requests' : List Request,
    ∀ p ∈ realPaths (usertmp owner) requests, ∀ q ∈ realPaths (usertmp other) requests',
      ¬ Covers p q ∧ ¬ Covers q p

/-- The sanitiser maps the character to `_`. -/
def Folds (c : Char) : Prop := ¬ (c.isAlphanum ∨ c = '@' ∨ c = '-')

/-- The sanitiser maps the two characters to the same one. -/
def Merges (c d : Char) : Prop := c = d ∨ (Folds c ∧ Folds d)

theorem safe_char_of_folds {c : Char} (h : Folds c) : (if plainChar c then c else '_') = '_' := by
  simp only [Folds, not_or] at h
  by_cases hc : c = '_'
  · simp [hc]
  · simp [plainChar, h, hc]

theorem safe_char_of_not_folds {c : Char} (h : ¬ Folds c) :
    (if plainChar c then c else '_') = c := by
  simp only [Folds, not_not] at h
  have hplain : plainChar c = true := by
    rcases h with h | h | h <;> simp [plainChar, h]
  rw [if_pos hplain]

/-- The underscore is its own image, as are the characters that it stands for. -/
theorem folds_underscore : Folds '_' := by
  unfold Folds
  decide

theorem safe_char_eq_iff {c d : Char} :
    (if plainChar c then c else '_') = (if plainChar d then d else '_') ↔ Merges c d := by
  unfold Merges
  by_cases hc : Folds c
  · by_cases hd : Folds d
    · simp only [safe_char_of_folds hc, safe_char_of_folds hd, hc, hd, and_self, or_true]
    · rw [safe_char_of_folds hc, safe_char_of_not_folds hd]
      constructor
      · intro heq
        exact absurd (heq ▸ folds_underscore) hd
      · rintro (heq | ⟨_, hd'⟩)
        · exact absurd (heq ▸ hc) hd
        · exact absurd hd' hd
  · by_cases hd : Folds d
    · rw [safe_char_of_not_folds hc, safe_char_of_folds hd]
      constructor
      · intro heq
        exact absurd (heq ▸ folds_underscore) hc
      · rintro (heq | ⟨hc', _⟩)
        · exact absurd (heq ▸ hd) hc
        · exact absurd hc' hc
    · simp only [safe_char_of_not_folds hc, safe_char_of_not_folds hd, hc, false_and, or_false]

/-- Two names have the same sanitised form when they merge character by character. -/
theorem safe_username_eq_iff {name name' : Str} :
    safeUsername name = safeUsername name' ↔ List.Forall₂ Merges name name' := by
  unfold safeUsername
  rw [← List.forall₂_eq_eq_eq, List.forall₂_map_left_iff, List.forall₂_map_right_iff]
  simp only [safe_char_eq_iff]

/-- A derived path extends the directory of its sandbox. -/
theorem real_paths_components {tmp p : Str} {requests : List Request}
    (h : p ∈ realPaths tmp requests) : components tmp <+: components p := by
  obtain ⟨vpathname, _, hderive⟩ := List.mem_filterMap.1 h
  unfold derive at hderive
  split at hderive
  case h_1 realpath hreal =>
    subst hderive
    obtain ⟨parts, _, hparts⟩ := real_path_components hreal
    exact ⟨parts, hparts.symm⟩
  case h_2 => cases hderive

/-- Every sandbox can derive the path of its directory. -/
theorem usertmp_mem_real_paths {tmp : Str} : tmp ∈ realPaths tmp [.mkdir "/tmp".toList] := by
  simp [realPaths, Request.virtualPaths, derive, tmpRealPath]

/-- Every sandbox lies below the common directory. -/
theorem root_prefix_usertmp (name : Str) :
    components sandboxRoot <+: components (usertmp name) := by
  by_cases hname : name = []
  · subst hname
    exact usertmp_empty_components ▸ List.prefix_rfl
  · rw [usertmp_components hname]
    exact List.prefix_append _ _

/-- Extensions of two different lists of one length are not prefixes of each other. -/
theorem not_prefix_of_ne {α : Type} {l l' p q : List α} (hp : l <+: p) (hq : l' <+: q)
    (hlen : l.length = l'.length) (hne : l ≠ l') : ¬ p <+: q := by
  intro hpq
  have hll' : l <+: l' := List.prefix_of_prefix_length_le (hp.trans hpq) hq (Nat.le_of_eq hlen)
  exact hne (hll'.eq_of_length hlen)

/-- Sandboxes with one directory are not kept apart. -/
theorem not_separated_of_safe_eq {owner other : Str}
    (hsafe : safeUsername owner = safeUsername other) : ¬ Separated owner other := by
  intro hsep
  apply (hsep _ _ _ usertmp_mem_real_paths _ usertmp_mem_real_paths).1
  unfold usertmp
  rw [hsafe]
  exact List.prefix_rfl

/-- The directory of an owner without a name is on the way to everybody's. -/
theorem covers_empty (name : Str) : Covers (usertmp []) (usertmp name) := by
  unfold Covers
  rw [usertmp_empty_components]
  exact root_prefix_usertmp name

/-- Two owners are kept apart exactly when neither name is empty and the names do not merge. -/
theorem separated_iff (owner other : Str) :
    Separated owner other ↔
      owner ≠ [] ∧ other ≠ [] ∧ ¬ List.Forall₂ Merges owner other := by
  rw [← safe_username_eq_iff]
  constructor
  · intro hsep
    obtain ⟨hcover, hcover'⟩ := hsep _ _ _ usertmp_mem_real_paths _ usertmp_mem_real_paths
    refine ⟨?_, ?_, ?_⟩
    · rintro rfl
      exact hcover (covers_empty other)
    · rintro rfl
      exact hcover' (covers_empty owner)
    · intro hsafe
      exact not_separated_of_safe_eq hsafe hsep
  · rintro ⟨howner, hother, hne⟩ requests requests' p hp q hq
    have hp := real_paths_components hp
    have hq := real_paths_components hq
    rw [usertmp_components howner] at hp
    rw [usertmp_components hother] at hq
    have hlist : components sandboxRoot ++ [safeUsername owner] ≠
        components sandboxRoot ++ [safeUsername other] := by
      intro heq
      exact hne (List.singleton_injective (List.append_cancel_left heq))
    exact ⟨not_prefix_of_ne hp hq (by simp) hlist, not_prefix_of_ne hq hp (by simp) hlist.symm⟩

/-- The owners `a.b` and `a_b` share one directory. -/
theorem dotted_name_not_separated :
    ¬ ∀ owner other : Str, owner ≠ other → Separated owner other := by
  intro hsep
  have hsafe : safeUsername "a.b".toList = safeUsername "a_b".toList := by decide
  exact not_separated_of_safe_eq hsafe (hsep _ _ (by decide))

end Labs.Zoo.Sandbox
