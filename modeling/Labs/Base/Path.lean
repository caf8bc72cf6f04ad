import Mathlib.Data.List.DropRight
import Mathlib.Data.List.TakeWhile

/-!
# Path names

A path name is a string of components between slashes. Resolution passes over empty components and
over `.`, so that two spellings of one path have the same list of components.
-/

namespace Labs.Path

/-- A string, character by character. -/
abbrev Str := List Char

/-- The components of a path, with the empty ones. -/
def pieces (path : Str) : List Str := path.splitOn '/'

/-- The components that resolution looks at. -/
def components (path : Str) : List Str := (pieces path).filter fun part => part ≠ [] ∧ part ≠ ['.']

variable {p q part : Str}

@[simp] theorem components_nil : components [] = [] := rfl

theorem pieces_append_slash : pieces (p ++ '/' :: q) = pieces p ++ pieces q :=
  List.splitOn_append_cons_self _ _

theorem pieces_of_not_mem (h : '/' ∉ p) : pieces p = [p] := List.splitOn_eq_singleton h

/-- A slash separates the components before it from those after it. -/
theorem components_append_slash :
    components (p ++ '/' :: q) = components p ++ components q := by
  unfold components
  rw [pieces_append_slash, List.filter_append]

/-- A slash in front adds no component. -/
@[simp] theorem components_slash : components ('/' :: p) = components p :=
  components_append_slash (p := [])

/-- A name without a slash is one component. -/
theorem components_name (hslash : '/' ∉ part) (hempty : part ≠ []) (hdot : part ≠ ['.']) :
    components part = [part] := by
  unfold components
  rw [pieces_of_not_mem hslash]
  simp [hempty, hdot]

/-- A piece between separators holds no separator. -/
theorem not_mem_of_mem_splitOn {α : Type} [DecidableEq α] {sep : α} {l piece : List α}
    (h : piece ∈ l.splitOn sep) : sep ∉ piece := by
  induction l generalizing piece with
  | nil =>
      rw [List.splitOn_nil, List.mem_singleton] at h
      simp [h]
  | cons x xs ih =>
      rw [List.splitOn_cons_eq_if_modifyHead] at h
      by_cases hx : x = sep
      · rw [if_pos (by simp [hx]), List.mem_cons] at h
        rcases h with rfl | h
        · exact List.not_mem_nil
        · exact ih h
      · rw [if_neg (by simp [hx])] at h
        cases hrest : xs.splitOn sep with
        | nil => exact absurd hrest (List.splitOn_ne_nil _ _)
        | cons head tail =>
            rw [hrest, List.modifyHead_cons, List.mem_cons] at h
            rcases h with rfl | h
            · have hhead : sep ∉ head := ih (by simp [hrest])
              simp [hhead, Ne.symm hx]
            · exact ih (by simp [hrest, h])

/-- `os.path.join` of a path and a part: an absolute part replaces the path, and otherwise they are
joined by a slash unless the path ends in one. -/
def join (path part : Str) : Str :=
  if part.head? = some '/' then
    part
  else if path = [] ∨ path.getLast? = some '/' then
    path ++ part
  else
    path ++ '/' :: part

/-- Joining a relative part appends its components. -/
theorem components_join (hpart : part.head? ≠ some '/') :
    components (join p part) = components p ++ components part := by
  rw [join, if_neg hpart]
  by_cases hend : p = [] ∨ p.getLast? = some '/'
  · rw [if_pos hend]
    rcases hend with hnil | hlast
    · rw [hnil]
      rfl
    · obtain ⟨front, rfl⟩ := List.getLast?_eq_some_iff.1 hlast
      have hfront : components (front ++ ['/']) = components front := by
        simpa using components_append_slash (p := front) (q := [])
      rw [hfront, List.append_assoc]
      exact components_append_slash
  · rw [if_neg hend]
    exact components_append_slash

/-- Joining relative parts to an absolute path gives an absolute path. -/
theorem head_join_all {parts : List Str} (hparts : ∀ part ∈ parts, '/' ∉ part)
    (hp : p.head? = some '/') : (parts.foldl join p).head? = some '/' := by
  induction parts generalizing p with
  | nil => exact hp
  | cons part parts ih =>
      rw [List.foldl_cons]
      refine ih (fun part' hmem => hparts part' (List.mem_cons_of_mem _ hmem)) ?_
      have hhead : part.head? ≠ some '/' := by
        intro hhead
        exact hparts part List.mem_cons_self (List.mem_of_mem_head? hhead)
      rw [join, if_neg hhead]
      split
      · rw [List.head?_append, hp]
        rfl
      · rw [List.head?_append, hp]
        rfl

/-- Joining several relative parts appends all their components. -/
theorem components_join_all {parts : List Str}
    (hparts : ∀ part ∈ parts, '/' ∉ part ∧ part ≠ [] ∧ part ≠ ['.']) :
    components (parts.foldl join p) = components p ++ parts := by
  induction parts generalizing p with
  | nil => simp
  | cons part parts ih =>
      obtain ⟨hslash, hempty, hdot⟩ := hparts part (by simp)
      have hhead : part.head? ≠ some '/' := by
        intro hhead
        exact hslash (List.mem_of_mem_head? hhead)
      rw [List.foldl_cons, ih fun part' hmem => hparts part' (by simp [hmem]),
        components_join hhead, components_name hslash hempty hdot]
      simp

/-- The components among the pieces of a path. -/
def clean (parts : List Str) : List Str := parts.filter fun part => part ≠ [] ∧ part ≠ ['.']

@[simp] theorem clean_pieces : clean (pieces p) = components p := rfl

@[simp] theorem clean_append {parts parts' : List Str} :
    clean (parts ++ parts') = clean parts ++ clean parts' :=
  List.filter_append _ _

theorem clean_cons_skip {parts : List Str} (h : part = [] ∨ part = ['.']) :
    clean (part :: parts) = clean parts := by
  unfold clean
  rw [List.filter_cons_of_neg]
  rcases h with h | h <;> simp [h]

theorem clean_cons_keep {parts : List Str} (h : ¬ (part = [] ∨ part = ['.'])) :
    clean (part :: parts) = part :: clean parts := by
  rw [not_or] at h
  unfold clean
  rw [List.filter_cons_of_pos (by simp [h.1, h.2])]

/-- `os.path.split`: the path up to its last slash, without the slashes at its end unless it has
nothing else, and the rest. -/
def split (path : Str) : Str × Str :=
  let head := path.rdropWhile (· ≠ '/')
  (if head.all (· = '/') then head else head.rdropWhile (· = '/'), path.rtakeWhile (· ≠ '/'))

/-- `os.path.dirname`. -/
def dirname (path : Str) : Str := (split path).1

/-- Slashes at the end add no component. -/
theorem components_slashes (p : Str) : components (p.rdropWhile (· = '/')) = components p := by
  induction p using List.reverseRecOn with
  | nil => rfl
  | append_singleton p c ih =>
      by_cases hc : c = '/'
      · rw [List.rdropWhile_concat_pos _ _ _ (by simpa using hc), ih, hc]
        have happend := components_append_slash (p := p) (q := [])
        simpa using happend.symm
      · rw [List.rdropWhile_concat_neg _ _ _ (by simpa using hc)]

/-- The head of a path is what lies in front of its last part, up to slashes. -/
theorem split_spec (p : Str) :
    ∃ head, head ++ (split p).2 = p ∧ (split p).1 <+: head ∧
      components (split p).1 = components head ∧ (head = [] ∨ ∃ front, head = front ++ ['/']) := by
  refine ⟨p.rdropWhile (· ≠ '/'), List.rdropWhile_append_rtakeWhile, ?_⟩
  have hfirst : (split p).1 = if (p.rdropWhile (· ≠ '/')).all (· = '/') then
      p.rdropWhile (· ≠ '/') else (p.rdropWhile (· ≠ '/')).rdropWhile (· = '/') := rfl
  refine ⟨?_, ?_, ?_⟩
  · rw [hfirst]
    split
    · exact List.prefix_rfl
    · exact List.rdropWhile_prefix _ _
  · rw [hfirst]
    split
    · rfl
    · exact components_slashes _
  · by_cases hnil : p.rdropWhile (· ≠ '/') = []
    · exact .inl hnil
    · have hlast := List.rdropWhile_last_not _ _ hnil
      refine .inr ⟨(p.rdropWhile (· ≠ '/')).dropLast, ?_⟩
      have hslash : (p.rdropWhile (· ≠ '/')).getLast hnil = '/' := by simpa using hlast
      have happend := List.dropLast_append_getLast hnil
      rw [hslash] at happend
      exact happend.symm

/-- The head of a path has the components of a directory on the way. -/
theorem split_head_components (p : Str) : components (split p).1 <+: components p := by
  obtain ⟨head, hsplit, _, hcomponents, hend⟩ := split_spec p
  rw [hcomponents]
  rcases hend with hnil | ⟨front, hfront⟩
  · rw [hnil]
    exact List.nil_prefix
  · have hhead : components (front ++ ['/']) = components front := by
      simpa using components_append_slash (p := front) (q := [])
    have hwhole : components p = components front ++ components (split p).2 := by
      rw [← components_append_slash]
      rw [hfront, List.append_assoc] at hsplit
      exact congrArg components hsplit.symm
    rw [hfront, hhead, hwhole]
    exact List.prefix_append _ _

/-- The head of a path is not longer. -/
theorem split_head_le (p : Str) : (split p).1.length ≤ p.length := by
  obtain ⟨head, hsplit, hwithin, _, _⟩ := split_spec p
  have hlength := congrArg List.length hsplit
  rw [List.length_append] at hlength
  have hle := hwithin.length_le
  omega

/-- The head of a path with something behind its last slash is shorter. -/
theorem split_head_lt (p : Str) (h : (split p).2 ≠ []) : (split p).1.length < p.length := by
  obtain ⟨head, hsplit, hwithin, _, _⟩ := split_spec p
  have hlength := congrArg List.length hsplit
  rw [List.length_append] at hlength
  have hle := hwithin.length_le
  have hpos := List.length_pos_iff.2 h
  omega

/-- The pieces on the way to the last name of a path, and the name. Slashes behind it do not
count. -/
def lastName (path : Str) : Option (List Str × Str) :=
  let parts := (pieces path).rdropWhile (· = [])
  parts.getLast?.map fun name => (parts.dropLast, name)

/-- The last name of a path is its last component. -/
theorem last_name_components {parts : List Str} (h : lastName p = some (parts, part))
    (hempty : part ≠ []) (hdot : part ≠ ['.']) : components p = clean parts ++ [part] := by
  have hclean : components p = clean ((pieces p).rdropWhile (· = [])) := by
    have hbehind : clean ((pieces p).rtakeWhile (· = [])) = [] := by
      unfold clean
      rw [List.filter_eq_nil_iff]
      intro part hmem
      have hnil := List.mem_rtakeWhile_imp hmem
      simp only [decide_eq_true_eq] at hnil
      simp [hnil]
    have happend : clean ((pieces p).rdropWhile (· = [])) ++
        clean ((pieces p).rtakeWhile (· = [])) = components p := by
      rw [← clean_append, List.rdropWhile_append_rtakeWhile, clean_pieces]
    rw [← happend, hbehind, List.append_nil]
  unfold lastName at h
  simp only [Option.map_eq_some_iff, Prod.mk.injEq] at h
  obtain ⟨name, hlast, hparts, rfl⟩ := h
  obtain ⟨front, hfront⟩ := List.getLast?_eq_some_iff.1 hlast
  rw [hfront, List.dropLast_concat] at hparts
  rw [hclean, hfront, hparts, clean_append, clean_cons_keep (not_or.2 ⟨hempty, hdot⟩)]
  rfl

/-- `path` is `inner`, or one of the directories on the way to it. -/
def Covers (path inner : Str) : Prop := components path <+: components inner

end Labs.Path
