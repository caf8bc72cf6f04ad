import Labs.Base.Disk
import Mathlib.Logic.Relation

/-!
# Confinement of paths

A directory of a file tree whose links lead nowhere else. A path that goes into the directory then
leads to a place at or below it, whatever links there are on the way.
-/

namespace Labs.FileTree

open Path Relation

variable {α : Type} {tree tree' : Tree α} {refuse : Refusals}

/-- The component leads from the place to another, which may be missing. -/
inductive Enters (tree : Tree α) (place : List Str) : Str → List Str → Prop
  | stay {part : Str} (hdir : tree place = some .dir) (hpart : part = [] ∨ part = ['.']) :
      Enters tree place part place
  | up (hdir : tree place = some .dir) : Enters tree place ['.', '.'] place.dropLast
  | entry {part : Str} (hdir : tree place = some .dir) (hpart : IsEntry part) :
      Enters tree place part (place ++ [part])

/-- The place from which the target of a link is resolved. -/
def startOf (place : List Str) (target : Str) : List Str :=
  if target.head? = some '/' then [] else place

/-- One step of a resolution, from a place and the components that are left. -/
inductive Goes (tree : Tree α) : List Str × List Str → List Str × List Str → Prop
  | pass {place next rest : List Str} {part : Str} (henter : Enters tree place part next)
      (hlink : ∀ target, tree next ≠ some (.symlink target)) :
      Goes tree (place, part :: rest) (next, rest)
  | jump {place next rest : List Str} {part target : Str} (henter : Enters tree place part next)
      (hlink : tree next = some (.symlink target)) :
      Goes tree (place, part :: rest) (startOf place target, pieces target ++ rest)

/-- A place is entered by one component in one way. -/
theorem Enters.unique {place next next' : List Str} {part : Str} (h : Enters tree place part next)
    (h' : Enters tree place part next') : next = next' := by
  cases h with
  | stay _ hpart =>
      cases h' with
      | stay => rfl
      | up => simp at hpart
      | entry _ hentry => exact absurd hpart (not_or.2 ⟨hentry.1, hentry.2.1⟩)
  | up =>
      cases h' with
      | stay _ hpart => simp at hpart
      | up => rfl
      | entry _ hentry => exact absurd rfl hentry.2.2
  | entry _ hentry =>
      cases h' with
      | stay _ hpart => exact absurd hpart (not_or.2 ⟨hentry.1, hentry.2.1⟩)
      | up => exact absurd rfl hentry.2.2
      | entry => rfl

/-- Only directories are entered from. -/
theorem Enters.place_dir {place next : List Str} {part : Str} (h : Enters tree place part next) :
    tree place = some .dir := by
  cases h with
  | stay hdir => exact hdir
  | up hdir => exact hdir
  | entry hdir => exact hdir

/-- Without `..` a component stays below a directory. -/
theorem Enters.below {home place next : List Str} {part : Str} (h : Enters tree place part next)
    (hplace : home <+: place) (hup : part ≠ ['.', '.']) : home <+: next := by
  cases h with
  | stay => exact hplace
  | up => exact absurd rfl hup
  | entry => exact hplace.trans (List.prefix_append _ _)

/-- What a lookup finds is entered. -/
theorem enters_of_seek {place next : List Str} {part : Str}
    (h : seek tree refuse place part = .ok next) : Enters tree place part next := by
  unfold seek at h
  split at h
  case h_1 hdir =>
    split at h
    case isTrue hstay =>
      cases h
      exact .stay hdir hstay
    case isFalse hstay =>
      split at h
      case isTrue hup =>
        cases h
        rw [hup]
        exact .up hdir
      case isFalse hup =>
        split at h
        case h_1 => cases h
        case h_2 =>
          cases h
          exact .entry hdir ⟨fun hempty => hstay (.inl hempty), fun hdot => hstay (.inr hdot), hup⟩
  case h_2 => cases h

/-- What an existing lookup finds is entered. -/
theorem enters_of_enter {place next : List Str} {part : Str}
    (h : enter tree refuse place part = .ok next) : Enters tree place part next := by
  obtain ⟨hdir, ⟨hstay, rfl⟩ | ⟨rfl, rfl⟩ | ⟨hentry, rfl, _⟩⟩ := enter_cases h
  · exact .stay hdir hstay
  · exact .up hdir
  · exact .entry hdir hentry

/-- What the lookup of the last component finds is entered. -/
theorem enters_of_seek_last {place next rest : List Str} {part : Str}
    (h : seekLast tree refuse place part rest = .ok next) : Enters tree place part next := by
  unfold seekLast at h
  split at h
  · exact enters_of_seek h
  · exact enters_of_enter h

/-- A step passes over a piece that is no component, goes to the place that a component names, or
follows the link there. -/
theorem goes_cases {place parts place' parts' : List Str}
    (hgoes : Goes tree (place, parts) (place', parts')) :
    (place' = place ∧ clean parts' = clean parts) ∨
      ∃ part rest next, ¬ (part = [] ∨ part = ['.']) ∧ Enters tree place part next ∧
        clean parts = part :: clean rest ∧
        (((∀ target, tree next ≠ some (.symlink target)) ∧ place' = next ∧ parts' = rest) ∨
          ∃ target, tree next = some (.symlink target) ∧ place' = startOf place target ∧
            parts' = pieces target ++ rest) := by
  cases hgoes with
  | @pass _ _ _ part henter hlink =>
      by_cases hskip : part = [] ∨ part = ['.']
      · cases henter.unique (.stay henter.place_dir hskip)
        exact .inl ⟨rfl, (clean_cons_skip hskip).symm⟩
      · exact .inr ⟨part, _, _, hskip, henter, clean_cons_keep hskip, .inl ⟨hlink, rfl, rfl⟩⟩
  | @jump _ next rest part target henter hlink =>
      by_cases hskip : part = [] ∨ part = ['.']
      · -- a directory is not a link
        have hdir := henter.place_dir
        cases henter.unique (.stay hdir hskip)
        rw [hdir] at hlink
        cases hlink
      · exact .inr ⟨part, rest, next, hskip, henter, clean_cons_keep hskip,
          .inr ⟨target, hlink, rfl, rfl⟩⟩

/-- A resolution that follows all links reaches its result step by step. -/
theorem walk_goes {links : Nat} {place parts last : List Str}
    (h : walk tree refuse true links place parts = .ok last) :
    ReflTransGen (Goes tree) (place, parts) (last, []) := by
  have hwith : ∀ jump : List Str → List Str → Except Errno (List Str),
      (∀ place parts, jump place parts = .ok last →
        ReflTransGen (Goes tree) (place, parts) (last, [])) →
      ∀ parts place, walkWith tree refuse true jump place parts = .ok last →
        ReflTransGen (Goes tree) (place, parts) (last, []) := by
    intro jump hjump parts
    induction parts with
    | nil =>
        intro place h
        cases h
        exact .refl
    | cons part rest ih =>
        intro place h
        rw [walkWith] at h
        cases henter : enter tree refuse place part with
        | error e =>
            rw [henter] at h
            cases h
        | ok next =>
            rw [henter] at h
            have henters := enters_of_enter henter
            simp only [bind, Except.bind] at h
            split at h
            case h_1 target hlink =>
              simp only [Bool.true_eq_false, and_false, if_false] at h
              exact .head (.jump henters hlink) (hjump _ _ h)
            case h_2 hlink => exact .head (.pass henters hlink) (ih next h)
  induction links generalizing place parts with
  | zero =>
      refine hwith (fun _ _ => .error .eloop) ?_ parts place h
      intro _ _ hloop
      cases hloop
  | succ links ih => exact hwith _ (fun _ _ h => ih h) parts place h

/-- A resolution to a file that may be missing reaches its result step by step. -/
theorem walk_new_goes {links : Nat} {place parts last : List Str}
    (h : walkNew tree refuse links place parts = .ok last) :
    ReflTransGen (Goes tree) (place, parts) (last, []) := by
  have hwith : ∀ jump : List Str → List Str → Except Errno (List Str),
      (∀ place parts, jump place parts = .ok last →
        ReflTransGen (Goes tree) (place, parts) (last, [])) →
      ∀ parts place, walkNewWith tree refuse jump place parts = .ok last →
        ReflTransGen (Goes tree) (place, parts) (last, []) := by
    intro jump hjump parts
    induction parts with
    | nil =>
        intro place h
        cases h
        exact .refl
    | cons part rest ih =>
        intro place h
        rw [walkNewWith] at h
        cases hnext : seekLast tree refuse place part rest with
        | error e =>
            rw [hnext] at h
            cases h
        | ok next =>
            rw [hnext] at h
            have henters := enters_of_seek_last hnext
            simp only [bind, Except.bind] at h
            split at h
            case h_1 target hlink => exact .head (.jump henters hlink) (hjump _ _ h)
            case h_2 hlink => exact .head (.pass henters hlink) (ih next h)
  induction links generalizing place parts with
  | zero =>
      refine hwith (fun _ _ => .error .eloop) ?_ parts place h
      intro _ _ hloop
      cases hloop
  | succ links ih => exact hwith _ (fun _ _ h => ih h) parts place h

/-- The entry of a path is found in the directory that the pieces before its name lead to. -/
theorem entry_place_goes {path : Str} {place : List Str}
    (h : entryPlace tree refuse path = .ok place) :
    ∃ parts name dir, components path = clean parts ++ [name] ∧ IsEntry name ∧
      ReflTransGen (Goes tree) ([], parts) (dir, []) ∧ place = dir ++ [name] := by
  unfold entryPlace at h
  split at h
  case h_1 => cases h
  case h_2 parts name hlast =>
    split at h
    case isTrue => cases h
    case isFalse hname =>
      simp only [not_or] at hname
      split at h
      case h_1 => cases h
      case h_2 dir hwalk =>
        split at h
        case h_2 => cases h
        case h_1 =>
          split at h
          case h_1 => cases h
          case h_2 =>
            cases h
            exact ⟨parts, name, dir, last_name_components hlast hname.2.2 hname.1,
              ⟨hname.2.2, hname.1, hname.2.1⟩, walk_goes hwalk, rfl⟩

/-- The way from a place along some components to another, through links if need be. It looks at
nothing at or below `home`. -/
inductive Way (tree : Tree α) (home : List Str) : List Str → List Str → List Str → Prop
  | here {place : List Str} : Way tree home place [] place
  | pass {place next rest dest : List Str} {part : Str} (henter : Enters tree place part next)
      (hskip : ¬ (part = [] ∨ part = ['.'])) (houtside : ¬ home <+: next)
      (hdir : tree next = some .dir) (hrest : Way tree home next rest dest) :
      Way tree home place (part :: rest) dest
  | jump {place next rest dest : List Str} {part target : Str} (henter : Enters tree place part next)
      (hskip : ¬ (part = [] ∨ part = ['.'])) (houtside : ¬ home <+: next)
      (hlink : tree next = some (.symlink target))
      (hrest : Way tree home (startOf place target) (components target ++ rest) dest) :
      Way tree home place (part :: rest) dest

section Ways

variable {home place dest : List Str}

/-- Entering a component looks at the place alone. -/
theorem Enters.congr {next : List Str} {part : Str} (h : Enters tree place part next)
    (hsame : tree' place = tree place) : Enters tree' place part next := by
  cases h with
  | stay hdir hpart => exact .stay (hsame.trans hdir) hpart
  | up hdir => exact .up (hsame.trans hdir)
  | entry hdir hpart => exact .entry (hsame.trans hdir) hpart

/-- A change at or below `home` leaves the way as it was. -/
theorem Way.congr {ahead : List Str} (hway : Way tree home place ahead dest) (hhome : home ≠ [])
    (hplace : ¬ home <+: place) (hsame : ∀ p, ¬ home <+: p → tree' p = tree p) :
    Way tree' home place ahead dest := by
  induction hway with
  | here => exact .here
  | pass henter hskip houtside hdir _ ih =>
      exact .pass (henter.congr (hsame _ hplace)) hskip houtside ((hsame _ houtside).trans hdir)
        (ih houtside)
  | jump henter hskip houtside hlink _ ih =>
      refine .jump (henter.congr (hsame _ hplace)) hskip houtside ((hsame _ houtside).trans hlink)
        (ih ?_)
      unfold startOf
      split
      · rwa [List.prefix_nil]
      · exact hplace

/-- A way can be cut between any two components. -/
theorem Way.cut {front back : List Str} (hway : Way tree home place (front ++ back) dest) :
    ∃ mid, Way tree home place front mid ∧ Way tree home mid back dest := by
  generalize hall : front ++ back = all at hway
  induction hway generalizing front with
  | here =>
      obtain ⟨rfl, rfl⟩ := List.append_eq_nil_iff.1 hall
      exact ⟨_, .here, .here⟩
  | pass henter hskip houtside hdir hrest ih =>
      cases front with
      | nil =>
          rw [List.nil_append] at hall
          subst hall
          exact ⟨_, .here, .pass henter hskip houtside hdir hrest⟩
      | cons first front =>
          obtain ⟨rfl, hfront⟩ := List.cons_eq_cons.1 hall
          obtain ⟨mid, hfirst, hback⟩ := ih hfront
          exact ⟨mid, .pass henter hskip houtside hdir hfirst, hback⟩
  | @jump _ _ rest _ _ target henter hskip houtside hlink hrest ih =>
      cases front with
      | nil =>
          rw [List.nil_append] at hall
          subst hall
          exact ⟨_, .here, .jump henter hskip houtside hlink hrest⟩
      | cons first front =>
          obtain ⟨rfl, hfront⟩ := List.cons_eq_cons.1 hall
          have htarget : (components target ++ front) ++ back = components target ++ rest := by
            rw [← hfront, List.append_assoc]
            rfl
          obtain ⟨mid, hfirst, hback⟩ := ih htarget
          exact ⟨mid, .jump henter hskip houtside hlink hfirst, hback⟩

/-- A resolution that has a way in front of it goes along it. -/
theorem Way.goes {ahead more parts place' parts' : List Str}
    (hway : Way tree home place ahead dest) (hahead : ahead = [] → more = [])
    (hparts : clean parts = ahead ++ more) (hgoes : Goes tree (place, parts) (place', parts')) :
    ∃ ahead', Way tree home place' ahead' dest ∧ clean parts' = ahead' ++ more := by
  rcases goes_cases hgoes with ⟨rfl, hclean⟩ | ⟨part, rest, next, _, henter, hclean, hnext⟩
  · exact ⟨ahead, hway, hclean.trans hparts⟩
  · rw [hclean] at hparts
    cases hway with
    | here =>
        rw [hahead rfl] at hparts
        cases hparts
    | pass henter' _ _ hdir hrest =>
        obtain ⟨rfl, htail⟩ := List.cons_eq_cons.1 hparts
        cases henter.unique henter'
        rcases hnext with ⟨_, rfl, rfl⟩ | ⟨target, hlink, _⟩
        · exact ⟨_, hrest, htail⟩
        · rw [hdir] at hlink
          cases hlink
    | jump henter' _ _ hlink' hrest =>
        obtain ⟨rfl, htail⟩ := List.cons_eq_cons.1 hparts
        cases henter.unique henter'
        rcases hnext with ⟨hlink, _⟩ | ⟨target, hlink, rfl, rfl⟩
        · exact absurd hlink' (hlink _)
        · rw [hlink] at hlink'
          cases hlink'
          refine ⟨_, hrest, ?_⟩
          rw [clean_append, clean_pieces, htail, List.append_assoc]
          rfl

/-- What every step of a resolution keeps holds at its end. -/
theorem goes_keeps {I : List Str → List Str → Prop} {s s' : List Str × List Str}
    (hstep : ∀ place parts place' parts', Goes tree (place, parts) (place', parts') →
      I place parts → I place' parts')
    (hgoes : ReflTransGen (Goes tree) s s') (h : I s.1 s.2) : I s'.1 s'.2 := by
  induction hgoes with
  | refl => exact h
  | tail _ hlast ih => exact hstep _ _ _ _ hlast ih

/-- A resolution of a way ends at its destination. -/
theorem Way.ends {parts last : List Str} (hway : Way tree home place (clean parts) dest)
    (hgoes : ReflTransGen (Goes tree) (place, parts) (last, [])) : last = dest := by
  have hend : Way tree home last (clean []) dest := by
    refine goes_keeps (I := fun place parts => Way tree home place (clean parts) dest) ?_ hgoes hway
    intro place parts place' parts' hstep hway
    have hparts : clean parts = clean parts ++ [] := (List.append_nil _).symm
    obtain ⟨ahead, hahead, hclean⟩ := hway.goes (fun _ => rfl) hparts hstep
    rw [hclean, List.append_nil]
    exact hahead
  cases hend with
  | here => rfl

/-- A step towards an entry passes over a component that is none, reaches the entry, or follows the
link in its place. -/
theorem goes_entry {name : Str} {parts rest place' parts' : List Str} (hname : IsEntry name)
    (hparts : clean parts = name :: rest) (hgoes : Goes tree (place, parts) (place', parts')) :
    (place' = place ∧ clean parts' = name :: rest) ∨
      (place' = place ++ [name] ∧ clean parts' = rest) ∨
      ∃ target tail, tree (place ++ [name]) = some (.symlink target) ∧
        place' = startOf place target ∧ parts' = pieces target ++ tail ∧ clean tail = rest := by
  rcases goes_cases hgoes with ⟨rfl, hclean⟩ | ⟨part, tail, next, _, henter, hclean, hnext⟩
  · exact .inl ⟨rfl, hclean.trans hparts⟩
  · rw [hclean] at hparts
    obtain ⟨rfl, htail⟩ := List.cons_eq_cons.1 hparts
    cases henter.unique (.entry henter.place_dir hname)
    rcases hnext with ⟨_, rfl, rfl⟩ | ⟨target, hlink, rfl, rfl⟩
    · exact .inr (.inl ⟨rfl, htail⟩)
    · exact .inr (.inr ⟨target, tail, hlink, rfl, rfl, htail⟩)

/-- Without a component ahead, steps stay where they are. -/
theorem goes_nothing {parts place' parts' : List Str} (hparts : clean parts = [])
    (hgoes : Goes tree (place, parts) (place', parts')) : place' = place ∧ clean parts' = [] := by
  rcases goes_cases hgoes with ⟨rfl, hclean⟩ | ⟨part, tail, next, _, _, hclean, _⟩
  · exact ⟨rfl, hclean.trans hparts⟩
  · rw [hclean] at hparts
    cases hparts

end Ways

/-- A directory, given by its parent and its name, and the components of a path that reaches it. -/
structure Route where
  base : List Str
  name : Str
  ahead : List Str
  entry : IsEntry name

namespace Route

variable (r : Route)

/-- The place of the directory. -/
def home : List Str := r.base ++ [r.name]

/-- From the place, the components lead to the directory, and on from there without `..`. -/
def Leads (tree : Tree α) (place parts : List Str) : Prop :=
  ∃ ahead rest, parts = ahead ++ r.name :: rest ∧ Way tree r.home place ahead r.base ∧
    ['.', '.'] ∉ rest

/-- A link with this target, in any place below the directory, leads to nothing outside of it: a
relative target has no `..`, and an absolute target leads to the directory. -/
def Confined (tree : Tree α) (target : Str) : Prop :=
  if target.head? = some '/' then
    r.Leads tree [] (components target)
  else
    ['.', '.'] ∉ pieces target

/-- The way to the directory does not go through it, and all links at or below it are confined. In
the place of the directory itself a relative link would start outside. -/
structure Guarded (tree : Tree α) : Prop where
  way : Way tree r.home [] r.ahead r.base
  top : ∀ target, tree r.home = some (.symlink target) → target.head? = some '/'
  links : ∀ place target, r.home <+: place → tree place = some (.symlink target) →
    r.Confined tree target

/-- The path goes to the directory, and on from there without `..`. -/
def Under (path : Str) : Prop :=
  ∃ rest, components path = r.ahead ++ r.name :: rest ∧ ['.', '.'] ∉ rest

/-- The path is one of the directories on the way to a path that goes to the directory. -/
def Aimed (path : Str) : Prop :=
  ∃ rest, components path <+: r.ahead ++ r.name :: rest ∧ ['.', '.'] ∉ rest

/-- The resolution is on the way to the directory, or at or below it without `..` ahead. -/
def Heads (tree : Tree α) (place parts : List Str) : Prop :=
  r.Leads tree place (clean parts) ∨ (r.home <+: place ∧ ['.', '.'] ∉ parts)

variable {r}

theorem home_ne_nil : r.home ≠ [] := by simp [home]

/-- `..` among pieces is `..` among components. -/
theorem up_mem_clean {parts : List Str} : ['.', '.'] ∈ clean parts ↔ ['.', '.'] ∈ parts := by
  simp [clean]

/-- Following a confined link keeps the resolution on its course. -/
theorem Guarded.jump {place next rest : List Str} {target : Str} (hguard : r.Guarded tree)
    (hnext : r.home <+: next) (hlink : tree next = some (.symlink target))
    (hplace : target.head? ≠ some '/' → r.home <+: place) (hrest : ['.', '.'] ∉ rest) :
    r.Heads tree (startOf place target) (pieces target ++ rest) := by
  have hconfined := hguard.links next target hnext hlink
  unfold Confined at hconfined
  unfold startOf
  split at hconfined
  case isTrue habsolute =>
    rw [if_pos habsolute]
    obtain ⟨ahead, rest', hcomponents, hway, hup⟩ := hconfined
    refine .inl ⟨ahead, rest' ++ clean rest, ?_, hway, ?_⟩
    · rw [clean_append, clean_pieces, hcomponents, List.append_assoc]
      rfl
    · rw [List.mem_append, up_mem_clean, not_or]
      exact ⟨hup, hrest⟩
  case isFalse hrelative =>
    rw [if_neg hrelative]
    refine .inr ⟨hplace hrelative, ?_⟩
    rw [List.mem_append, not_or]
    exact ⟨hconfined, hrest⟩

/-- Every step keeps the resolution on its course. -/
theorem Heads.step {place parts place' parts' : List Str} (hguard : r.Guarded tree)
    (hgoes : Goes tree (place, parts) (place', parts')) (h : r.Heads tree place parts) :
    r.Heads tree place' parts' := by
  rcases h with ⟨ahead, rest, hclean, hway, hup⟩ | ⟨hhome, hup⟩
  · by_cases hahead : ahead = []
    · -- the resolution is in the parent of the directory, and enters it next
      subst hahead
      cases hway
      rcases goes_entry r.entry hclean hgoes with ⟨rfl, hclean'⟩ | ⟨rfl, hclean'⟩ |
        ⟨target, tail, hlink, rfl, rfl, htail⟩
      · exact .inl ⟨[], rest, hclean', .here, hup⟩
      · refine .inr ⟨List.prefix_rfl, ?_⟩
        rw [← up_mem_clean, hclean']
        exact hup
      · have hhome : r.home <+: r.base ++ [r.name] := List.prefix_rfl
        refine hguard.jump hhome hlink ?_ ?_
        · intro hrelative
          exact absurd (hguard.top target hlink) hrelative
        · rw [← up_mem_clean, htail]
          exact hup
    · obtain ⟨ahead', hway', hclean'⟩ := hway.goes (fun h => absurd h hahead) hclean hgoes
      exact .inl ⟨ahead', rest, hclean', hway', hup⟩
  · cases hgoes with
    | @pass _ next tail part henter hlink =>
        refine .inr ⟨henter.below hhome ?_, fun htail => hup (List.mem_cons_of_mem _ htail)⟩
        rintro rfl
        exact hup List.mem_cons_self
    | @jump _ next tail part target henter hlink =>
        have hnext : r.home <+: next := by
          refine henter.below hhome ?_
          rintro rfl
          exact hup List.mem_cons_self
        exact hguard.jump hnext hlink (fun _ => hhome) fun htail =>
          hup (List.mem_cons_of_mem _ htail)

/-- A resolution ends at or below the directory. -/
theorem Heads.ends {place parts last : List Str} (hguard : r.Guarded tree)
    (hgoes : ReflTransGen (Goes tree) (place, parts) (last, [])) (h : r.Heads tree place parts) :
    r.home <+: last := by
  have hend : r.Heads tree last [] :=
    goes_keeps (fun _ _ _ _ hstep => Heads.step hguard hstep) hgoes h
  rcases hend with ⟨ahead, rest, hnil, _⟩ | ⟨hhome, _⟩
  · simp [clean] at hnil
  · exact hhome

/-- A path that goes to the directory leads to a file at or below it. -/
theorem Guarded.file_place {path : Str} {place : List Str} (hguard : r.Guarded tree)
    (hpath : r.Under path) (h : filePlace tree refuse path = .ok place) : r.home <+: place := by
  unfold filePlace at h
  split at h
  case isTrue => cases h
  case isFalse =>
    obtain ⟨rest, hcomponents, hup⟩ := hpath
    have hheads : r.Heads tree [] (pieces path) := .inl ⟨r.ahead, rest, hcomponents, hguard.way, hup⟩
    exact hheads.ends hguard (walk_new_goes h)

/-- The pieces before the last name of a longer path go to the directory as well. -/
theorem Guarded.heads_parent {parts front : List Str} {name last : Str}
    (hguard : r.Guarded tree)
    (hparts : clean parts ++ [name] = r.ahead ++ r.name :: front.concat last)
    (hup : ['.', '.'] ∉ front.concat last) : r.Heads tree [] parts := by
  rw [List.concat_eq_append] at hup
  rw [List.concat_eq_append, ← List.cons_append, ← List.append_assoc] at hparts
  obtain ⟨hclean, _⟩ := List.append_inj' hparts rfl
  exact .inl ⟨r.ahead, front, hclean, hguard.way, fun hmem => hup (List.mem_append_left _ hmem)⟩

/-- A path that goes to the directory names an entry at or below it. -/
theorem Guarded.entry_place {path : Str} {place : List Str} (hguard : r.Guarded tree)
    (hpath : r.Under path) (h : entryPlace tree refuse path = .ok place) : r.home <+: place := by
  obtain ⟨rest, hcomponents, hup⟩ := hpath
  obtain ⟨parts, name, dir, hparts, _, hgoes, rfl⟩ := entry_place_goes h
  rw [hparts] at hcomponents
  rcases List.eq_nil_or_concat rest with rfl | ⟨front, last, rfl⟩
  · -- the entry is that of the directory itself
    obtain ⟨hclean, hname⟩ := List.append_inj' hcomponents rfl
    have hdir : dir = r.base := Way.ends (hclean ▸ hguard.way) hgoes
    rw [hdir, List.singleton_injective hname]
    exact List.prefix_rfl
  · have hheads := hguard.heads_parent hcomponents hup
    exact (hheads.ends hguard hgoes).trans (List.prefix_append _ _)

/-- The path of the directory resolves to its place, if it is a directory. -/
theorem Guarded.resolve_home {path : Str} {place : List Str}
    (hguard : r.Guarded tree) (hdir : tree r.home = some .dir)
    (hpath : components path = r.ahead ++ [r.name])
    (h : resolve tree refuse true path = .ok place) : place = r.home := by
  have hgoes : ReflTransGen (Goes tree) ([], pieces path) (place, []) := by
    unfold resolve at h
    split at h
    · cases h
    · exact walk_goes h
  -- on the way to the parent with the name ahead, or in the directory with nothing ahead
  have hend : (∃ ahead, clean [] = ahead ++ [r.name] ∧ Way tree r.home place ahead r.base) ∨
      (place = r.home ∧ clean [] = []) := by
    refine goes_keeps (I := fun place parts =>
      (∃ ahead, clean parts = ahead ++ [r.name] ∧ Way tree r.home place ahead r.base) ∨
        (place = r.home ∧ clean parts = [])) ?_ hgoes (.inl ⟨r.ahead, hpath, hguard.way⟩)
    rintro place parts place' parts' hstep (⟨ahead, hclean, hway⟩ | ⟨rfl, hclean⟩)
    · by_cases hahead : ahead = []
      · subst hahead
        cases hway
        rcases goes_entry r.entry hclean hstep with ⟨rfl, hclean'⟩ | ⟨rfl, hclean'⟩ |
          ⟨target, _, hlink, _⟩
        · exact .inl ⟨[], hclean', .here⟩
        · exact .inr ⟨rfl, hclean'⟩
        · rw [← home, hdir] at hlink
          cases hlink
      · obtain ⟨ahead', hway', hclean'⟩ := hway.goes (fun h => absurd h hahead) hclean hstep
        exact .inl ⟨ahead', hclean', hway'⟩
    · exact .inr (goes_nothing hclean hstep)
  rcases hend with ⟨ahead, hnil, _⟩ | ⟨hhome, _⟩
  · simp [clean] at hnil
  · exact hhome

/-- Only the path of the directory itself names its entry. -/
theorem Guarded.entry_home {path : Str} (hguard : r.Guarded tree) (hpath : r.Under path)
    (h : entryPlace tree refuse path = .ok r.home) : components path = r.ahead ++ [r.name] := by
  obtain ⟨rest, hcomponents, hup⟩ := hpath
  obtain ⟨parts, name, dir, hparts, _, hgoes, hplace⟩ := entry_place_goes h
  rcases List.eq_nil_or_concat rest with rfl | ⟨front, last, rfl⟩
  · exact hcomponents
  · rw [hparts] at hcomponents
    have hheads := hguard.heads_parent hcomponents hup
    -- the directory would lie in itself
    have hle := (hheads.ends hguard hgoes).length_le
    rw [hplace, List.length_append] at hle
    exact absurd hle (Nat.not_succ_le_self _)

/-- The entries on the way to the directory exist. -/
theorem Guarded.entry_ahead {path : Str} {place more : List Str} (hguard : r.Guarded tree)
    (hpath : r.ahead = components path ++ more) (h : entryPlace tree refuse path = .ok place) :
    tree place ≠ none := by
  obtain ⟨parts, name, dir, hparts, hname, hgoes, rfl⟩ := entry_place_goes h
  have hway := hguard.way
  rw [hpath, hparts, List.append_assoc] at hway
  obtain ⟨mid, hfront, hback⟩ := hway.cut
  have hdir : dir = mid := hfront.ends hgoes
  subst hdir
  cases hback with
  | pass henter _ _ hdir _ =>
      cases henter.unique (.entry henter.place_dir hname)
      simp [hdir]
  | jump henter _ _ hlink _ =>
      cases henter.unique (.entry henter.place_dir hname)
      simp [hlink]

/-- A path that is aimed at the directory names an entry at or below it, or one that exists. -/
theorem Guarded.entry_aimed {path : Str} {place : List Str} (hguard : r.Guarded tree)
    (hpath : r.Aimed path) (h : entryPlace tree refuse path = .ok place) :
    r.home <+: place ∨ tree place ≠ none := by
  obtain ⟨rest, ⟨behind, hbehind⟩, hup⟩ := hpath
  rcases List.append_eq_append_iff.1 hbehind with ⟨more, hmore, _⟩ | ⟨inner, hinner, hrest⟩
  · exact .inr (hguard.entry_ahead hmore h)
  · cases inner with
    | nil =>
        have hmore : r.ahead = components path ++ [] := by
          rw [hinner, List.append_nil, List.append_nil]
        exact .inr (hguard.entry_ahead hmore h)
    | cons name inner =>
        obtain ⟨rfl, rfl⟩ := List.cons_eq_cons.1 hrest
        refine .inl (hguard.entry_place ⟨inner, hinner, fun hmem => hup ?_⟩ h)
        exact List.mem_append_left _ hmem

/-- A path under the directory is aimed at it. -/
theorem Under.aimed {path : Str} (h : r.Under path) : r.Aimed path := by
  obtain ⟨rest, hcomponents, hup⟩ := h
  exact ⟨rest, by rw [hcomponents], hup⟩

/-- So are the directories on the way. -/
theorem Aimed.of_within {path inner : Str} (h : r.Aimed inner)
    (hpath : components path <+: components inner) : r.Aimed path := by
  obtain ⟨rest, hwithin, hup⟩ := h
  exact ⟨rest, hpath.trans hwithin, hup⟩

/-- A change at or below the directory leaves a target confined. -/
theorem Confined.congr {target : Str} (h : r.Confined tree target)
    (hsame : ∀ p, ¬ r.home <+: p → tree' p = tree p) : r.Confined tree' target := by
  unfold Confined at h ⊢
  split
  case isTrue habsolute =>
    rw [if_pos habsolute] at h
    obtain ⟨ahead, rest, hcomponents, hway, hup⟩ := h
    have houtside : ¬ r.home <+: [] := by
      rw [List.prefix_nil]
      exact home_ne_nil
    exact ⟨ahead, rest, hcomponents, hway.congr home_ne_nil houtside hsame, hup⟩
  case isFalse hrelative =>
    rwa [if_neg hrelative] at h

/-- A change at or below the directory that makes only confined links keeps it guarded. -/
theorem Guarded.change (hguard : r.Guarded tree)
    (hsame : ∀ p, ¬ r.home <+: p → tree' p = tree p)
    (htop : ∀ target, tree' r.home = some (.symlink target) → target.head? = some '/')
    (hlinks : ∀ place target, tree' place = some (.symlink target) → r.home <+: place →
      r.Confined tree target) : r.Guarded tree' where
  way := by
    have houtside : ¬ r.home <+: [] := by
      rw [List.prefix_nil]
      exact home_ne_nil
    exact hguard.way.congr home_ne_nil houtside hsame
  top := htop
  links := fun place target hplace hlink => (hlinks place target hlink hplace).congr hsame

/-- A node may be put at a place: a link there is confined. -/
def Fits (r : Route) (tree : Tree α) (place : List Str) (node : Node α) : Prop :=
  ∀ target, node = .symlink target →
    r.Confined tree target ∧ (place = r.home → target.head? = some '/')

theorem Guarded.put {disk : Disk α} {place : List Str} {node : Node α}
    (hguard : r.Guarded disk.tree) (hplace : r.home <+: place) (hfits : r.Fits disk.tree place node) :
    r.Guarded (disk.put place node).tree := by
  have hself : (disk.put place node).tree place = some node := Function.update_self _ _ _
  have hother : ∀ p, p ≠ place → (disk.put place node).tree p = disk.tree p :=
    fun p hp => Function.update_of_ne hp _ _
  refine hguard.change ?_ ?_ ?_
  · intro p hp
    apply hother
    rintro rfl
    exact hp hplace
  · intro target hlink
    by_cases hhome : r.home = place
    · rw [hhome, hself] at hlink
      exact (hfits target (Option.some.inj hlink)).2 hhome.symm
    · rw [hother _ hhome] at hlink
      exact hguard.top target hlink
  · intro p target hlink hp
    by_cases heq : p = place
    · rw [heq, hself] at hlink
      exact (hfits target (Option.some.inj hlink)).1
    · rw [hother _ heq] at hlink
      exact hguard.links p target hp hlink

theorem Guarded.remove {disk : Disk α} {place : List Str} (hguard : r.Guarded disk.tree)
    (hplace : r.home <+: place) : r.Guarded (disk.remove place).tree := by
  have hself : (disk.remove place).tree place = none := Function.update_self _ _ _
  have hother : ∀ p, p ≠ place → (disk.remove place).tree p = disk.tree p :=
    fun p hp => Function.update_of_ne hp _ _
  have hlink : ∀ p target, (disk.remove place).tree p = some (.symlink target) →
      disk.tree p = some (.symlink target) := by
    intro p target h
    by_cases heq : p = place
    · rw [heq, hself] at h
      cases h
    · rwa [hother _ heq] at h
  refine hguard.change ?_ ?_ ?_
  · intro p hp
    apply hother
    rintro rfl
    exact hp hplace
  · intro target h
    exact hguard.top target (hlink _ _ h)
  · intro p target h hp
    exact hguard.links p target hp (hlink _ _ h)

/-- Moving an entry inside the directory moves its links to other places inside. -/
theorem Guarded.move {disk : Disk α} {old new : List Str} (hguard : r.Guarded disk.tree)
    (hold : r.home <+: old) (hnew : r.home <+: new) (hbelow : ¬ old <+: new)
    (habove : ¬ new <+: old) : r.Guarded (disk.move old new).tree := by
  have houtside : ∀ p, ¬ new <+: p → ¬ old <+: p → (disk.move old new).tree p = disk.tree p := by
    intro p hp hp'
    show (if new <+: p then _ else if old <+: p then _ else _) = _
    rw [if_neg hp, if_neg hp']
  refine hguard.change ?_ ?_ ?_
  · intro p hp
    exact houtside p (fun h => hp (hnew.trans h)) fun h => hp (hold.trans h)
  · intro target hlink
    -- the directory itself is neither moved nor replaced
    have hhome : ¬ new <+: r.home := fun h => habove (h.trans hold)
    have hhome' : ¬ old <+: r.home := fun h => hbelow (h.trans hnew)
    rw [houtside _ hhome hhome'] at hlink
    exact hguard.top target hlink
  · intro p target hlink hp
    change (if new <+: p then disk.tree (old ++ p.drop new.length) else
      if old <+: p then none else disk.tree p) = some (.symlink target) at hlink
    split at hlink
    case isTrue => exact hguard.links _ target (hold.trans (List.prefix_append _ _)) hlink
    case isFalse =>
      split at hlink
      case isTrue => cases hlink
      case isFalse => exact hguard.links p target hp hlink

/-- The directory is guarded, and all that was touched lies at or below it. -/
structure Kept (r : Route) (m : Machine) : Prop where
  guarded : r.Guarded m.tree
  touched : ∀ place ∈ m.touched, r.home <+: place

/-- The program keeps the machine as it is required, whether or not it fails. -/
def Keeps (r : Route) {β : Type} (x : Sys β) (m : Machine) : Prop :=
  Prog.wp x (fun _ m' => r.Kept m') (fun _ m' => r.Kept m') m

section Calls

variable {rules : Rules} {path : Str} {m : Machine}

/-- A change of the disk at places at or below the directory. -/
theorem Kept.alter {places : List (List Str)} {f : Disk Nat → Disk Nat} (h : r.Kept m)
    (hplaces : ∀ place ∈ places, r.home <+: place) (hguard : r.Guarded (f m.disk).tree) :
    r.Kept (m.alter places f) where
  guarded := hguard
  touched := by
    intro place hmem
    rcases List.mem_append.1 hmem with hmem | hmem
    · exact hplaces place hmem
    · exact h.touched place hmem

theorem Kept.of_same {m' : Machine} (h : r.Kept m) (hsame : SameEntries m m') : r.Kept m' where
  guarded := by
    rw [Machine.tree, hsame.1]
    exact h.guarded
  touched := by
    rw [hsame.2]
    exact h.touched

/-- A directory has no target. -/
theorem fits_dir {tree : Tree α} {place : List Str} : r.Fits tree place .dir :=
  fun _ h => (by cases h)

/-- A file has no target. -/
theorem fits_file {tree : Tree α} {place : List Str} {attr : α} : r.Fits tree place (.file attr) :=
  fun _ h => (by cases h)

theorem keeps_mkdir (hpath : r.Aimed path) (h : r.Kept m) : r.Keeps (mkdir rules path) m := by
  refine wp_mkdir (fun _ => h) fun place hplace hnone => ?_
  have hhome : r.home <+: place := (h.guarded.entry_aimed hpath hplace).resolve_right (absurd hnone)
  exact h.alter (by simpa using hhome) (h.guarded.put hhome fits_dir)

theorem keeps_rmdir (hpath : r.Under path) (h : r.Kept m) : r.Keeps (rmdir rules path) m := by
  refine wp_rmdir (fun _ => h) fun place hplace => ?_
  have hhome := h.guarded.entry_place hpath hplace
  exact h.alter (by simpa using hhome) (h.guarded.remove hhome)

theorem keeps_unlink (hpath : r.Under path) (h : r.Kept m) : r.Keeps (unlink rules path) m := by
  refine wp_unlink (fun _ => h) fun place hplace => ?_
  have hhome := h.guarded.entry_place hpath hplace
  exact h.alter (by simpa using hhome) (h.guarded.remove hhome)

theorem keeps_rename {newPath : Str} (hpath : r.Under path) (hnewPath : r.Under newPath)
    (h : r.Kept m) : r.Keeps (rename rules path newPath) m := by
  refine wp_rename (fun _ => h) h fun old new hold hnew hbelow habove => ?_
  have hhome := h.guarded.entry_place hpath hold
  have hhome' := h.guarded.entry_place hnewPath hnew
  refine h.alter ?_ (h.guarded.move hhome hhome' hbelow habove)
  intro place hmem
  rcases List.mem_pair.1 hmem with rfl | rfl
  · exact hhome
  · exact hhome'

/-- A confined link may be made, below the directory or, if it is absolute, in its place. -/
theorem keeps_symlink {target : Str} (hpath : r.Under path) (hconfined : r.Confined m.tree target)
    (htop : components path = r.ahead ++ [r.name] → m.tree r.home = none →
      target.head? = some '/')
    (h : r.Kept m) : r.Keeps (symlink rules target path) m := by
  refine wp_symlink (fun _ => h) fun place hplace hnone => ?_
  have hhome := h.guarded.entry_place hpath hplace
  refine h.alter (by simpa using hhome) (h.guarded.put hhome ?_)
  intro target' heq
  cases heq
  refine ⟨hconfined, ?_⟩
  rintro rfl
  exact htop (h.guarded.entry_home hpath hplace) hnone

theorem keeps_open_writable (hpath : r.Under path) (h : r.Kept m) :
    r.Keeps (openWritable rules path) m := by
  refine wp_open_writable (fun _ => h) (fun place hplace _ => ?_) fun place inode hplace _ => ?_
  · have hhome := h.guarded.file_place hpath hplace
    exact (h.alter (f := (·.put place (.file m.freshInode))) (by simpa using hhome)
      (h.guarded.put hhome fits_file)).of_same ⟨rfl, rfl⟩
  · have hhome := h.guarded.file_place hpath hplace
    exact (h.alter (f := id) (by simpa using hhome) h.guarded).of_same ⟨rfl, rfl⟩

end Calls

end Route

end Labs.FileTree
