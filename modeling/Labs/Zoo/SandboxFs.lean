import Labs.Base.Confine
import Labs.Zoo.Sandbox

/-!
# The files of a sandbox

The requests of a sandboxed program that change files, `zoobar/pypysandbox.py`. The sandbox checks
the paths of a request as strings, and the kernel follows the links that earlier requests made.
-/

namespace Labs.Zoo.SandboxFs

open Path FileTree Prog
open Sandbox (Request isTmpPath writeFlags usertmp)

/-- The kernel's numbers for the errors that the sandbox raises by itself. -/
def errno : Sandbox.Errno → Errno
  | .eaccess => eacces
  | .eperm => FileTree.eperm

/-- The flag `O_TRUNC`. -/
def oTrunc : Nat := 0o1000

/-- What the sandbox library keeps and does for the sandbox: the table of virtual descriptors, and
the tree of nodes in which a path is opened for reading. A node opens a file of the kernel. -/
structure Sandlib (Files : Type) where
  allocateFd : Files → Nat → Nat × Files
  getFile : Files → Nat → Option Nat
  openNode : FileTree.Tree Nat → Str → Except Errno Nat

/-- The kernel's state, and the open files of the sandbox. -/
structure Session (Files : Type) where
  machine : Machine
  files : Files

variable {Files : Type} (lib : Sandlib Files) (rules : Rules) (tmp : Str)

/-- Programs of the sandbox. -/
abbrev Box (Files : Type) := Prog (Session Files) Errno

/-- Make calls of the kernel. -/
def call {β : Type} (x : Sys β) : Box Files β :=
  zoom Session.machine (fun m s => { s with machine := m }) x

/-- A virtual descriptor for an open file. -/
def allocateFd (fileno : Nat) : Box Files Nat := do
  let s ← get
  modify fun s => { s with files := (lib.allocateFd s.files fileno).2 }
  return (lib.allocateFd s.files fileno).1

/-- The method `tmp_real_path`. A path that is not under `/tmp` has none, and no call takes it. -/
def tmpRealPath (vpathname : Str) : Box Files Str :=
  match Sandbox.tmpRealPath tmp vpathname with
  | .error e => exit (errno e)
  | .ok none => exit einval
  | .ok (some realpath) => pure realpath

/-- The directory and the name in `os.makedirs`: slashes at the end of the path do not count. -/
def headTail (name : Str) : Str × Str :=
  if (split name).2 = [] then split (split name).1 else split name

/-- The directory of a path that has a name is shorter. -/
theorem head_tail_lt {name : Str} (h : (headTail name).2 ≠ []) :
    (headTail name).1.length < name.length := by
  unfold headTail at h ⊢
  split at h
  case isTrue hnil =>
    rw [if_pos hnil]
    have hinner := split_head_lt _ h
    have hle := split_head_le name
    omega
  case isFalse hne =>
    rw [if_neg hne]
    exact split_head_lt _ hne

/-- The directory of a path is on the way to it. -/
theorem head_tail_components (name : Str) : components (headTail name).1 <+: components name := by
  unfold headTail
  split
  · exact (split_head_components _).trans (split_head_components _)
  · exact split_head_components _

/-- `os.makedirs`. -/
def makedirs (name : Str) : Sys Unit :=
  if _h : (headTail name).1 ≠ [] ∧ (headTail name).2 ≠ [] then do
    let there ← pathExists rules (headTail name).1
    if there then
      mkdir rules name
    else do
      rescue (makedirs (headTail name).1) fun e => if e = eexist then pure () else exit e
      if (headTail name).2 = ['.'] then
        pure ()
      else
        mkdir rules name
  else
    mkdir rules name
termination_by name.length
decreasing_by exact head_tail_lt ‹_ ∧ _›.2

/-- The method `open` of `WritableFile`. -/
def openWritableFile (path : Str) : Sys Nat := do
  if dirname path = [] then
    openWritable rules path
  else do
    let there ← pathExists rules (dirname path)
    if there then
      openWritable rules path
    else do
      makedirs rules (dirname path)
      openWritable rules path

/-- The handler of `open`. -/
def doOpen (vpathname : Str) (flags : Nat) : Box Files Nat :=
  if vpathname = "/svc/xfer".toList then do
    let f ← call (connect rules)
    allocateFd lib f
  else if flags &&& writeFlags ≠ 0 then
    if isTmpPath vpathname then do
      let realpath ← tmpRealPath tmp vpathname
      let f ← call (openWritableFile rules realpath)
      if flags &&& oTrunc ≠ 0 then do
        call (ftruncate f)
        allocateFd lib f
      else
        allocateFd lib f
    else
      exit FileTree.eperm
  else do
    let m ← gets Session.machine
    let inode ← call (ofExcept (lib.openNode m.tree vpathname))
    let f ← call (openReadable inode)
    allocateFd lib f

/-- The handler of `write`, which reports every failure as one of permission. -/
def doWrite (fd : Nat) (data : List UInt8) : Box Files Nat := do
  let s ← get
  match lib.getFile s.files fd with
  | none => exit FileTree.eperm
  | some fileno => rescue (call (write fileno data)) fun _ => exit FileTree.eperm

/-- The handler of `mkdir`. -/
def doMkdir (vpathname : Str) : Box Files Unit :=
  if isTmpPath vpathname then do
    let realpath ← tmpRealPath tmp vpathname
    call (makedirs rules realpath)
  else
    exit FileTree.eperm

/-- The handler of `rmdir`. -/
def doRmdir (vpathname : Str) : Box Files Unit :=
  if isTmpPath vpathname then do
    let realpath ← tmpRealPath tmp vpathname
    call (rmdir rules realpath)
  else
    exit FileTree.eperm

/-- The handler of `rename`. -/
def doRename (old new : Str) : Box Files Unit :=
  if isTmpPath old ∧ isTmpPath new then do
    let oldPath ← tmpRealPath tmp old
    let newPath ← tmpRealPath tmp new
    call (rename rules oldPath newPath)
  else
    exit FileTree.eperm

/-- The handler of `unlink`. -/
def doUnlink (vpathname : Str) : Box Files Unit :=
  if isTmpPath vpathname then do
    let realpath ← tmpRealPath tmp vpathname
    call (unlink rules realpath)
  else
    exit FileTree.eperm

/-- The target that the handler of `symlink` gives to the link. An absolute path that is not under
`/tmp` is taken as it is. -/
def linkTarget (src : Str) : Box Files Str :=
  if isTmpPath src then
    tmpRealPath tmp src
  else if ['.', '.'] ∈ src.splitOn '/' then
    exit FileTree.eperm
  else
    pure src

/-- The handler of `symlink`. -/
def doSymlink (src dst : Str) : Box Files Unit :=
  if isTmpPath dst then do
    let target ← linkTarget tmp src
    let realpath ← tmpRealPath tmp dst
    call (symlink rules target realpath)
  else
    exit FileTree.eperm

/-- The messages of the sandboxed process: a request that names a path, or a write to a
descriptor. -/
inductive Message where
  | request (r : Request)
  | write (fd : Nat) (data : List UInt8)

/-- Call the handler of a message. The answer to `open` and `write` is a number. -/
def handleMessage : Message → Box Files (Option Nat)
  | .request (.open vpathname flags) => some <$> doOpen lib rules tmp vpathname flags
  | .request (.mkdir vpathname) => (fun _ => none) <$> doMkdir rules tmp vpathname
  | .request (.rmdir vpathname) => (fun _ => none) <$> doRmdir rules tmp vpathname
  | .request (.rename old new) => (fun _ => none) <$> doRename rules tmp old new
  | .request (.unlink vpathname) => (fun _ => none) <$> doUnlink rules tmp vpathname
  | .request (.symlink src dst) => (fun _ => none) <$> doSymlink rules tmp src dst
  | .write fd data => some <$> doWrite lib fd data

/-- The session after a message, whether or not its handler raises an error. -/
def after (s : Session Files) (rules : Rules) (message : Message) : Session Files :=
  (handleMessage lib rules tmp message s).state

/-- The session after several messages. The kernel may refuse other things each time. -/
def run : Session Files → List (Rules × Message) → Session Files
  | s, [] => s
  | s, (rules, message) :: rest => run (after lib tmp s rules message) rest

/-- The name of the directory of a sandbox. -/
def ownName (owner : Str) : Str := (components (usertmp owner)).getLastD []

/-- The last component of `usertmp` is the name of an entry. -/
theorem usertmp_split (owner : Str) :
    components (usertmp owner) = (components (usertmp owner)).dropLast ++ [ownName owner] ∧
      IsEntry (ownName owner) := by
  unfold ownName
  by_cases howner : owner = []
  · subst howner
    rw [Sandbox.usertmp_empty_components]
    unfold IsEntry
    decide
  · rw [Sandbox.usertmp_components howner, List.dropLast_concat, List.getLastD_concat]
    refine ⟨rfl, ?_, ?_, ?_⟩
    · simpa [Sandbox.safeUsername] using howner
    · intro hdot
      exact (Sandbox.safe_username_chars (c := '.') (by rw [hdot]; simp)).2 rfl
    · intro hup
      exact (Sandbox.safe_username_chars (c := '.') (by rw [hup]; simp)).2 rfl

/-- The directory `usertmp`, which lies in `base`. -/
def ownDir (owner : Str) (base : List Str) : Route where
  base := base
  name := ownName owner
  ahead := (components (usertmp owner)).dropLast
  entry := (usertmp_split owner).2

/-- The path `usertmp` resolves to the place of the directory. -/
theorem usertmp_resolves {α : Type} {tree : FileTree.Tree α} {refuse : Refusals} {owner : Str}
    {base place : List Str} (hguard : (ownDir owner base).Guarded tree)
    (hdir : tree (ownDir owner base).home = some .dir)
    (h : resolve tree refuse true (usertmp owner) = .ok place) : place = (ownDir owner base).home :=
  hguard.resolve_home hdir (usertmp_split owner).1 h

section Handlers

variable {lib rules} {owner : Str} {base : List Str} {s : Session Files}

/-- A real path goes to the directory of the sandbox. -/
theorem real_path_under {vpathname realpath : Str}
    (h : Sandbox.tmpRealPath (usertmp owner) vpathname = .ok (some realpath)) :
    (ownDir owner base).Under realpath := by
  obtain ⟨parts, hnames, hcomponents⟩ := Sandbox.real_path_components h
  refine ⟨parts, ?_, fun hup => (hnames _ hup).2.2.2 rfl⟩
  rw [hcomponents, (usertmp_split owner).1, List.append_assoc]
  rfl

/-- A real path is absolute. -/
theorem real_path_head {vpathname realpath : Str}
    (h : Sandbox.tmpRealPath (usertmp owner) vpathname = .ok (some realpath)) :
    realpath.head? = some '/' := by
  have htmp : (usertmp owner).head? = some '/' := by
    have hslash : ∀ part ∈ [Sandbox.safeUsername owner], '/' ∉ part := by
      intro part hpart hmem
      rw [List.mem_singleton.1 hpart] at hmem
      exact (Sandbox.safe_username_chars hmem).1 rfl
    exact head_join_all hslash rfl
  unfold Sandbox.tmpRealPath at h
  split at h
  case isTrue =>
    cases h
    exact htmp
  case isFalse =>
    split at h
    case isTrue => cases h
    case isFalse =>
      cases hparts : Sandbox.realParts ((vpathname.drop 5).splitOn '/') with
      | error e =>
          rw [hparts] at h
          cases h
      | ok parts =>
          rw [hparts] at h
          have hnames := Sandbox.real_parts_names hparts fun part hmem => not_mem_of_mem_splitOn hmem
          by_cases hempty : parts = []
          · subst hempty
            cases h
            exact htmp
          · simp only [bind, Except.bind, hempty, if_false, pure, Except.pure, Except.ok.injEq,
              Option.some.injEq] at h
            rw [← h]
            exact head_join_all (fun part hmem => (hnames part hmem).1) htmp

/-- The handler keeps the directory guarded, and touches nothing outside of it. -/
def Keeps {β : Type} (owner : Str) (base : List Str) (x : Box Files β) (s : Session Files) : Prop :=
  Prog.wp x (fun _ s' => (ownDir owner base).Kept s'.machine)
    (fun _ s' => (ownDir owner base).Kept s'.machine) s

theorem keeps_call {β : Type} {x : Sys β} (h : (ownDir owner base).Keeps x s.machine) :
    Keeps owner base (call x) s :=
  wp_zoom.2 h

/-- A real path is handed on. -/
theorem wp_tmp_real_path {vpathname : Str} {Q : Str → Session Files → Prop}
    {E : Errno → Session Files → Prop} (hE : ∀ e, E e s)
    (hQ : ∀ realpath, Sandbox.tmpRealPath tmp vpathname = .ok (some realpath) → Q realpath s) :
    wp (tmpRealPath tmp vpathname) Q E s := by
  unfold tmpRealPath
  split
  case h_1 => exact hE _
  case h_2 => exact hE _
  case h_3 realpath hreal => exact hQ realpath hreal

/-- The directories on the way to the directory exist, so that those that are made lie in it. -/
theorem keeps_makedirs {r : Route} {name : Str} {m : Machine} (hname : r.Aimed name)
    (h : r.Kept m) : r.Keeps (makedirs rules name) m := by
  induction hlength : name.length using Nat.strongRecOn generalizing name m with
  | ind n ih =>
      rw [makedirs]
      split
      case isFalse => exact Route.keeps_mkdir hname h
      case isTrue hparts =>
        have hhead : r.Aimed (headTail name).1 := hname.of_within (head_tail_components name)
        have hlast : ∀ t, r.Kept t →
            r.Keeps (if (headTail name).2 = ['.'] then pure () else mkdir rules name) t := by
          intro t ht
          split
          · exact ht
          · exact Route.keeps_mkdir hname ht
        show Prog.wp _ _ _ _
        rw [wp_bind]
        refine wp_path_exists fun there => ?_
        rw [wp_ite]
        refine ⟨fun _ => Route.keeps_mkdir hname h, fun _ => ?_⟩
        rw [wp_bind, wp_rescue]
        refine wp_mono (ih _ (hlength ▸ head_tail_lt hparts.2) hhead h rfl)
          (fun _ t ht => hlast t ht) fun e t ht => ?_
        rw [wp_ite]
        exact ⟨fun _ => hlast t ht, fun _ => ht⟩

theorem keeps_open_writable_file {r : Route} {path : Str} {m : Machine} (hpath : r.Under path)
    (h : r.Kept m) : r.Keeps (openWritableFile rules path) m := by
  have hparent : r.Aimed (dirname path) := hpath.aimed.of_within (split_head_components path)
  unfold openWritableFile
  split
  · exact Route.keeps_open_writable hpath h
  · show Prog.wp _ _ _ _
    rw [wp_bind]
    refine wp_path_exists fun there => ?_
    rw [wp_ite]
    refine ⟨fun _ => Route.keeps_open_writable hpath h, fun _ => ?_⟩
    rw [wp_bind]
    exact wp_mono (keeps_makedirs hparent h)
      (fun _ t ht => Route.keeps_open_writable hpath ht) fun _ _ ht => ht

theorem keeps_do_open {vpathname : Str} {flags : Nat} (h : (ownDir owner base).Kept s.machine) :
    Keeps owner base (doOpen lib rules (usertmp owner) vpathname flags) s := by
  unfold doOpen
  split
  · show Prog.wp _ _ _ _
    rw [wp_bind]
    exact wp_zoom.2 (wp_connect (fun _ => h) fun _ _ hsame => h.of_same hsame)
  · split
    · split
      · show Prog.wp _ _ _ _
        rw [wp_bind]
        refine wp_tmp_real_path _ (fun _ => h) fun realpath hreal => ?_
        rw [wp_bind]
        refine wp_zoom.2 (wp_mono_ret (keeps_open_writable_file (real_path_under hreal) h) ?_)
        intro f m' h'
        rw [wp_ite]
        refine ⟨fun _ => ?_, fun _ => h'⟩
        rw [wp_bind]
        exact wp_zoom.2 (wp_ftruncate (fun _ => h') fun _ hsame => h'.of_same hsame)
      · exact h
    · show Prog.wp _ _ _ _
      rw [wp_bind, wp_gets, wp_bind]
      refine wp_zoom.2 (wp_of_except (fun _ => h) fun inode _ => ?_)
      rw [wp_bind]
      exact wp_zoom.2 (wp_open_readable fun _ _ hsame => h.of_same hsame)

theorem keeps_do_write {fd : Nat} {data : List UInt8} (h : (ownDir owner base).Kept s.machine) :
    Keeps owner base (doWrite lib fd data) s := by
  show Prog.wp _ _ _ _
  unfold doWrite
  rw [wp_bind, wp_get]
  split
  · exact h
  · rw [wp_rescue]
    exact wp_zoom.2 (wp_write (fun _ => h) fun _ _ hsame => h.of_same hsame)

theorem keeps_do_mkdir {vpathname : Str} (h : (ownDir owner base).Kept s.machine) :
    Keeps owner base (doMkdir rules (usertmp owner) vpathname) s := by
  unfold doMkdir
  split
  · show Prog.wp _ _ _ _
    rw [wp_bind]
    refine wp_tmp_real_path _ (fun _ => h) fun realpath hreal => ?_
    exact keeps_call (keeps_makedirs (real_path_under hreal).aimed h)
  · exact h

theorem keeps_do_rmdir {vpathname : Str} (h : (ownDir owner base).Kept s.machine) :
    Keeps owner base (doRmdir rules (usertmp owner) vpathname) s := by
  unfold doRmdir
  split
  · show Prog.wp _ _ _ _
    rw [wp_bind]
    refine wp_tmp_real_path _ (fun _ => h) fun realpath hreal => ?_
    exact keeps_call (Route.keeps_rmdir (real_path_under hreal) h)
  · exact h

theorem keeps_do_rename {old new : Str} (h : (ownDir owner base).Kept s.machine) :
    Keeps owner base (doRename rules (usertmp owner) old new) s := by
  unfold doRename
  split
  · show Prog.wp _ _ _ _
    rw [wp_bind]
    refine wp_tmp_real_path _ (fun _ => h) fun oldPath hold => ?_
    rw [wp_bind]
    refine wp_tmp_real_path _ (fun _ => h) fun newPath hnew => ?_
    exact keeps_call (Route.keeps_rename (real_path_under hold) (real_path_under hnew) h)
  · exact h

theorem keeps_do_unlink {vpathname : Str} (h : (ownDir owner base).Kept s.machine) :
    Keeps owner base (doUnlink rules (usertmp owner) vpathname) s := by
  unfold doUnlink
  split
  · show Prog.wp _ _ _ _
    rw [wp_bind]
    refine wp_tmp_real_path _ (fun _ => h) fun realpath hreal => ?_
    exact keeps_call (Route.keeps_unlink (real_path_under hreal) h)
  · exact h

/-- The virtual path is that of `usertmp` itself. -/
def NamesTop (owner dst : Str) : Prop :=
  (Sandbox.derive (usertmp owner) dst).map components = some (components (usertmp owner))

/-- A link to `src` at `dst` leads to nothing outside of the directory: an absolute `src` is under
`/tmp` or leads to the directory, and a relative one is not put in the place of the directory after
it was removed. -/
def Confines (owner : Str) (base : List Str) (tree : FileTree.Tree Nat) (src dst : Str) : Prop :=
  (isTmpPath src ∨ src.head? ≠ some '/' ∨ (ownDir owner base).Leads tree [] (components src)) ∧
    (src.head? = some '/' ∨ ¬ NamesTop owner dst ∨ tree (ownDir owner base).home ≠ none)

/-- The handler refuses to make a link to `src` at `dst`: `dst` is not under `/tmp`, or `src` is not
and has a part `..`, or there is no real path of `dst`. -/
def Refuses (owner src dst : Str) : Prop :=
  ¬ isTmpPath dst ∨ (¬ isTmpPath src ∧ ['.', '.'] ∈ src.splitOn '/') ∨
    Sandbox.derive (usertmp owner) dst = none

/-- The message is not one for which the handler makes a link that leads out of the directory. -/
def Message.Harmless (owner : Str) (base : List Str) (tree : FileTree.Tree Nat) : Message → Prop
  | .request (.symlink src dst) => Refuses owner src dst ∨ Confines owner base tree src dst
  | _ => True

/-- The target of a harmless link is confined. -/
theorem wp_link_target {src dst : Str} {Q : Str → Session Files → Prop}
    {E : Errno → Session Files → Prop} (hE : ∀ e, E e s)
    (hconfines : Confines owner base s.machine.tree src dst)
    (hguard : (ownDir owner base).Guarded s.machine.tree)
    (hQ : ∀ target, (ownDir owner base).Confined s.machine.tree target →
      (src.head? = some '/' → target.head? = some '/') → Q target s) :
    wp (linkTarget (usertmp owner) src) Q E s := by
  unfold linkTarget
  split
  case isTrue htmp =>
    refine wp_tmp_real_path _ hE fun realpath hreal => hQ realpath ?_ fun _ => real_path_head hreal
    have hunder : (ownDir owner base).Under realpath := real_path_under hreal
    obtain ⟨rest, hcomponents, hup⟩ := hunder
    unfold Route.Confined
    rw [if_pos (real_path_head hreal)]
    exact ⟨_, rest, hcomponents, hguard.way, hup⟩
  case isFalse htmp =>
    split
    case isTrue => exact hE _
    case isFalse hup =>
      refine hQ src ?_ id
      unfold Route.Confined
      split
      case isTrue habsolute =>
        exact (hconfines.1.resolve_left htmp).resolve_left (not_not.2 habsolute)
      case isFalse => exact hup

theorem keeps_do_symlink {src dst : Str} (h : (ownDir owner base).Kept s.machine)
    (hconfines : Confines owner base s.machine.tree src dst) :
    Keeps owner base (doSymlink rules (usertmp owner) src dst) s := by
  unfold doSymlink
  split
  case isFalse => exact h
  case isTrue =>
    show Prog.wp _ _ _ _
    rw [wp_bind]
    refine wp_link_target (fun _ => h) hconfines h.guarded fun target hconfined habsolute => ?_
    rw [wp_bind]
    refine wp_tmp_real_path _ (fun _ => h) fun realpath hreal => ?_
    refine keeps_call (Route.keeps_symlink (real_path_under hreal) hconfined ?_ h)
    intro hcomponents hnone
    have htop : NamesTop owner dst := by
      unfold NamesTop Sandbox.derive
      rw [hreal, Option.map_some, hcomponents]
      exact congrArg some (usertmp_split owner).1.symm
    rcases hconfines.2 with hhead | hnames | hhome
    · exact habsolute hhead
    · exact absurd htop hnames
    · exact absurd hnone hhome

/-- A link that the handler refuses is not made. -/
theorem keeps_refused {src dst : Str} (h : (ownDir owner base).Kept s.machine)
    (hrefuses : Refuses owner src dst) :
    Keeps owner base (doSymlink rules (usertmp owner) src dst) s := by
  unfold doSymlink
  split
  case isFalse => exact h
  case isTrue htmp =>
    show Prog.wp _ _ _ _
    rw [wp_bind]
    rcases hrefuses with hdst | ⟨hsrc, hup⟩ | hnone
    · exact absurd htmp hdst
    · unfold linkTarget
      rw [if_neg hsrc, if_pos hup]
      exact h
    · have hdst : ∀ target, Keeps owner base (tmpRealPath (usertmp owner) dst >>= fun realpath =>
          call (symlink rules target realpath)) s := by
        intro target
        show Prog.wp _ _ _ _
        rw [wp_bind]
        refine wp_tmp_real_path _ (fun _ => h) fun realpath hreal => ?_
        rw [Sandbox.derive, hreal] at hnone
        cases hnone
      unfold linkTarget
      split
      case isTrue => exact wp_tmp_real_path _ (fun _ => h) fun target _ => hdst target
      case isFalse =>
        split
        case isTrue => exact h
        case isFalse => exact hdst src

/-- Every handler keeps the directory guarded when its message is harmless. -/
theorem keeps_handle_message {message : Message} (h : (ownDir owner base).Kept s.machine)
    (hharmless : message.Harmless owner base s.machine.tree) :
    Keeps owner base (handleMessage lib rules (usertmp owner) message) s := by
  unfold Keeps
  cases message with
  | request r =>
      cases r with
      | «open» vpathname flags => exact wp_map.2 (keeps_do_open h)
      | mkdir vpathname => exact wp_map.2 (keeps_do_mkdir h)
      | rmdir vpathname => exact wp_map.2 (keeps_do_rmdir h)
      | rename old new => exact wp_map.2 (keeps_do_rename h)
      | unlink vpathname => exact wp_map.2 (keeps_do_unlink h)
      | symlink src dst =>
          rcases hharmless with hrefuses | hconfines
          · exact wp_map.2 (keeps_refused h hrefuses)
          · exact wp_map.2 (keeps_do_symlink h hconfines)
  | write fd data => exact wp_map.2 (keeps_do_write h)

end Handlers

/-- Every message of the run is harmless in the tree that it meets. -/
def HarmlessRun (lib : Sandlib Files) (owner : Str) (base : List Str) :
    Session Files → List (Rules × Message) → Prop
  | _, [] => True
  | s, (rules, message) :: rest =>
      message.Harmless owner base s.machine.tree ∧
        HarmlessRun lib owner base (after lib (usertmp owner) s rules message) rest

/-- A run of harmless messages keeps the directory guarded. -/
theorem run_kept {lib : Sandlib Files} {owner : Str} {base : List Str} {s : Session Files}
    {steps : List (Rules × Message)} (h : (ownDir owner base).Kept s.machine)
    (hharmless : HarmlessRun lib owner base s steps) :
    (ownDir owner base).Kept (run lib (usertmp owner) s steps).machine := by
  induction steps generalizing s with
  | nil => exact h
  | cons step rest ih =>
      obtain ⟨hstep, hrest⟩ := hharmless
      have hkeeps : Keeps owner base (handleMessage lib step.1 (usertmp owner) step.2) s :=
        keeps_handle_message h hstep
      have hafter : (ownDir owner base).Kept (after lib (usertmp owner) s step.1 step.2).machine :=
        state_of_wp hkeeps
      exact ih hafter hrest

/-- In a run without links that lead out, all that is created, opened for writing, renamed or
removed lies at or below the directory, whatever links the program makes. -/
theorem writes_confined (lib : Sandlib Files) (owner : Str) (base : List Str) (s : Session Files)
    (steps : List (Rules × Message)) (hguard : (ownDir owner base).Guarded s.machine.tree)
    (hstart : s.machine.touched = []) (hharmless : HarmlessRun lib owner base s steps) :
    ∀ place ∈ (run lib (usertmp owner) s steps).machine.touched,
      (ownDir owner base).home <+: place := by
  have hkept : (ownDir owner base).Kept s.machine := ⟨hguard, by simp [hstart]⟩
  exact (run_kept hkept hharmless).touched

/-- A sandbox library whose descriptors are the numbers of the open files. -/
def plainLib : Sandlib Unit where
  allocateFd := fun _ fileno => (fileno, ())
  getFile := fun _ fd => some fd
  openNode := fun _ _ => .error .enoent

/-- A kernel that refuses nothing for reasons of its own. -/
def plainRules : Rules where
  lookup := fun _ _ _ => none
  change := fun _ _ => none
  connect := none

/-- The directory of all sandboxes. -/
def sandboxes : List Str := ["tmp".toList, "sandbox-root".toList]

/-- A session of alice, with nothing in her directory. -/
def aliceSession : Session Unit where
  machine :=
    { disk := Disk.ofDirs [[], ["tmp".toList], sandboxes, sandboxes ++ ["alice".toList],
        ["zoobar".toList]]
      contents := fun _ => []
      freshInode := 0
      opened := []
      touched := [] }
  files := ()

/-- The directory of alice is guarded at the start. -/
theorem alice_guarded : (ownDir "alice".toList sandboxes).Guarded aliceSession.machine.tree where
  way := by
    have htmp : Enters aliceSession.machine.tree [] "tmp".toList ["tmp".toList] :=
      .entry rfl (by unfold IsEntry; decide)
    have hroot : Enters aliceSession.machine.tree ["tmp".toList] "sandbox-root".toList sandboxes :=
      .entry rfl (by unfold IsEntry; decide)
    exact .pass htmp (by decide) (by decide) rfl (.pass hroot (by decide) (by decide) rfl .here)
  top := fun _ hlink => absurd hlink Disk.of_dirs_no_link
  links := fun _ _ _ hlink => absurd hlink Disk.of_dirs_no_link

/-- Alice links `/tmp/l` to `/zoobar/x`, and opens the link for writing. -/
def escape : List (Rules × Message) :=
  [(plainRules, .request (.symlink "/zoobar/x".toList "/tmp/l".toList)),
    (plainRules, .request (.open "/tmp/l".toList 0o101))]

/-- The file is then created outside of her directory. -/
theorem link_escapes :
    ¬ ∀ (owner : Str) (base : List Str) (s : Session Unit) (steps : List (Rules × Message)),
      (ownDir owner base).Guarded s.machine.tree → s.machine.touched = [] →
        ∀ place ∈ (run plainLib (usertmp owner) s steps).machine.touched,
          (ownDir owner base).home <+: place := by
  intro hconfined
  have htouched : ["zoobar".toList, "x".toList] ∈
      (run plainLib (usertmp "alice".toList) aliceSession escape).machine.touched := by decide +kernel
  have hwithin := hconfined _ _ _ escape alice_guarded rfl _ htouched
  revert hwithin
  decide

/-- Alice links `/tmp/l` to the name `f`, opens the link for writing, renames the file, and asks for a
link at `/l`, which is refused. -/
def stay : List (Rules × Message) :=
  [(plainRules, .request (.symlink "f".toList "/tmp/l".toList)),
    (plainRules, .request (.open "/tmp/l".toList 0o101)),
    (plainRules, .request (.rename "/tmp/f".toList "/tmp/g".toList)),
    (plainRules, .request (.symlink "/zoobar/x".toList "/l".toList))]

/-- The link that is made is harmless, and the four entries that she touches lie in her directory. -/
theorem writes_confined_stay :
    (run plainLib (usertmp "alice".toList) aliceSession stay).machine.touched.length = 4 ∧
      ∀ place ∈ (run plainLib (usertmp "alice".toList) aliceSession stay).machine.touched,
        (ownDir "alice".toList sandboxes).home <+: place := by
  refine ⟨by decide +kernel, ?_⟩
  refine writes_confined plainLib _ sandboxes aliceSession stay alice_guarded rfl ?_
  refine ⟨.inr ⟨.inr (.inl (by decide)), .inr (.inr ?_)⟩, trivial, trivial, .inl (.inl ?_), trivial⟩
  · decide
  · decide

end Labs.Zoo.SandboxFs
