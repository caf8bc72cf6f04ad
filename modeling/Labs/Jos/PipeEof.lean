import Labs.Jos.State
import Mathlib.Data.Finset.Prod
import Mathlib.Data.Fintype.Basic

/-!
# The end of a pipe

`_pipeisclosed` takes a pipe for closed when the `Fd` page of its own end has as many mappings as
the page of the pipe. The environments that share one pipe are followed here, one system call at a
time, through `pipe`, `dup`, `close`, `fork`, `spawn` and exits. `thisenv` is a system call, and
each return to an environment increments its `env_runs`. A page of the pipe has at most 32768 of
these mappings, so that `pp_ref` counts them.
-/

namespace Labs.Jos.PipeEof

inductive End where
  | reader
  | writer
  deriving DecidableEq

/-- What is mapped at a page: the `Fd` page of an end of the pipe, the page of the pipe itself, or
a page of something else. -/
inductive Slot where
  | free
  | fd (b : End)
  | data
  | other
  deriving DecidableEq

/-- `MAXFD`. -/
def maxfd : Nat := 32

/-- The pages from `FDTABLE` on, in order of their addresses: page `i` below `MAXFD` is
`INDEX2FD(i)`, and page `i + MAXFD` is `INDEX2DATA(i)`. -/
abbrev Table := Nat → Slot

/-- What an environment is doing. The points are those before a system call, or before a read of a
reference counter. -/
inductive Point where
  | free
  /-- Created by `sys_exofork`, with the pages copied so far. -/
  | embryo
  /-- All pages are copied, but the environment is not runnable yet. -/
  | ready
  /-- Running its program. -/
  | idle
  /-- In `pipe`, with the `Fd` page of the reader at `i` and that of the writer at `j`. -/
  | pipeFd1 (i : Nat)
  | pipeData (i j : Nat)
  | pipeMap (i j : Nat)
  | pipeErr3 (i j : Nat)
  | pipeErr2 (i j : Nat)
  | pipeErr1 (i : Nat)
  /-- In `devpipe_close`, at the second `sys_page_unmap`; `dup` then goes on with `old`. -/
  | closeData (i : Nat) (old : Option Nat)
  /-- In `dup`. -/
  | dupData (old new : Nat)
  | dupFd (old new : Nat)
  | dupErrFd (new : Nat)
  | dupErrData (new : Nat)
  /-- In `fork` or `copy_shared_pages`, at page `k`. -/
  | fork (child : EnvIx) (k : Nat)
  /-- In `_pipeisclosed`, for file descriptor `i`: at the first read of `env_runs`. -/
  | runs (i : Nat)
  /-- At the first and at the second of the two calls of `pageref`, which the compiler may order
  either way. -/
  | first (i : Nat) (n : Word)
  | second (i : Nat) (n : Word) (fdFirst : Bool) (count : Nat)
  /-- At the second read of `env_runs`. `settled` says how the counters were read; the program does
  not have it. -/
  | again (i : Nat) (n : Word) (ret : Bool) (settled : Prop)
  /-- `_pipeisclosed` has returned. -/
  | returned (i : Nat) (ret : Bool)

/-- The environments, and the one whose call of `pipe` made the pipe. -/
structure System where
  table : EnvIx → Table
  point : EnvIx → Point
  runs : EnvIx → Word
  maker : Option EnvIx

namespace System

/-- The mappings of a page. -/
def places (s : System) (page : Slot) : Finset (EnvIx × Nat) :=
  (Finset.univ ×ˢ Finset.range (2 * maxfd)).filter fun x : EnvIx × Nat => s.table x.1 x.2 = page

/-- `pp_ref` of a page. -/
def ref (s : System) (page : Slot) : Nat := (s.places page).card

/-- `pageref` of page `k`. -/
def pageref (s : System) (e : EnvIx) (k : Nat) : Nat :=
  if s.table e k = .free then 0 else s.ref (s.table e k)

/-- `e` has pages `table`, and goes on at `point`. -/
def put (s : System) (e : EnvIx) (table : Table) (point : Point) : System :=
  { s with
    table := Function.update s.table e table
    point := Function.update s.point e point }

/-- A system call of `e` returns. -/
def ran (s : System) (e : EnvIx) : System :=
  { s with runs := Function.update s.runs e (s.runs e + 1) }

end System

/-- With each `Fd` page there is the page of the pipe. -/
def Paired (t : Table) : Prop := ∀ k b, t k = .fd b → k < maxfd ∧ t (k + maxfd) = .data

/-- At its second read of a reference counter, the counter that `e` read first has not changed, and
no environment under construction has an `Fd` page without the page of the pipe. -/
def System.Settled (s : System) (e : EnvIx) : Prop :=
  ∀ i n fdFirst count, s.point e = .second i n fdFirst count →
    s.pageref e (if fdFirst then i else i + maxfd) = count ∧
      ∀ child, s.point child = .embryo → Paired (s.table child)

/-- A system call of `e` that maps or unmaps one of its own pages, if any, with the point that
follows. -/
inductive Call (s : System) (e : EnvIx) : Option (Nat × Slot) → Point → Prop where
  | pipeFd1 {i j : Nat} (hat : s.point e = .pipeFd1 i) (hj : j < maxfd)
      (hfree : s.table e j = .free) : Call s e (some (j, .fd .writer)) (.pipeData i j)
  | pipeFd1Err {i : Nat} (hat : s.point e = .pipeFd1 i) : Call s e none (.pipeErr1 i)
  | pipeData {i j : Nat} (hat : s.point e = .pipeData i j) :
      Call s e (some (i + maxfd, .data)) (.pipeMap i j)
  | pipeDataErr {i j : Nat} (hat : s.point e = .pipeData i j) : Call s e none (.pipeErr2 i j)
  | pipeMap {i j : Nat} (hat : s.point e = .pipeMap i j) :
      Call s e (some (j + maxfd, .data)) .idle
  | pipeMapErr {i j : Nat} (hat : s.point e = .pipeMap i j) : Call s e none (.pipeErr3 i j)
  | pipeErr3 {i j : Nat} (hat : s.point e = .pipeErr3 i j) :
      Call s e (some (i + maxfd, .free)) (.pipeErr2 i j)
  | pipeErr2 {i j : Nat} (hat : s.point e = .pipeErr2 i j) :
      Call s e (some (j, .free)) (.pipeErr1 i)
  | pipeErr1 {i : Nat} (hat : s.point e = .pipeErr1 i) : Call s e (some (i, .free)) .idle
  /-- Some other file is opened. -/
  | openFd {i : Nat} (hat : s.point e = .idle) (hi : i < maxfd) (hfree : s.table e i = .free) :
      Call s e (some (i, .other)) .idle
  /-- The data page of some other file is mapped or unmapped. -/
  | fill {i : Nat} {slot : Slot} (hat : s.point e = .idle) (hi : i < maxfd)
      (hfd : ∀ b, s.table e i ≠ .fd b) (hslot : slot = .free ∨ slot = .other) :
      Call s e (some (i + maxfd, slot)) .idle
  | closeFd {i : Nat} (hat : s.point e = .idle) (hi : i < maxfd) (hopen : s.table e i ≠ .free) :
      Call s e (some (i, .free)) (.closeData i none)
  /-- A file other than a pipe has no data page to unmap. -/
  | closeFile {i : Nat} (hat : s.point e = .idle) (hi : i < maxfd) (hfile : s.table e i = .other) :
      Call s e (some (i, .free)) .idle
  | closeData {i : Nat} (hat : s.point e = .closeData i none) :
      Call s e (some (i + maxfd, .free)) .idle
  /-- `dup` closes `new` first. -/
  | dupClose {old new : Nat} (hat : s.point e = .idle) (hold : old < maxfd) (hnew : new < maxfd)
      (hopen : s.table e old ≠ .free) (hclose : s.table e new ≠ .free) :
      Call s e (some (new, .free)) (.closeData new (some old))
  | dupCloseFile {old new : Nat} (hat : s.point e = .idle) (hold : old < maxfd)
      (hnew : new < maxfd) (hopen : s.table e old ≠ .free) (hfile : s.table e new = .other) :
      Call s e (some (new, .free)) (.dupData old new)
  | dupCloseData {old new : Nat} (hat : s.point e = .closeData new (some old)) :
      Call s e (some (new + maxfd, .free)) (.dupData old new)
  | dupData {old new : Nat} (hat : s.point e = .dupData old new)
      (hdata : s.table e (old + maxfd) ≠ .free) :
      Call s e (some (new + maxfd, s.table e (old + maxfd))) (.dupFd old new)
  | dupDataErr {old new : Nat} (hat : s.point e = .dupData old new) : Call s e none (.dupErrFd new)
  | dupFd {old new : Nat} (hat : s.point e = .dupFd old new) (hopen : s.table e old ≠ .free) :
      Call s e (some (new, s.table e old)) .idle
  | dupFdErr {old new : Nat} (hat : s.point e = .dupFd old new) : Call s e none (.dupErrFd new)
  | dupErrFd {new : Nat} (hat : s.point e = .dupErrFd new) :
      Call s e (some (new, .free)) (.dupErrData new)
  | dupErrData {new : Nat} (hat : s.point e = .dupErrData new) :
      Call s e (some (new + maxfd, .free)) .idle
  /-- The first `thisenv->env_runs`: the call of `sys_getenvid` has been counted. -/
  | runs {i : Nat} (hat : s.point e = .runs i) : Call s e none (.first i (s.runs e + 1))
  /-- The second one. -/
  | again {i : Nat} {n : Word} {ret : Bool} {settled : Prop}
      (hat : s.point e = .again i n ret settled) :
      Call s e none (if n = s.runs e + 1 then .returned i ret else .runs i)
  /-- Any other system call. -/
  | other (hat : s.point e = .idle) : Call s e none .idle

/-- A step without a system call: `e` goes on to another point. -/
inductive Local (s : System) (e : EnvIx) : Point → Prop where
  | dup {old new : Nat} (hat : s.point e = .idle) (hold : old < maxfd) (hnew : new < maxfd)
      (hopen : s.table e old ≠ .free) (hfree : s.table e new = .free) : Local s e (.dupData old new)
  | dupNoData {old new : Nat} (hat : s.point e = .dupData old new)
      (hdata : s.table e (old + maxfd) = .free) : Local s e (.dupFd old new)
  | isclosed {i : Nat} {b : End} (hat : s.point e = .idle) (hi : i < maxfd)
      (hfd : s.table e i = .fd b) : Local s e (.runs i)
  | first {i : Nat} {n : Word} (fdFirst : Bool) (hat : s.point e = .first i n) :
      Local s e (.second i n fdFirst (s.pageref e (if fdFirst then i else i + maxfd)))
  | second {i count : Nat} {n : Word} {fdFirst : Bool}
      (hat : s.point e = .second i n fdFirst count) :
      Local s e (.again i n (count == s.pageref e (if fdFirst then i + maxfd else i))
        (s.Settled e))
  | done {i : Nat} {ret : Bool} (hat : s.point e = .returned i ret) : Local s e .idle

/-- The pages after a change of one of them. -/
def Table.change (t : Table) : Option (Nat × Slot) → Table
  | none => t
  | some (k, slot) => Function.update t k slot

/-- One step of `e`. -/
inductive Step (s : System) (e : EnvIx) : System → Prop where
  | call {change : Option (Nat × Slot)} {point : Point} (hcall : Call s e change point) :
      Step s e ((s.put e ((s.table e).change change) point).ran e)
  | loc {point : Point} (hlocal : Local s e point) : Step s e (s.put e (s.table e) point)
  /-- `pipe` allocates the `Fd` page of the reader. -/
  | pipe {i : Nat} (hat : s.point e = .idle) (hmaker : s.maker = none) (hi : i < maxfd)
      (hfree : s.table e i = .free) :
      Step s e { (s.put e (Function.update (s.table e) i (.fd .reader)) (.pipeFd1 i)).ran e with
        maker := some e }
  /-- `sys_exofork`, of `fork` or of `spawn`. -/
  | exofork {child : EnvIx} (hat : s.point e = .idle) (hchild : s.point child = .free) :
      Step s e { ((s.put child (s.table child) .embryo).put e (s.table e)
        (.fork child 0)).ran e with
        runs := Function.update (s.ran e).runs child 0 }
  /-- `duppage`, or `sys_page_map` of `copy_shared_pages`. -/
  | copy {child : EnvIx} {k : Nat} (hat : s.point e = .fork child k) (hk : k < 2 * maxfd)
      (hmapped : s.table e k ≠ .free) :
      Step s e (((s.put child (Function.update (s.table child) k (s.table e k)) .embryo).put e
        (s.table e) (.fork child (k + 1))).ran e)
  /-- A page that is not mapped, or for `spawn` not shared. -/
  | skip {child : EnvIx} {k : Nat} (hat : s.point e = .fork child k) (hk : k < 2 * maxfd)
      (hskip : s.table e k = .free ∨ s.table e k = .other) :
      Step s e (s.put e (s.table e) (.fork child (k + 1)))
  | copied {child : EnvIx} (hat : s.point e = .fork child (2 * maxfd)) :
      Step s e ((s.put child (s.table child) .ready).put e (s.table e) .idle)
  /-- `sys_env_set_status`. -/
  | start {child : EnvIx} (hat : s.point e = .idle) (hready : s.point child = .ready) :
      Step s e ((s.put child (s.table child) .idle).ran e)
  /-- `d` is destroyed, by itself or by `e`. -/
  | destroy {d : EnvIx} (hlive : s.point d ≠ .free) (hparent : ∀ p k, s.point p ≠ .fork d k) :
      Step s e (s.put d (fun _ => .free) .free)
  /-- `e` runs again after an interrupt. -/
  | resume (hlive : s.point e ≠ .free) : Step s e (s.ran e)

/-- The states of runs whose steps all meet `ok`. Before there is a pipe, any environments run. -/
inductive Run (ok : System → EnvIx → Prop) : System → Prop where
  | boot {s : System} (hmaker : s.maker = none)
      (hpoint : ∀ e, s.point e = .free ∨ s.point e = .idle)
      (htable : ∀ e k, s.table e k = .free ∨ s.table e k = .other ∧ s.point e = .idle) : Run ok s
  | step {s s' : System} {e : EnvIx} (hrun : Run ok s) (hok : ok s e) (hstep : Step s e s') :
      Run ok s'

theorem ne_of_eq_free {t : Table} {k : Nat} {b : End} (hfree : t k = .free) : t k ≠ .fd b := by
  rw [hfree]
  exact Slot.noConfusion

/-- An `Fd` page of the pipe in changed pages is the new one, or was there. -/
theorem Table.fd_of_update {t : Table} {k m : Nat} {slot : Slot} {b : End}
    (hfd : Function.update t k slot m = .fd b) :
    m = k ∧ slot = .fd b ∨ m ≠ k ∧ t m = .fd b := by
  by_cases hm : m = k
  · left
    rw [hm, Function.update_self] at hfd
    exact ⟨hm, hfd⟩
  · right
    rw [Function.update_of_ne hm] at hfd
    exact ⟨hm, hfd⟩

/-- The condition: if the answer that the pipe is closed is going to be returned, the counters it
rests on were read settled. -/
def System.Fair (s : System) (e : EnvIx) : Prop :=
  ∀ i n settled, s.point e = .again i n true settled → n = s.runs e + 1 → settled

/-! ## What each environment has mapped -/

/-- The environment is in `pipe`. -/
def Point.Creating : Point → Prop
  | .pipeFd1 _ => True
  | .pipeData _ _ => True
  | .pipeMap _ _ => True
  | .pipeErr3 _ _ => True
  | .pipeErr2 _ _ => True
  | .pipeErr1 _ => True
  | _ => False

/-- The `Fd` pages of the pipe are at `i` and `j` only. -/
def Only (t : Table) (i j : Nat) : Prop :=
  i < maxfd ∧ j < maxfd ∧ ∀ k b, t k = .fd b → k = i ∨ k = j

/-- The pages of an environment at each of its points. -/
def Shape : Point → Table → Prop
  | .free, t => ∀ k, t k = .free
  | .embryo, _ => True
  | .pipeFd1 i, t => Only t i i
  | .pipeErr1 i, t => Only t i i
  | .pipeData i j, t => Only t i j
  | .pipeErr2 i j, t => Only t i j
  | .pipeMap i j, t => Only t i j ∧ t (i + maxfd) = .data
  | .pipeErr3 i j, t => Only t i j ∧ t (i + maxfd) = .data
  | .closeData i _, t => Paired t ∧ i < maxfd ∧ t i = .free
  | .dupData _ new, t => Paired t ∧ new < maxfd ∧ t new = .free
  | .dupFd old new, t => Paired t ∧ new < maxfd ∧ t new = .free ∧
      ∀ b, t old = .fd b → t (new + maxfd) = .data
  | .dupErrFd new, t => Paired t ∧ new < maxfd
  | .dupErrData new, t => Paired t ∧ new < maxfd ∧ t new = .free
  | .runs i, t => Paired t ∧ ∃ b, t i = .fd b
  | .first i _, t => Paired t ∧ ∃ b, t i = .fd b
  | .second i _ _ _, t => Paired t ∧ ∃ b, t i = .fd b
  | .again i _ _ _, t => Paired t ∧ ∃ b, t i = .fd b
  | .returned i _, t => Paired t ∧ ∃ b, t i = .fd b
  | .ready, t => Paired t
  | .idle, t => Paired t
  | .fork _ _, t => Paired t

/-- Outside `pipe` the pages are paired. -/
theorem Shape.paired {point : Point} {t : Table} (hshape : Shape point t)
    (hcreating : ¬ point.Creating) (hembryo : point ≠ .embryo) : Paired t := by
  cases point with
  | free =>
      intro k b hfd
      exact absurd hfd (ne_of_eq_free (hshape k))
  | embryo => exact absurd rfl hembryo
  | ready => exact hshape
  | idle => exact hshape
  | fork child k => exact hshape
  | pipeFd1 i => exact absurd trivial hcreating
  | pipeData i j => exact absurd trivial hcreating
  | pipeMap i j => exact absurd trivial hcreating
  | pipeErr3 i j => exact absurd trivial hcreating
  | pipeErr2 i j => exact absurd trivial hcreating
  | pipeErr1 i => exact absurd trivial hcreating
  | closeData i old => exact hshape.1
  | dupData old new => exact hshape.1
  | dupFd old new => exact hshape.1
  | dupErrFd new => exact hshape.1
  | dupErrData new => exact hshape.1
  | runs i => exact hshape.1
  | first i n => exact hshape.1
  | second i n fdFirst count => exact hshape.1
  | again i n ret settled => exact hshape.1
  | returned i ret => exact hshape.1

/-- A page other than an `Fd` page of the pipe comes in. -/
theorem Paired.update {t : Table} {k : Nat} {slot : Slot} (hpaired : Paired t)
    (hslot : ∀ b, slot ≠ .fd b)
    (hdata : ∀ i, k = i + maxfd → (∀ b, t i ≠ .fd b) ∨ slot = .data) :
    Paired (Function.update t k slot) := by
  intro m b hfd
  obtain ⟨-, hnew⟩ | ⟨hne, hold⟩ := Table.fd_of_update hfd
  · exact absurd hnew (hslot b)
  · obtain ⟨hm, hpair⟩ := hpaired m b hold
    refine ⟨hm, ?_⟩
    by_cases hk : k = m + maxfd
    · obtain hfree | hslot := hdata m hk
      · exact absurd hold (hfree b)
      · rw [← hk, Function.update_self]
        exact hslot
    · rw [Function.update_of_ne (Ne.symm hk)]
      exact hpair

/-- A change below `MAXFD` to something else than an `Fd` page of the pipe. -/
theorem Paired.update_fd {t : Table} {k : Nat} {slot : Slot} (hpaired : Paired t) (hk : k < maxfd)
    (hslot : ∀ b, slot ≠ .fd b) : Paired (Function.update t k slot) :=
  hpaired.update hslot fun i hi => by omega

/-- A change of the data page of an index without an `Fd` page of the pipe. -/
theorem Paired.update_data {t : Table} {i : Nat} {slot : Slot} (hpaired : Paired t)
    (hslot : ∀ b, slot ≠ .fd b) (hfree : ∀ b, t i ≠ .fd b) :
    Paired (Function.update t (i + maxfd) slot) := by
  refine hpaired.update hslot fun m hm => ?_
  have hi : m = i := by omega
  left
  rw [hi]
  exact hfree

/-- A page that is no `Fd` page of the pipe comes in at a point of `pipe`. -/
theorem Only.update {t : Table} {i j k : Nat} {slot : Slot} (honly : Only t i j)
    (hslot : ∀ b, slot ≠ .fd b) : Only (Function.update t k slot) i j := by
  obtain ⟨hi, hj, hat⟩ := honly
  refine ⟨hi, hj, fun m b hfd => ?_⟩
  obtain ⟨-, hnew⟩ | ⟨-, hold⟩ := Table.fd_of_update hfd
  · exact absurd hnew (hslot b)
  · exact hat m b hold

/-- No page is above the data pages. -/
theorem data_not_fd {t : Table} (hpaired : Paired t) (i : Nat) (b : End) :
    t (i + maxfd) ≠ .fd b := by
  intro hfd
  have hlt := (hpaired _ b hfd).1
  omega

theorem free_ne_fd (b : End) : Slot.free ≠ .fd b := Slot.noConfusion

theorem data_ne_fd (b : End) : Slot.data ≠ .fd b := Slot.noConfusion

theorem other_ne_fd (b : End) : Slot.other ≠ .fd b := Slot.noConfusion

/-- A system call on its own pages leaves an environment with the pages of its next point. -/
theorem Call.shape {s : System} {e : EnvIx} {change : Option (Nat × Slot)} {point : Point}
    (hcall : Call s e change point) (hshape : Shape (s.point e) (s.table e)) :
    Shape point ((s.table e).change change) := by
  cases hcall with
  | @pipeFd1 i j hat hj hfree =>
      rw [hat] at hshape
      obtain ⟨hi, -, hat⟩ := hshape
      refine ⟨hi, hj, fun m b hfd => ?_⟩
      obtain ⟨hm, -⟩ | ⟨-, hold⟩ := Table.fd_of_update hfd
      · exact Or.inr hm
      · have hm := hat m b hold
        omega
  | pipeFd1Err hat =>
      rw [hat] at hshape
      exact hshape
  | pipeData hat =>
      rw [hat] at hshape
      exact ⟨hshape.update data_ne_fd, Function.update_self ..⟩
  | pipeDataErr hat =>
      rw [hat] at hshape
      exact hshape
  | @pipeMap i j hat =>
      rw [hat] at hshape
      obtain ⟨honly, hdata⟩ := hshape
      have hnew := honly.update (k := j + maxfd) data_ne_fd
      intro m b hfd
      obtain ⟨hi, hj, hat⟩ := hnew
      obtain rfl | rfl := hat m b hfd
      · refine ⟨hi, ?_⟩
        by_cases hij : m + maxfd = j + maxfd
        · exact hij ▸ Function.update_self ..
        · exact (Function.update_of_ne hij ..).trans hdata
      · exact ⟨hj, Function.update_self ..⟩
  | pipeMapErr hat =>
      rw [hat] at hshape
      exact hshape
  | pipeErr3 hat =>
      rw [hat] at hshape
      exact hshape.1.update free_ne_fd
  | @pipeErr2 i j hat =>
      rw [hat] at hshape
      obtain ⟨hi, hj, hat⟩ := hshape
      refine ⟨hi, hi, fun m b hfd => ?_⟩
      obtain ⟨-, hnew⟩ | ⟨hne, hold⟩ := Table.fd_of_update hfd
      · exact absurd hnew (free_ne_fd b)
      · have hm := hat m b hold
        omega
  | @pipeErr1 i hat =>
      rw [hat] at hshape
      obtain ⟨hi, -, hat⟩ := hshape
      intro m b hfd
      obtain ⟨-, hnew⟩ | ⟨hne, hold⟩ := Table.fd_of_update hfd
      · exact absurd hnew (free_ne_fd b)
      · have hm := hat m b hold
        omega
  | openFd hat hi hfree =>
      rw [hat] at hshape
      exact Paired.update_fd hshape hi other_ne_fd
  | fill hat hi hfd hslot =>
      rw [hat] at hshape
      refine Paired.update_data hshape (fun b => ?_) hfd
      obtain rfl | rfl := hslot
      · exact free_ne_fd b
      · exact other_ne_fd b
  | closeFd hat hi hopen =>
      rw [hat] at hshape
      exact ⟨Paired.update_fd hshape hi free_ne_fd, hi, Function.update_self ..⟩
  | closeFile hat hi hfile =>
      rw [hat] at hshape
      exact Paired.update_fd hshape hi free_ne_fd
  | closeData hat =>
      rw [hat] at hshape
      obtain ⟨hpaired, -, hfree⟩ := hshape
      exact hpaired.update_data free_ne_fd fun b => ne_of_eq_free hfree
  | dupClose hat hold hnew hopen hclose =>
      rw [hat] at hshape
      exact ⟨Paired.update_fd hshape hnew free_ne_fd, hnew, Function.update_self ..⟩
  | dupCloseFile hat hold hnew hopen hfile =>
      rw [hat] at hshape
      exact ⟨Paired.update_fd hshape hnew free_ne_fd, hnew, Function.update_self ..⟩
  | @dupCloseData old new hat =>
      rw [hat] at hshape
      obtain ⟨hpaired, hnew, hfree⟩ := hshape
      have hne : new ≠ new + maxfd := by simp [maxfd]
      exact ⟨hpaired.update_data free_ne_fd fun b => ne_of_eq_free hfree, hnew,
        (Function.update_of_ne hne ..).trans hfree⟩
  | @dupData old new hat hdata =>
      rw [hat] at hshape
      obtain ⟨hpaired, hnew, hfree⟩ := hshape
      have hne : new ≠ new + maxfd := by simp [maxfd]
      refine ⟨hpaired.update_data (data_not_fd hpaired old) fun b => ne_of_eq_free hfree, hnew,
        (Function.update_of_ne hne ..).trans hfree, fun b hfd => ?_⟩
      obtain ⟨-, hslot⟩ | ⟨-, hfd⟩ := Table.fd_of_update hfd
      · exact absurd hslot (data_not_fd hpaired old b)
      · exact (Function.update_self ..).trans (hpaired old b hfd).2
  | dupDataErr hat =>
      rw [hat] at hshape
      exact ⟨hshape.1, hshape.2.1⟩
  | @dupFd old new hat hopen =>
      rw [hat] at hshape
      obtain ⟨hpaired, hnew, hfree, hdata⟩ := hshape
      intro m b hfd
      obtain ⟨hm, hslot⟩ | ⟨hm, hfd⟩ := Table.fd_of_update hfd
      · have hne : new + maxfd ≠ new := by simp [maxfd]
        rw [hm]
        exact ⟨hnew, (Function.update_of_ne hne ..).trans (hdata b hslot)⟩
      · obtain ⟨hlt, hpair⟩ := hpaired m b hfd
        have hne : m + maxfd ≠ new := by omega
        exact ⟨hlt, (Function.update_of_ne hne ..).trans hpair⟩
  | dupFdErr hat =>
      rw [hat] at hshape
      exact ⟨hshape.1, hshape.2.1⟩
  | dupErrFd hat =>
      rw [hat] at hshape
      obtain ⟨hpaired, hnew⟩ := hshape
      exact ⟨hpaired.update_fd hnew free_ne_fd, hnew, Function.update_self ..⟩
  | dupErrData hat =>
      rw [hat] at hshape
      obtain ⟨hpaired, hnew, hfree⟩ := hshape
      exact hpaired.update_data free_ne_fd fun b => ne_of_eq_free hfree
  | runs hat =>
      rw [hat] at hshape
      exact hshape
  | @again i n ret settled hat =>
      rw [hat] at hshape
      split
      · exact hshape
      · exact hshape
  | other hat =>
      rw [hat] at hshape
      exact hshape

theorem Local.shape {s : System} {e : EnvIx} {point : Point} (hlocal : Local s e point)
    (hshape : Shape (s.point e) (s.table e)) : Shape point (s.table e) := by
  cases hlocal with
  | dup hat hold hnew hopen hfree =>
      rw [hat] at hshape
      exact ⟨hshape, hnew, hfree⟩
  | dupNoData hat hdata =>
      rw [hat] at hshape
      obtain ⟨hpaired, hnew, hfree⟩ := hshape
      refine ⟨hpaired, hnew, hfree, fun b hfd => ?_⟩
      have hpair := (hpaired _ b hfd).2
      rw [hdata] at hpair
      exact Slot.noConfusion hpair
  | @isclosed i b hat hi hfd =>
      rw [hat] at hshape
      exact ⟨hshape, b, hfd⟩
  | first fdFirst hat =>
      rw [hat] at hshape
      exact hshape
  | second hat =>
      rw [hat] at hshape
      exact hshape
  | done hat =>
      rw [hat] at hshape
      exact hshape.1

/-- The environment is being made, or makes another one, or is not there. -/
def Point.Forking : Point → Prop
  | .free => True
  | .embryo => True
  | .fork _ _ => True
  | _ => False

/-- `Call`s are made outside the copying of pages, and lead to no such point. -/
theorem Call.not_forking {s : System} {e : EnvIx} {change : Option (Nat × Slot)} {point : Point}
    (hcall : Call s e change point) : ¬ (s.point e).Forking ∧ ¬ point.Forking := by
  cases hcall with
  | again hat =>
      rw [hat]
      refine ⟨id, ?_⟩
      split
      · exact id
      · exact id
  | _ hat =>
      rw [hat]
      exact ⟨id, id⟩

theorem Local.not_forking {s : System} {e : EnvIx} {point : Point} (hlocal : Local s e point) :
    ¬ (s.point e).Forking ∧ ¬ point.Forking := by
  cases hlocal with
  | first fdFirst hat =>
      rw [hat]
      exact ⟨id, id⟩
  | _ hat =>
      rw [hat]
      exact ⟨id, id⟩

/-- `pipe` goes on only where it is. -/
theorem Call.creating {s : System} {e : EnvIx} {change : Option (Nat × Slot)} {point : Point}
    (hcall : Call s e change point) (hcreating : point.Creating) : (s.point e).Creating := by
  cases hcall with
  | again hat =>
      split at hcreating
      · exact absurd hcreating id
      · exact absurd hcreating id
  | _ hat =>
      rw [hat]
      first | exact trivial | exact hcreating

theorem Local.creating {s : System} {e : EnvIx} {point : Point} (hlocal : Local s e point) :
    ¬ (s.point e).Creating ∧ ¬ point.Creating := by
  cases hlocal with
  | first fdFirst hat =>
      rw [hat]
      exact ⟨id, id⟩
  | _ hat =>
      rw [hat]
      exact ⟨id, id⟩

/-- An `Fd` page of the pipe comes from `pipe`, or from another one of the same end. -/
theorem Call.source {s : System} {e : EnvIx} {change : Option (Nat × Slot)} {point : Point}
    (hcall : Call s e change point) {k : Nat} {b : End}
    (hfd : (s.table e).change change k = .fd b) :
    (s.point e).Creating ∨ ∃ k', s.table e k' = .fd b := by
  cases hcall with
  | pipeFd1 hat => exact Or.inl (by rw [hat]; trivial)
  | fill hat hi hnot hslot =>
      right
      obtain ⟨-, hnew⟩ | ⟨-, hold⟩ := Table.fd_of_update hfd
      · obtain rfl | rfl := hslot
        · exact absurd hnew (free_ne_fd b)
        · exact absurd hnew (other_ne_fd b)
      · exact ⟨k, hold⟩
  | @dupData old new hat hdata =>
      right
      obtain ⟨-, hnew⟩ | ⟨-, hold⟩ := Table.fd_of_update hfd
      · exact ⟨_, hnew⟩
      · exact ⟨k, hold⟩
  | @dupFd old new hat hopen =>
      right
      obtain ⟨-, hnew⟩ | ⟨-, hold⟩ := Table.fd_of_update hfd
      · exact ⟨_, hnew⟩
      · exact ⟨k, hold⟩
  | pipeFd1Err hat => exact Or.inr ⟨k, hfd⟩
  | pipeDataErr hat => exact Or.inr ⟨k, hfd⟩
  | pipeMapErr hat => exact Or.inr ⟨k, hfd⟩
  | dupDataErr hat => exact Or.inr ⟨k, hfd⟩
  | dupFdErr hat => exact Or.inr ⟨k, hfd⟩
  | runs hat => exact Or.inr ⟨k, hfd⟩
  | again hat => exact Or.inr ⟨k, hfd⟩
  | other hat => exact Or.inr ⟨k, hfd⟩
  | _ hat =>
      right
      obtain ⟨-, hnew⟩ | ⟨-, hold⟩ := Table.fd_of_update hfd
      · exact Slot.noConfusion hnew
      · exact ⟨k, hold⟩

/-! ## What holds in every run -/

namespace System

variable (s : System) (e : EnvIx) (t : Table) (point : Point)

@[simp] theorem put_table_self : (s.put e t point).table e = t := Function.update_self ..

@[simp] theorem put_point_self : (s.put e t point).point e = point := Function.update_self ..

variable {s e t point} in
theorem put_table_of_ne {e' : EnvIx} (hne : e' ≠ e) : (s.put e t point).table e' = s.table e' :=
  Function.update_of_ne hne ..

variable {s e t point} in
theorem put_point_of_ne {e' : EnvIx} (hne : e' ≠ e) : (s.put e t point).point e' = s.point e' :=
  Function.update_of_ne hne ..

theorem put_put (t' : Table) (point' : Point) :
    (s.put e t' point').put e t point = s.put e t point := by
  unfold put
  rw [Function.update_idem, Function.update_idem]

variable {s e t point} in
theorem put_comm {e' : EnvIx} (hne : e ≠ e') (t' : Table) (point' : Point) :
    (s.put e t point).put e' t' point' = (s.put e' t' point').put e t point := by
  unfold put
  rw [Function.update_comm hne, Function.update_comm hne]

end System

/-- The pages below `k` of the parent have been copied. -/
def Copied (t t' : Table) (k : Nat) : Prop :=
  (∀ m b, t' m = .fd b → m < k ∧ t m = .fd b) ∧ ∀ m, m < k → t m = .data → t' m = .data

/-- `e` makes the pipe, and no other environment has an `Fd` page of it. -/
def System.Alone (s : System) (e : EnvIx) : Prop :=
  s.maker = some e ∧ ∀ e', e' ≠ e → ∀ k b, s.table e' k ≠ .fd b

/-- The invariant. -/
structure Inv (s : System) : Prop where
  shape : ∀ e, Shape (s.point e) (s.table e)
  parent : ∀ e child k, s.point e = .fork child k →
    s.point child = .embryo ∧ Copied (s.table e) (s.table child) k
  one : ∀ e e' child k k', s.point e = .fork child k → s.point e' = .fork child k' → e = e'
  creating : ∀ e, (s.point e).Creating → s.Alone e
  fresh : s.maker = none → ∀ e k b, s.table e k ≠ .fd b

theorem Inv.ran {s : System} (hinv : Inv s) (e : EnvIx) : Inv (s.ran e) :=
  ⟨hinv.shape, hinv.parent, hinv.one, hinv.creating, hinv.fresh⟩

/-- Pages are copied only to an environment under construction. -/
theorem Inv.no_parent {s : System} (hinv : Inv s) {e : EnvIx} (hembryo : s.point e ≠ .embryo) :
    ∀ p k, s.point p ≠ .fork e k :=
  fun p k hfork => hembryo (hinv.parent p e k hfork).1

/-- One environment goes on with other pages. The `Fd` pages of the pipe among them come from an
environment that is not in `pipe`, unless this one makes the pipe. -/
theorem Inv.put {s : System} (hinv : Inv s) {e : EnvIx} {t : Table} {point : Point}
    (hshape : Shape point t) (hparent : ∀ p k, s.point p ≠ .fork e k)
    (hnew : ∀ child k, point ≠ .fork child k)
    (hcreating : point.Creating → s.Alone e)
    (hsource : ∀ k b, t k = .fd b → s.Alone e ∨
      ∃ e' k', ¬ (s.point e').Creating ∧ s.table e' k' = .fd b) : Inv (s.put e t point) where
  shape e' := by
    by_cases he : e' = e
    · rw [he, System.put_point_self, System.put_table_self]
      exact hshape
    · rw [System.put_point_of_ne he, System.put_table_of_ne he]
      exact hinv.shape e'
  parent e' child k hfork := by
    have he : e' ≠ e := by
      intro he
      rw [he, System.put_point_self] at hfork
      exact hnew _ _ hfork
    rw [System.put_point_of_ne he] at hfork
    obtain ⟨hchild, hcopied⟩ := hinv.parent e' child k hfork
    have hne : child ≠ e := by
      intro heq
      exact hparent e' k (heq ▸ hfork)
    rw [System.put_point_of_ne hne, System.put_table_of_ne hne, System.put_table_of_ne he]
    exact ⟨hchild, hcopied⟩
  one e₁ e₂ child k k' hfork hfork' := by
    have hne {e' : EnvIx} {k : Nat} (hat : (s.put e t point).point e' = .fork child k) :
        e' ≠ e := by
      intro he
      rw [he, System.put_point_self] at hat
      exact hnew _ _ hat
    have he₁ := hne hfork
    have he₂ := hne hfork'
    rw [System.put_point_of_ne he₁] at hfork
    rw [System.put_point_of_ne he₂] at hfork'
    exact hinv.one e₁ e₂ child k k' hfork hfork'
  creating e' hat := by
    by_cases he : e' = e
    · rw [he, System.put_point_self] at hat
      obtain ⟨hmaker, halone⟩ := hcreating hat
      refine ⟨he ▸ hmaker, fun e'' hne => ?_⟩
      rw [he] at hne
      rw [System.put_table_of_ne hne]
      exact halone e'' hne
    · rw [System.put_point_of_ne he] at hat
      obtain ⟨hmaker, halone⟩ := hinv.creating e' hat
      refine ⟨hmaker, fun e'' hne k b hfd => ?_⟩
      by_cases hself : e'' = e
      · rw [hself, System.put_table_self] at hfd
        obtain hmake | ⟨e₀, k', hnot, hk'⟩ := hsource k b hfd
        · have hboth := hmake.1
          rw [hmaker] at hboth
          exact he (Option.some.inj hboth)
        · have hne₀ : e₀ ≠ e' := by
            intro heq
            exact hnot (heq ▸ hat)
          exact halone e₀ hne₀ k' b hk'
      · rw [System.put_table_of_ne hself] at hfd
        exact halone e'' hne k b hfd
  fresh hmaker e' k b hfd := by
    by_cases he : e' = e
    · rw [he, System.put_table_self] at hfd
      obtain hmake | ⟨e₀, k', -, hk'⟩ := hsource k b hfd
      · cases hmaker.symm.trans hmake.1
      · exact hinv.fresh hmaker e₀ k' b hk'
    · rw [System.put_table_of_ne he] at hfd
      exact hinv.fresh hmaker e' k b hfd

theorem Inv.call {s : System} (hinv : Inv s) {e : EnvIx} {change : Option (Nat × Slot)}
    {point : Point} (hcall : Call s e change point) :
    Inv (s.put e ((s.table e).change change) point) := by
  obtain ⟨hold, hnew⟩ := hcall.not_forking
  refine hinv.put (hcall.shape (hinv.shape e)) (hinv.no_parent ?_) ?_
    (fun hcreating => hinv.creating e (hcall.creating hcreating)) ?_
  · intro hembryo
    exact hold (by rw [hembryo]; trivial)
  · intro child k hfork
    exact hnew (by rw [hfork]; trivial)
  · intro k b hfd
    by_cases hcreating : (s.point e).Creating
    · exact Or.inl (hinv.creating e hcreating)
    · obtain hsource | ⟨k', hk'⟩ := hcall.source hfd
      · exact absurd hsource hcreating
      · exact Or.inr ⟨e, k', hcreating, hk'⟩

theorem Inv.loc {s : System} (hinv : Inv s) {e : EnvIx} {point : Point}
    (hlocal : Local s e point) : Inv (s.put e (s.table e) point) := by
  obtain ⟨hold, hnew⟩ := hlocal.not_forking
  refine hinv.put (hlocal.shape (hinv.shape e)) (hinv.no_parent ?_) ?_
    (fun hcreating => absurd hcreating hlocal.creating.2)
    fun k b hfd => Or.inr ⟨e, k, hlocal.creating.1, hfd⟩
  · intro hembryo
    exact hold (by rw [hembryo]; trivial)
  · intro child k hfork
    exact hnew (by rw [hfork]; trivial)

/-- `pipe` starts while there is no pipe. -/
theorem Inv.pipe {s : System} (hinv : Inv s) {e : EnvIx} {i : Nat} (hat : s.point e = .idle)
    (hmaker : s.maker = none) (hi : i < maxfd) :
    Inv ({ s with maker := some e }.put e (Function.update (s.table e) i (.fd .reader))
      (.pipeFd1 i)) := by
  have hmade : Inv { s with maker := some e } :=
    { shape := hinv.shape
      parent := hinv.parent
      one := hinv.one
      creating := fun e' hcreating => by
        have hsome := (hinv.creating e' hcreating).1
        cases hmaker.symm.trans hsome
      fresh := fun hnone => (by cases hnone) }
  have halone : System.Alone { s with maker := some e } e :=
    ⟨rfl, fun e' _ => hinv.fresh hmaker e'⟩
  refine hmade.put ?_ (hmade.no_parent ?_) (fun child k => Point.noConfusion) (fun _ => halone)
    fun k b _ => Or.inl halone
  · refine ⟨hi, hi, fun k b hfd => ?_⟩
    obtain ⟨hk, -⟩ | ⟨-, hold⟩ := Table.fd_of_update hfd
    · exact Or.inl hk
    · exact absurd hold (hinv.fresh hmaker e k b)
  · show s.point e ≠ .embryo
    rw [hat]
    exact Point.noConfusion

/-- The copying of pages begins, or goes on. -/
theorem Inv.fork {s : System} (hinv : Inv s) {e child : EnvIx} {k : Nat} (hne : child ≠ e)
    (hpaired : Paired (s.table e)) (hembryo : s.point e ≠ .embryo)
    (hchild : s.point child = .embryo) (hone : ∀ e' k', s.point e' = .fork child k' → e' = e)
    (hcopied : Copied (s.table e) (s.table child) k) :
    Inv (s.put e (s.table e) (.fork child k)) where
  shape e' := by
    by_cases he : e' = e
    · rw [he, System.put_point_self, System.put_table_self]
      exact hpaired
    · rw [System.put_point_of_ne he, System.put_table_of_ne he]
      exact hinv.shape e'
  parent e' child' k' hfork := by
    have htable : ∀ e'', (s.put e (s.table e) (.fork child k)).table e'' = s.table e'' := by
      intro e''
      by_cases he : e'' = e
      · rw [he, System.put_table_self]
      · exact System.put_table_of_ne he
    rw [htable, htable]
    by_cases he : e' = e
    · rw [he, System.put_point_self] at hfork
      obtain ⟨rfl, rfl⟩ := Point.fork.inj hfork
      rw [System.put_point_of_ne hne, he]
      exact ⟨hchild, hcopied⟩
    · rw [System.put_point_of_ne he] at hfork
      obtain ⟨hchild', hcopied'⟩ := hinv.parent e' child' k' hfork
      have hne' : child' ≠ e := by
        intro heq
        exact hembryo (heq ▸ hchild')
      rw [System.put_point_of_ne hne']
      exact ⟨hchild', hcopied'⟩
  one e₁ e₂ child' k₁ k₂ hfork₁ hfork₂ := by
    -- one of the two may be the parent that goes on here
    have hfrom {e' : EnvIx} {k' : Nat}
        (hat : (s.put e (s.table e) (.fork child k)).point e' = .fork child' k') :
        e' = e ∧ child' = child ∨ e' ≠ e ∧ s.point e' = .fork child' k' := by
      by_cases he : e' = e
      · rw [he, System.put_point_self] at hat
        exact Or.inl ⟨he, (Point.fork.inj hat).1.symm⟩
      · rw [System.put_point_of_ne he] at hat
        exact Or.inr ⟨he, hat⟩
    obtain ⟨rfl, rfl⟩ | ⟨hne₁, hat₁⟩ := hfrom hfork₁
    · obtain ⟨rfl, -⟩ | ⟨hne₂, hat₂⟩ := hfrom hfork₂
      · rfl
      · exact (hone e₂ k₂ hat₂).symm
    · obtain ⟨rfl, rfl⟩ | ⟨hne₂, hat₂⟩ := hfrom hfork₂
      · exact hone e₁ k₁ hat₁
      · exact hinv.one e₁ e₂ child' k₁ k₂ hat₁ hat₂
  creating e' hat := by
    have he : e' ≠ e := by
      intro he
      rw [he, System.put_point_self] at hat
      exact hat
    rw [System.put_point_of_ne he] at hat
    obtain ⟨hmaker, halone⟩ := hinv.creating e' hat
    refine ⟨hmaker, fun e'' hne'' k b hfd => ?_⟩
    by_cases hself : e'' = e
    · rw [hself, System.put_table_self] at hfd
      exact halone e (Ne.symm he) k b hfd
    · rw [System.put_table_of_ne hself] at hfd
      exact halone e'' hne'' k b hfd
  fresh hmaker e' k b hfd := by
    by_cases he : e' = e
    · rw [he, System.put_table_self] at hfd
      exact hinv.fresh hmaker e k b hfd
    · rw [System.put_table_of_ne he] at hfd
      exact hinv.fresh hmaker e' k b hfd

/-- A parent stops copying. -/
theorem Inv.stop {s : System} (hinv : Inv s) {e child : EnvIx} {k : Nat}
    (hat : s.point e = .fork child k) : Inv (s.put e (s.table e) .idle) := by
  have hshape := hinv.shape e
  rw [hat] at hshape
  refine hinv.put hshape (hinv.no_parent ?_) (fun _ _ => Point.noConfusion)
    (fun hcreating => absurd hcreating id) fun m b hfd => Or.inr ⟨e, m, ?_, hfd⟩
  · rw [hat]
    exact Point.noConfusion
  · rw [hat]
    exact id

/-- No other environment copies pages to the same child, once the parent has stopped. -/
theorem Inv.stop_no_parent {s : System} (hinv : Inv s) {e child : EnvIx} {k : Nat}
    (hat : s.point e = .fork child k) :
    ∀ p k', (s.put e (s.table e) .idle).point p ≠ .fork child k' := by
  intro p k' hfork
  by_cases hp : p = e
  · rw [hp, System.put_point_self] at hfork
    exact Point.noConfusion hfork
  · rw [System.put_point_of_ne hp] at hfork
    exact hp (hinv.one p e child k' k hfork hat)

/-- The child is not its parent. -/
theorem Inv.child_ne {s : System} (hinv : Inv s) {e child : EnvIx} {k : Nat}
    (hat : s.point e = .fork child k) : child ≠ e := by
  intro heq
  have hchild := (hinv.parent e child k hat).1
  rw [heq, hat] at hchild
  exact Point.noConfusion hchild

theorem Inv.exofork {s : System} (hinv : Inv s) {e child : EnvIx} (hat : s.point e = .idle)
    (hchild : s.point child = .free) :
    Inv ((s.put child (s.table child) .embryo).put e (s.table e) (.fork child 0)) := by
  have hne : child ≠ e := by
    intro heq
    rw [heq, hat] at hchild
    exact Point.noConfusion hchild
  have hfree := hinv.shape child
  have hshape := hinv.shape e
  rw [hchild] at hfree
  rw [hat] at hshape
  have hnone := hinv.no_parent (e := child) (by rw [hchild]; exact Point.noConfusion)
  have hmade : Inv (s.put child (s.table child) .embryo) := by
    refine hinv.put trivial hnone (fun _ _ => Point.noConfusion)
      (fun hcreating => absurd hcreating id) fun k b hfd => ?_
    exact absurd hfd (ne_of_eq_free (hfree k))
  have hsame : (s.put child (s.table child) .embryo).table e = s.table e :=
    System.put_table_of_ne (Ne.symm hne)
  have hpoint : (s.put child (s.table child) .embryo).point e = .idle :=
    (System.put_point_of_ne (Ne.symm hne)).trans hat
  have hfork := hmade.fork (k := 0) hne (by rw [hsame]; exact hshape)
    (by rw [hpoint]; exact Point.noConfusion) (System.put_point_self ..) ?_ ?_
  · rw [hsame] at hfork
    exact hfork
  · intro p k' hp
    by_cases heq : p = child
    · rw [heq, System.put_point_self] at hp
      exact Point.noConfusion hp
    · rw [System.put_point_of_ne heq] at hp
      exact absurd hp (hnone p k')
  · refine ⟨fun m b hfd => ?_, fun m hm => absurd hm (Nat.not_lt_zero m)⟩
    rw [System.put_table_self] at hfd
    exact absurd hfd (ne_of_eq_free (hfree m))

/-- One more page has been copied. -/
theorem Copied.succ {t t' : Table} {k : Nat} (hcopied : Copied t t' k) :
    Copied t (Function.update t' k (t k)) (k + 1) := by
  obtain ⟨hfrom, hto⟩ := hcopied
  constructor
  · intro m b hfd
    obtain ⟨rfl, hnew⟩ | ⟨-, hold⟩ := Table.fd_of_update hfd
    · exact ⟨Nat.lt_succ_self m, hnew⟩
    · obtain ⟨hlt, hm⟩ := hfrom m b hold
      exact ⟨Nat.lt_succ_of_lt hlt, hm⟩
  · intro m hm hdata
    by_cases hmk : m = k
    · rw [hmk, Function.update_self, ← hmk]
      exact hdata
    · rw [Function.update_of_ne hmk]
      exact hto m (by omega) hdata

/-- A page that need not be copied. -/
theorem Copied.skip {t t' : Table} {k : Nat} (hcopied : Copied t t' k)
    (hskip : t k = .free ∨ t k = .other) : Copied t t' (k + 1) := by
  obtain ⟨hfrom, hto⟩ := hcopied
  refine ⟨fun m b hfd => ?_, fun m hm hdata => ?_⟩
  · obtain ⟨hlt, hm⟩ := hfrom m b hfd
    exact ⟨Nat.lt_succ_of_lt hlt, hm⟩
  · by_cases hmk : m = k
    · rw [hmk] at hdata
      obtain hfree | hother := hskip
      · exact absurd (hfree.symm.trans hdata) Slot.noConfusion
      · exact absurd (hother.symm.trans hdata) Slot.noConfusion
    · exact hto m (by omega) hdata

/-- Once all pages have been copied, those of the child are paired. -/
theorem Copied.paired {t t' : Table} (hcopied : Copied t t' (2 * maxfd)) (hpaired : Paired t) :
    Paired t' := by
  intro k b hfd
  obtain ⟨-, hparent⟩ := hcopied.1 k b hfd
  obtain ⟨hk, hdata⟩ := hpaired k b hparent
  exact ⟨hk, hcopied.2 (k + maxfd) (by omega) hdata⟩

theorem Inv.copy {s : System} (hinv : Inv s) {e child : EnvIx} {k : Nat}
    (hat : s.point e = .fork child k) :
    Inv ((s.put child (Function.update (s.table child) k (s.table e k)) .embryo).put e
      (s.table e) (.fork child (k + 1))) := by
  have hne := hinv.child_ne hat
  obtain ⟨hchild, hcopied⟩ := hinv.parent e child k hat
  have hshape := hinv.shape e
  rw [hat] at hshape
  have hstop := hinv.stop hat
  have hnone := hinv.stop_no_parent hat
  -- with the parent stopped, nothing is said about the pages of the child
  have hput : Inv ((s.put e (s.table e) .idle).put child
      (Function.update (s.table child) k (s.table e k)) .embryo) := by
    refine hstop.put trivial hnone (fun _ _ => Point.noConfusion)
      (fun hcreating => absurd hcreating id) fun m b hfd => ?_
    have hnot : ¬ ((s.put e (s.table e) .idle).point e).Creating := by
      rw [System.put_point_self]
      exact id
    refine Or.inr ⟨e, m, hnot, ?_⟩
    rw [System.put_table_self]
    obtain ⟨rfl, hnew⟩ | ⟨-, hold⟩ := Table.fd_of_update hfd
    · exact hnew
    · exact (hcopied.1 m b hold).2
  have hsame : ((s.put e (s.table e) .idle).put child
      (Function.update (s.table child) k (s.table e k)) .embryo).table e = s.table e := by
    rw [System.put_table_of_ne (Ne.symm hne), System.put_table_self]
  have hpoint : ((s.put e (s.table e) .idle).put child
      (Function.update (s.table child) k (s.table e k)) .embryo).point e = .idle := by
    rw [System.put_point_of_ne (Ne.symm hne), System.put_point_self]
  have hfork := hput.fork (k := k + 1) hne (by rw [hsame]; exact hshape)
    (by rw [hpoint]; exact Point.noConfusion) (System.put_point_self ..) ?_ ?_
  · rw [hsame, ← System.put_comm hne, System.put_put] at hfork
    exact hfork
  · intro p k' hp
    by_cases heq : p = child
    · rw [heq, System.put_point_self] at hp
      exact Point.noConfusion hp
    · rw [System.put_point_of_ne heq] at hp
      exact absurd hp (hnone p k')
  · rw [hsame, System.put_table_self]
    exact hcopied.succ

theorem Inv.skip {s : System} (hinv : Inv s) {e child : EnvIx} {k : Nat}
    (hat : s.point e = .fork child k) (hskip : s.table e k = .free ∨ s.table e k = .other) :
    Inv (s.put e (s.table e) (.fork child (k + 1))) := by
  obtain ⟨hchild, hcopied⟩ := hinv.parent e child k hat
  have hshape := hinv.shape e
  rw [hat] at hshape
  have hembryo : s.point e ≠ .embryo := by
    rw [hat]
    exact Point.noConfusion
  exact hinv.fork (hinv.child_ne hat) hshape hembryo hchild
    (fun p k' hp => hinv.one p e child k' k hp hat) (hcopied.skip hskip)

theorem Inv.copied {s : System} (hinv : Inv s) {e child : EnvIx}
    (hat : s.point e = .fork child (2 * maxfd)) :
    Inv ((s.put child (s.table child) .ready).put e (s.table e) .idle) := by
  have hne := hinv.child_ne hat
  obtain ⟨-, hcopied⟩ := hinv.parent e child _ hat
  have hshape := hinv.shape e
  rw [hat] at hshape
  rw [System.put_comm hne]
  refine (hinv.stop hat).put (hcopied.paired hshape) (hinv.stop_no_parent hat)
    (fun _ _ => Point.noConfusion) (fun hcreating => absurd hcreating id) fun m b hfd => ?_
  have hnot : ¬ ((s.put e (s.table e) .idle).point e).Creating := by
    rw [System.put_point_self]
    exact id
  refine Or.inr ⟨e, m, hnot, ?_⟩
  rw [System.put_table_self]
  exact (hcopied.1 m b hfd).2

theorem Inv.start {s : System} (hinv : Inv s) {child : EnvIx} (hready : s.point child = .ready) :
    Inv (s.put child (s.table child) .idle) := by
  have hshape := hinv.shape child
  rw [hready] at hshape
  refine hinv.put hshape (hinv.no_parent ?_) (fun _ _ => Point.noConfusion)
    (fun hcreating => absurd hcreating id) fun m b hfd => Or.inr ⟨child, m, ?_, hfd⟩
  · rw [hready]
    exact Point.noConfusion
  · rw [hready]
    exact id

theorem Inv.destroy {s : System} (hinv : Inv s) {d : EnvIx}
    (hparent : ∀ p k, s.point p ≠ .fork d k) : Inv (s.put d (fun _ => .free) .free) :=
  hinv.put (fun _ => rfl) hparent (fun _ _ => Point.noConfusion)
    (fun hcreating => absurd hcreating id) fun _ b hfd => absurd hfd (free_ne_fd b)

theorem System.mem_places {s : System} {page : Slot} {e : EnvIx} {k : Nat} :
    (e, k) ∈ s.places page ↔ k < 2 * maxfd ∧ s.table e k = page := by
  simp [places]

-- membership would otherwise be decided by going through all environments
attribute [irreducible] System.places

end Labs.Jos.PipeEof
