import Labs.Base.Prog
import Labs.Base.Stock
import Labs.Jos.SysArch

/-!
# The tables of semaphores and mailboxes

`sys_init`, `sys_sem_new`, `sys_sem_free`, `sys_mbox_new` and `sys_mbox_free` of
`net/lwip/jos/arch/sys_arch.c` on the two tables with their free lists. A semaphore or a mailbox is
the number of its entry, and `-1` when there is none. An index outside a table and a failed
assertion both end the program here.
-/

namespace Labs.Jos.SysArch

open Prog

/-- `NSEM`. -/
def nsem : Nat := 256

/-- `NMBOX`. -/
def nmbox : Nat := 128

/-- `SYS_SEM_NULL`. -/
def sysSemNull : Int := -1

/-- `SYS_MBOX_NULL`. -/
def sysMboxNull : Int := -1

/-- `struct sys_mbox_entry`. -/
structure MboxEntry (Msg : Type) where
  freed : Bool
  head : Int
  nextq : Int
  msg : Nat → Msg
  queuedMsg : Int
  freeMsg : Int

/-- `sems` with `sem_free`, and `mboxes` with `mbox_free`. -/
structure Tables (Msg : Type) where
  sems : Stock (Fin nsem) Sem
  mboxes : Stock (Fin nmbox) (MboxEntry Msg)

/-- Why a function does not return. -/
inductive Halt where
  /-- A failed assertion. -/
  | assertion
  /-- An access to a table at an index outside its bounds. -/
  | overrun (index : Int)

variable {Msg : Type}

/-- `assert(b)`. -/
def assert (b : Bool) : Prog (Tables Msg) Halt Unit := if b then pure () else exit .assertion

/-- The entry of a table of `n` entries that a number stands for. -/
def entryAt (n : Nat) (index : Int) : Prog (Tables Msg) Halt (Fin n) :=
  if h : 0 ≤ index ∧ index < n then pure ⟨index.toNat, by omega⟩ else exit (.overrun index)

@[simp] theorem wp_assert {b : Bool} {Q : Unit → Tables Msg → Prop}
    {E : Halt → Tables Msg → Prop} {s : Tables Msg} :
    wp (assert b) Q E s ↔ (b = true → Q () s) ∧ (b = false → E .assertion s) := by
  cases b <;> simp [assert]

@[simp] theorem wp_entry_at {n : Nat} {index : Int} {Q : Fin n → Tables Msg → Prop}
    {E : Halt → Tables Msg → Prop} {s : Tables Msg} :
    wp (entryAt n index) Q E s ↔ (∀ i : Fin n, ((i : Nat) : Int) = index → Q i s) ∧
      (¬ (0 ≤ index ∧ index < n) → E (.overrun index) s) := by
  unfold entryAt
  split
  case isTrue hin =>
    refine ⟨fun hq => ⟨fun i hi => ?_, fun hout => absurd hin hout⟩, fun hq => hq.1 _ ?_⟩
    · have hi' : i = ⟨index.toNat, by omega⟩ := Fin.ext (by show (i : Nat) = index.toNat; omega)
      rw [hi']
      exact hq
    · show ((index.toNat : Nat) : Int) = index
      omega
  case isFalse hout =>
    refine ⟨fun he => ⟨fun i hi => absurd ?_ hout, fun _ => he⟩, fun he => he.2 hout⟩
    have := i.isLt
    omega

-- comparisons with the sizes of the tables would otherwise be unrolled when terms are compared
attribute [irreducible] entryAt

namespace Tables

/-- `sys_init`, on tables that hold zeros. -/
def sysInit (null : Msg) : Tables Msg where
  sems := Stock.full nsem ⟨true, 0, 0, 0⟩
  mboxes := Stock.full nmbox ⟨true, 0, 0, fun _ => null, 0, 0⟩

/-- `LIST_REMOVE` of the first free semaphore, and its new contents. -/
def takeSem (s : Tables Msg) (se : Fin nsem) (rest : List (Fin nsem)) (count : BitVec 8) :
    Tables Msg :=
  { s with sems := { s.sems with free := rest }.set se (SysArch.sysSemNew (s.sems.entry se) count) }

def sysSemNew (count : BitVec 8) : Prog (Tables Msg) Halt Int := do
  let s ← get
  match s.sems.free with
  | [] => pure sysSemNull
  | se :: rest =>
      assert (s.sems.entry se).freed
      modify fun s => s.takeSem se rest count
      pure ((se : Nat) : Int)

def sysSemFree (sem : Int) : Prog (Tables Msg) Halt Unit := do
  let se ← entryAt nsem sem
  let s ← get
  assert !(s.sems.entry se).freed
  modify fun s =>
    let entry := s.sems.entry se
    { s with
      sems := (s.sems.set se { entry with freed := true, gen := entry.gen + 1 }).insertHead se }

def sysMboxFree (mbox : Int) : Prog (Tables Msg) Halt Unit := do
  let mbe ← entryAt nmbox mbox
  let s ← get
  assert !(s.mboxes.entry mbe).freed
  sysSemFree (s.mboxes.entry mbe).queuedMsg
  let s ← get
  sysSemFree (s.mboxes.entry mbe).freeMsg
  modify fun s =>
    { s with
      mboxes := (s.mboxes.set mbe { s.mboxes.entry mbe with freed := true }).insertHead mbe }

/-- Overwrite a mailbox. -/
def setMbox (s : Tables Msg) (mbe : Fin nmbox) (x : MboxEntry Msg) : Tables Msg :=
  { s with mboxes := s.mboxes.set mbe x }

/-- `LIST_REMOVE` of the first free mailbox, which is in use and empty then. -/
def takeMbox (s : Tables Msg) (mbe : Fin nmbox) (rest : List (Fin nmbox)) : Tables Msg :=
  { s with mboxes := { s.mboxes with free := rest } }.setMbox mbe
    { s.mboxes.entry mbe with freed := false, head := -1, nextq := 0 }

/-- The second half of `sys_mbox_new`: the two semaphores of the mailbox that it has taken. -/
def attachSems (mbe : Fin nmbox) : Prog (Tables Msg) Halt Int := do
  let queued ← sysSemNew 0
  modify fun s => s.setMbox mbe { s.mboxes.entry mbe with queuedMsg := queued }
  let free ← sysSemNew (BitVec.ofNat 8 mboxslots)
  modify fun s => s.setMbox mbe { s.mboxes.entry mbe with freeMsg := free }
  if queued = sysSemNull ∨ free = sysSemNull then
    -- frees both semaphores, although one of them is missing here
    sysMboxFree ((mbe : Nat) : Int)
    pure sysMboxNull
  else
    pure ((mbe : Nat) : Int)

def sysMboxNew (size : Int) : Prog (Tables Msg) Halt Int := do
  assert (size < mboxslots)
  let s ← get
  match s.mboxes.free with
  | [] => pure sysMboxNull
  | mbe :: rest =>
      assert (s.mboxes.entry mbe).freed
      modify fun s => s.takeMbox mbe rest
      attachSems mbe

end Tables

/-- A call of one of the four functions. -/
inductive TableCall where
  | semNew (count : BitVec 8)
  | semFree (sem : Int)
  | mboxNew (size : Int)
  | mboxFree (mbox : Int)

/-- What a call does to the tables. -/
def TableCall.run : TableCall → Prog (Tables Msg) Halt Unit
  | .semNew count => do
      let _ ← Tables.sysSemNew count
  | .semFree sem => Tables.sysSemFree sem
  | .mboxNew size => do
      let _ ← Tables.sysMboxNew size
  | .mboxFree mbox => Tables.sysMboxFree mbox

/-- The tables after calls that all return, in any order and with any arguments. -/
inductive TablesReachable (null : Msg) : Tables Msg → Prop
  | init : TablesReachable null (Tables.sysInit null)
  | call {s s' : Tables Msg} (h : TablesReachable null s) (c : TableCall)
      (hret : c.run s = .ret () s') : TablesReachable null s'

namespace Tables

/-- The free lists hold exactly the entries that are marked free. -/
structure Ok (s : Tables Msg) : Prop where
  sems : s.sems.Books Sem.freed
  mboxes : s.mboxes.Books MboxEntry.freed

variable {s : Tables Msg} {null : Msg}

theorem init_ok (null : Msg) : (sysInit null).Ok where
  sems := Stock.books_full nsem rfl
  mboxes := Stock.books_full nmbox rfl

/-! ## What the functions do -/

theorem sem_new_none (h : s.sems.free = []) (count : BitVec 8) :
    sysSemNew count s = .ret sysSemNull s := by
  unfold sysSemNew
  rw [get_bind]
  simp only [h]
  rfl

/-- The first free semaphore is taken. -/
theorem sem_new_some (hok : s.Ok) {se : Fin nsem} {rest : List (Fin nsem)}
    (h : s.sems.free = se :: rest) (count : BitVec 8) :
    sysSemNew count s = .ret ((se : Nat) : Int) (s.takeSem se rest count) := by
  have hfreed := hok.sems.head h
  unfold sysSemNew
  rw [get_bind]
  simp only [h, hfreed]
  rfl

/-- Taking a semaphore keeps the books. -/
theorem Ok.take_sem (hok : s.Ok) {se : Fin nsem} {rest : List (Fin nsem)}
    (h : s.sems.free = se :: rest) (count : BitVec 8) : (s.takeSem se rest count).Ok :=
  ⟨hok.sems.take h rfl, hok.mboxes⟩

/-- Taking a mailbox keeps the books. -/
theorem Ok.take_mbox (hok : s.Ok) {mbe : Fin nmbox} {rest : List (Fin nmbox)}
    (h : s.mboxes.free = mbe :: rest) : (s.takeMbox mbe rest).Ok :=
  ⟨hok.sems, hok.mboxes.take h rfl⟩

/-- Overwriting a mailbox keeps the books when its mark stays. -/
theorem Ok.set_mbox (hok : s.Ok) {mbe : Fin nmbox} {x : MboxEntry Msg}
    (hx : x.freed = (s.mboxes.entry mbe).freed) : (s.setMbox mbe x).Ok :=
  ⟨hok.sems, hok.mboxes.set_same hx⟩

/-- There is no semaphore to free outside the table. -/
theorem sem_free_null {Q : Unit → Tables Msg → Prop} {E : Halt → Tables Msg → Prop} :
    wp (sysSemFree sysSemNull) Q E s ↔ E (.overrun (-1)) s := by
  simp only [sysSemFree, wp_bind, wp_entry_at, sysSemNull]
  refine ⟨fun h => h.2 (by omega), fun h => ⟨fun i hi => ?_, fun _ => h⟩⟩
  omega

/-- A function that frees keeps the books whenever it returns. -/
theorem Ok.sem_free (hok : s.Ok) (sem : Int) :
    wp (sysSemFree sem) (fun _ s' => s'.Ok ∧ s'.mboxes = s.mboxes) (fun _ _ => True) s := by
  simp only [sysSemFree, wp_bind, wp_entry_at, wp_get, wp_assert, wp_modify]
  refine ⟨fun se _ => ⟨fun hused => ⟨⟨?_, hok.mboxes⟩, trivial⟩, fun _ => trivial⟩,
    fun _ => trivial⟩
  exact hok.sems.give (Bool.not_eq_true' _ |>.mp hused) rfl

theorem Ok.mbox_free (hok : s.Ok) (mbox : Int) :
    wp (sysMboxFree mbox) (fun _ s' => s'.Ok) (fun _ _ => True) s := by
  simp only [sysMboxFree, wp_bind, wp_entry_at, wp_get, wp_assert, wp_modify]
  refine ⟨fun mbe _ => ⟨fun hused => ?_, fun _ => trivial⟩, fun _ => trivial⟩
  refine wp_mono_ret (hok.sem_free _) fun _ s₁ hres => ?_
  obtain ⟨hok₁, hsame₁⟩ := hres
  refine wp_mono_ret (hok₁.sem_free _) fun _ s₂ hres => ?_
  obtain ⟨hok₂, hsame₂⟩ := hres
  refine ⟨hok₂.sems, hok₂.mboxes.give ?_ rfl⟩
  rw [hsame₂, hsame₁]
  exact Bool.not_eq_true' _ |>.mp hused

theorem Ok.sem_new (hok : s.Ok) (count : BitVec 8) :
    wp (sysSemNew count) (fun _ s' => s'.Ok ∧ s'.mboxes = s.mboxes) (fun _ _ => True) s := by
  cases hfree : s.sems.free with
  | nil => exact (wp_of_ret (sem_new_none hfree count)).mpr ⟨hok, rfl⟩
  | cons se rest =>
      exact (wp_of_ret (sem_new_some hok hfree count)).mpr ⟨hok.take_sem hfree count, rfl⟩

/-! ## A new mailbox -/

/-- The call returns a mailbox, or it returns `SYS_MBOX_NULL` and the free semaphores and mailboxes
are the same. No assertion fails, and no index is outside its table. -/
def AllOrNothing (s : Tables Msg) (size : Int) : Prop :=
  wp (sysMboxNew size)
    (fun r s' => r = sysMboxNull →
      (∀ i, i ∈ s'.sems.free ↔ i ∈ s.sems.free) ∧ ∀ i, i ∈ s'.mboxes.free ↔ i ∈ s.mboxes.free)
    (fun _ _ => False) s

theorem cast_ne_null {n : Nat} (i : Fin n) : ((i : Nat) : Int) ≠ sysSemNull := by
  show ((i : Nat) : Int) ≠ -1
  omega

/-- Freeing a mailbox that lacks a semaphore ends the program. -/
theorem mbox_free_overruns {mbe : Fin nmbox}
    (hmissing : (s.mboxes.entry mbe).queuedMsg = sysSemNull ∨
      (s.mboxes.entry mbe).freeMsg = sysSemNull) (hok : s.Ok) :
    wp (sysMboxFree ((mbe : Nat) : Int)) (fun _ _ => False) (fun _ _ => True) s := by
  simp only [sysMboxFree, wp_bind, wp_entry_at, wp_get, wp_assert, wp_modify]
  refine ⟨fun i hi => ⟨fun _ => ?_, fun _ => trivial⟩, fun _ => trivial⟩
  obtain rfl : i = mbe := Fin.ext (by omega)
  obtain hqueued | hfree := hmissing
  · rw [hqueued, sem_free_null]
    trivial
  · refine wp_mono_ret (hok.sem_free _) fun _ s₁ hres => ?_
    obtain ⟨_, hsame⟩ := hres
    rw [hsame, hfree, sem_free_null]
    trivial

/-- A mailbox of the tables, with its two semaphores, as the protocol of one mailbox sees it. -/
def view (s : Tables Msg) (mbe : Fin nmbox) (queued free : Fin nsem) : Mbox Msg where
  freed := (s.mboxes.entry mbe).freed
  head := (s.mboxes.entry mbe).head
  nextq := (s.mboxes.entry mbe).nextq
  msg := (s.mboxes.entry mbe).msg
  queuedMsg := s.sems.entry queued
  freeMsg := s.sems.entry free

/-- The new mailbox is what its two semaphores and its entry give. -/
structure Made (size : Int) (s s' : Tables Msg) (mbe : Fin nmbox) (queued free : Fin nsem) :
    Prop where
  ok : s'.Ok
  queuedMsg : (s'.mboxes.entry mbe).queuedMsg = ((queued : Nat) : Int)
  freeMsg : (s'.mboxes.entry mbe).freeMsg = ((free : Nat) : Int)
  view : Mbox.sysMboxNew size (s.view mbe queued free) (s.sems.entry queued)
    (s.sems.entry free) = some (s'.view mbe queued free)

/-- The second semaphore of the list is not the first. -/
theorem Ok.second_ne (hok : s.Ok) {a b : Fin nsem} {rest : List (Fin nsem)}
    (h : s.sems.free = a :: b :: rest) : b ≠ a := by
  have hnodup := hok.sems.nodup
  rw [h, List.nodup_cons] at hnodup
  rintro rfl
  exact hnodup.1 List.mem_cons_self

/-- A mailbox is taken, and it is left to find its semaphores. -/
theorem mbox_new_take (hok : s.Ok) {size : Int} (hsize : size < mboxslots) {mbe : Fin nmbox}
    {boxes : List (Fin nmbox)} (h : s.mboxes.free = mbe :: boxes) :
    sysMboxNew size s = attachSems mbe (s.takeMbox mbe boxes) := by
  have hfreed := hok.mboxes.head h
  unfold sysMboxNew assert
  rw [if_pos (by simpa using hsize), pure_bind, get_bind]
  simp only [h, hfreed, if_true, pure_bind]
  rfl

theorem mbox_new_none {size : Int} (hsize : size < mboxslots) (h : s.mboxes.free = []) :
    sysMboxNew size s = .ret sysMboxNull s := by
  unfold sysMboxNew assert
  rw [if_pos (by simpa using hsize), pure_bind, get_bind]
  simp only [h]
  rfl

theorem mbox_new_large {size : Int} (hsize : ¬ size < mboxslots) :
    sysMboxNew size s = .exit .assertion s := by
  unfold sysMboxNew assert
  rw [if_neg (by simpa using hsize)]
  rfl

/-- A mailbox that has been taken gets the first two semaphores of the list. -/
theorem attach_sems_two (hok : s.Ok) {size : Int} (hsize : size < mboxslots) {mbe : Fin nmbox}
    {boxes : List (Fin nmbox)} (hmbox : s.mboxes.free = mbe :: boxes) {a b : Fin nsem}
    {rest : List (Fin nsem)} (h : s.sems.free = a :: b :: rest) :
    wp (attachSems mbe) (fun r s' => r = ((mbe : Nat) : Int) ∧ Made size s s' mbe a b ∧
        s'.mboxes.free = boxes ∧ s'.sems.free = rest)
      (fun _ _ => False) (s.takeMbox mbe boxes) := by
  let s₀ := s.takeMbox mbe boxes
  let s₁ := s₀.takeSem a (b :: rest) 0
  let s₂ := s₁.setMbox mbe { s₁.mboxes.entry mbe with queuedMsg := ((a : Nat) : Int) }
  let s₃ := s₂.takeSem b rest (BitVec.ofNat 8 mboxslots)
  let s₄ := s₃.setMbox mbe { s₃.mboxes.entry mbe with freeMsg := ((b : Nat) : Int) }
  have hok₂ : s₂.Ok := ((hok.take_mbox hmbox).take_sem h 0).set_mbox rfl
  have hok₄ : s₄.Ok := (hok₂.take_sem rfl _).set_mbox rfl
  have hqueued : sysSemNew 0 s₀ = .ret ((a : Nat) : Int) s₁ :=
    sem_new_some (hok.take_mbox hmbox) h 0
  have hfree : sysSemNew (BitVec.ofNat 8 mboxslots) s₂ = .ret ((b : Nat) : Int) s₃ :=
    sem_new_some hok₂ rfl _
  have hentry : s₄.mboxes.entry mbe =
      { s.mboxes.entry mbe with
        freed := false, head := -1, nextq := 0
        queuedMsg := ((a : Nat) : Int), freeMsg := ((b : Nat) : Int) } := by
    simp [s₄, s₃, s₂, s₁, s₀, setMbox, takeSem, takeMbox]
  have hne := hok.second_ne h
  have ha : s₄.sems.entry a = SysArch.sysSemNew (s.sems.entry a) 0 := by
    show (Stock.set _ b _).entry a = _
    rw [Stock.entry_set_of_ne _ hne.symm]
    exact Stock.entry_set_self _ _ _
  have hb : s₄.sems.entry b = SysArch.sysSemNew (s.sems.entry b) (BitVec.ofNat 8 mboxslots) := by
    show (Stock.set _ b (SysArch.sysSemNew ((Stock.set _ a _).entry b) _)).entry b = _
    rw [Stock.entry_set_self, Stock.entry_set_of_ne _ hne]
    rfl
  have hmem : a ∈ s.sems.free ∧ b ∈ s.sems.free := by simp [h]
  have hfreed := And.intro ((hok.sems.mem_iff a).mp hmem.1) ((hok.sems.mem_iff b).mp hmem.2)
  have hmade : Made size s s₄ mbe a b := by
    refine ⟨hok₄, by rw [hentry], by rw [hentry], ?_⟩
    unfold Mbox.sysMboxNew
    rw [if_pos ⟨hsize, hok.mboxes.head hmbox, hfreed⟩]
    simp only [view, hentry, ha, hb]
  unfold attachSems
  rw [wp_bind, wp_of_ret hqueued, wp_bind, wp_modify, wp_bind, wp_of_ret hfree, wp_bind, wp_modify,
    if_neg (not_or.mpr ⟨cast_ne_null a, cast_ne_null b⟩)]
  exact ⟨rfl, hmade, rfl, rfl⟩

/-- A mailbox that has been taken is lost when the list of semaphores is too short. -/
theorem attach_sems_short (hok : s.Ok) {mbe : Fin nmbox} (h : s.sems.free.length < 2) :
    wp (attachSems mbe) (fun _ _ => False) (fun _ _ => True) s := by
  unfold attachSems
  cases hfree : s.sems.free with
  | nil =>
      let s₁ := s.setMbox mbe { s.mboxes.entry mbe with queuedMsg := sysSemNull }
      have hnone : sysSemNew (BitVec.ofNat 8 mboxslots) s₁ = .ret sysSemNull s₁ :=
        sem_new_none (s := s₁) hfree _
      rw [wp_bind, wp_of_ret (sem_new_none hfree 0), wp_bind, wp_modify, wp_bind, wp_of_ret hnone,
        wp_bind, wp_modify, if_pos (Or.inl rfl), wp_bind]
      have hok₁ : s₁.Ok := hok.set_mbox rfl
      have hok₂ : (s₁.setMbox mbe { s₁.mboxes.entry mbe with freeMsg := sysSemNull }).Ok :=
        hok₁.set_mbox rfl
      refine wp_mono_ret (mbox_free_overruns (Or.inl ?_) hok₂) fun _ _ hfalse => hfalse.elim
      simp [s₁, setMbox]
  | cons a rest =>
      have hrest : rest = [] := by
        rw [hfree, List.length_cons] at h
        exact List.eq_nil_of_length_eq_zero (by omega)
      let s₁ := s.takeSem a rest 0
      let s₂ := s₁.setMbox mbe { s₁.mboxes.entry mbe with queuedMsg := ((a : Nat) : Int) }
      have hok₂ : s₂.Ok := (hok.take_sem hfree 0).set_mbox rfl
      have hnone : sysSemNew (BitVec.ofNat 8 mboxslots) s₂ = .ret sysSemNull s₂ :=
        sem_new_none (s := s₂) hrest _
      rw [wp_bind, wp_of_ret (sem_new_some hok hfree 0), wp_bind, wp_modify, wp_bind,
        wp_of_ret hnone, wp_bind, wp_modify, if_pos (Or.inr rfl), wp_bind]
      have hok₃ : (s₂.setMbox mbe { s₂.mboxes.entry mbe with freeMsg := sysSemNull }).Ok :=
        hok₂.set_mbox rfl
      refine wp_mono_ret (mbox_free_overruns (Or.inr ?_) hok₃) fun _ _ hfalse => hfalse.elim
      simp [setMbox]

/-- What `sys_mbox_new` does with a free mailbox: it makes the mailbox when two semaphores are free,
and takes all three off their lists, and ends the program otherwise. -/
theorem Ok.mbox_new_cons (hok : s.Ok) {size : Int} (hsize : size < mboxslots) {mbe : Fin nmbox}
    {boxes : List (Fin nmbox)} (h : s.mboxes.free = mbe :: boxes) :
    wp (sysMboxNew size)
      (fun r s' => r = ((mbe : Nat) : Int) ∧ s.sems.free.length = s'.sems.free.length + 2 ∧
        s'.mboxes.free = boxes ∧ s'.Ok)
      (fun _ _ => s.sems.free.length < 2) s := by
  unfold wp
  rw [mbox_new_take hok hsize h]
  show wp (attachSems mbe) _ _ _
  obtain hshort | htwo := lt_or_ge s.sems.free.length 2
  · exact wp_mono (attach_sems_short (hok.take_mbox h) hshort) (fun _ _ h => h.elim)
      fun _ _ _ => hshort
  · obtain ⟨a, b, rest, hfree⟩ : ∃ a b rest, s.sems.free = a :: b :: rest := by
      match hfree : s.sems.free with
      | [] | [_] => simp [hfree] at htwo
      | a :: b :: rest => exact ⟨a, b, rest, rfl⟩
    refine wp_mono (attach_sems_two hok hsize h hfree) (fun r s' hr => ?_) fun _ _ h => h.elim
    obtain ⟨hr, hmade, hboxes, hsems⟩ := hr
    exact ⟨hr, by rw [hfree, hsems]; rfl, hboxes, hmade.ok⟩

/-- A call of `sys_mbox_new` that returns keeps the books. -/
theorem Ok.mbox_new (hok : s.Ok) (size : Int) :
    wp (sysMboxNew size) (fun _ s' => s'.Ok) (fun _ _ => True) s := by
  by_cases hsize : size < mboxslots
  case neg => exact (wp_of_exit (mbox_new_large hsize)).mpr trivial
  cases hmbox : s.mboxes.free with
  | nil => exact (wp_of_ret (mbox_new_none hsize hmbox)).mpr hok
  | cons mbe boxes =>
      exact wp_mono (hok.mbox_new_cons hsize hmbox) (fun _ _ h => h.2.2.2) fun _ _ _ => trivial

end Tables

open Tables

variable {s s' : Tables Msg} {null : Msg}

/-- A call that returns keeps the books. -/
theorem TableCall.keeps_ok (c : TableCall) (hok : s.Ok) (hret : c.run s = .ret () s') : s'.Ok := by
  have hkeeps : wp c.run (fun _ t => t.Ok) (fun _ _ => True) s := by
    cases c with
    | semNew count => exact wp_bind.mpr (wp_mono_ret (hok.sem_new count) fun _ _ h => h.1)
    | semFree sem => exact wp_mono_ret (hok.sem_free sem) fun _ _ h => h.1
    | mboxNew size => exact wp_bind.mpr (hok.mbox_new size)
    | mboxFree mbox => exact hok.mbox_free mbox
  exact (wp_of_ret hret).mp hkeeps

/-- The free lists are right in every state that calls can reach. -/
theorem TablesReachable.ok (h : TablesReachable null s) : s.Ok := by
  induction h with
  | init => exact init_ok null
  | call _ c hret ih => exact c.keeps_ok ih hret

/-- A new mailbox is all or nothing exactly when its size is allowed, and no mailbox is free or two
semaphores are. -/
theorem mbox_new_atomic_iff (h : TablesReachable null s) (size : Int) :
    AllOrNothing s size ↔
      size < mboxslots ∧ (s.mboxes.free = [] ∨ 2 ≤ s.sems.free.length) := by
  have hok := h.ok
  unfold AllOrNothing
  by_cases hsize : size < mboxslots
  case neg =>
    rw [wp_of_exit (mbox_new_large hsize)]
    exact ⟨False.elim, fun h => hsize h.1⟩
  cases hmbox : s.mboxes.free with
  | nil =>
      rw [wp_of_ret (mbox_new_none hsize hmbox)]
      exact ⟨fun _ => ⟨hsize, .inl rfl⟩, fun _ _ => ⟨fun _ => Iff.rfl, fun i => by rw [hmbox]⟩⟩
  | cons mbe boxes =>
      have hnew := hok.mbox_new_cons hsize hmbox
      constructor
      · intro hatomic
        obtain ⟨r, s', hrun, _⟩ := ret_of_wp hatomic
        have htwo := ((wp_of_ret hrun).mp hnew).2.1
        exact ⟨hsize, .inr (by omega)⟩
      · rintro ⟨_, hnil | htwo⟩
        · cases hnil
        · refine wp_mono hnew (fun r s' hr hnull => ?_) fun _ _ hshort => ?_
          · exact absurd (hr.1.symm.trans hnull) (cast_ne_null mbe)
          · exact absurd htwo (by omega)

/-- Every call of `sys_mbox_new` takes one mailbox and two semaphores off the lists, which last for
all mailboxes. -/
theorem exists_free_mboxes (null : Msg) {n : Nat} (hn : n ≤ nmbox) :
    ∃ s : Tables Msg, TablesReachable null s ∧ s.mboxes.free.length = nmbox - n ∧
      s.sems.free.length = nsem - 2 * n := by
  have hboth : nsem = 2 * nmbox := rfl
  induction n with
  | zero => exact ⟨_, .init, Stock.length_full nmbox _, Stock.length_full nsem _⟩
  | succ n ih =>
      obtain ⟨s, hreach, hboxes, hsems⟩ := ih (by omega)
      cases hfree : s.mboxes.free with
      | nil =>
          rw [hfree, List.length_nil] at hboxes
          omega
      | cons mbe rest =>
          rw [hfree, List.length_cons] at hboxes
          have hnew := hreach.ok.mbox_new_cons (show (20 : Int) < mboxslots by decide) hfree
          obtain ⟨r, s', hrun, -, htwo, hrest, -⟩ := ret_of_wp
            (wp_mono hnew (fun _ _ h => h) fun _ _ hshort => absurd hshort (by omega))
          refine ⟨s', hreach.call (.mboxNew 20) (bind_of_ret hrun), ?_, by omega⟩
          rw [hrest]
          omega

/-- When all mailboxes are in use, a call returns `SYS_MBOX_NULL` and takes nothing. -/
theorem mbox_new_atomic_full : ∃ s : Tables Unit, TablesReachable () s ∧
    sysMboxNew 20 s = .ret sysMboxNull s ∧ AllOrNothing s 20 := by
  obtain ⟨s, hreach, hboxes, -⟩ := exists_free_mboxes () (n := nmbox) le_rfl
  have hnone : s.mboxes.free = [] := List.eq_nil_of_length_eq_zero (by rw [hboxes, Nat.sub_self])
  exact ⟨s, hreach, mbox_new_none (by decide) hnone,
    (mbox_new_atomic_iff hreach 20).mpr ⟨by decide, .inl hnone⟩⟩

/-- Every call of `sys_sem_new` takes one semaphore off the list. -/
theorem exists_free_sems (null : Msg) {n : Nat} (hn : n ≤ nsem) :
    ∃ s : Tables Msg, TablesReachable null s ∧ s.sems.free.length = nsem - n ∧
      s.mboxes = (sysInit null).mboxes := by
  induction n with
  | zero => exact ⟨_, .init, Stock.length_full nsem _, rfl⟩
  | succ n ih =>
      obtain ⟨s, hreach, hlen, hmboxes⟩ := ih (by omega)
      cases hfree : s.sems.free with
      | nil =>
          rw [hfree, List.length_nil] at hlen
          omega
      | cons se rest =>
          have hnew := sem_new_some hreach.ok hfree 0
          refine ⟨s.takeSem se rest 0, hreach.call (.semNew 0) (bind_of_ret hnew), ?_, hmboxes⟩
          show rest.length = _
          rw [hfree, List.length_cons] at hlen
          omega

/-- After `NSEM - 1` calls of `sys_sem_new`, a mailbox finds one semaphore and the call of
`sys_mbox_new` ends the program. -/
theorem mbox_new_not_atomic :
    ∃ s : Tables Unit, TablesReachable () s ∧ s.sems.free.length = 1 ∧ ¬ AllOrNothing s 20 := by
  obtain ⟨s, hreach, hlen, hmboxes⟩ := exists_free_sems () (n := 255) (by decide)
  have hone : s.sems.free.length = 1 := by rw [hlen]; rfl
  refine ⟨s, hreach, hone, fun hatomic => ?_⟩
  cases hmbox : s.mboxes.free with
  | nil =>
      have hlength : s.mboxes.free.length = nmbox := by rw [hmboxes]; exact Stock.length_full _ _
      rw [hmbox] at hlength
      exact absurd hlength (by decide)
  | cons mbe boxes =>
      have hnew := hreach.ok.mbox_new_cons (show (20 : Int) < mboxslots by decide) hmbox
      obtain ⟨r, s', hrun, _⟩ := ret_of_wp hatomic
      have htwo := ((wp_of_ret hrun).mp hnew).2.1
      omega

end Labs.Jos.SysArch
