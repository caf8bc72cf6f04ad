import Labs.Jos.Spawn
import Mathlib.Data.List.Find

/-!
# What spawn makes and where it fails

On its way `spawn` makes a child, opens the program and maps a page at `UTEMP`. `Has` follows what
it has made and not yet undone, through `open`, `close`, `readn` and `init_stack`. The calls are
tried in order, and `firstFailure` is the first of them that fails.
-/

namespace Labs.Jos.Spawn

open Prog
open Fork (ustackPn)
open Fd (InTable Lookup index2fd maxfd)

/-- Nothing is left behind of a call of `spawn` in `w` that ends in `w'`: every environment was
there before, nothing is mapped at `UTEMP`, and the same descriptors are open. -/
structure LeavesNothing (e : EnvIx) (w w' : World) : Prop where
  envs : ∀ c, w'.status c ≠ .free → w.status c ≠ .free
  temp : w'.vm.map e utempPn = none
  fds : ∀ i, Lookup w'.vm e i ↔ Lookup w.vm e i

/-! ## Where `spawn` fails -/

/-- The calls of `spawn` that may fail. -/
inductive Point where
  | openProg
  | elfHeader
  | exofork
  | initStack
  | reopen
  | pageAlloc
  | pageRead
  | pageMap
  deriving DecidableEq

/-- Something is left behind when the call fails. `temp` says whether something was mapped at
`UTEMP` before `spawn`. -/
def Point.leaks (temp : Bool) : Point → Bool
  | .openProg | .elfHeader | .exofork => temp
  | .initStack | .pageRead | .pageMap => true
  | .reopen | .pageAlloc => false

/-- `open` fails. -/
def openFails (w : World) (e : EnvIx) (path : List Byte) (reply : Reply Nat) : Bool :=
  decide (Serv.maxpathlen ≤ path.length) || (fdAlloc w.vm e).isNone || !reply.isOk

/-- What `readn` returns for the answers of the file server. -/
def received (n : Nat) : List (Reply (List Byte)) → List Byte → Except Int (List Byte)
  | [], tot => .ok tot
  | reply :: rest, tot =>
      if n ≤ tot.length then .ok tot
      else
        match reply with
        | .error c => .error (errno c)
        | .ok bytes => if bytes = [] then .ok tot else received n rest (tot ++ bytes)

/-- The file server answers a `readn` of `n` bytes with an error. -/
def readFails (n : Nat) (replies : List (Reply (List Byte))) : Bool := !(received n replies []).isOk

/-- The contents of `elf_buf`. -/
def Replies.elfBuf (a : Replies) : List Byte := (received 512 a.header []).toOption.getD []

/-- The header is incomplete, or not one of an ELF file. -/
def Replies.notExec (a : Replies) : Prop :=
  a.elfBuf.length ≠ 512 ∨ (decodeElf a.elfBuf).eMagic ≠ elfMagic

instance (a : Replies) : Decidable a.notExec := inferInstanceAs (Decidable (_ ∨ _))

/-- `sys_exofork` finds no environment. -/
def forkFails (w : World) (reply : Reply EnvIx) : Bool :=
  match reply with
  | .error _ => true
  | .ok c => decide (w.status c ≠ .free)

/-- The arguments do not fit on the stack page. -/
def argsTooLong (v : Vm) (e : EnvIx) (argv : Word) : Bool :=
  match countArgs e argv (2 ^ 30) 0 0 v with
  | .ret (argc, stringSize) _ =>
      let stringStore := utemp + pgsizeW - stringSize
      decide (stringStore - stringStore % 4 - 4 * (argc + 1) - 8 < utemp)
  | .exit _ _ => false

/-- `init_stack` fails. -/
def stackFails (v : Vm) (e : EnvIx) (a : Answers) (argv : Word) : Bool :=
  argsTooLong v e argv || a.page.isNone || !a.table

/-- Where one page of a segment that is not written to fails. -/
def textPageFails (reply : PageReply) (va : Word) : Option Point :=
  (failsAt reply.page.isNone .pageAlloc).or
    ((failsAt (readFails 4096 reply.data) .pageRead).or
      (failsAt (userPages ≤ pgnum va ∨ reply.table = false) .pageMap))

def textFails (reply : Nat → PageReply) (ph : Phdr) : Option Point :=
  (List.range (pageCount (ph.pMemsz + delta ph.pVa))).findSome? fun j =>
    textPageFails (reply j) (ph.pVa - delta ph.pVa + pageAt j)

/-- Where one page of `map_segment` fails, `left` bytes or more of which come from the file. -/
def filePageFails (reply : PageReply) (left : Word) : Option Point :=
  (failsAt reply.page.isNone .pageAlloc).or
    (failsAt (readFails (min 4096 left.toNat) reply.data) .pageRead)

def segmentFails (reply : Nat → PageReply) (ph : Phdr) : Option Point :=
  let filesz := ph.pFilesz + delta ph.pVa
  (List.range (pageCount (ph.pMemsz + delta ph.pVa))).findSome? fun j =>
    if filesz ≤ pageAt j then
      failsAt (userPages ≤ pgnum (ph.pVa - delta ph.pVa + pageAt j) ∨ (reply j).page.isNone)
        .pageAlloc
    else filePageFails (reply j) (filesz - pageAt j)

/-- Where the loop over the program headers fails. -/
def Replies.segmentsFail (a : Replies) : Option Point :=
  (List.range (decodeElf a.elfBuf).ePhnum.toNat).findSome? fun i =>
    match a.proghdr a.elfBuf i with
    | .error _ => none
    | .ok ph =>
        if ph.pType ≠ elfProgLoad then none
        else if ph.pFlags &&& elfProgFlagWrite = 0 then textFails (a.segment i) ph
        else segmentFails (a.segment i) ph

/-- The first call of `spawn` that fails. -/
def firstFailure (e : EnvIx) (a : Replies) (prog : List Byte) (argv : Word) (w : World) :
    Option Point :=
  ((failsAt (openFails w e prog a.opened) .openProg).or (failsAt a.notExec .elfHeader)).or
    ((failsAt (forkFails w a.child) .exofork).or
      ((failsAt (stackFails w.vm e a.stack argv) .initStack).or
        ((failsAt (openFails w e prog a.reopened) .reopen).or a.segmentsFail)))

/-- The first failure is one that leaves nothing behind. -/
def CleansUp (e : EnvIx) (a : Replies) (prog : List Byte) (argv : Word) (w : World) : Prop :=
  ∃ p, firstFailure e a prog argv w = some p ∧ p.leaks (w.vm.map e utempPn).isSome = false

/-! ## What `spawn` has made -/

/-- A child, an open file, and a page at `UTEMP`. -/
structure Resources where
  child : Option EnvIx
  fd : Option Int
  temp : Bool

/-- `t` is `w` with `ρ`. -/
structure Has (e : EnvIx) (w : World) (ρ : Resources) (t : World) : Prop where
  status : t.status = ρ.child.elim w.status fun c => Function.update w.status c .notRunnable
  newChild : ∀ c, ρ.child = some c → w.status c = .free
  fds : ∀ i, Lookup t.vm e i ↔ Lookup w.vm e i ∨ ρ.fd = some i
  newFd : ∀ i, ρ.fd = some i → ¬ Lookup w.vm e i
  temp : (t.vm.map e utempPn).isSome = ρ.temp

variable {e child c : EnvIx} {w t t' : World} {ρ : Resources} {fd i : Int} {n : Nat} {b : Bool}

/-- Nothing is left behind when nothing is there. -/
theorem Has.leaves_nothing_iff (h : Has e w ρ t) :
    LeavesNothing e w t ↔ ρ.child = none ∧ ρ.fd = none ∧ ρ.temp = false := by
  constructor
  · rintro ⟨henvs, htemp, hfds⟩
    refine ⟨?_, ?_, ?_⟩
    · by_contra hchild
      obtain ⟨c, hc⟩ := Option.ne_none_iff_exists'.1 hchild
      refine henvs c ?_ (h.newChild c hc)
      rw [h.status, hc]
      show Function.update w.status c .notRunnable c ≠ .free
      rw [Function.update_self]
      decide
    · by_contra hfd
      obtain ⟨i, hi⟩ := Option.ne_none_iff_exists'.1 hfd
      exact h.newFd i hi ((hfds i).1 ((h.fds i).2 (.inr hi)))
    · rw [← h.temp, htemp]
      rfl
  · rintro ⟨hchild, hfd, htemp⟩
    refine ⟨fun c hc => ?_, ?_, fun i => ?_⟩
    · rwa [h.status, hchild] at hc
    · refine Option.not_isSome_iff_eq_none.1 ?_
      rw [h.temp, htemp]
      decide
    · rw [h.fds, hfd]
      simp

/-- The page tables of `e` are as they were. -/
theorem Has.of_map (h : Has e w ρ t) (hmap : t'.vm.map e = t.vm.map e)
    (hstatus : t'.status = t.status) : Has e w ρ t' where
  status := hstatus.trans h.status
  newChild := h.newChild
  fds i := by
    rw [Fd.lookup_congr (congrFun hmap _), h.fds]
  newFd := h.newFd
  temp := by
    rw [hmap, h.temp]

/-- `UTEMP` is not the page of a descriptor. -/
theorem index2fd_ne_utemp (hi : InTable i) : index2fd i ≠ utempPn := by
  have hpage := Fd.index2fd_of_in_table hi
  unfold InTable maxfd at hi
  rw [utemp_pn_eq]
  omega

theorem lookup_congr_of_temp {v v' : Vm} (h : ∀ n, n ≠ utempPn → v'.map e n = v.map e n) :
    Lookup v' e i ↔ Lookup v e i := by
  by_cases hi : InTable i
  · exact Fd.lookup_congr (h _ (index2fd_ne_utemp hi))
  · exact iff_of_false (fun h => hi (Fd.in_table_of_lookup h)) fun h =>
      hi (Fd.in_table_of_lookup h)

/-- Only the page at `UTEMP` is another one. -/
theorem Has.set_temp (h : Has e w ρ t) (hmap : ∀ n, n ≠ utempPn → t'.vm.map e n = t.vm.map e n)
    (hstatus : t'.status = t.status) (htemp : (t'.vm.map e utempPn).isSome = b) :
    Has e w { ρ with temp := b } t' where
  status := hstatus.trans h.status
  newChild := h.newChild
  fds i := by
    rw [lookup_congr_of_temp hmap, h.fds]
  newFd := h.newFd
  temp := htemp

theorem wp_on_vm {α : Type} {x : Prog Vm Stop α} {Q : α → World → Prop}
    {E : Stop → World → Prop} :
    wp (onVm x) Q E w ↔ wp x (fun a v => Q a { w with vm := v })
      (fun r v => E r { w with vm := v }) w.vm :=
  wp_zoom

/-! ## Files -/

theorem errno_neg (c : Nat) : errno c < 0 := by
  unfold errno
  omega

theorem fd_alloc_congr {v v' : Vm} (h : ∀ i, Lookup v' e i ↔ Lookup v e i) :
    fdAlloc v' e = fdAlloc v e := by
  have hnone : ∀ i ∈ List.range maxfd,
      (v'.map e (index2fd i)).isNone = (v.map e (index2fd i)).isNone := by
    intro i hi
    have hlt := List.mem_range.1 hi
    have hlook := h i
    unfold Lookup at hlook
    have hopen : (v'.map e (index2fd i)).isSome = true ↔ (v.map e (index2fd i)).isSome = true := by
      constructor
      · exact fun hv => (hlook.1 ⟨by omega, by omega, hv⟩).2.2
      · exact fun hv => (hlook.2 ⟨by omega, by omega, hv⟩).2.2
    rw [← Option.not_isSome, ← Option.not_isSome, Bool.eq_iff_iff.2 hopen]
  exact List.find?_congr hnone

/-- The number that `fd_alloc` finds is in the table and not open. -/
theorem fd_alloc_spec {v : Vm} {i : Nat} (h : fdAlloc v e = some i) :
    InTable i ∧ v.map e (index2fd i) = none := by
  unfold fdAlloc at h
  have hnone := List.find?_some h
  refine ⟨⟨Int.natCast_nonneg i, ?_⟩, Option.isNone_iff_eq_none.1 hnone⟩
  exact Int.ofNat_lt.2 (List.mem_range.1 (List.mem_of_find?_eq_some h))

theorem close_of_not_open (h : ¬ Lookup t.vm e fd) :
    wp (close e fd) (fun _ t' => t' = t) (fun _ _ => False) t := by
  rw [close, wp_on_vm, wp_bind, wp_get, if_neg h]
  rfl

/-- `close` unmaps the page of the descriptor. -/
theorem close_spec (hfd : Lookup t.vm e fd) :
    wp (close e fd) (fun _ t' => t'.status = t.status ∧ t'.vm.mem = t.vm.mem ∧
      ∀ n, t'.vm.map e n = if n = index2fd fd then none else t.vm.map e n)
      (fun _ _ => False) t := by
  have hlt := Fd.index2fd_lt (Fd.in_table_of_lookup hfd)
  rw [close, wp_on_vm, wp_bind, wp_get, if_pos hfd, sysPageUnmap, if_neg (by omega)]
  refine ⟨rfl, Vm.mem_page_remove _ _ _, fun n => ?_⟩
  show (t.vm.sysPageUnmap e (index2fd fd)).map e n = _
  rw [Vm.sysPageUnmap, Vm.map_page_remove]
  simp

/-- An open descriptor stays one when the page of another one changes. -/
theorem lookup_of_ne {v v' : Vm} (hfd : InTable fd) (hne : i ≠ fd)
    (h : ∀ n, n ≠ index2fd fd → v'.map e n = v.map e n) : Lookup v' e i ↔ Lookup v e i := by
  by_cases hi : InTable i
  · exact Fd.lookup_congr (h _ (Fd.pages_apart hi hfd hne).1)
  · exact iff_of_false (fun h => hi (Fd.in_table_of_lookup h)) fun h =>
      hi (Fd.in_table_of_lookup h)

theorem Has.close (h : Has e w ρ t) (hfd : ρ.fd = some fd) :
    wp (close e fd) (fun _ t' => Has e w { ρ with fd := none } t' ∧ t'.vm.mem = t.vm.mem ∧
      ∀ n, t'.vm.map e n = if n = index2fd fd then none else t.vm.map e n)
      (fun _ _ => False) t := by
  have hlook : Lookup t.vm e fd := (h.fds fd).2 (.inr hfd)
  have hin := Fd.in_table_of_lookup hlook
  refine wp_mono_ret (close_spec hlook) fun _ t' ⟨hstatus, hmem, hmap⟩ => ?_
  refine ⟨⟨hstatus.trans h.status, h.newChild, fun i => ?_, fun i hi => (by cases hi), ?_⟩,
    hmem, hmap⟩
  · by_cases hi : i = fd
    · subst hi
      refine iff_of_false (fun hopen => ?_) fun hopen => ?_
      · have hsome := hopen.2.2
        rw [hmap, if_pos rfl] at hsome
        cases hsome
      · exact hopen.elim (h.newFd i hfd) fun hnone => (by cases hnone)
    · have hother : ∀ n, n ≠ index2fd fd → t'.vm.map e n = t.vm.map e n := by
        intro n hn
        rw [hmap, if_neg hn]
      rw [lookup_of_ne hin hi hother, h.fds, hfd, Option.some.injEq, or_iff_left (Ne.symm hi)]
      simp
  · rw [hmap, if_neg (index2fd_ne_utemp hin).symm, h.temp]

/-- `open` opens a descriptor that has not been open, or changes nothing. -/
theorem Has.openFile (h : Has e w ρ t) (hfd : ρ.fd = none) (path : List Byte) (reply : Reply Nat)
    (p : Point) :
    wp (openFile e path reply) (Ends (failsAt (openFails w e path reply) p)
      (fun i t' => Has e w { ρ with fd := some i } t' ∧ t.vm.map e (index2fd i) = none ∧
        t'.vm.mem = t.vm.mem ∧ ∀ n, n ≠ index2fd i → t'.vm.map e n = t.vm.map e n)
      (fun _ t' => t' = t)) (fun _ _ => False) t := by
  have hsame : ∀ i, Lookup t.vm e i ↔ Lookup w.vm e i := by
    intro i
    rw [h.fds, hfd]
    simp
  have halloc := fd_alloc_congr hsame
  rw [Spawn.openFile, wp_ite]
  refine ⟨fun hlong => ?_, fun hlong => ?_⟩
  · refine wp_fail (by decide) (fails_at_of ?_) rfl
    simp [openFails, hlong]
  · rw [wp_bind, wp_get, halloc]
    cases hfree : fdAlloc w.vm e with
    | none =>
        refine wp_fail (by decide) (fails_at_of ?_) rfl
        simp [openFails, hfree]
    | some i =>
        rw [← halloc] at hfree
        obtain ⟨hin, hnone⟩ := fd_alloc_spec hfree
        -- so the `fd_close` after an error of the file server finds nothing to close
        have hclosed : ¬ Lookup t.vm e i := fun hopen => by
          have hsome := hopen.2.2
          rw [hnone] at hsome
          cases hsome
        rw [halloc] at hfree
        cases reply with
        | error c =>
            dsimp only
            rw [wp_bind]
            refine wp_mono_ret (close_of_not_open hclosed) fun _ t' ht' => ?_
            refine wp_fail (errno_neg c) (fails_at_of ?_) ht'
            simp [openFails, Except.isOk, Except.toBool]
        | ok q =>
            have hmap : ∀ n, (t.vm.pageInsert e q (index2fd i) fdPerm).map e n =
                if n = index2fd i then some (q, fdPerm ||| pteP) else t.vm.map e n := by
              intro n
              rw [Vm.map_page_insert]
              simp
            have hother : ∀ n, n ≠ index2fd i →
                (t.vm.pageInsert e q (index2fd i) fdPerm).map e n = t.vm.map e n := by
              intro n hn
              rw [hmap, if_neg hn]
            dsimp only
            rw [wp_bind, wp_modify]
            refine wp_succeed (fails_at_of_not ?_) ⟨⟨h.status, h.newChild, fun j => ?_, ?_, ?_⟩,
              hnone, Vm.mem_page_insert _ _ _ _ _, hother⟩
            · simp [openFails, hlong, hfree, Except.isOk, Except.toBool]
            · by_cases hj : j = i
              · subst hj
                refine iff_of_true ⟨hin.1, hin.2, ?_⟩ (.inr rfl)
                show ((t.vm.pageInsert e q (index2fd i) fdPerm).map e (index2fd i)).isSome = true
                rw [hmap, if_pos rfl]
                rfl
              · rw [lookup_of_ne hin hj hother, hsame, Option.some.injEq,
                  or_iff_left (Ne.symm hj)]
            · rintro j hj
              cases hj
              rwa [← hsame]
            · show ((t.vm.pageInsert e q (index2fd i) fdPerm).map e utempPn).isSome = ρ.temp
              rw [hother _ (index2fd_ne_utemp hin).symm, h.temp]

/-! ## Programs that map nothing -/

/-- Both have the same page tables. -/
def SameMap (v v' : Vm) : Prop := v'.map = v.map

/-- A program may stop anywhere. -/
def Anywhere {σ : Type} (_ : σ) (_ : Stop) (_ : σ) : Prop := True

instance : Composes SameMap (Anywhere (σ := Vm)) where
  refl _ := rfl
  trans h h' := Eq.trans h' h
  absorb _ _ := trivial

variable {va argv argvStore dst src : Word} {bytes : List Byte}

theorem keeps_load : Keeps SameMap Anywhere (load e va) := by
  refine keeps_bind keeps_get fun v => ?_
  cases userRead v e va with
  | none => exact keeps_exit fun _ => trivial
  | some b => exact keeps_pure b

theorem keeps_load_word : Keeps SameMap Anywhere (loadWord e va) :=
  keeps_bind keeps_load fun _ => keeps_bind keeps_load fun _ => keeps_bind keeps_load fun _ =>
    keeps_bind keeps_load fun _ => keeps_pure _

theorem keeps_store (b : Byte) : Keeps SameMap Anywhere (store e va b) := by
  refine keeps_bind keeps_get fun v => ?_
  cases v.map e (pgnum va) with
  | none => exact keeps_exit fun _ => trivial
  | some x => exact keeps_ite (keeps_modify fun _ => rfl) (keeps_exit fun _ => trivial)

theorem keeps_store_all : Keeps SameMap Anywhere (storeAll e bytes va) := by
  induction bytes generalizing va with
  | nil => exact keeps_pure ()
  | cons b rest ih => exact keeps_bind (keeps_store b) fun _ => ih

theorem keeps_strlen_loop {fuel : Nat} (k : Word) :
    Keeps SameMap Anywhere (strlenLoop e fuel va k) := by
  induction fuel generalizing va k with
  | zero => exact keeps_exit fun _ => trivial
  | succ fuel ih => exact keeps_bind keeps_load fun _ => keeps_ite (keeps_pure _) (ih _)

theorem keeps_strcpy_loop {fuel : Nat} : Keeps SameMap Anywhere (strcpyLoop e fuel dst src) := by
  induction fuel generalizing dst src with
  | zero => exact keeps_exit fun _ => trivial
  | succ fuel ih =>
      exact keeps_bind keeps_load fun b => keeps_bind (keeps_store b) fun _ =>
        keeps_ite (keeps_pure _) ih

theorem keeps_store_args {k : Nat} {i stringStore : Word} :
    Keeps SameMap Anywhere (storeArgs e argv argvStore k i stringStore) := by
  induction k generalizing i stringStore with
  | zero => exact keeps_pure _
  | succ k ih =>
      exact keeps_bind keeps_store_all fun _ => keeps_bind keeps_load_word fun _ =>
        keeps_bind keeps_strcpy_loop fun _ => keeps_bind keeps_load_word fun _ =>
          keeps_bind (keeps_strlen_loop _) fun _ => ih

theorem keeps_fill_stack {argc stringStore : Word} :
    Keeps SameMap Anywhere (fillStack e argv argc stringStore argvStore) :=
  keeps_bind keeps_store_args fun _ => keeps_bind keeps_store_all fun _ =>
    keeps_ite (keeps_exit fun _ => trivial) (keeps_bind keeps_store_all fun _ => keeps_store_all)

/-! ## Programs that only read -/

/-- What user code of `e` can read decides how the program returns, and it changes nothing. -/
def OnlyReads (e : EnvIx) {α : Type} (x : Prog Vm Stop α) : Prop :=
  ∀ v v' a u, userRead v' e = userRead v e → x v' = .ret a u → u = v' ∧ x v = .ret a v

theorem only_reads_pure {α : Type} (a : α) : OnlyReads e (pure a : Prog Vm Stop α) := by
  intro v v' b u _ hret
  cases hret
  exact ⟨rfl, rfl⟩

theorem only_reads_exit {α : Type} (r : Stop) : OnlyReads e (exit r : Prog Vm Stop α) := by
  intro v v' b u _ hret
  cases hret

theorem only_reads_bind {α β : Type} {x : Prog Vm Stop α} {f : α → Prog Vm Stop β}
    (hx : OnlyReads e x) (hf : ∀ a, OnlyReads e (f a)) : OnlyReads e (x >>= f) := by
  intro v v' b u hread hret
  cases hfirst : x v' with
  | exit r u' =>
      rw [bind_of_exit hfirst] at hret
      cases hret
  | ret a u' =>
      obtain ⟨rfl, hv⟩ := hx v v' a u' hread hfirst
      rw [bind_of_ret hfirst] at hret
      obtain ⟨rfl, hrest⟩ := hf a v _ b u hread hret
      exact ⟨rfl, by rw [bind_of_ret hv, hrest]⟩

theorem only_reads_ite {α : Type} {p : Prop} [Decidable p] {x y : Prog Vm Stop α}
    (hx : OnlyReads e x) (hy : OnlyReads e y) : OnlyReads e (if p then x else y) := by
  split
  · exact hx
  · exact hy

theorem only_reads_load : OnlyReads e (load e va) := by
  intro v v' b u hread hret
  rw [load, get_bind] at hret ⊢
  rw [← hread]
  cases hbyte : userRead v' e va with
  | none =>
      rw [hbyte] at hret
      cases hret
  | some b' =>
      rw [hbyte] at hret
      cases hret
      exact ⟨rfl, rfl⟩

theorem only_reads_load_word : OnlyReads e (loadWord e va) :=
  only_reads_bind only_reads_load fun _ => only_reads_bind only_reads_load fun _ =>
    only_reads_bind only_reads_load fun _ => only_reads_bind only_reads_load fun _ =>
      only_reads_pure _

theorem only_reads_strlen_loop {fuel : Nat} (k : Word) : OnlyReads e (strlenLoop e fuel va k) := by
  induction fuel generalizing va k with
  | zero => exact only_reads_exit _
  | succ fuel ih =>
      exact only_reads_bind only_reads_load fun _ => only_reads_ite (only_reads_pure _) (ih _)

/-- The count of the arguments depends on what can be read. -/
theorem only_reads_count_args {fuel : Nat} (argc size : Word) :
    OnlyReads e (countArgs e argv fuel argc size) := by
  induction fuel generalizing argc size with
  | zero => exact only_reads_exit _
  | succ fuel ih =>
      refine only_reads_bind only_reads_load_word fun _ => only_reads_ite (only_reads_pure _) ?_
      exact only_reads_bind only_reads_load_word fun _ =>
        only_reads_bind (only_reads_strlen_loop _) fun _ => ih _ _

/-! ## The stack of the child -/

/-- All page tables of `e` are as in `v`, but for the entry of `UTEMP`. -/
def BesideTemp (e : EnvIx) (v v' : Vm) : Prop := ∀ n, n ≠ utempPn → v'.map e n = v.map e n

theorem utemp_lt_user_pages : utempPn < userPages := by
  rw [utemp_pn_eq, user_pages_eq]
  omega

/-- `sys_page_alloc` of `UTEMP` can only be short of memory. -/
theorem temp_alloc_allowed : ¬ (userPages ≤ utempPn ∨ badPerm stackPerm = true) := by
  have hlt := utemp_lt_user_pages
  rw [not_or]
  exact ⟨by omega, by decide⟩

/-- `sys_page_unmap` of `UTEMP`. -/
theorem unmap_temp (v : Vm) : ∃ v', sysPageUnmap e utempPn v = .ret 0 v' ∧
    v'.map e utempPn = none ∧ BesideTemp e v v' := by
  refine ⟨v.sysPageUnmap e utempPn, ?_, ?_, fun n hn => ?_⟩
  · rw [sysPageUnmap, if_neg (by have := utemp_lt_user_pages; omega)]
    rfl
  · rw [Vm.sysPageUnmap, Vm.map_page_remove, if_pos ⟨rfl, rfl⟩]
  · rw [Vm.sysPageUnmap, Vm.map_page_remove, if_neg fun h => hn h.2]

/-- A page at `UTEMP` with the permissions of `stackPerm`. -/
def TempPage (v : Vm) (e : EnvIx) : Prop := ∃ p, v.map e utempPn = some (p, stackPerm ||| pteP)

/-- `sys_page_map` of the page at `UTEMP` to the child leaves the caller's page tables as they are.
It fails when the address is not the user's or there is no memory for a page table. -/
theorem map_temp {v : Vm} (hne : child ≠ e) (htemp : TempPage v e) (table : Bool) {perm : Word}
    (hperm : badPerm perm = false) (hshare : pteShareable (stackPerm ||| pteP) perm = true) :
    wp (sysPageMap table e utempPn child n perm)
      (fun r v' => v'.map e = v.map e ∧ (r < 0 → userPages ≤ n ∨ table = false) ∧
        (0 ≤ r → ¬ (userPages ≤ n ∨ table = false))) (fun _ _ => False) v := by
  obtain ⟨p, hp⟩ := htemp
  have hlt := utemp_lt_user_pages
  rw [sysPageMap, wp_bind, wp_get, Vm.sysPageMap]
  by_cases hn : userPages ≤ n
  · rw [if_pos (.inr hn)]
    exact ⟨rfl, fun _ => .inl hn, fun h => absurd h (by decide)⟩
  · rw [if_neg (by omega), if_neg (by simp [hperm]), hp]
    dsimp only
    rw [if_pos hshare]
    cases table with
    | false => exact ⟨rfl, fun _ => .inr rfl, fun h => absurd h (by decide)⟩
    | true =>
        refine ⟨?_, fun h => absurd h (by decide), fun _ => by simp [hn]⟩
        funext n'
        show (v.pageInsert child p n perm).map e n' = v.map e n'
        rw [Vm.map_page_insert, if_neg fun h => hne h.1.symm]

/-- `init_stack` unmaps the page at `UTEMP`, whether the child gets it or not. -/
theorem give_stack_ends {v : Vm} (hne : child ≠ e) (htemp : TempPage v e) (table : Bool) :
    wp (giveStack e child table) (fun r v' => (r < 0 ↔ table = false) ∧
      v'.map e utempPn = none ∧ BesideTemp e v v') (fun _ _ => False) v := by
  rw [giveStack, wp_bind]
  refine wp_mono_ret (map_temp hne htemp table (by decide) (by decide))
    fun r v₁ hres => ?_
  obtain ⟨hmap, hfail, hok⟩ := hres
  obtain ⟨v₂, hunmap, hnone, hbeside⟩ := unmap_temp (e := e) v₁
  have hstack : ¬ userPages ≤ ustackPn := by
    rw [user_pages_eq, Fork.ustack_pn_eq]
    omega
  have hbeside' : BesideTemp e v v₂ := by
    intro n hn
    rw [hbeside n hn, hmap]
  rw [wp_ite]
  refine ⟨fun hr => ?_, fun hr => ?_⟩
  · rw [wp_bind, wp_of_ret hunmap]
    exact ⟨iff_of_true hr ((hfail hr).resolve_left hstack), hnone, hbeside'⟩
  · rw [wp_bind, wp_of_ret hunmap, if_neg (by decide), wp_pure]
    exact ⟨iff_of_false (by decide) fun h => hok (by omega) (.inr h), hnone, hbeside'⟩

/-- `init_stack` fails when the arguments are too long or one of its two calls fails. Nothing but
the entry of `UTEMP` changes. -/
theorem init_stack_ends {v v₀ : Vm} (hne : child ≠ e) (hread : userRead v e = userRead v₀ e)
    (a : Answers) (argv : Word) :
    wp (initStack e child a argv) (Ends (failsAt (stackFails v₀ e a argv) Point.initStack)
      (fun _ v' => v'.map e utempPn = none ∧ BesideTemp e v v') (fun _ v' => BesideTemp e v v'))
      (fun _ _ => True) v := by
  rw [initStack, wp_bind]
  cases hcount : countArgs e argv (2 ^ 30) 0 0 v with
  | exit r u =>
      rw [wp_of_exit hcount]
      trivial
  | ret counts u =>
      -- the caller's memory is as it was, and so is the count of its arguments
      obtain ⟨rfl, hcount₀⟩ := only_reads_count_args 0 0 v₀ v counts u hread hcount
      rw [wp_of_ret hcount]
      obtain ⟨argc, stringSize⟩ := counts
      have hargs : argsTooLong v₀ e argv = decide (utemp + pgsizeW - stringSize -
          (utemp + pgsizeW - stringSize) % 4 - 4 * (argc + 1) - 8 < utemp) := by
        rw [argsTooLong, hcount₀]
      dsimp only
      rw [wp_ite]
      refine ⟨fun hlong => ?_, fun hlong => ?_⟩
      · rw [decide_eq_true hlong] at hargs
        refine wp_fail (by decide) (fails_at_of ?_) fun _ _ => rfl
        simp [stackFails, hargs]
      · rw [decide_eq_false hlong] at hargs
        unfold sysPageAlloc
        rw [wp_bind, if_neg temp_alloc_allowed]
        cases hpage : a.page with
        | none =>
            dsimp only
            rw [wp_pure, if_pos (by decide)]
            refine wp_fail (by decide) (fails_at_of ?_) fun _ _ => rfl
            simp [stackFails, hpage]
        | some p =>
            dsimp only
            rw [wp_bind, wp_modify, wp_pure, if_neg (by decide), wp_bind]
            refine wp_mono (keeps_fill_stack _) (fun _ v₂ hsame => ?_) fun _ _ _ => trivial
            have hmap : ∀ n, v₂.map e n = if n = utempPn then some (p, stackPerm ||| pteP)
                else u.map e n := by
              intro n
              rw [show v₂.map = _ from hsame, Vm.map_sys_page_alloc]
              simp
            have htemp : TempPage v₂ e := ⟨p, by rw [hmap, if_pos rfl]⟩
            rw [wp_bind]
            refine wp_mono (give_stack_ends hne htemp a.table)
              (fun r v₃ hres => ?_) fun _ _ h => h.elim
            obtain ⟨hr, hnone, hbeside⟩ := hres
            have hbeside' : BesideTemp e u v₃ := by
              intro n hn
              rw [hbeside n hn, hmap, if_neg hn]
            rw [wp_ite]
            refine ⟨fun hneg => ?_, fun hneg => ?_⟩
            · refine wp_fail hneg (fails_at_of ?_) hbeside'
              simp [stackFails, hr.1 hneg]
            · refine wp_succeed (fails_at_of_not ?_) ⟨hnone, hbeside'⟩
              have htable : a.table = true := by
                rw [← Bool.not_eq_false]
                exact fun h => hneg (hr.2 h)
              simp [stackFails, hargs, hpage, htable]

/-! ## Reading -/

theorem received_cons (reply : Reply (List Byte)) (rest : List (Reply (List Byte)))
    (tot : List Byte) : received n (reply :: rest) tot =
      if n ≤ tot.length then .ok tot
      else
        match reply with
        | .error c => .error (errno c)
        | .ok bytes => if bytes = [] then .ok tot else received n rest (tot ++ bytes) :=
  rfl

theorem received_neg {replies : List (Reply (List Byte))} {tot : List Byte} {r : Int}
    (h : received n replies tot = .error r) : r < 0 := by
  induction replies generalizing tot with
  | nil => cases h
  | cons reply rest ih =>
      rw [received_cons] at h
      split at h
      · cases h
      · cases reply with
        | error c =>
            cases h
            exact errno_neg c
        | ok bytes =>
            dsimp only at h
            split at h
            · cases h
            · exact ih h

/-- `readn` returns what the answers of the file server make up. -/
theorem readn_loop_spec {put : Nat → List Byte → Prog World Stop Unit} {I : World → Prop}
    (hlook : ∀ t, I t → Lookup t.vm e fd)
    (hput : ∀ off bytes t, I t → wp (put off bytes) (fun _ t' => I t') (fun _ _ => True) t)
    (replies : List (Reply (List Byte))) (tot : List Byte) (ht : I t) :
    wp (readnLoop e fd n put (replies ++ [.ok []]) tot)
      (fun r t' => r = received n replies tot ∧ I t') (fun _ _ => True) t := by
  induction replies generalizing tot t with
  | nil =>
      -- the end of the file, if `readn` comes to it
      rw [List.nil_append, readnLoop, wp_ite]
      refine ⟨fun _ => ⟨rfl, ht⟩, fun _ => ?_⟩
      rw [andThen, read, bind_assoc, wp_bind, wp_get, if_pos (hlook t ht), List.length_nil,
        if_neg (Nat.not_lt_zero _), if_neg (Nat.not_lt_zero _), bind_assoc, wp_bind]
      exact wp_mono_ret (hput _ _ t ht) fun _ t' ht' => ⟨rfl, ht'⟩
  | cons reply rest ih =>
      rw [List.cons_append, readnLoop, received_cons, wp_ite]
      refine ⟨fun hdone => ?_, fun hmore => ?_⟩
      · rw [if_pos hdone]
        exact ⟨rfl, ht⟩
      rw [if_neg hmore, andThen]
      cases reply with
      | error c =>
          rw [read, bind_assoc, wp_bind, wp_get, if_pos (hlook t ht)]
          exact ⟨rfl, ht⟩
      | ok bytes =>
          rw [read, bind_assoc, wp_bind, wp_get, if_pos (hlook t ht)]
          dsimp only
          rw [wp_bind, wp_ite]
          refine ⟨fun _ => trivial, fun _ => ?_⟩
          rw [wp_ite]
          refine ⟨fun _ => trivial, fun _ => ?_⟩
          rw [wp_bind]
          refine wp_mono_ret (hput _ _ t ht) fun _ t' ht' => ?_
          rw [wp_pure]
          dsimp only
          rw [wp_ite]
          refine ⟨fun hend => ?_, fun hend => ?_⟩
          · rw [if_pos hend]
            exact ⟨rfl, ht'⟩
          · rw [if_neg hend]
            exact ih _ ht'

/-- `readn` fails when the file server answers with an error. -/
theorem readn_ends {put : Nat → List Byte → Prog World Stop Unit} {I : World → Prop}
    (hlook : ∀ t, I t → Lookup t.vm e fd)
    (hput : ∀ off bytes t, I t → wp (put off bytes) (fun _ t' => I t') (fun _ _ => True) t)
    (replies : List (Reply (List Byte))) (ht : I t) (p : Point) :
    wp (readn e fd n put replies) (Ends (failsAt (readFails n replies) p)
      (fun _ t' => I t') (fun _ t' => I t')) (fun _ _ => True) t := by
  refine wp_mono_ret (readn_loop_spec hlook hput replies [] ht) fun r t' ⟨hr, ht'⟩ => ?_
  cases r with
  | ok bytes => exact ⟨fails_at_of_not (by simp [readFails, ← hr, Except.isOk, Except.toBool]), ht'⟩
  | error r =>
      exact ⟨received_neg hr.symm, p,
        fails_at_of (by simp [readFails, ← hr, Except.isOk, Except.toBool]), ht'⟩

end Labs.Jos.Spawn
