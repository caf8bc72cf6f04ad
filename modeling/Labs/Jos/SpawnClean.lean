import Labs.Jos.SpawnMade

/-!
# What a failed spawn leaves behind

The first call that fails decides what is left when `spawn` returns the error. Three kinds of
failure are not cleaned up: `init_stack` fails and the child stays, or a page of the program cannot
be read or mapped and the page at `UTEMP` stays.
-/

namespace Labs.Jos.Spawn

open Prog
open Fd (Lookup index2fd)

variable {e child : EnvIx} {w t t' : World} {ρ : Resources} {fd : Int} {n : Nat} {b : Bool}

/-! ## The pages of a segment -/

/-- A program that maps nothing. -/
theorem Has.on_vm {α : Type} {x : Prog Vm Stop α} (h : Has e w ρ t)
    (hx : Keeps SameMap Anywhere x) :
    wp (onVm x) (fun _ t' => Has e w ρ t' ∧ t'.vm.map = t.vm.map) (fun _ _ => True) t := by
  rw [wp_on_vm]
  exact wp_mono (hx t.vm) (fun _ v hv => ⟨h.of_map (congrFun hv e) rfl, hv⟩) fun _ _ _ => trivial

/-- Setting the position of a file maps nothing. -/
theorem seek_map (offset : Word) (v : Vm) : (match v.map e (index2fd fd) with
    | some (p, _) => v.setWord p 1 offset
    | none => v).map = v.map := by
  split <;> rfl

theorem seek_ends {π : Type} {R : π → World → Prop} (h : Has e w ρ t) (hfd : ρ.fd = some fd)
    (offset : Word) :
    wp (attempt (seek e fd offset)) (Ends none
      (fun _ t' => Has e w ρ t' ∧ t'.vm.map = t.vm.map) R) (fun _ _ => True) t := by
  have hlook : Lookup t.vm e fd := (h.fds fd).2 (.inr hfd)
  refine wp_attempt ?_
  rw [seek, wp_on_vm, wp_bind, wp_get, if_pos hlook, wp_bind, wp_modify, wp_pure]
  refine ⟨fun hr => absurd hr (by decide), fun _ => ⟨rfl, ?_, seek_map offset t.vm⟩⟩
  exact h.of_map (congrFun (seek_map offset t.vm) e) rfl

/-- A page at `UTEMP`. -/
theorem Has.alloc_temp (h : Has e w ρ t) (page : Option Nat) :
    wp (attempt (onVm (sysPageAlloc e page utempPn stackPerm)))
      (Ends (failsAt page.isNone Point.pageAlloc)
        (fun _ t' => Has e w { ρ with temp := true } t' ∧ TempPage t'.vm e) (fun _ t' => t' = t))
      (fun _ _ => True) t := by
  refine wp_attempt ?_
  unfold sysPageAlloc
  rw [wp_on_vm, if_neg temp_alloc_allowed]
  cases page with
  | none => exact ⟨fun _ => ⟨_, fails_at_of rfl, rfl⟩, fun h => absurd h (by decide)⟩
  | some p =>
      have hmap : ∀ n, (t.vm.sysPageAlloc e p utempPn stackPerm).map e n =
          if n = utempPn then some (p, stackPerm ||| pteP) else t.vm.map e n := by
        intro n
        rw [Vm.map_sys_page_alloc]
        simp
      refine ⟨fun hr => absurd hr (by decide), fun _ => ⟨rfl, ?_, p, ?_⟩⟩
      · refine h.set_temp (fun n hn => ?_) rfl ?_
        · show (t.vm.sysPageAlloc e p utempPn stackPerm).map e n = _
          rw [hmap, if_neg hn]
        · show ((t.vm.sysPageAlloc e p utempPn stackPerm).map e utempPn).isSome = true
          rw [hmap, if_pos rfl]
          rfl
      · show (t.vm.sysPageAlloc e p utempPn stackPerm).map e utempPn = _
        rw [hmap, if_pos rfl]

theorem Has.unmap_temp (h : Has e w ρ t) :
    ∃ t', onVm (sysPageUnmap e utempPn) t = .ret 0 t' ∧ Has e w { ρ with temp := false } t' := by
  obtain ⟨v, hunmap, hnone, hbeside⟩ := Spawn.unmap_temp (e := e) t.vm
  refine ⟨{ t with vm := v }, ?_, h.set_temp hbeside rfl ?_⟩
  · rw [onVm, zoom, hunmap]
  · show (v.map e utempPn).isSome = false
    rw [hnone]
    rfl

/-- The page at `UTEMP`, mapped in the child. -/
theorem Has.map_temp (h : Has e w ρ t) (hne : child ≠ e) (htemp : TempPage t.vm e) (table : Bool)
    {perm : Word} (hperm : badPerm perm = false)
    (hshare : pteShareable (stackPerm ||| pteP) perm = true) :
    wp (attempt (onVm (sysPageMap table e utempPn child n perm)))
      (Ends (failsAt (userPages ≤ n ∨ table = false) Point.pageMap) (fun _ t' => Has e w ρ t')
        (fun _ t' => Has e w ρ t')) (fun _ _ => True) t := by
  refine wp_attempt ?_
  rw [wp_on_vm]
  refine wp_mono (Spawn.map_temp hne htemp table hperm hshare) (fun r v ⟨hmap, hfail, hok⟩ => ?_)
    fun _ _ h => h.elim
  have hhas : Has e w ρ { t with vm := v } := h.of_map hmap rfl
  exact ⟨fun hr => ⟨_, fails_at_of (hfail hr), hhas⟩, fun hr => ⟨fails_at_of_not (hok hr), hhas⟩⟩

/-- A blank page of the child. -/
theorem Has.alloc_child (h : Has e w ρ t) (hne : child ≠ e) (page : Option Nat) {perm : Word}
    (hperm : badPerm perm = false) :
    wp (attempt (onVm (sysPageAlloc child page n perm)))
      (Ends (failsAt (userPages ≤ n ∨ page.isNone) Point.pageAlloc) (fun _ t' => Has e w ρ t')
        (fun _ t' => Has e w ρ t')) (fun _ _ => True) t := by
  refine wp_attempt ?_
  unfold sysPageAlloc
  rw [wp_on_vm, wp_ite]
  refine ⟨fun hbad => ?_, fun hgood => ?_⟩
  · have hn : userPages ≤ n := by simpa [hperm] using hbad
    exact ⟨fun _ => ⟨_, fails_at_of (.inl hn), h⟩, fun hr => absurd hr (by decide)⟩
  · cases page with
    | none => exact ⟨fun _ => ⟨_, fails_at_of (.inr rfl), h⟩, fun hr => absurd hr (by decide)⟩
    | some p =>
        refine ⟨fun hr => absurd hr (by decide), fun _ => ⟨fails_at_of_not ?_, ?_⟩⟩
        · simpa [hperm] using hgood
        · refine h.of_map (funext fun n' => ?_) rfl
          show (t.vm.sysPageAlloc child p n perm).map e n' = _
          rw [Vm.map_sys_page_alloc, if_neg fun h => hne h.1.symm]

/-- The child `child` has been made and the program is open as `fd`; `temp` says whether there is
a page at `UTEMP`. -/
def Loads (e child : EnvIx) (fd : Int) (w : World) (temp : Bool) (t : World) : Prop :=
  Has e w ⟨some child, some fd, temp⟩ t

variable {m : Bool} {reply : PageReply} {offset left perm : Word}

theorem Loads.lookup (h : Loads e child fd w b t) : Lookup t.vm e fd := (h.fds fd).2 (.inr rfl)

/-- `readn` to the page at `UTEMP`. -/
theorem Loads.readn (h : Loads e child fd w true t) (htemp : TempPage t.vm e)
    (replies : List (Reply (List Byte))) :
    wp (readn e fd n (putTemp e) replies) (Ends (failsAt (readFails n replies) Point.pageRead)
      (fun _ t' => Loads e child fd w true t' ∧ TempPage t'.vm e)
      (fun p t' => Loads e child fd w (p.leaks m) t')) (fun _ _ => True) t := by
  have hput : ∀ off bytes t, Loads e child fd w true t ∧ TempPage t.vm e →
      wp (putTemp e off bytes) (fun _ t' => Loads e child fd w true t' ∧ TempPage t'.vm e)
        (fun _ _ => True) t := by
    intro off bytes t ⟨h, htemp⟩
    refine wp_mono_ret (h.on_vm keeps_store_all) fun _ t' ⟨h', hmap⟩ => ⟨h', ?_⟩
    rwa [TempPage, hmap]
  exact wp_mono_ret (readn_ends (fun _ h => h.1.lookup) hput replies ⟨h, htemp⟩ Point.pageRead)
    fun _ _ hends => hends.mono_at (fun _ h => h) And.left

theorem Loads.alloc_temp (h : Loads e child fd w false t) (page : Option Nat) :
    wp (attempt (onVm (sysPageAlloc e page utempPn stackPerm)))
      (Ends (failsAt page.isNone Point.pageAlloc)
        (fun _ t' => Loads e child fd w true t' ∧ TempPage t'.vm e)
        (fun p t' => Loads e child fd w (p.leaks m) t')) (fun _ _ => True) t := by
  refine wp_mono_ret (Has.alloc_temp h page) fun _ t' hends => ?_
  refine hends.mono_at (fun _ h => h) ?_
  rintro rfl
  exact h

/-- A page of a segment that is not written to: a page at `UTEMP` stays when it cannot be read, or
not be mapped. -/
theorem Loads.map_text_page (h : Loads e child fd w false t) (hne : child ≠ e) (reply : PageReply)
    (va offset : Word) :
    wp (mapTextPage e child fd reply va offset) (Ends (textPageFails reply va)
      (fun _ t' => Loads e child fd w false t')
      (fun p t' => Loads e child fd w (p.leaks m) t')) (fun _ _ => True) t := by
  have hfails : textPageFails reply va =
      ((none : Option Point).or ((failsAt reply.page.isNone .pageAlloc).or
        ((failsAt (readFails 4096 reply.data) .pageRead).or none))).or
          ((failsAt (userPages ≤ pgnum va ∨ reply.table = false) .pageMap).or none) := by
    simp [textPageFails, Option.or_assoc]
  rw [mapTextPage, hfails]
  have hread : wp (readMap e fd reply offset) (Ends ((none : Option Point).or
      ((failsAt reply.page.isNone .pageAlloc).or
        ((failsAt (readFails 4096 reply.data) .pageRead).or none)))
      (fun blk t' => blk = utemp ∧ Loads e child fd w true t' ∧ TempPage t'.vm e)
      (fun p t' => Loads e child fd w (p.leaks m) t')) (fun _ _ => True) t := by
    refine wp_and_then (seek_ends h rfl offset) fun _ t₁ ⟨h₁, _⟩ => ?_
    refine wp_and_then (Loads.alloc_temp h₁ reply.page) fun _ t₂ ⟨h₂, htemp₂⟩ => ?_
    refine wp_and_then (h₂.readn htemp₂ reply.data) fun _ t₃ h₃ => ?_
    exact wp_succeed rfl ⟨rfl, h₃⟩
  refine wp_and_then hread fun blk t₁ ⟨hblk, h₁, htemp₁⟩ => ?_
  subst hblk
  refine wp_and_then (I := fun _ t' => Loads e child fd w true t')
    (wp_mono_ret (Has.map_temp h₁ hne htemp₁ reply.table (by decide) (by decide))
      fun _ t' hends => hends.mono_at (fun _ h => h) id) fun _ t₂ h₂ => ?_
  obtain ⟨t₃, hunmap, h₃⟩ := Has.unmap_temp h₂
  refine wp_attempt ?_
  rw [wp_of_ret hunmap]
  exact ⟨fun hr => absurd hr (by decide), fun _ => ⟨rfl, h₃⟩⟩

theorem wp_or_panic {msg : String} {x : Prog World Stop (Except Int Unit)}
    {Q : Unit → World → Prop}
    (h : wp x (fun r t' => ∀ u, r = .ok u → Q () t') (fun _ _ => True) t) :
    wp (orPanic msg x) Q (fun _ _ => True) t := by
  rw [orPanic, wp_bind]
  refine wp_mono_ret h fun r t' ht' => ?_
  cases r with
  | ok u => exact ht' u rfl
  | error r => trivial

/-- A page of `map_segment` from the file: the page at `UTEMP` stays when it cannot be read. -/
theorem Loads.map_file_page (h : Loads e child fd w false t) (hne : child ≠ e) (reply : PageReply)
    (va offset left : Word) (hperm : badPerm perm = false)
    (hshare : pteShareable (stackPerm ||| pteP) perm = true) :
    wp (mapFilePage e child fd reply va offset left perm) (Ends (filePageFails reply left)
      (fun _ t' => Loads e child fd w false t')
      (fun p t' => Loads e child fd w (p.leaks m) t')) (fun _ _ => True) t := by
  have hfails : filePageFails reply left = (failsAt reply.page.isNone .pageAlloc).or
      ((none : Option Point).or
        ((failsAt (readFails (min 4096 left.toNat) reply.data) .pageRead).or none)) := by
    simp [filePageFails]
  rw [mapFilePage, hfails]
  refine wp_and_then (h.alloc_temp reply.page) fun _ t₁ ⟨h₁, htemp₁⟩ => ?_
  refine wp_and_then (seek_ends h₁ rfl offset) fun _ t₂ ⟨h₂, hmap₂⟩ => ?_
  have htemp₂ : TempPage t₂.vm e := by rwa [TempPage, hmap₂]
  refine wp_and_then (Loads.readn h₂ htemp₂ reply.data) fun _ t₃ ⟨h₃, htemp₃⟩ => ?_
  rw [wp_bind]
  -- a failure to map is a panic
  refine wp_or_panic (wp_mono_ret (Has.map_temp h₃ hne htemp₃ reply.table hperm hshare)
    fun r t₄ hends u hr => ?_)
  subst hr
  obtain ⟨t₅, hunmap, h₅⟩ := Has.unmap_temp hends.2
  rw [wp_bind, wp_of_ret hunmap]
  exact wp_succeed rfl h₅

/-- A loop over pages fails where the first of its pages fails. -/
theorem wp_for_pages {memsz : Word} {body : Nat → Prog World Stop (Except Int Unit)}
    {fails : Nat → Option Point} {I : World → Prop} {R : Point → World → Prop} (ht : I t)
    (hbody : ∀ j t, I t → wp (body j) (Ends (fails j) (fun _ t' => I t') R) (fun _ _ => True) t) :
    wp (forPages memsz body) (Ends ((List.range (pageCount memsz)).findSome? fails)
      (fun _ t' => I t') R) (fun _ _ => True) t := by
  rw [forPages, ← Option.or_none (o := (List.range (pageCount memsz)).findSome? fails)]
  refine wp_and_then (wp_try_each ht fun j _ => hbody j) fun _ t' ht' => ?_
  rw [wp_ite]
  exact ⟨fun _ => trivial, fun _ => wp_succeed rfl ht'⟩

theorem Loads.map_text (h : Loads e child fd w false t) (hne : child ≠ e)
    (reply : Nat → PageReply) (ph : Phdr) :
    wp (mapText e child fd reply ph) (Ends (textFails reply ph)
      (fun _ t' => Loads e child fd w false t')
      (fun p t' => Loads e child fd w (p.leaks m) t')) (fun _ _ => True) t :=
  wp_for_pages h fun j _ h => h.map_text_page hne (reply j) _ _

theorem Loads.map_segment (h : Loads e child fd w false t) (hne : child ≠ e)
    (reply : Nat → PageReply) (ph : Phdr) (hperm : badPerm perm = false)
    (hshare : pteShareable (stackPerm ||| pteP) perm = true) :
    wp (mapSegment e child fd reply ph perm) (Ends (segmentFails reply ph)
      (fun _ t' => Loads e child fd w false t')
      (fun p t' => Loads e child fd w (p.leaks m) t')) (fun _ _ => True) t := by
  refine wp_for_pages h fun j t h => ?_
  by_cases hblank : ph.pFilesz + delta ph.pVa ≤ pageAt j
  · dsimp only
    rw [if_pos hblank, if_pos hblank]
    exact wp_mono_ret (Has.alloc_child h hne (reply j).page hperm) fun _ _ hends =>
      hends.mono_at (fun _ h => h) id
  · dsimp only
    rw [if_neg hblank, if_neg hblank]
    exact h.map_file_page hne (reply j) _ _ _ hperm hshare

/-- The loop over the program headers. -/
theorem Loads.map_segments (h : Loads e child fd w false t) (hne : child ≠ e) (a : Replies) :
    wp (mapSegments e child fd a a.elfBuf) (Ends a.segmentsFail
      (fun _ t' => Loads e child fd w false t')
      (fun p t' => Loads e child fd w (p.leaks m) t')) (fun _ _ => True) t := by
  refine wp_try_each h fun i _ t h => ?_
  cases a.proghdr a.elfBuf i with
  | error va => trivial
  | ok ph =>
      dsimp only
      by_cases hload : ph.pType ≠ elfProgLoad
      · rw [if_pos hload, if_pos hload]
        exact wp_succeed rfl h
      · rw [if_neg hload, if_neg hload]
        by_cases htext : ph.pFlags &&& elfProgFlagWrite = 0
        · rw [if_pos htext, if_pos htext]
          exact h.map_text hne (a.segment i) ph
        · rw [if_neg htext, if_neg htext]
          exact h.map_segment hne (a.segment i) ph (by decide) (by decide)

/-! ## The whole of `spawn` -/

/-- The caller's pages with their contents and the status of all environments are as they were. -/
structure Kept (e : EnvIx) (t t' : World) : Prop where
  map : t'.vm.map e = t.vm.map e
  mem : t'.vm.mem = t.vm.mem
  status : t'.status = t.status

theorem Kept.user_read (h : Kept e t t') : userRead t'.vm e = userRead t.vm e := by
  funext va
  unfold userRead
  rw [h.map, h.mem]

/-- At the start nothing has been made. -/
theorem Has.start (e : EnvIx) (w : World) :
    Has e w ⟨none, none, (w.vm.map e utempPn).isSome⟩ w where
  status := rfl
  newChild c hc := (by cases hc)
  fds i := by simp
  newFd i hi := (by cases hi)
  temp := rfl

/-- A child has been made, and nothing else. -/
theorem Has.fork (hfree : w.status child = .free)
    (hstatus : t.status = Function.update w.status child .notRunnable)
    (hmap : t.vm.map e = w.vm.map e) :
    Has e w ⟨some child, none, (w.vm.map e utempPn).isSome⟩ t where
  status := hstatus
  newChild c hc := by
    cases hc
    exact hfree
  fds i := by
    rw [Fd.lookup_congr (congrFun hmap _)]
    simp
  newFd i hi := (by cases hi)
  temp := by rw [hmap]

variable {a : Replies} {prog : List Byte} {argv : Word}

/-- Reading the header changes nothing in the end. -/
theorem read_elf_ends (e : EnvIx) (w : World) (a : Replies) (prog : List Byte) :
    wp (readElf e a prog) (Ends
      ((failsAt (openFails w e prog a.opened) Point.openProg).or (failsAt a.notExec .elfHeader))
      (fun elfBuf t => elfBuf = a.elfBuf ∧ Kept e w t)
      (fun p t => Kept e w t ∧ (p = .openProg ∨ p = .elfHeader))) (fun _ _ => True) w := by
  have hopen := (Has.start e w).openFile rfl prog a.opened Point.openProg
  refine wp_and_then (wp_mono hopen (fun _ _ h => h.mono_at (fun _ h => h) ?_) fun _ _ h => h.elim)
    fun fd t₁ ⟨h₁, hnone, hmem, hmap⟩ => ?_
  · rintro rfl
    exact ⟨⟨rfl, rfl, rfl⟩, .inl rfl⟩
  have hlook : Lookup t₁.vm e fd := (h₁.fds fd).2 (.inr rfl)
  have hread : wp (readn e fd 512 (fun _ _ => pure ()) a.header)
      (fun r t => r = received 512 a.header [] ∧ t = t₁) (fun _ _ => True) t₁ := by
    refine readn_loop_spec (fun t ht => ?_) (fun _ _ _ ht => ht) a.header [] rfl
    rw [ht]
    exact hlook
  rw [wp_bind]
  refine wp_mono_ret hread fun r t ⟨hr, ht⟩ => ?_
  subst ht
  rw [wp_bind]
  refine wp_mono (h₁.close rfl) (fun _ t₂ ⟨h₂, hmem₂, hmap₂⟩ => ?_) fun _ _ h => h.elim
  -- the descriptor was free before, and it is again
  have hkept : Kept e w t₂ := by
    refine ⟨funext fun n => ?_, hmem₂.trans hmem, h₂.status⟩
    rw [hmap₂]
    split
    · rename_i hn
      rw [hn, hnone]
    · rename_i hn
      exact hmap n hn
  cases r with
  | error r =>
      refine wp_fail (by decide) (fails_at_of (.inl ?_)) ⟨hkept, .inr rfl⟩
      rw [Replies.elfBuf, ← hr]
      show ([] : List Byte).length ≠ 512
      decide
  | ok buf =>
      have hbuf : a.elfBuf = buf := by
        rw [Replies.elfBuf, ← hr]
        rfl
      dsimp only
      rw [← hbuf, wp_ite]
      exact ⟨fun hbad => wp_fail (by decide) (fails_at_of hbad) ⟨hkept, .inr rfl⟩,
        fun hgood => wp_succeed (fails_at_of_not hgood) ⟨rfl, hkept⟩⟩

/-- The child is a new environment. -/
theorem exofork_ends (hlive : w.status e ≠ .free) (h : Kept e w t) (reply : Reply EnvIx) :
    wp (sysExofork e reply) (Ends (failsAt (forkFails w reply) Point.exofork)
      (fun child t' => child ≠ e ∧ w.status child = .free ∧
        t'.status = Function.update w.status child .notRunnable ∧
        t'.vm.map e = w.vm.map e ∧ t'.vm.mem = w.vm.mem)
      (fun p t' => Kept e w t' ∧ p = .exofork)) (fun _ _ => False) t := by
  cases reply with
  | error c => exact wp_fail (errno_neg c) (fails_at_of rfl) ⟨h, rfl⟩
  | ok child =>
      rw [sysExofork, wp_bind, wp_get, wp_ite, h.status]
      refine ⟨fun hused => ?_, fun hfree => ?_⟩
      · exact wp_fail (by decide) (fails_at_of (decide_eq_true hused)) ⟨h, rfl⟩
      · have hchild : w.status child = .free := not_not.1 hfree
        have hne : child ≠ e := by
          rintro rfl
          exact hlive hchild
        rw [wp_bind, wp_modify]
        refine wp_succeed (fails_at_of_not ?_) ⟨hne, hchild, ?_, ?_, h.mem⟩
        · simp [forkFails, hchild]
        · show Function.update t.status child .notRunnable = _
          rw [h.status]
        · show Function.update t.vm.map child (fun _ => none) e = w.vm.map e
          rw [Function.update_of_ne hne.symm, h.map]

/-- `copy_shared_pages` maps pages in the child only. -/
theorem copy_shared_pages_keeps (hne : child ≠ e) (table : Nat → Bool) (t : World) :
    wp (copySharedPages e child table) (fun _ t' => Kept e t t') (fun _ _ => True) t := by
  refine wp_try_each_inv (I := Kept e t) ⟨rfl, rfl, rfl⟩ fun n _ t₁ h₁ => ?_
  rw [wp_bind, wp_get, wp_ite]
  refine ⟨fun _ => ?_, fun _ => h₁⟩
  generalize (Fd.uvpt t₁.vm e n &&& pteSyscall ||| Fd.uvpt t₁.vm e n &&& pteShare) = perm
  have hmap : wp (onVm (sysPageMap (table n) e n child n perm)) (fun _ t' => Kept e t t')
      (fun _ _ => True) t₁ := by
    rw [wp_on_vm, sysPageMap, wp_bind, wp_get]
    cases hv : t₁.vm.sysPageMap e n child n perm with
    | none => exact h₁
    | some v =>
        obtain ⟨-, -, p, -, -, -, rfl⟩ := Vm.sys_page_map_some hv
        rw [wp_ite]
        refine ⟨fun _ => ⟨funext fun n' => ?_, ?_, h₁.status⟩, fun _ => h₁⟩
        · rw [← h₁.map]
          show (t₁.vm.pageInsert child p n perm).map e n' = _
          rw [Vm.map_page_insert, if_neg fun h => hne h.1.symm]
        · exact (Vm.mem_page_insert _ _ _ _ _).trans h₁.mem
  rw [attempt, wp_bind]
  refine wp_mono_ret hmap fun r t₂ h₂ => ?_
  rw [wp_ite]
  exact ⟨fun _ => h₂, fun _ => h₂⟩

/-- The code at `error` destroys the child and closes the program. -/
theorem Has.destroy (h : Has e w ρ t) (hchild : ρ.child = some child) (hne : child ≠ e) :
    wp (sysEnvDestroy child) (fun _ t' => Has e w { ρ with child := none } t')
      (fun _ _ => False) t := by
  have hmap : (t.vm.envFree child).map e = t.vm.map e := by
    funext n
    rw [Vm.map_env_free, if_neg fun h => hne h.1.symm]
  have hstatus : Function.update t.status child .free = w.status := by
    rw [h.status, hchild]
    show Function.update (Function.update w.status child .notRunnable) child .free = _
    rw [Function.update_idem, ← h.newChild child hchild, Function.update_eq_self]
  exact ⟨hstatus, fun _ hc => (by cases hc), fun i => (Fd.lookup_congr (congrFun hmap _)).trans
    (h.fds i), h.newFd, (congrArg Option.isSome (congrFun hmap _)).trans h.temp⟩

/-- What is left behind after a failure at `p`. -/
def Leaves (e : EnvIx) (w : World) (p : Point) (t : World) : Prop :=
  LeavesNothing e w t ↔ p.leaks (w.vm.map e utempPn).isSome = false

/-- Without a child and an open file the page at `UTEMP` decides. -/
theorem Has.leaves {p : Point} (h : Has e w ⟨none, none, b⟩ t)
    (hb : b = p.leaks (w.vm.map e utempPn).isSome) : Leaves e w p t := by
  rw [Leaves, h.leaves_nothing_iff, ← hb]
  simp

/-- A child that stays is left behind. -/
theorem Has.leaves_child (h : Has e w ⟨some child, none, b⟩ t) : Leaves e w .initStack t := by
  rw [Leaves, h.leaves_nothing_iff]
  simp [Point.leaks]

/-- From the child on. -/
theorem load_child_ends (h : Has e w ⟨some child, none, b⟩ t) (hne : child ≠ e)
    (hread : userRead t.vm e = userRead w.vm e) (a : Replies) (prog : List Byte) (argv : Word) :
    wp (loadChild e child a prog argv a.elfBuf) (Ends
      ((failsAt (stackFails w.vm e a.stack argv) Point.initStack).or
        ((failsAt (openFails w e prog a.reopened) .reopen).or (a.segmentsFail.or none)))
      (fun _ _ => True) (Leaves e w)) (fun _ _ => True) t := by
  have hcopy := copy_shared_pages_keeps hne a.shared t
  rw [loadChild, wp_bind, wp_gets, wp_bind]
  refine wp_or_panic (wp_mono_ret hcopy fun _ t₁ h₁ _ _ => ?_)
  have hhas₁ := h.of_map h₁.map h₁.status
  refine wp_and_then (I := fun _ t' => Has e w ⟨some child, none, false⟩ t') ?_
    fun esp t₂ h₂ => ?_
  · refine wp_zoom_ends ?_
    have hstack := init_stack_ends hne (h₁.user_read.trans hread) a.stack argv
    refine wp_mono_ret hstack fun res v hends => hends.mono_at ?_ ?_
    · rintro _ ⟨hnone, hbeside⟩
      have h₂ : Has e w ⟨some child, none, false⟩ { t₁ with vm := v } :=
        hhas₁.set_temp hbeside rfl (congrArg Option.isSome hnone)
      exact h₂
    · -- the `return` here goes past the code at `error`
      intro hbeside
      have h₂ : Has e w ⟨some child, none, _⟩ { t₁ with vm := v } :=
        hhas₁.set_temp hbeside rfl rfl
      exact h₂.leaves_child
  · have hopen := h₂.openFile rfl prog a.reopened Point.reopen
    refine wp_and_then (I := fun fd t' => Loads e child fd w false t') (wp_on_error
      (R := fun p t' => p = .reopen ∧ Has e w ⟨some child, none, false⟩ t') ?_ ?_) ?_
    · refine wp_mono hopen (fun _ t' hends => hends.mono_at (fun _ h => h.1) ?_)
        fun _ _ h => h.elim
      rintro rfl
      exact ⟨rfl, h₂⟩
    · -- `fd` is still -1, and `close` does nothing
      rintro p t₃ ⟨rfl, h₃⟩
      rw [cleanUp, wp_bind]
      refine wp_mono (h₃.destroy rfl hne) (fun _ t₄ h₄ => ?_) fun _ _ h => h.elim
      have hclosed : ¬ Lookup t₄.vm e (-1) := fun h => absurd h.1 (by decide)
      refine wp_mono (close_of_not_open hclosed) (fun _ t₅ ht₅ => ?_) fun _ _ h => h.elim
      subst ht₅
      exact Has.leaves h₄ rfl
    · intro fd t₃ h₃
      refine wp_and_then (I := fun _ t' => Loads e child fd w false t') (wp_on_error
        (h₃.map_segments (m := (w.vm.map e utempPn).isSome) hne a) ?_) ?_
      · -- the code at `error` leaves the page at `UTEMP` where it is
        intro p t₄ h₄
        rw [cleanUp, wp_bind]
        refine wp_mono (Has.destroy h₄ rfl hne) (fun _ t₅ h₅ => ?_) fun _ _ h => h.elim
        refine wp_mono (Has.close h₅ rfl) (fun _ t₆ h₆ => ?_) fun _ _ h => h.elim
        exact Has.leaves h₆.1 rfl
      · intro _ t₄ h₄
        rw [wp_bind]
        refine wp_mono (Has.close h₄ rfl) (fun _ t₅ _ => ?_) fun _ _ h => h.elim
        rw [wp_bind]
        refine wp_or_panic (wp_of_forall (fun _ t₆ _ _ => ?_) fun _ _ => trivial)
        rw [wp_bind]
        refine wp_or_panic (wp_of_forall (fun _ t₇ _ _ => ?_) fun _ _ => trivial)
        exact wp_succeed rfl trivial

/-- How `spawn` ends: it fails at the first call that fails, which decides what is left behind. -/
theorem spawn_ends (hlive : w.status e ≠ .free) (a : Replies) (prog : List Byte) (argv : Word) :
    wp (spawn e a prog argv) (Ends (firstFailure e a prog argv w) (fun _ _ => True) (Leaves e w))
      (fun _ _ => True) w := by
  have hkept : ∀ p t, Kept e w t → p.leaks (w.vm.map e utempPn).isSome =
      (w.vm.map e utempPn).isSome → Leaves e w p t := by
    intro p t h hp
    exact Has.leaves ((Has.start e w).of_map h.map h.status) hp.symm
  have hfails : firstFailure e a prog argv w =
      ((failsAt (openFails w e prog a.opened) .openProg).or (failsAt a.notExec .elfHeader)).or
        ((failsAt (forkFails w a.child) .exofork).or
          ((failsAt (stackFails w.vm e a.stack argv) .initStack).or
            ((failsAt (openFails w e prog a.reopened) .reopen).or (a.segmentsFail.or none)))) := by
    rw [firstFailure, Option.or_none]
  rw [spawn, hfails]
  refine wp_and_then (I := fun elfBuf t => elfBuf = a.elfBuf ∧ Kept e w t)
    (wp_mono_ret (read_elf_ends e w a prog) fun _ t hends => hends.mono (fun _ h => h) ?_) ?_
  · rintro p ⟨h, rfl | rfl⟩
    · exact hkept _ t h rfl
    · exact hkept _ t h rfl
  · rintro elfBuf t ⟨rfl, h⟩
    refine wp_and_then (wp_mono (exofork_ends hlive h a.child)
      (fun _ t₁ hends => hends.mono (fun _ h => h) ?_) fun _ _ h => h.elim) ?_
    · rintro p ⟨h₁, rfl⟩
      exact hkept _ t₁ h₁ rfl
    · rintro child t₁ ⟨hne, hfree, hstatus, hmap, hmem⟩
      have h₁ := Has.fork hfree hstatus hmap
      have hread : userRead t₁.vm e = userRead w.vm e := by
        funext va
        unfold userRead
        rw [hmap, hmem]
      exact load_child_ends h₁ hne hread a prog argv

/-- A call of `spawn` that returns an error leaves nothing behind if and only if its first failure
is one that it cleans up after. -/
theorem spawn_leaves_nothing_iff {w' : World} {r : Int} (hlive : w.status e ≠ .free)
    (h : spawn e a prog argv w = .ret (.error r) w') :
    LeavesNothing e w w' ↔ CleansUp e a prog argv w := by
  have hends := spawn_ends hlive a prog argv
  rw [wp_of_ret h] at hends
  obtain ⟨-, p, hfirst, hleaves⟩ := hends
  unfold Leaves at hleaves
  rw [hleaves]
  constructor
  · exact fun hp => ⟨p, hfirst, hp⟩
  · rintro ⟨q, hq, hclean⟩
    rw [hfirst, Option.some.injEq] at hq
    rwa [hq]

/-! ## Failures after `sys_exofork` -/

/-- When no page is shared nothing is copied. -/
theorem copy_shared_pages_idle (table : Nat → Bool)
    (h : ∀ n, hasFlag (Fd.uvpt t.vm e n) pteShare = false) :
    copySharedPages e child table t = .ret (.ok ()) t := by
  refine try_each_of_idle fun n _ => ?_
  rw [get_bind, h n, Bool.and_false, if_neg Bool.false_ne_true]
  rfl

theorem copies_nothing (table : Nat → Bool)
    (h : ∀ n, hasFlag (Fd.uvpt t.vm e n) pteShare = false) :
    orPanic "copy_shared_pages: %e" (copySharedPages e child table) t = .ret () t := by
  rw [orPanic, bind_of_ret (copy_shared_pages_idle table h)]
  rfl

/-- `sys_exofork` maps nothing in its caller. -/
theorem exofork_map (hlive : w.status e ≠ .free) (h : Kept e w t)
    (hfork : sysExofork e (.ok child) t = .ret (.ok child) t') : t'.vm.map e = w.vm.map e := by
  have hends := exofork_ends hlive h (.ok child)
  rw [wp_of_ret hfork] at hends
  exact hends.2.2.2.2.1

/-- `init_stack` without a page for the stack. -/
theorem init_stack_no_page {v : Vm} {ans : Answers} {counts : Word × Word}
    (hcount : countArgs e argv (2 ^ 30) 0 0 v = .ret counts v) (hpage : ans.page = none) :
    initStack e child ans argv v = .ret (.error (-eNoMem)) v := by
  rw [initStack, bind_of_ret hcount]
  dsimp only
  split
  · rfl
  · unfold sysPageAlloc
    rw [if_neg temp_alloc_allowed, hpage]
    rfl

/-- Without shared pages an error of the second open is the error of `loadChild`. -/
theorem load_child_not_opened {t₁ t₂ : World} {elfBuf : List Byte} {esp : Word} {r : Int}
    (hshared : ∀ n, hasFlag (Fd.uvpt t.vm e n) pteShare = false)
    (hstack : onVm (initStack e child a.stack argv) t = .ret (.ok esp) t₁)
    (hopen : onError (openFile e prog a.reopened) (cleanUp e child (-1)) t₁ =
      .ret (.error r) t₂) :
    loadChild e child a prog argv elfBuf t = .ret (.error r) t₂ := by
  rw [loadChild, gets_bind, bind_of_ret (copies_nothing a.shared hshared), and_then_of_ok hstack,
    and_then_of_error hopen]

/-- The header is accepted. -/
def readsElf (e : EnvIx) (a : Replies) (prog : List Byte) (w : World) : Bool :=
  match readElf e a prog w with
  | .ret (.ok _) _ => true
  | _ => false

theorem read_elf_of_reads (h : readsElf e a prog w = true) :
    ∃ t, readElf e a prog w = .ret (.ok a.elfBuf) t ∧ Kept e w t := by
  have hends := read_elf_ends e w a prog
  unfold readsElf at h
  cases hread : readElf e a prog w with
  | exit r t =>
      rw [hread] at h
      cases h
  | ret res t =>
      cases res with
      | error r =>
          rw [hread] at h
          cases h
      | ok buf =>
          rw [wp_of_ret hread] at hends
          obtain ⟨-, rfl, hkept⟩ := hends
          exact ⟨t, rfl, hkept⟩

/-- If there is no page for the stack, `spawn` returns the error and the child stays. -/
theorem child_stays_of_no_page {counts : Word × Word} (hlive : w.status e ≠ .free)
    (helf : readsElf e a prog w = true) (hfork : a.child = .ok child)
    (hfree : w.status child = .free)
    (hshared : ∀ n, hasFlag (Fd.uvpt w.vm e n) pteShare = false)
    (hcount : countArgs e argv (2 ^ 30) 0 0 w.vm = .ret counts w.vm) (hpage : a.stack.page = none) :
    ∃ r t, spawn e a prog argv w = .ret (.error r) t ∧ r < 0 ∧ ¬ LeavesNothing e w t := by
  obtain ⟨t₁, hread, h₁⟩ := read_elf_of_reads helf
  have hends := exofork_ends hlive h₁ a.child
  obtain ⟨res, t₂, hfork₂, hres⟩ := ret_of_wp hends
  cases res with
  | error r =>
      obtain ⟨-, p, hp, -⟩ := hres
      rw [hfork, failsAt, if_neg (by simp [forkFails, hfree])] at hp
      cases hp
  | ok child =>
      obtain ⟨-, hne, hnew, hstatus, hmap, hmem⟩ := hres
      have hread₂ : userRead w.vm e = userRead t₂.vm e := by
        funext va
        unfold userRead
        rw [hmap, hmem]
      have hshared₂ : ∀ n, hasFlag (Fd.uvpt t₂.vm e n) pteShare = false := by
        intro n
        rw [Fd.uvpt, hmap]
        exact hshared n
      obtain ⟨-, hcount₂⟩ := only_reads_count_args 0 0 t₂.vm w.vm counts w.vm hread₂ hcount
      have hstack : onVm (initStack e child a.stack argv) t₂ = .ret (.error (-eNoMem)) t₂ := by
        rw [onVm, zoom, init_stack_no_page hcount₂ hpage]
      refine ⟨-eNoMem, t₂, ?_, by decide, fun hclean => ?_⟩
      · rw [spawn, and_then_of_ok hread, and_then_of_ok hfork₂, loadChild, gets_bind,
          bind_of_ret (copies_nothing a.shared hshared₂), and_then_of_error hstack]
      · have hleft := ((Has.fork hnew hstatus hmap).leaves_nothing_iff.1 hclean).1
        cases hleft

/-- One environment, with an empty argument vector at `0x800000`. -/
def shell : World where
  vm :=
    { map := fun e n => if e = 0 ∧ n = 2048 then some (7, stackPerm ||| pteP) else none
      ref := fun _ => 1
      free := fun _ => false
      mem := fun _ _ => 0
      shared := fun _ => false }
  status := fun e => if e = 0 then .running else .free
  tf := fun _ => {}

/-- An ELF header of a program without segments. -/
def emptyProgram : List Byte := [0x7F, 0x45, 0x4C, 0x46] ++ List.replicate 508 0

/-- The kernel has no page for the stack of the child. -/
def noStackPage : Replies where
  opened := .ok 8
  header := [.ok emptyProgram]
  child := .ok 1
  shared := fun _ => true
  stack := ⟨none, true⟩
  reopened := .ok 8
  behind := fun _ => .error 0
  segment := fun _ _ => ⟨none, true, []⟩

theorem shell_shares_nothing (n : Nat) : hasFlag (Fd.uvpt shell.vm 0 n) pteShare = false := by
  unfold Fd.uvpt shell
  dsimp only
  split
  · decide
  · decide

/-- The program is gone when it is opened again. -/
def unlinked : Replies := { noStackPage with stack := ⟨some 9, true⟩, reopened := .error 10 }

/-- The states of `spawn` before `sys_exofork`, with the child, and with its stack. -/
def beforeChild : World := (readElf 0 unlinked [0x78] shell).state

def withChild : World := (sysExofork 0 unlinked.child beforeChild).state

def withStack : World := (onVm (initStack 0 1 unlinked.stack 0x800000) withChild).state

/-- The calls before the second open return. -/
theorem unlinked_calls :
    readsElf 0 unlinked [0x78] shell = true ∧
      (sysExofork 0 unlinked.child beforeChild).returned = some (.ok 1) ∧
      (onVm (initStack 0 1 unlinked.stack 0x800000) withChild).returned = some (.ok 0xEEBFDFF4) ∧
      (onError (openFile 0 [0x78] unlinked.reopened) (cleanUp 0 1 (-1)) withStack).returned =
        some (.error (-11)) := by
  decide +kernel

/-- The state when the second open has failed and the child has been destroyed. -/
def afterReopen : World :=
  (onError (openFile 0 [0x78] unlinked.reopened) (cleanUp 0 1 (-1)) withStack).state

/-- `spawn` returns the error of the second open. -/
theorem spawn_unlinked :
    spawn 0 unlinked [0x78] 0x800000 shell = .ret (.error (-11)) afterReopen := by
  obtain ⟨helf, hchild, hstack, hopen⟩ := unlinked_calls
  obtain ⟨t₁, hread, hkept⟩ := read_elf_of_reads helf
  have ht₁ : t₁ = beforeChild := by
    rw [beforeChild, hread]
    rfl
  rw [ht₁] at hread hkept
  have hfork : sysExofork 0 unlinked.child beforeChild = .ret (.ok 1) withChild :=
    ret_of_returned (x := sysExofork 0 unlinked.child) hchild
  have hinit : onVm (initStack 0 1 unlinked.stack 0x800000) withChild =
      .ret (.ok 0xEEBFDFF4) withStack :=
    ret_of_returned (x := onVm (initStack 0 1 unlinked.stack 0x800000)) hstack
  have hreopen : onError (openFile 0 [0x78] unlinked.reopened) (cleanUp 0 1 (-1)) withStack =
      .ret (.error (-11)) afterReopen :=
    ret_of_returned (x := onError (openFile 0 [0x78] unlinked.reopened) (cleanUp 0 1 (-1))) hopen
  have hshared : ∀ n, hasFlag (Fd.uvpt withChild.vm 0 n) pteShare = false := by
    intro n
    rw [Fd.uvpt, exofork_map (by decide) hkept hfork]
    exact shell_shares_nothing n
  calc spawn 0 unlinked [0x78] 0x800000 shell
    _ = loadChild 0 1 unlinked [0x78] 0x800000 unlinked.elfBuf withChild := by
      rw [spawn, and_then_of_ok hread, and_then_of_ok hfork]
    _ = .ret (.error (-11)) afterReopen := load_child_not_opened hshared hinit hreopen

/-- An error of the second open comes after the child has been made, and nothing is left. -/
theorem spawn_leaves_nothing_reopen : ∃ t, spawn 0 unlinked [0x78] 0x800000 shell =
    .ret (.error (-11)) t ∧ LeavesNothing 0 shell t :=
  ⟨afterReopen, spawn_unlinked,
    (spawn_leaves_nothing_iff (by decide) spawn_unlinked).2 ⟨.reopen, by decide +kernel, rfl⟩⟩

/-- `spawn` leaves the child behind when the page of its stack cannot be allocated. -/
theorem spawn_leaves_child : ∃ r t, spawn 0 noStackPage [0x78] 0x800000 shell = .ret (.error r) t ∧
    r < 0 ∧ ¬ LeavesNothing 0 shell t :=
  child_stays_of_no_page (by decide) (by decide +kernel) rfl (by decide) shell_shares_nothing
    rfl rfl

end Labs.Jos.Spawn
