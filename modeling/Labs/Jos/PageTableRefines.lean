import Labs.Jos.PageTable

/-!
# Page tables refine finite maps

Every sequence of `page_insert` and `page_remove` on the user half of a page directory acts on
the map that the directory spells out, as long as the 16-bit `pp_ref` of an inserted page does
not wrap around. When it does, a page that is still mapped goes to the free list and can become
a page table of the same directory.
-/

namespace Labs.Jos

open Prog

/-! ## Counting references -/

/-- The number of user pages that `f` maps to page `p`. -/
def mapCount (f : PageMap) (p : Nat) : Nat :=
  fiberCard (Finset.range userPages) (fun n => (f n).map Prod.fst) p

/-- Changing the map at one place changes two counts. -/
theorem map_count_update (f : PageMap) {n : Nat} (hn : n < userPages) (v : Option (Nat × Word))
    (p : Nat) :
    mapCount (Function.update f n v) p + (if (f n).map Prod.fst = some p then 1 else 0) =
      mapCount f p + if v.map Prod.fst = some p then 1 else 0 := by
  have hmap : (fun m => (Function.update f n v m).map Prod.fst) =
      Function.update (fun m => (f m).map Prod.fst) n (v.map Prod.fst) := by
    funext m
    by_cases hm : m = n
    · subst hm
      simp
    · simp [hm]
  unfold mapCount
  rw [hmap]
  exact fiber_card_update (Finset.mem_range.2 hn) _

/-- A page that is mapped has a positive count. -/
theorem map_count_pos {f : PageMap} {n : Nat} {x : Nat × Word} (hn : n < userPages)
    (hx : f n = some x) : 0 < mapCount f x.1 := by
  refine fiber_card_pos (Finset.mem_range.2 hn) ?_
  rw [hx]
  rfl

/-- A mapped page is neither the directory nor a table nor free, and its reference counter `ref`
counts at least the places that map it here. -/
structure Sound (link : Nat → Option Nat) (head : Option Nat) (ref : Nat → BitVec 16) (dir : Nat)
    (tbl : Nat → Option Nat) (f : PageMap) : Prop where
  range : ∀ n x, f n = some x → n < userPages
  plain : ∀ n x, f n = some x → x.1 ≠ dir ∧ ∀ d, tbl d ≠ some x.1
  unmapped : ∀ l, Chain link head l → ∀ n x, f n = some x → x.1 ∉ l
  counted : ∀ p, mapCount f p ≤ (ref p).toNat

namespace Sound

variable {link : Nat → Option Nat} {head : Option Nat} {ref : Nat → BitVec 16} {dir : Nat}
  {tbl : Nat → Option Nat} {f : PageMap} {n p : Nat} {x : Nat × Word}

theorem congr (h : Sound link head ref dir tbl f) {link' : Nat → Option Nat}
    {ref' : Nat → BitVec 16} (hlink : ∀ p, link' p = link p) (href : ∀ p, ref' p = ref p) :
    Sound link' head ref' dir tbl f := by
  have hlink' : link' = link := funext hlink
  have href' : ref' = ref := funext href
  rw [hlink', href']
  exact h

/-- Deleting a place drops one reference. -/
theorem remove (h : Sound link head ref dir tbl f) (hx : f n = some x) :
    Sound link head (Function.update ref x.1 (ref x.1 - 1)) dir tbl (Function.update f n none) := by
  have hn := h.range n x hx
  have hless : ∀ m y, Function.update f n none m = some y → f m = some y := by
    intro m y hy
    by_cases hm : m = n
    · rw [hm, Function.update_self] at hy
      cases hy
    · rwa [Function.update_of_ne hm] at hy
  refine ⟨fun m y hy => h.range m y (hless m y hy), fun m y hy => h.plain m y (hless m y hy),
    fun l hl m y hy => h.unmapped l hl m y (hless m y hy), fun p => ?_⟩
  have hcount := map_count_update f hn none p
  have hold := h.counted p
  rw [hx] at hcount
  simp only [Option.map_some, Option.map_none, Option.some.injEq, reduceCtorEq, if_false] at hcount
  by_cases hp : p = x.1
  · subst hp
    have hone : (1 : BitVec 16).toNat = 1 := rfl
    have hlt := (ref x.1).isLt
    rw [if_pos rfl] at hcount
    rw [Function.update_self, BitVec.toNat_sub, hone]
    omega
  · rw [if_neg (Ne.symm hp)] at hcount
    rw [Function.update_of_ne hp]
    omega

/-- A page without references is not mapped, so it may be freed. -/
theorem push (h : Sound link head ref dir tbl f) (hzero : ref p = 0) :
    Sound (Function.update link p head) (some p) ref dir tbl f := by
  refine ⟨h.range, h.plain, fun l hl m y hy hmem => ?_, h.counted⟩
  cases l with
  | nil => cases hmem
  | cons a rest =>
      have ha : p = a := Option.some.inj hl.1
      subst ha
      have hnot : p ∉ rest := (List.nodup_cons.1 hl.nodup).1
      have hchain : Chain link head rest := by
        have htail := hl.2
        rw [Function.update_self] at htail
        refine htail.congr fun b hb => ?_
        have hbp : b ≠ p := fun heq => hnot (heq ▸ hb)
        rw [Function.update_of_ne hbp]
      rcases List.mem_cons.1 hmem with heq | hrest
      · have hcount := h.counted p
        have hpos := map_count_pos (h.range m y hy) hy
        rw [heq] at hpos
        rw [hzero] at hcount
        exact absurd hcount (Nat.not_le_of_lt hpos)
      · exact h.unmapped rest hchain m y hy hrest

/-- Mapping one more place, with one more reference that the counter can hold. -/
theorem insert (h : Sound link head ref dir tbl f) (hn : n < userPages) (hnone : f n = none)
    (hdir : p ≠ dir) (htbl : ∀ d, tbl d ≠ some p) (hfree : ∀ l, Chain link head l → p ∉ l)
    (hroom : (ref p).toNat < 65535) (perm : Word) :
    Sound link head (Function.update ref p (ref p + 1)) dir tbl
      (Function.update f n (some (p, perm))) := by
  have hcases : ∀ m y, Function.update f n (some (p, perm)) m = some y →
      (m = n ∧ y.1 = p) ∨ f m = some y := by
    intro m y hy
    by_cases hm : m = n
    · rw [hm, Function.update_self] at hy
      cases hy
      exact .inl ⟨hm, rfl⟩
    · rw [Function.update_of_ne hm] at hy
      exact .inr hy
  refine ⟨fun m y hy => ?_, fun m y hy => ?_, fun l hl m y hy => ?_, fun q => ?_⟩
  · rcases hcases m y hy with ⟨hm, -⟩ | hold
    · rw [hm]
      exact hn
    · exact h.range m y hold
  · rcases hcases m y hy with ⟨-, hyp⟩ | hold
    · rw [hyp]
      exact ⟨hdir, htbl⟩
    · exact h.plain m y hold
  · rcases hcases m y hy with ⟨-, hyp⟩ | hold
    · rw [hyp]
      exact hfree l hl
    · exact h.unmapped l hl m y hold
  · have hcount := map_count_update f hn (some (p, perm)) q
    have hold := h.counted q
    rw [hnone] at hcount
    simp only [Option.map_some, Option.map_none, Option.some.injEq, reduceCtorEq, if_false] at hcount
    by_cases hq : q = p
    · subst hq
      have hone : (1 : BitVec 16).toNat = 1 := rfl
      rw [if_pos rfl] at hcount
      rw [Function.update_self, BitVec.toNat_add, hone]
      omega
    · rw [if_neg (Ne.symm hq)] at hcount
      rw [Function.update_of_ne hq]
      omega

/-- Changing the permissions of a place. -/
theorem restamp (h : Sound link head ref dir tbl f) (hx : f n = some x) (perm : Word) :
    Sound link head ref dir tbl (Function.update f n (some (x.1, perm))) := by
  have hn := h.range n x hx
  have hcases : ∀ m y, Function.update f n (some (x.1, perm)) m = some y →
      ∃ z, f m = some z ∧ z.1 = y.1 := by
    intro m y hy
    by_cases hm : m = n
    · rw [hm, Function.update_self] at hy
      cases hy
      exact ⟨x, hm ▸ hx, rfl⟩
    · rw [Function.update_of_ne hm] at hy
      exact ⟨y, hy, rfl⟩
  refine ⟨fun m y hy => ?_, fun m y hy => ?_, fun l hl m y hy => ?_, fun q => ?_⟩
  · obtain ⟨z, hz, -⟩ := hcases m y hy
    exact h.range m z hz
  · obtain ⟨z, hz, hzy⟩ := hcases m y hy
    rw [← hzy]
    exact h.plain m z hz
  · obtain ⟨z, hz, hzy⟩ := hcases m y hy
    rw [← hzy]
    exact h.unmapped l hl m z hz
  · have hcount := map_count_update f hn (some (x.1, perm)) q
    have hold := h.counted q
    rw [hx] at hcount
    simp only [Option.map_some] at hcount
    omega

/-- The first free page becomes a table. -/
theorem add_table {d : Nat} (h : Sound link (some p) ref dir tbl f)
    (hlist : ∃ l, Chain link (some p) l) :
    Sound (Function.update link p none) (link p) (Function.update ref p 1) dir
      (Function.update tbl d (some p)) f := by
  obtain ⟨l, hchain⟩ := hlist
  obtain ⟨rest, rfl, hrest⟩ := hchain.pop none
  have hfree : ∀ m y, f m = some y → y.1 ≠ p := by
    intro m y hy heq
    exact h.unmapped _ hchain m y hy (heq ▸ List.mem_cons_self)
  refine ⟨h.range, fun m y hy => ⟨(h.plain m y hy).1, fun d' => ?_⟩, fun l hl m y hy => ?_,
    fun q => ?_⟩
  · by_cases hd : d' = d
    · rw [hd, Function.update_self]
      intro heq
      exact hfree m y hy (Option.some.inj heq).symm
    · rw [Function.update_of_ne hd]
      exact (h.plain m y hy).2 d'
  · rw [Chain.unique hl hrest]
    intro hmem
    exact h.unmapped _ hchain m y hy (List.mem_cons_of_mem p hmem)
  · by_cases hq : q = p
    · subst hq
      have hzero : mapCount f q = 0 := by
        refine fiber_card_eq_zero fun m _ hm => ?_
        obtain ⟨y, hy, hyq⟩ := Option.map_eq_some_iff.1 hm
        exact hfree m y hy hyq
      rw [hzero]
      exact Nat.zero_le _
    · rw [Function.update_of_ne hq]
      exact h.counted q

end Sound

/-! ## The functions -/

/-- The books of the state are sound for the map `f` of the directory `dir`. -/
def Kernel.sound (s : Kernel) (dir : Nat) (tbl : Nat → Option Nat) (f : PageMap) : Prop :=
  Sound (fun p => (s.pages p).ppLink) s.pageFreeList (fun p => (s.pages p).ppRef) dir tbl f

/-- The state holds the map `f` in the directory `dir`. -/
def Kernel.maps (s : Kernel) (dir : Nat) (f : PageMap) : Prop :=
  ∃ tbl, s.shape dir tbl f ∧ s.sound dir tbl f

/-- Page `pp` is allocated for other uses than this directory and its tables. -/
structure Allocated (s : Kernel) (dir pp : Nat) : Prop where
  lt : pp < s.npages
  ne_dir : pp ≠ dir
  table : ∀ d, d < 955 → hasFlag (s.mem dir d) pteP = true → pgnum (s.mem dir d) ≠ pp
  free : ∀ l, Chain (fun p => (s.pages p).ppLink) s.pageFreeList l → pp ∉ l

section Functions

variable {s : Kernel} {k : CpuId} {dir pp : Nat} {tbl : Nat → Option Nat} {f : PageMap}
  {va perm : Word}

theorem Allocated.no_table (h : Allocated s dir pp) (hshape : s.shape dir tbl f) (d : Nat) :
    tbl d ≠ some pp := by
  intro htbl
  have hlow := hshape.low d pp htbl
  have hpde := hshape.pde d hlow
  rw [htbl] at hpde
  split at hpde
  · rename_i hpresent
    exact h.table d hlow hpresent (Option.some.inj hpde).symm
  · cases hpde

/-- A user address has a user page number. -/
theorem pgnum_lt_user (hva : pdx va < 955) : pgnum va < userPages := by
  have hptx := ptx_lt va
  rw [pgnum_split, user_pages_eq]
  omega

/-- A mapped place has a table. -/
theorem table_of_map {x : Nat × Word} (h : s.shape dir tbl f) (hx : f (pgnum va) = some x) :
    ∃ q, tbl (pdx va) = some q := by
  cases htbl : tbl (pdx va) with
  | some q => exact ⟨q, rfl⟩
  | none =>
      have hnone := h.bare _ _ htbl (ptx_lt va)
      rw [← pgnum_split, hx] at hnone
      cases hnone

/-- `page_remove` where a page is mapped; the tables stay. -/
theorem page_remove_sound {x : Nat × Word} (hshape : s.shape dir tbl f)
    (hsound : s.sound dir tbl f) (hva : pdx va < 955) (hx : f (pgnum va) = some x) :
    wp (pageRemove k dir va)
      (fun _ s' => s'.shape dir tbl (Function.update f (pgnum va) none) ∧
        s'.sound dir tbl (Function.update f (pgnum va) none) ∧ s'.npages = s.npages ∧
        (∀ p, p ≠ x.1 → s'.pages p = s.pages p) ∧
        ((s.pages x.1).ppRef ≠ 1 → s'.pageFreeList = s.pageFreeList ∧
          s'.pages x.1 = { s.pages x.1 with ppRef := (s.pages x.1).ppRef - 1 }) ∧
        ((s.pages x.1).ppRef = 1 → s'.pageFreeList = some x.1 ∧
          (s'.pages x.1).ppLink = s.pageFreeList))
      (fun _ _ => False) s := by
  obtain ⟨q, hq⟩ := table_of_map hshape hx
  have hremove := Sound.remove hsound hx
  have hnew : ∀ l, Chain (fun p => (s.pages p).ppLink) s.pageFreeList l → x.1 ∉ l :=
    fun l hl => hsound.unmapped l hl _ x hx
  obtain ⟨hdir, hplain⟩ := hsound.plain _ x hx
  refine wp_page_remove hshape hva hq hx fun s₁ hnp _ hpages hhead _ hshape₁ => ?_
  unfold Kernel.shape at hshape₁
  rw [wp_page_decref, hpages, hhead]
  rw [hpages, hhead] at hshape₁
  refine ⟨fun hone => ?_, fun hmore => ?_⟩
  · have hlink : ∀ p, (Function.update s.pages x.1 { ppLink := s.pageFreeList, ppRef := 0 } p).ppLink
        = Function.update (fun p => (s.pages p).ppLink) x.1 s.pageFreeList p := by
      intro p
      by_cases hp : p = x.1
      · subst hp
        simp
      · simp [hp]
    have href : ∀ p, (Function.update s.pages x.1 { ppLink := s.pageFreeList, ppRef := 0 } p).ppRef
        = Function.update (fun p => (s.pages p).ppRef) x.1 ((s.pages x.1).ppRef - 1) p := by
      intro p
      by_cases hp : p = x.1
      · subst hp
        simp [hone]
      · simp [hp]
    have hzero : Function.update (fun p => (s.pages p).ppRef) x.1 ((s.pages x.1).ppRef - 1) x.1 =
        0 := by
      rw [Function.update_self, hone]
      rfl
    refine ⟨?_, (hremove.push hzero).congr hlink href, hnp, fun p hp => ?_, fun hne => ?_, fun _ => ?_⟩
    · refine Shape.congr_link (Shape.push hshape₁ ?_ hdir hplain hnew) hlink
      rw [hnp]
      exact hshape.mapped _ x hx
    · exact Function.update_of_ne hp _ _
    · exact absurd hone hne
    · exact ⟨rfl, by simp⟩
  · have hlink : ∀ p, ((s₁.setPage x.1 fun info =>
        { info with ppRef := info.ppRef - 1 }).pages p).ppLink = (s.pages p).ppLink := by
      intro p
      by_cases hp : p = x.1
      · subst hp
        simp [Kernel.setPage, hpages]
      · simp [Kernel.setPage, hpages, hp]
    have href : ∀ p, ((s₁.setPage x.1 fun info =>
        { info with ppRef := info.ppRef - 1 }).pages p).ppRef
          = Function.update (fun p => (s.pages p).ppRef) x.1 ((s.pages x.1).ppRef - 1) p := by
      intro p
      by_cases hp : p = x.1
      · subst hp
        simp [Kernel.setPage, hpages]
      · simp [Kernel.setPage, hpages, hp]
    refine ⟨?_, ?_, hnp, fun p hp => ?_, fun _ => ?_, fun hone => absurd hone hmore⟩
    · have hshape₂ := Shape.congr_link hshape₁ hlink
      rw [← hhead] at hshape₂
      exact hshape₂
    · have hsound₂ := hremove.congr hlink href
      rw [← hhead] at hsound₂
      exact hsound₂
    · simp [Kernel.setPage, hpages, hp]
    · exact ⟨hhead, by simp [Kernel.setPage, hpages]⟩

/-- `page_remove` deletes the page from the map. -/
theorem page_remove_maps (h : s.maps dir f) (hva : pdx va < 955) :
    wp (pageRemove k dir va) (fun _ s' => s'.maps dir (Function.update f (pgnum va) none))
      (fun _ _ => False) s := by
  obtain ⟨tbl, hshape, hsound⟩ := h
  cases hx : f (pgnum va) with
  | none =>
      refine wp_mono_ret (page_remove_none hshape hva hx) fun _ s' hs' => ?_
      rw [hs', ← hx, Function.update_eq_self]
      exact ⟨tbl, hshape, hsound⟩
  | some x =>
      refine wp_mono_ret (page_remove_sound hshape hsound hva hx) fun _ s' hs' => ?_
      exact ⟨tbl, hs'.1, hs'.2.1⟩

/-- Page `pp` can be mapped: it is neither the directory nor a table nor free. -/
structure Usable (s : Kernel) (dir : Nat) (tbl : Nat → Option Nat) (pp : Nat) : Prop where
  lt : pp < s.npages
  ne_dir : pp ≠ dir
  table : ∀ d, tbl d ≠ some pp
  free : ∀ l, Chain (fun p => (s.pages p).ppLink) s.pageFreeList l → pp ∉ l

/-- A new page table changes neither the map nor what can be mapped. -/
theorem Grown.sound {s' : Kernel} {tbl' : Nat → Option Nat} {d : Nat}
    (hgrown : Grown s tbl d s' tbl') (hshape : s.shape dir tbl f) (hsound : s.sound dir tbl f)
    (hpp : Usable s dir tbl pp) :
    s'.sound dir tbl' f ∧ Usable s' dir tbl' pp ∧ s'.pages pp = s.pages pp := by
  rcases hgrown with ⟨rfl, rfl⟩ | ⟨-, p, hhead, rfl, hpages, hhead', hnp⟩
  · exact ⟨hsound, hpp, rfl⟩
  · obtain ⟨l, hchain, -⟩ := hshape.free
    unfold Kernel.sound at hsound
    rw [hhead] at hchain hsound
    obtain ⟨rest, rfl, hrest⟩ := hchain.pop none
    have hne : pp ≠ p := by
      intro heq
      refine hpp.free (p :: rest) ?_ (heq ▸ List.mem_cons_self)
      rw [hhead]
      exact hchain
    have hlink : ∀ q, (s'.pages q).ppLink =
        Function.update (fun p => (s.pages p).ppLink) p none q := by
      intro q
      rw [hpages]
      by_cases hq : q = p
      · subst hq
        simp
      · simp [hq]
    have href : ∀ q, (s'.pages q).ppRef = Function.update (fun p => (s.pages p).ppRef) p 1 q := by
      intro q
      rw [hpages]
      by_cases hq : q = p
      · subst hq
        simp
      · simp [hq]
    refine ⟨?_, ⟨hnp ▸ hpp.lt, hpp.ne_dir, fun d' => ?_, fun l hl => ?_⟩, ?_⟩
    · have hadd := (hsound.add_table (d := d) ⟨_, hchain⟩).congr hlink href
      rw [← hhead'] at hadd
      exact hadd
    · by_cases hd : d' = d
      · rw [hd, Function.update_self]
        intro heq
        exact hne (Option.some.inj heq).symm
      · rw [Function.update_of_ne hd]
        exact hpp.table d'
    · rw [hhead'] at hl
      have hl' := hl.congr fun q _ => (hlink q).symm
      rw [Chain.unique hl' hrest]
      intro hmem
      refine hpp.free (p :: rest) ?_ (List.mem_cons_of_mem p hmem)
      rw [hhead]
      exact hchain
    · rw [hpages, Function.update_of_ne hne]

/-- Removing another page from the map does not concern what can be mapped. -/
theorem Usable.remove {s' : Kernel} {p : Nat} (h : Usable s dir tbl pp) (hne : pp ≠ p)
    (hnp : s'.npages = s.npages) (hpages : ∀ b, b ≠ p → s'.pages b = s.pages b)
    (hmore : (s.pages p).ppRef ≠ 1 → s'.pageFreeList = s.pageFreeList ∧
      s'.pages p = { s.pages p with ppRef := (s.pages p).ppRef - 1 })
    (hlast : (s.pages p).ppRef = 1 → s'.pageFreeList = some p ∧
      (s'.pages p).ppLink = s.pageFreeList) : Usable s' dir tbl pp := by
  refine ⟨hnp ▸ h.lt, h.ne_dir, h.table, fun l hl => ?_⟩
  by_cases hone : (s.pages p).ppRef = 1
  · obtain ⟨hhead, hlink⟩ := hlast hone
    rw [hhead] at hl
    cases l with
    | nil => exact List.not_mem_nil
    | cons a rest =>
        have ha : p = a := Option.some.inj hl.1
        subst ha
        have hnot := (List.nodup_cons.1 hl.nodup).1
        have htail := hl.2
        dsimp only at htail
        rw [hlink] at htail
        have hchain : Chain (fun b => (s.pages b).ppLink) s.pageFreeList rest := by
          refine htail.congr fun b hb => ?_
          rw [hpages b fun heq => hnot (heq ▸ hb)]
        rw [List.mem_cons]
        intro hmem
        rcases hmem with heq | hmem
        · exact hne heq
        · exact h.free rest hchain hmem
  · obtain ⟨hhead, hpage⟩ := hmore hone
    rw [hhead] at hl
    refine h.free l (hl.congr fun b _ => ?_)
    by_cases hb : b = p
    · rw [hb, hpage]
    · rw [hpages b hb]

/-- Mapping a usable page at a free place. -/
theorem page_insert_new_sound {q : Nat} (hshape : s.shape dir tbl f) (hsound : s.sound dir tbl f)
    (hpp : Usable s dir tbl pp) (hva : pdx va < 955) (hq : tbl (pdx va) = some q)
    (hperm : perm.toNat < 4096) (hnone : f (pgnum va) = none)
    (hroom : (s.pages pp).ppRef.toNat < 65535) :
    wp (pageInsertNew k dir pp va perm ⟨q, ptx va⟩)
      (fun r s' => r = 0 ∧
        s'.maps dir (Function.update f (pgnum va) (some (pp, perm ||| pteP))))
      (fun _ _ => False) s := by
  refine wp_mono_ret (page_insert_new_shape hshape hq hpp.lt hperm) fun r s' hr => ?_
  obtain ⟨hr, hshape', hpages, hhead, -, -⟩ := hr
  refine ⟨hr, tbl, hshape', ?_⟩
  have hinsert := Sound.insert hsound (pgnum_lt_user hva) hnone hpp.ne_dir hpp.table hpp.free hroom
    (perm ||| pteP)
  unfold Kernel.sound
  rw [hhead, hpages]
  refine hinsert.congr (fun p => ?_) fun p => ?_
  · by_cases hp : p = pp
    · subst hp
      simp
    · simp [hp]
  · by_cases hp : p = pp
    · subst hp
      simp
    · simp [hp]

/-- `page_insert` maps the page, or fails for lack of memory and leaves the map alone. -/
theorem page_insert_maps (h : s.maps dir f) (hva : pdx va < 955) (hperm : perm.toNat < 4096)
    (hpp : Allocated s dir pp)
    (hroom : (f (pgnum va)).map Prod.fst = some pp ∨ (s.pages pp).ppRef.toNat < 65535) :
    wp (pageInsert k dir pp va perm)
      (fun r s' => (r = 0 ∧
          s'.maps dir (Function.update f (pgnum va) (some (pp, perm ||| pteP)))) ∨
        (r = -eNoMem ∧ s'.maps dir f))
      (fun _ _ => False) s := by
  obtain ⟨tbl, hshape, hsound⟩ := h
  have husable : Usable s dir tbl pp := ⟨hpp.lt, hpp.ne_dir, hpp.no_table hshape, hpp.free⟩
  have hsmall := hshape.small
  have hpp20 : pp < 1048576 := Nat.lt_of_lt_of_le hpp.lt hsmall
  rw [pageInsert, wp_bind]
  refine wp_mono_ret (walk_create_shape hshape hva) fun r s₁ hr => ?_
  cases r with
  | none =>
      obtain ⟨rfl, -, -⟩ := hr
      exact .inr ⟨rfl, tbl, hshape, hsound⟩
  | some pte =>
      obtain ⟨q, i⟩ := pte
      obtain ⟨rfl, tbl₁, hq, hshape₁, hgrown⟩ := hr
      obtain ⟨hsound₁, husable₁, hpages₁⟩ := hgrown.sound hshape hsound husable
      have hmap := map_at hshape₁ hq
      simp only [readWord, wp_bind, wp_gets, wp_ite]
      refine ⟨fun hpresent => ?_, fun habsent => ?_⟩
      · rw [readEntry, if_pos hpresent] at hmap
        rw [pte_addr_eq_iff hpp20]
        refine ⟨fun hsame => ?_, fun hother => ?_⟩
        · -- the special path: the page is there already
          have hwrite := Shape.write_pte hshape₁ hq (ptx_lt va) (w := mkPte pp perm)
            (fun _ => by rw [pgnum_mk_pte hpp20 hperm]; exact husable₁.lt)
          rw [read_entry_mk_pte hpp20 hperm, ← pgnum_split] at hwrite
          have hrestamp := Sound.restamp hsound₁ hmap (perm ||| pteP)
          rw [entryOf, hsame] at hrestamp
          simp only [writeWord, wp_modify, wp_pure]
          refine wp_mono_ret tlb_invalidate_spec fun _ s₂ hs₂ => ?_
          obtain ⟨g, rfl⟩ := hs₂
          exact .inl ⟨trivial, tbl₁, hwrite, hrestamp⟩
        · -- another page is there: it goes first
          have hroom₁ : (s₁.pages pp).ppRef.toNat < 65535 := by
            rw [hpages₁]
            rcases hroom with hthere | hroom
            · rw [hmap, Option.map_some, entryOf] at hthere
              exact absurd (Option.some.inj hthere) hother
            · exact hroom
          refine wp_mono_ret (page_remove_sound hshape₁ hsound₁ hva hmap) fun _ s₂ hs₂ => ?_
          obtain ⟨hshape₂, hsound₂, hnp₂, hpages₂, hmore, hlast⟩ := hs₂
          have hne : pp ≠ (entryOf (s₁.mem q (ptx va))).1 := Ne.symm hother
          have husable₂ : Usable s₂ dir tbl₁ pp :=
            husable₁.remove hne hnp₂ hpages₂ hmore hlast
          have hins := page_insert_new_sound (k := k) hshape₂ hsound₂ husable₂ hva hq hperm
            (Function.update_self _ _ _) (by rw [hpages₂ pp hne]; exact hroom₁)
          rw [Function.update_idem] at hins
          exact wp_mono_ret hins fun r s₃ hr => .inl hr
      · rw [readEntry, if_neg habsent] at hmap
        have hroom₁ : (s₁.pages pp).ppRef.toNat < 65535 := by
          rw [hpages₁]
          rcases hroom with hthere | hroom
          · rw [hmap] at hthere
            cases hthere
          · exact hroom
        exact wp_mono_ret (page_insert_new_sound hshape₁ hsound₁ husable₁ hva hq hperm hmap hroom₁)
          fun r s₃ hr => .inl hr

/-! ## The special path of `page_insert` -/

/-- `page_insert` of the page that is mapped at `va` already. -/
theorem page_insert_same {q : Nat} {old : Word} (hshape : s.shape dir tbl f) (hva : pdx va < 955)
    (hq : tbl (pdx va) = some q) (hpp : pp < s.npages) (hmap : f (pgnum va) = some (pp, old)) :
    wp (pageInsert k dir pp va perm)
      (fun r s' => r = 0 ∧ s'.pages = s.pages ∧ s'.pageFreeList = s.pageFreeList ∧
        s'.mem = Function.update s.mem q (Function.update (s.mem q) (ptx va) (mkPte pp perm)))
      (fun _ _ => False) s := by
  have hentry := map_at hshape hq
  have hpp20 : pp < 1048576 := Nat.lt_of_lt_of_le hpp hshape.small
  rw [hmap, readEntry] at hentry
  split at hentry
  · rename_i hpresent
    have hsame : pgnum (s.mem q (ptx va)) = pp :=
      (congrArg Prod.fst (Option.some.inj hentry)).symm
    rw [pageInsert, wp_bind, pgdirWalk, wp_bind, haveTable, wp_bind, readWord, wp_gets,
      (pde_of_table hshape hva hq).1]
    refine wp_walk_table hshape hva hq ?_
    simp only [readWord, wp_bind, wp_gets, wp_ite, pte_addr_eq_iff hpp20]
    refine ⟨fun _ => ⟨fun _ => ?_, fun hother => absurd hsame hother⟩,
      fun habsent => absurd hpresent habsent⟩
    simp only [writeWord, wp_modify, wp_pure]
    refine wp_mono_ret tlb_invalidate_spec fun _ s₂ hs₂ => ?_
    obtain ⟨g, rfl⟩ := hs₂
    exact ⟨trivial, rfl, rfl, rfl⟩
  · cases hentry

/-- `page_insert` at a free place with a table. -/
theorem page_insert_free {q : Nat} (hshape : s.shape dir tbl f) (hva : pdx va < 955)
    (hq : tbl (pdx va) = some q) (hpp : pp < s.npages) (hperm : perm.toNat < 4096)
    (hnone : f (pgnum va) = none) :
    wp (pageInsert k dir pp va perm)
      (fun r s' => r = 0 ∧
        s'.shape dir tbl (Function.update f (pgnum va) (some (pp, perm ||| pteP))) ∧
        s'.pages = Function.update s.pages pp
          { s.pages pp with ppRef := (s.pages pp).ppRef + 1 } ∧
        s'.pageFreeList = s.pageFreeList ∧ s'.npages = s.npages ∧
        s'.mem = Function.update s.mem q (Function.update (s.mem q) (ptx va) (mkPte pp perm)))
      (fun _ _ => False) s := by
  have hentry := map_at hshape hq
  rw [hnone, readEntry] at hentry
  split at hentry
  · cases hentry
  · rename_i habsent
    rw [pageInsert, wp_bind, pgdirWalk, wp_bind, haveTable, wp_bind, readWord, wp_gets,
      (pde_of_table hshape hva hq).1]
    refine wp_walk_table hshape hva hq ?_
    simp only [readWord, wp_bind, wp_gets, wp_ite]
    exact ⟨fun hpresent => absurd hpresent habsent,
      fun _ => page_insert_new_shape hshape hq hpp hperm⟩

/-- Remove the page at `va` and insert it again, with a reference that keeps it from being
freed in between. -/
def removeAndInsert (k : CpuId) (dir pp : Nat) (va perm : Word) : Kern Int := do
  modifyPage pp fun info => { info with ppRef := info.ppRef + 1 }
  pageRemove k dir va
  let r ← pageInsert k dir pp va perm
  modifyPage pp fun info => { info with ppRef := info.ppRef - 1 }
  pure r

/-- Removing and inserting the page that is mapped at `va` counts its references back to where
they were. -/
theorem remove_and_insert_same {q : Nat} {old : Word} (hshape : s.shape dir tbl f)
    (hva : pdx va < 955) (hq : tbl (pdx va) = some q) (hpp : pp < s.npages)
    (hperm : perm.toNat < 4096) (hmap : f (pgnum va) = some (pp, old))
    (hcount : (s.pages pp).ppRef ≠ 0) :
    wp (removeAndInsert k dir pp va perm)
      (fun r s' => r = 0 ∧ s'.pages = s.pages ∧ s'.pageFreeList = s.pageFreeList ∧
        s'.mem = Function.update s.mem q (Function.update (s.mem q) (ptx va) (mkPte pp perm)))
      (fun _ _ => False) s := by
  have hback : ∀ r : BitVec 16, r + 1 - 1 = r := by
    intro r
    bv_omega
  have hshape₀ : (s.setPage pp fun info => { info with ppRef := info.ppRef + 1 }).shape dir tbl f :=
    Shape.congr_link hshape fun p => by
      by_cases hp : p = pp
      · subst hp
        simp [Kernel.setPage]
      · simp [Kernel.setPage, hp]
  simp only [removeAndInsert, modifyPage, wp_bind, wp_modify, wp_pure]
  refine wp_page_remove hshape₀ hva hq hmap fun s₁ hnp _ hpages hhead hmem hshape₁ => ?_
  have href : (s₁.pages pp).ppRef = (s.pages pp).ppRef + 1 := by
    rw [hpages]
    simp [Kernel.setPage]
  have hmore : (s₁.pages pp).ppRef ≠ 1 := by
    rw [href]
    intro hone
    exact hcount (by bv_omega)
  rw [wp_page_decref]
  refine ⟨fun hone => absurd hone hmore, fun _ => ?_⟩
  have hshape₂ : (s₁.setPage pp fun info => { info with ppRef := info.ppRef - 1 }).shape dir tbl
      (Function.update f (pgnum va) none) :=
    Shape.congr_link hshape₁ fun p => by
      by_cases hp : p = pp
      · subst hp
        simp [Kernel.setPage]
      · simp [Kernel.setPage, hp]
  refine wp_mono_ret (page_insert_free hshape₂ hva hq (hnp ▸ hpp) hperm
    (Function.update_self _ _ _)) fun r s₃ hr => ?_
  obtain ⟨hr, -, hpages₃, hhead₃, -, hmem₃⟩ := hr
  refine ⟨hr, ?_, hhead₃.trans hhead, ?_⟩
  · simp only [Kernel.setPage, hpages₃, hpages, Function.update_self, Function.update_idem, hback]
    exact Function.update_eq_self _ _
  · show s₃.mem = _
    rw [hmem₃]
    simp only [Kernel.setPage, hmem, Function.update_self, Function.update_idem]

end Functions

end Labs.Jos
