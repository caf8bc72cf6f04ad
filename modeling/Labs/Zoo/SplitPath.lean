import Labs.Base.CArray
import Labs.Base.FileTree
import Labs.Zoo.Http

/-!
# Cutting a path in its array

The function `split_path` of `http.c`, which cuts the path in `pn` back to something that exists.
It writes a zero over a slash, asks `stat`, and puts the slash back before it tries the slash in
front of it.
-/

namespace Labs.Zoo.SplitPath

open Prog CArray FileTree

/-- The array of the path. -/
inductive Arr where
  | pn
  deriving DecidableEq

/-- Why the program stopped. -/
inductive Stop where
  | fault (fault : Fault Arr)
  /-- `strlen` of a variable that is not set. -/
  | unset

/-- The array and the environment. -/
structure State where
  mem : Arrays Arr
  environ : Http.Environ

/-- A program of the service process. -/
abbrev SplitM (α : Type) := Prog State Stop α

/-- Work on the array. -/
def onArray {α : Type} (x : Prog (Arrays Arr) (Fault Arr) α) : SplitM α :=
  rescue (zoom State.mem (fun m s => { s with mem := m }) x) fun fault => exit (.fault fault)

/-- `stat(pn, &st) != 0 && (errno == ENOTDIR || errno == ENOENT)`. -/
def missing : Except Errno Unit → Bool
  | .error .enoent => true
  | .error .enotdir => true
  | _ => false

/-- The inner loop of `split_path`, `while (--slash > pn)`. -/
def backLoop : Nat → Prog (Arrays Arr) (Fault Arr) Nat
  | 0 => exit (.overrun .pn 0)
  | slash + 1 =>
      if 0 < slash then do
        let c ← load .pn slash
        if c = byte '/' then
          store .pn slash 0
          return slash
        else
          backLoop slash
      else
        return slash

/-- The outer loop of `split_path`: where the path is cut. -/
def splitLoop (stat : List UInt8 → Except Errno Unit) :
    Nat → Option Nat → Prog (Arrays Arr) (Fault Arr) (Option Nat)
  | 0, _ => exit .fuel
  | fuel + 1, slash => do
      let path ← stringAt .pn 0
      if missing (stat path) then
        let last ← match slash with
          | some slash => do
              store .pn slash (byte '/')
              pure slash
          | none => strlen .pn 0
        let slash ← backLoop last
        if slash = 0 then return some slash else splitLoop stat fuel (some slash)
      else
        return slash

/-- `setenv` of the string at `pn + p`. -/
def setenvFrom (name : String) (p : Nat) : SplitM Unit := do
  let value ← onArray (stringAt .pn p)
  modify fun s => { s with environ := Http.setenv s.environ (ascii name) value }

/-- The end of `split_path`, which sets the names of the script. -/
def setNames : SplitM Unit := do
  let environ ← gets State.environ
  match environ (ascii "DOCUMENT_ROOT") with
  | some root => setenvFrom "SCRIPT_NAME" root.length
  | none => exit .unset
  setenvFrom "SCRIPT_FILENAME" 0

/-- The function `split_path`. Every pass but the last cuts the path shorter. -/
def splitPath (stat : List UInt8 → Except Errno Unit) : SplitM Unit := do
  let n ← onArray (strlen .pn 0)
  match ← onArray (splitLoop stat (n + 1) none) with
  | some slash => do
      onArray (store .pn slash (byte '/'))
      setenvFrom "PATH_INFO" slash
      onArray (store .pn slash 0)
  | none => pure ()
  setNames

/-- Work on the array that does not fail. -/
theorem wp_on_array {α : Type} {x : Prog (Arrays Arr) (Fault Arr) α} {Q : α → State → Prop}
    {E : Stop → State → Prop} {s : State}
    (h : wp x (fun a m => Q a { s with mem := m }) (fun _ _ => False) s.mem) :
    wp (onArray x) Q E s := by
  rw [onArray, wp_rescue, wp_zoom]
  exact wp_mono h (fun _ _ hQ => hQ) fun _ _ hfalse => hfalse.elim

/-- A store between known bytes of the path. -/
theorem wp_store_cut {before behind : List UInt8} {c x : UInt8} {Q : Unit → State → Prop}
    {E : Stop → State → Prop} {s : State} (hmem : s.mem .pn = before ++ x :: behind)
    (hQ : ∀ m', m' .pn = before ++ c :: behind → Q () { s with mem := m' }) :
    wp (onArray (store .pn before.length c)) Q E s :=
  wp_on_array (wp_store_at hmem rfl (hQ _ (Function.update_self ..)))

/-- The variable is set, and the others are as before. -/
theorem wp_setenv_from {name : String} {p : Nat} {value : List UInt8} {Q : Unit → State → Prop}
    {E : Stop → State → Prop} {s : State} (hname : Http.IsName (ascii name))
    (hvalue : HoldsString (s.mem .pn) p value)
    (hQ : ∀ environ, environ (ascii name) = some value →
      (∀ other, other ≠ ascii name → environ other = s.environ other) →
      Q () { s with environ := environ }) :
    wp (setenvFrom name p) Q E s := by
  rw [setenvFrom, wp_bind]
  refine wp_on_array (wp_string_at hvalue (hQ _ ?_ ?_))
  · exact (Http.setenv_apply hname).trans (if_pos rfl)
  · intro other hother
    exact (Http.setenv_apply hname).trans (if_neg hother)

/-- No slash of a path stands between these two indices. -/
def NoSlash (path : List UInt8) (i j : Nat) : Prop :=
  ∀ k, i < k → k < j → path[k]? ≠ some (byte '/')

section Loop

variable {path junk : List UInt8} {m : Arrays Arr} {E : Fault Arr → Arrays Arr → Prop}

/-- The inner loop cuts at the nearest slash in front of `slash`, or gets to the first byte. -/
theorem back_loop_spec {slash : Nat} {Q : Nat → Arrays Arr → Prop} (hpos : 0 < slash)
    (hle : slash ≤ path.length) (hmem : m .pn = path ++ 0 :: junk)
    (hfirst : NoSlash path 0 slash → Q 0 m)
    (hcut : ∀ before behind, path = before ++ byte '/' :: behind → 0 < before.length →
      before.length < slash → NoSlash path before.length slash →
      Q before.length (Function.update m .pn (before ++ 0 :: (behind ++ 0 :: junk)))) :
    wp (backLoop slash) Q E m := by
  induction slash with
  | zero => omega
  | succ slash ih =>
      rw [backLoop]
      by_cases hzero : 0 < slash
      · rw [if_pos hzero, wp_bind]
        have hget : path[slash]? = some path[slash] := List.getElem?_eq_getElem hle
        refine wp_load (c := path[slash]) ?_ ?_
        · rw [hmem, List.getElem?_append_left hle, hget]
        · by_cases hslash : path[slash] = byte '/'
          · have hsplit : path = path.take slash ++ byte '/' :: path.drop (slash + 1) := by
              rw [← hslash, List.getElem_cons_drop, List.take_append_drop]
            have hlength : slash = (path.take slash).length := by
              rw [List.length_take]
              omega
            rw [if_pos hslash, wp_bind]
            have hplace : m .pn =
                path.take slash ++ byte '/' :: (path.drop (slash + 1) ++ 0 :: junk) := by
              rw [hmem]
              conv_lhs => rw [hsplit]
              simp
            refine wp_store_at hplace hlength ?_
            · have hcut' := hcut _ _ hsplit (by omega) (by omega) ?_
              · rw [← hlength] at hcut'
                exact hcut'
              · intro k hk hk'
                omega
          · -- the loop goes on past a byte that is no slash
            rw [if_neg hslash]
            have hnot : ∀ i, NoSlash path i slash → NoSlash path i (slash + 1) := by
              intro i hno k hk hk'
              by_cases hlast : k = slash
              · rw [hlast, hget]
                exact fun h => hslash (Option.some.inj h)
              · exact hno k hk (by omega)
            refine ih hzero (by omega) ?_ ?_
            · intro hno
              exact hfirst (hnot 0 hno)
            · intro before behind hsplit hbefore hlt hno
              exact hcut before behind hsplit hbefore (by omega) (hnot _ hno)
      · rw [if_neg hzero]
        have hlast : slash = 0 := by omega
        subst hlast
        refine hfirst ?_
        intro k hk hk'
        omega

/-- No place in front of a slash behind index `i` leads to something that exists. -/
def NoneBehind (stat : List UInt8 → Except Errno Unit) (path : List UInt8) (i : Nat) : Prop :=
  ∀ k, i < k → path[k]? = some (byte '/') → stat (path.take k) ≠ .ok ()

variable {stat : List UInt8 → Except Errno Unit}

theorem none_behind_step {i j : Nat} (hnone : NoneBehind stat path j)
    (hhere : stat (path.take j) ≠ .ok ()) (hno : NoSlash path i j) : NoneBehind stat path i := by
  intro k hk hslash
  rcases Nat.lt_trichotomy k j with hlt | heq | hgt
  · exact absurd hslash (hno k hk hlt)
  · rw [heq]
    exact hhere
  · exact hnone k hgt hslash

/-- `script` is the longest beginning of the path in front of a slash that exists, and `info` is
what follows it. -/
structure LongestCut (stat : List UInt8 → Except Errno Unit) (path script info : List UInt8) :
    Prop where
  whole : script ++ info = path
  slash : info.head? = some (byte '/')
  found : stat script = .ok ()
  longest : ∀ script' info', script' ++ info' = path → info'.head? = some (byte '/') →
    stat script' = .ok () → script'.length ≤ script.length

theorem longest_cut {script behind : List UInt8} (hpath : path = script ++ byte '/' :: behind)
    (hfound : stat script = .ok ()) (hnone : NoneBehind stat path script.length) :
    LongestCut stat path script (byte '/' :: behind) where
  whole := hpath.symm
  slash := rfl
  found := hfound
  longest := by
    intro script' info' hwhole hslash hfound'
    by_contra hlong
    refine hnone script'.length (by omega) ?_ ?_
    · rw [← hwhole, List.getElem?_append_right le_rfl, Nat.sub_self, ← List.head?_eq_getElem?]
      exact hslash
    · rw [← hwhole, List.take_left]
      exact hfound'

variable {root name : List UInt8} (hstat : ∀ p, stat p = .ok () ∨ missing (stat p) = true)
  (hroot : stat root = .ok ()) (hname : name.head? = some (byte '/'))

include hname

/-- The path is cut behind its root: the slash behind the root would have been found. -/
theorem root_le {i j : Nat} (hj : root.length < j) (hno : NoSlash (root ++ name) i j) :
    root.length ≤ i := by
  by_contra hlt
  refine hno root.length (by omega) hj ?_
  rw [List.getElem?_append_right le_rfl, Nat.sub_self, ← List.head?_eq_getElem?]
  exact hname

include hroot

/-- What the inner loop leaves, for the rest of the outer loop. -/
theorem pass_spec {fuel slash : Nat} {Q : Option Nat → Arrays Arr → Prop}
    (hmem : m .pn = root ++ name ++ 0 :: junk) (hle : slash ≤ (root ++ name).length)
    (hroot' : root.length < slash) (hhere : stat ((root ++ name).take slash) ≠ .ok ())
    (hnone : NoneBehind stat (root ++ name) slash)
    (hrest : ∀ before behind m', root ++ name = before ++ byte '/' :: behind →
      before.length < slash → root.length ≤ before.length →
      NoneBehind stat (root ++ name) before.length →
      m' .pn = before ++ 0 :: (behind ++ 0 :: junk) →
      wp (splitLoop stat fuel (some before.length)) Q E m')
    (hQ : ∀ script behind x m', LongestCut stat (root ++ name) script (byte '/' :: behind) →
      m' .pn = script ++ x :: (behind ++ 0 :: junk) → Q (some script.length) m') :
    wp (do
      let slash ← backLoop slash
      if slash = 0 then return some slash else splitLoop stat fuel (some slash)) Q E m := by
  rw [wp_bind]
  refine back_loop_spec (by omega) hle hmem ?_ ?_
  · intro hno
    -- the first byte is reached only if the root is empty
    have hempty : root = [] := List.length_eq_zero_iff.1 (Nat.le_zero.1 (root_le hname hroot' hno))
    subst hempty
    rw [if_pos rfl]
    cases name with
    | nil => cases hname
    | cons c behind =>
        cases hname
        exact hQ [] behind (byte '/') m
          (longest_cut rfl hroot (none_behind_step hnone hhere hno)) hmem
  · intro before behind hsplit hpos hlt hno
    rw [if_neg (by omega)]
    exact hrest before behind _ hsplit hlt (root_le hname hroot' hno)
      (none_behind_step hnone hhere hno) (Function.update_self ..)

include hstat

/-- The outer loop from a cut on. -/
theorem split_loop_spec {fuel : Nat} {before behind : List UInt8}
    {Q : Option Nat → Arrays Arr → Prop} (hfuel : before.length < fuel)
    (hzero : 0 ∉ root ++ name) (hsplit : root ++ name = before ++ byte '/' :: behind)
    (hle : root.length ≤ before.length) (hnone : NoneBehind stat (root ++ name) before.length)
    (hmem : m .pn = before ++ 0 :: (behind ++ 0 :: junk))
    (hQ : ∀ script behind x m', LongestCut stat (root ++ name) script (byte '/' :: behind) →
      m' .pn = script ++ x :: (behind ++ 0 :: junk) → Q (some script.length) m') :
    wp (splitLoop stat fuel (some before.length)) Q E m := by
  induction fuel generalizing before behind m with
  | zero => omega
  | succ fuel ih =>
      have htake : (root ++ name).take before.length = before := by rw [hsplit, List.take_left]
      have hbefore : 0 ∉ before := by
        intro h
        rw [hsplit] at hzero
        exact hzero (List.mem_append_left _ h)
      rw [splitLoop, wp_bind]
      refine wp_string_at (s := before) (by rw [hmem]; exact holds_string_start hbefore) ?_
      rcases hstat before with hok | hmissing
      · rw [hok, if_neg (by decide)]
        exact hQ before behind 0 m (longest_cut hsplit hok hnone) hmem
      · have hnot : stat before ≠ .ok () := by
          intro hok
          rw [hok] at hmissing
          cases hmissing
        -- the root exists, so the cut that does not is behind it
        have hlt : root.length < before.length := by
          refine Nat.lt_of_le_of_ne hle fun heq => hnot ?_
          rw [← htake, ← heq, List.take_left]
          exact hroot
        rw [if_pos hmissing]
        show wp (store .pn before.length (byte '/') >>= fun _ => do
          let slash ← backLoop before.length
          if slash = 0 then return some slash else splitLoop stat fuel (some slash)) Q E m
        rw [wp_bind]
        refine wp_store_at hmem rfl ?_
        refine pass_spec hroot hname ?_ ?_ hlt (by rw [htake]; exact hnot) hnone ?_ hQ
        · rw [Function.update_self, hsplit]
          simp
        · rw [hsplit, List.length_append]
          omega
        · intro before' behind' m' hsplit' hlt' hle' hnone' hmem'
          exact ih (by omega) hsplit' hle' hnone' hmem'

/-- The outer loop from the start. -/
theorem split_loop_start {fuel : Nat} {Q : Option Nat → Arrays Arr → Prop}
    (hfuel : (root ++ name).length < fuel) (hzero : 0 ∉ root ++ name)
    (hmem : m .pn = root ++ name ++ 0 :: junk)
    (hfound : stat (root ++ name) = .ok () → Q none m)
    (hQ : stat (root ++ name) ≠ .ok () → ∀ script behind x m',
      LongestCut stat (root ++ name) script (byte '/' :: behind) →
      m' .pn = script ++ x :: (behind ++ 0 :: junk) → Q (some script.length) m') :
    wp (splitLoop stat fuel none) Q E m := by
  cases fuel with
  | zero => omega
  | succ fuel =>
      have hstr : HoldsString (m .pn) 0 (root ++ name) := by
        rw [hmem]
        exact holds_string_start hzero
      rw [splitLoop, wp_bind]
      refine wp_string_at hstr ?_
      rcases hstat (root ++ name) with hok | hmissing
      · rw [hok, if_neg (by decide)]
        exact hfound hok
      · have hnot : stat (root ++ name) ≠ .ok () := by
          intro hok
          rw [hok] at hmissing
          cases hmissing
        rw [if_pos hmissing]
        show wp (strlen .pn 0 >>= fun last => do
          let slash ← backLoop last
          if slash = 0 then return some slash else splitLoop stat fuel (some slash)) Q E m
        rw [wp_bind]
        refine wp_strlen hstr ?_
        refine pass_spec hroot hname hmem le_rfl ?_ ?_ ?_ ?_ (hQ hnot)
        · rw [List.length_append]
          cases name with
          | nil => cases hname
          | cons c behind => exact Nat.lt_add_of_pos_right (Nat.succ_pos _)
        · rw [List.take_length]
          exact hnot
        · intro k hk hslash
          rw [List.getElem?_eq_none (Nat.le_of_lt hk)] at hslash
          cases hslash
        · intro before behind m' hsplit hlt hle hnone hmem'
          exact split_loop_spec hstat hroot hname (by omega) hzero hsplit hle hnone hmem' (hQ hnot)

end Loop

section Split

variable {stat : List UInt8 → Except Errno Unit} {root name : List UInt8}

/-- The names of the script. -/
theorem set_names_spec {s : State} {script : List UInt8} {Q : Unit → State → Prop}
    {E : Stop → State → Prop} (hdoc : s.environ (ascii "DOCUMENT_ROOT") = some root)
    (hscript : HoldsString (s.mem .pn) 0 (root ++ script))
    (hQ : ∀ environ, environ (ascii "PATH_INFO") = s.environ (ascii "PATH_INFO") →
      environ (ascii "SCRIPT_NAME") = some script →
      environ (ascii "SCRIPT_FILENAME") = some (root ++ script) →
      Q () { s with environ := environ }) :
    wp setNames Q E s := by
  have hname : HoldsString (s.mem .pn) root.length script := by
    have hbehind := hscript.suffix
    rw [Nat.zero_add] at hbehind
    exact hbehind
  rw [setNames, wp_bind, wp_gets, hdoc, wp_bind]
  refine wp_setenv_from (by decide) hname ?_
  intro environ₁ hset₁ hkept₁
  refine wp_setenv_from (by decide) hscript ?_
  intro environ₂ hset₂ hkept₂
  refine hQ environ₂ ?_ ?_ hset₂
  · exact (hkept₂ _ (by decide)).trans (hkept₁ _ (by decide))
  · exact (hkept₂ _ (by decide)).trans hset₁

/-- What `split_path` leaves: the path as it was, if it exists, or else its longest beginning in
front of a slash that exists, with the rest in `PATH_INFO`. -/
structure Splits (stat : List UInt8 → Except Errno Unit) (path : List UInt8) (s s' : State) :
    Prop where
  kept : stat path = .ok () →
    s'.mem = s.mem ∧ s'.environ (ascii "PATH_INFO") = s.environ (ascii "PATH_INFO")
  cut : stat path ≠ .ok () → ∃ script info, LongestCut stat path script info ∧
    HoldsString (s'.mem .pn) 0 script ∧ s'.environ (ascii "PATH_INFO") = some info

/-- For every path that starts with an existing document root and goes on with a slash, and every
`stat` that only reports missing files, `split_path` returns with the path split. -/
theorem split_path_splits (hstat : ∀ p, stat p = .ok () ∨ missing (stat p) = true)
    (hroot : stat root = .ok ()) (hname : name.head? = some (byte '/')) {s : State}
    (hpath : HoldsString (s.mem .pn) 0 (root ++ name))
    (hdoc : s.environ (ascii "DOCUMENT_ROOT") = some root) :
    ∃ s', splitPath stat s = .ret () s' ∧ Splits stat (root ++ name) s s' := by
  have hzero := hpath.zero_not_mem
  obtain ⟨junk, hmem⟩ : ∃ junk, s.mem .pn = root ++ name ++ 0 :: junk := hpath.2
  have hrun : wp (splitPath stat) (fun _ s' => Splits stat (root ++ name) s s')
      (fun _ _ => False) s := by
    rw [splitPath, wp_bind]
    refine wp_on_array (wp_strlen hpath ?_)
    rw [wp_bind]
    refine wp_on_array (split_loop_start hstat hroot hname (Nat.lt_succ_self _) hzero hmem ?_ ?_)
    · intro hok
      refine set_names_spec hdoc hpath ?_
      intro environ henv _ _
      exact ⟨fun _ => ⟨rfl, henv⟩, fun hnot => absurd hok hnot⟩
    · intro hnot script behind x m' hcut hmem'
      have hwhole := hcut.whole
      -- the root is one of the places where the path could be cut
      obtain ⟨rest, hscript⟩ : root <+: script := by
        refine List.prefix_of_prefix_length_le (List.prefix_append root name) ?_
          (hcut.longest root name rfl hname hroot)
        rw [← hwhole]
        exact List.prefix_append _ _
      rw [← hwhole, List.mem_append, not_or] at hzero
      show wp (do
        onArray (store .pn script.length (byte '/'))
        setenvFrom "PATH_INFO" script.length
        onArray (store .pn script.length 0)
        setNames) _ _ _
      rw [wp_bind]
      refine wp_store_cut hmem' ?_
      intro m₁ hmem₁
      rw [wp_bind]
      have hvalue : HoldsString (m₁ .pn) script.length (byte '/' :: behind) := by
        rw [hmem₁]
        exact holds_string_behind hzero.2 rfl
      refine wp_setenv_from (by decide) hvalue ?_
      · intro environ₁ hset₁ hkept₁
        rw [wp_bind]
        refine wp_store_cut hmem₁ ?_
        intro m₂ hmem₂
        have hheld : HoldsString (m₂ .pn) 0 script := by
          rw [hmem₂]
          exact holds_string_start hzero.1
        refine @set_names_spec root _ rest _ _ ?_ ?_ ?_
        · exact (hkept₁ _ (by decide)).trans hdoc
        · rw [hscript]
          exact hheld
        · intro environ₂ hinfo _ _
          exact ⟨fun hok => absurd hok hnot, fun _ => ⟨script, _, hcut, hheld, hinfo.trans hset₁⟩⟩
  obtain ⟨_, s', hret, hsplits⟩ := ret_of_wp hrun
  exact ⟨s', hret, hsplits⟩

/-- A disk that has nothing but `/` and `/a`. -/
def smallDisk (path : List UInt8) : Except Errno Unit :=
  if path ∈ [ascii "/", ascii "/a", ascii "/a/"] then .ok () else .error .enoent

/-- The process with `/a/b/c` in its array and `/a` as its document root. -/
def smallState : State where
  mem := fun _ => ascii "/a" ++ ascii "/b/c" ++ [0]
  environ := Http.setenv (fun _ => none) (ascii "DOCUMENT_ROOT") (ascii "/a")

theorem split_path_splits_small : ∃ s', splitPath smallDisk smallState = .ret () s' ∧
    Splits smallDisk (ascii "/a" ++ ascii "/b/c") smallState s' := by
  have hdoc : smallState.environ (ascii "DOCUMENT_ROOT") = some (ascii "/a") := by
    have hset := @Http.setenv_apply (fun _ => none) (ascii "DOCUMENT_ROOT") (ascii "/a")
      (ascii "DOCUMENT_ROOT") (by decide)
    rw [if_pos rfl] at hset
    exact hset
  refine split_path_splits ?_ (by decide) (by decide) (holds_string_start (by decide)) hdoc
  intro p
  unfold smallDisk
  split
  · exact .inl rfl
  · exact .inr rfl

end Split

end Labs.Zoo.SplitPath
