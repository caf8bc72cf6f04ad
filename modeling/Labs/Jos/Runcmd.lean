import Labs.Jos.Gettoken

/-!
# The commands of the shell

The function `runcmd` of `user/sh.c`, with the line that `readline` returns. The results of the
system calls are answers that may be anything, so that a run takes any of the paths through the
function, in the shell's child or in a child of its own. The messages are left out.
-/

namespace Labs.Jos.Runcmd

open Prog CArray Words Gettoken

/-- `MAXARGS`. -/
def maxargs : Nat := 16

/-- `BUFSIZ`, which is `BUFLEN` of `readline` too. -/
def bufsiz : Nat := 1024

/-- Why a run stopped. -/
inductive Stop where
  | fault (fault : Fault Arr)
  /-- An access to `argv[i]`, where there is none or nothing has been stored. -/
  | argv (i : Nat)
  | exited
  | panicked

/-- The tokeniser with the arrays, the array `argv`, and the results of the system calls to
come. -/
structure State where
  tok : Gettoken.State
  argv : List (Option (Arr × Nat))
  answers : List Int

/-- A program of the shell. -/
abbrev RunM (α : Type) := Prog State Stop α

/-- Run the tokeniser. -/
def onTokens {α : Type} (x : TokenM α) : RunM α :=
  rescue (zoom State.tok (fun t s => { s with tok := t }) x) fun fault => exit (.fault fault)

/-- The result of a system call, zero when no other is given. -/
def ask : RunM Int := fun s => .ret (s.answers.headD 0) { s with answers := s.answers.tail }

/-- `argv[i] = p`. -/
def setArgv (i : Nat) (p : Option (Arr × Nat)) : RunM Unit := fun s =>
  if i < s.argv.length then .ret () { s with argv := s.argv.set i p } else .exit (.argv i) s

/-- `argv[i]`. -/
def getArgv (i : Nat) : RunM (Arr × Nat) := fun s =>
  match s.argv[i]? with
  | some (some p) => .ret p s
  | _ => .exit (.argv i) s

/-- `if (fd != n) { dup(fd, n); close(fd); }`. -/
def moveFd (fd n : Int) : RunM Unit := do
  if fd ≠ n then
    let _ ← ask
    let _ ← ask

/-- The cases `<` and `>`, where the file is opened as `n`. -/
def redirect (n : Int) : RunM Unit := do
  let (c, _) ← onTokens (gettoken none)
  if c ≠ byte 'w' then
    exit .exited
  else
    let fd ← ask
    if fd < 0 then exit .exited else moveFd fd n

/-- The case `|`: whether this is the child, which goes on with the right part. -/
def pipeFork : RunM Bool := do
  let r ← ask
  if r < 0 then
    exit .exited
  else
    let p0 ← ask
    let p1 ← ask
    let r ← ask
    if r < 0 then
      exit .exited
    else if r = 0 then
      moveFd p0 0
      let _ ← ask
      return true
    else
      moveFd p1 1
      let _ ← ask
      return false

/-- The loop of `runcmd` from `again` on: `argc` at `runit`. -/
def parseLoop : Nat → Nat → RunM Nat
  | 0, _ => exit (.fault .fuel)
  | fuel + 1, argc => do
      let (c, t) ← onTokens (gettoken none)
      if c = byte 'w' then
        if argc = maxargs then
          exit .exited
        else
          setArgv argc (t.map fun p => (.line, p))
          parseLoop fuel (argc + 1)
      else if c = byte '<' then
        redirect 0
        parseLoop fuel argc
      else if c = byte '>' then
        redirect 1
        parseLoop fuel argc
      else if c = byte '|' then
        if ← pipeFork then parseLoop fuel 0 else return argc
      else if c = 0 then
        return argc
      else
        exit .panicked

/-- The initial `/` that is added to the name of a command. -/
def addSlash : RunM Unit := do
  let a ← getArgv 0
  let c ← onTokens (onArrays (load a.1 a.2))
  if c ≠ byte '/' then
    onTokens (onArrays (store .argv0buf 0 (byte '/')))
    let s ← onTokens (onArrays (stringAt a.1 a.2))
    onTokens (onArrays (storeBytes .argv0buf 1 (s ++ [0])))
    setArgv 0 (some (.argv0buf, 0))
  else
    return ()

/-- `runcmd` from `argv[argc] = 0` on. It waits for the command, and exits. -/
def spawnCommand (argc : Nat) : RunM Unit := do
  setArgv argc none
  let _ ← ask
  exit .exited

/-- `runcmd` from `runit` on. -/
def runit (argc : Nat) : RunM Unit := do
  if argc = 0 then
    return ()
  else
    addSlash
    spawnCommand argc

/-- The function `runcmd` for the line at index `s`. -/
def runcmd (s : Nat) : RunM Unit := do
  let _ ← onTokens (gettoken (some s))
  let st ← gets State.tok
  let argc ← parseLoop ((st.mem .line).length + 2) 0
  runit argc

/-- The arguments of the commands that `runcmd` comes to, behind the arguments `ws`. A seventeenth
argument, a redirection without a word and the other symbols end the program. At a `|` the parent
runs what it has, and the child goes on. -/
def commands : List (List UInt8) → List (Token UInt8) → List (List (List UInt8))
  | ws, [] => [ws]
  | ws, .word w :: ts => if ws.length = maxargs then [] else commands (ws ++ [w]) ts
  | ws, .symbol c :: ts =>
      if c = byte '<' ∨ c = byte '>' then
        match ts with
        | .word _ :: ts => commands ws ts
        | _ => []
      else if c = byte '|' then
        ws :: commands [] ts
      else
        []

theorem commands_redirect {ws : List (List UInt8)} {c : UInt8} {w : List UInt8}
    {ts : List (Token UInt8)} (hc : c = byte '<' ∨ c = byte '>') :
    commands ws (.symbol c :: .word w :: ts) = commands ws ts := by
  conv_lhs => unfold commands
  exact if_pos hc

theorem commands_pipe {ws : List (List UInt8)} {ts : List (Token UInt8)} :
    commands ws (.symbol (byte '|') :: ts) = ws :: commands [] ts := by
  conv_lhs => unfold commands
  rw [if_neg (by decide), if_pos rfl]

/-- The arguments leave room for the null pointer behind them, and the first one for a slash in
front of it. -/
def Roomy (ws : List (List UInt8)) : Prop :=
  ws.length ≠ maxargs ∧ ∀ w ∈ ws.head?, w.head? ≠ some (byte '/') → w.length + 1 < bufsiz

/-- The run stopped by itself. -/
def Fine : Stop → Prop
  | .fault _ => False
  | .argv _ => False
  | .exited => True
  | .panicked => True

/-! ## The parts of the loop -/

section Parse

variable {st : State} {before : List UInt8} {ts : List (Token UInt8)} {ws : List (List UInt8)}
  {E : Stop → State → Prop}

/-- The state at the start of a pass: the tokens `ts` are to come, and the arguments `ws` have been
stored. -/
structure Parsing (st : State) (before : List UInt8) (ts : List (Token UInt8))
    (ws : List (List UInt8)) : Prop where
  awaits : Awaits st.tok before ts
  symbols : ∀ c, Token.symbol c ∈ ts → isSymbol c = true
  buffer : (st.tok.mem .argv0buf).length = bufsiz
  argv : st.argv.length = maxargs
  room : ws.length ≤ maxargs
  first : ∀ w ∈ ws.head?, ∃ p, st.argv[0]? = some (some (.line, p)) ∧ Kept before p w

theorem symbol_ne {c : UInt8} (hc : isSymbol c = true) : c ≠ byte 'w' ∧ c ≠ 0 := by
  constructor
  · rintro rfl
    exact absurd hc (by decide)
  · rintro rfl
    exact absurd hc (by decide)

theorem wp_on_tokens {α : Type} {x : TokenM α} {Q : α → State → Prop}
    (h : wp x (fun a t => Q a { st with tok := t }) (fun e t => E (.fault e) { st with tok := t })
      st.tok) : wp (onTokens x) Q E st :=
  wp_rescue.2 (wp_zoom.2 h)

theorem Parsing.next {t : Gettoken.State} {more : List UInt8} {ts' : List (Token UInt8)}
    (h : Parsing st before ts ws) (hready : Awaits t (before ++ more) ts') (hts : ts' <:+ ts)
    (hother : t.mem .argv0buf = st.tok.mem .argv0buf) :
    Parsing { st with tok := t } (before ++ more) ts' ws where
  awaits := hready
  symbols := fun c hc => h.symbols c (hts.subset hc)
  buffer := by rw [hother]; exact h.buffer
  argv := h.argv
  room := h.room
  first := by
    intro w hw
    obtain ⟨p, hp, hkept⟩ := h.first w hw
    exact ⟨p, hp, hkept.append more⟩

/-- The next token, in a pass. -/
theorem wp_next {t : Token UInt8} {Q : UInt8 × Option Nat → State → Prop}
    (h : Parsing st before (t :: ts) ws)
    (hQ : ∀ r more st', Answer (Kept (before ++ more)) (some t) r →
      Parsing st' (before ++ more) ts ws → st'.argv = st.argv → st'.answers = st.answers →
      Q r st') :
    wp (onTokens (gettoken none)) Q E st :=
  wp_on_tokens (gettoken_next h.awaits fun r more t' hr hready hother =>
    hQ r more { st with tok := t' } hr (h.next hready (List.suffix_cons t ts) hother) rfl rfl)

theorem wp_next_end {Q : UInt8 × Option Nat → State → Prop} (h : Parsing st before [] ws)
    (hQ : ∀ r st', r.1 = 0 → Parsing st' before [] ws → Q r st') :
    wp (onTokens (gettoken none)) Q E st := by
  refine wp_on_tokens (gettoken_end h.awaits fun r t' hr hready hother => ?_)
  refine hQ r { st with tok := t' } hr ?_
  have hready' : Awaits t' (before ++ []) [] := by
    rw [List.append_nil]
    exact hready
  have hnext := h.next hready' List.suffix_rfl hother
  rw [List.append_nil] at hnext
  exact hnext

/-- System calls change nothing that is modelled here. -/
theorem Parsing.answers (h : Parsing st before ts ws) (answers : List Int) :
    Parsing { st with answers := answers } before ts ws :=
  ⟨h.awaits, h.symbols, h.buffer, h.argv, h.room, h.first⟩

theorem wp_ask {Q : Int → State → Prop}
    (hQ : ∀ answers, Q (st.answers.headD 0) { st with answers := answers }) : wp ask Q E st :=
  hQ st.answers.tail

theorem move_fd_spec {fd n : Int} {Q : Unit → State → Prop}
    (hQ : ∀ answers, Q () { st with answers := answers }) : wp (moveFd fd n) Q E st := by
  rw [moveFd]
  split
  · exact hQ st.answers.tail.tail
  · exact hQ st.answers

/-- A redirection goes on behind its word, or ends the program. -/
theorem redirect_spec {n : Int} {Q : Unit → State → Prop} (h : Parsing st before ts ws)
    (hE : ∀ s, E .exited s)
    (hQ : ∀ w ts' more st', ts = .word w :: ts' → Parsing st' (before ++ more) ts' ws → Q () st') :
    wp (redirect n) Q E st := by
  rw [redirect, wp_bind]
  cases ts with
  | nil =>
      refine wp_next_end h fun r st' hr _ => ?_
      dsimp only
      rw [hr, if_pos (by decide)]
      exact hE st'
  | cons t ts =>
      refine wp_next h fun r more st' hr hnext _ _ => ?_
      dsimp only
      cases t with
      | symbol c =>
          have hc := symbol_ne (h.symbols c List.mem_cons_self)
          rw [if_pos (by rw [show r.1 = c from hr]; exact hc.1)]
          exact hE st'
      | word w =>
          rw [if_neg (fun hne => hne hr.1), wp_bind]
          refine wp_ask fun answers => ?_
          split
          · exact hE _
          · exact move_fd_spec fun answers' => hQ w ts more _ rfl (hnext.answers answers')

theorem pipe_fork_spec {Q : Bool → State → Prop} (hE : ∀ s, E .exited s)
    (hQ : ∀ again answers, Q again { st with answers := answers }) : wp pipeFork Q E st := by
  rw [pipeFork, wp_bind]
  refine wp_ask fun answers₁ => ?_
  split
  · exact hE _
  rw [wp_bind]
  refine wp_ask fun answers₂ => ?_
  rw [wp_bind]
  refine wp_ask fun answers₃ => ?_
  rw [wp_bind]
  refine wp_ask fun answers₄ => ?_
  split
  · exact hE _
  · split
    all_goals
      rw [wp_bind]
      refine move_fd_spec fun answers₅ => ?_
      rw [wp_bind]
      exact wp_ask fun answers₆ => hQ _ answers₆

/-- An argument is stored behind those that are there. -/
theorem Parsing.store {w : List UInt8} {p : Nat} (h : Parsing st before ts ws)
    (hroom : ws.length < maxargs) (hkept : Kept before p w) :
    Parsing { st with argv := st.argv.set ws.length (some (.line, p)) } before ts (ws ++ [w]) where
  awaits := h.awaits
  symbols := h.symbols
  buffer := h.buffer
  argv := by rw [List.length_set]; exact h.argv
  room := by rw [List.length_append, List.length_singleton]; exact hroom
  first := by
    intro v hv
    cases ws with
    | nil =>
        cases hv
        refine ⟨p, ?_, hkept⟩
        rw [List.length_nil, List.getElem?_set_self (by rw [h.argv]; exact hroom)]
    | cons u ws =>
        obtain ⟨q, hq, hkept'⟩ := h.first v hv
        refine ⟨q, ?_, hkept'⟩
        rw [List.getElem?_set_ne (by rw [List.length_cons]; omega)]
        exact hq

/-- The child behind a `|` has no arguments yet. -/
theorem Parsing.again (h : Parsing st before ts ws) : Parsing st before ts [] :=
  ⟨h.awaits, h.symbols, h.buffer, h.argv, Nat.zero_le _, fun w hw => by cases hw⟩

theorem wp_set_argv {i : Nat} {p : Option (Arr × Nat)} {Q : Unit → State → Prop}
    (hi : i < st.argv.length) (hQ : Q () { st with argv := st.argv.set i p }) :
    wp (setArgv i p) Q E st := by
  unfold wp setArgv
  rw [if_pos hi]
  exact hQ

section Tokens

variable {fuel : Nat} {Q : Nat → State → Prop} {c : UInt8} {w : List UInt8}

/-- The loop at the end of the line. -/
theorem wp_loop_end (h : Parsing st before [] ws)
    (hQ : ∀ st', Parsing st' before [] ws → Q ws.length st') :
    wp (parseLoop (fuel + 1) ws.length) Q E st := by
  rw [parseLoop, wp_bind]
  refine wp_next_end h fun r st' hr hnext => ?_
  dsimp only
  rw [hr, if_neg (by decide), if_neg (by decide), if_neg (by decide), if_neg (by decide),
    if_pos rfl]
  exact hQ st' hnext

/-- The loop at a word, which is stored if there is room for it. -/
theorem wp_loop_word (h : Parsing st before (.word w :: ts) ws)
    (hfull : ws.length = maxargs → ∀ s, E .exited s)
    (hQ : ws.length ≠ maxargs → ∀ before' st', Parsing st' before' ts (ws ++ [w]) →
      st'.answers = st.answers → wp (parseLoop fuel (ws ++ [w]).length) Q E st') :
    wp (parseLoop (fuel + 1) ws.length) Q E st := by
  rw [parseLoop, wp_bind]
  refine wp_next h fun r more st' hr hnext _ hsame => ?_
  obtain ⟨hcode, p, hp, hkept⟩ := hr
  dsimp only
  rw [if_pos hcode]
  by_cases hlen : ws.length = maxargs
  · rw [if_pos hlen]
    exact hfull hlen st'
  · have hroom : ws.length < maxargs := Nat.lt_of_le_of_ne h.room hlen
    have hgrow : ws.length + 1 = (ws ++ [w]).length := by simp
    rw [if_neg hlen, wp_bind, hp]
    refine wp_set_argv (by rw [hnext.argv]; exact hroom) ?_
    rw [hgrow]
    exact hQ hlen _ _ (hnext.store hroom hkept) hsame

/-- The loop at the symbol of a redirection. -/
theorem wp_loop_redirect (hc : c = byte '<' ∨ c = byte '>')
    (h : Parsing st before (.symbol c :: ts) ws)
    (hQ : ∀ before' st', Parsing st' before' ts ws → st'.answers = st.answers →
      wp (redirect (if c = byte '<' then 0 else 1))
        (fun _ s => wp (parseLoop fuel ws.length) Q E s) E st') :
    wp (parseLoop (fuel + 1) ws.length) Q E st := by
  rw [parseLoop, wp_bind]
  refine wp_next h fun r more st' hr hnext _ hsame => ?_
  have hcode : r.1 = c := hr
  have hrun := hQ _ st' hnext hsame
  dsimp only
  rw [hcode, if_neg (symbol_ne (h.symbols c List.mem_cons_self)).1]
  by_cases hless : c = byte '<'
  · rw [if_pos hless] at hrun
    rw [if_pos hless, wp_bind]
    exact hrun
  · rw [if_neg hless] at hrun
    rw [if_neg hless, if_pos (hc.resolve_left hless), wp_bind]
    exact hrun

/-- The loop at the symbol of a pipe. -/
theorem wp_loop_pipe (h : Parsing st before (.symbol (byte '|') :: ts) ws)
    (hQ : ∀ before' st', Parsing st' before' ts ws → st'.answers = st.answers →
      wp pipeFork (fun again s => wp (if again = true then parseLoop fuel 0 else return ws.length)
        Q E s) E st') :
    wp (parseLoop (fuel + 1) ws.length) Q E st := by
  rw [parseLoop, wp_bind]
  refine wp_next h fun r more st' hr hnext _ hsame => ?_
  have hcode : r.1 = byte '|' := hr
  dsimp only
  rw [hcode, if_neg (by decide), if_neg (by decide), if_neg (by decide), if_pos rfl, wp_bind]
  exact hQ _ st' hnext hsame

/-- The loop at any other symbol. -/
theorem wp_loop_other (h : Parsing st before (.symbol c :: ts) ws)
    (hc : ¬ (c = byte '<' ∨ c = byte '>')) (hpipe : c ≠ byte '|') (hE : ∀ s, E .panicked s) :
    wp (parseLoop (fuel + 1) ws.length) Q E st := by
  rw [parseLoop, wp_bind]
  refine wp_next h fun r more st' hr _ _ _ => ?_
  have hcode : r.1 = c := hr
  obtain ⟨hword, hzero⟩ := symbol_ne (h.symbols c List.mem_cons_self)
  rw [not_or] at hc
  dsimp only
  rw [hcode, if_neg hword, if_neg hc.1, if_neg hc.2, if_neg hpipe, if_neg hzero]
  exact hE st'

end Tokens

/-- Every way through the loop ends the program, or comes to a command. -/
theorem parse_loop_spec {fuel : Nat} {Q : Nat → State → Prop} (hfuel : ts.length < fuel)
    (h : Parsing st before ts ws) (hE : ∀ s, E .exited s) (hE' : ∀ s, E .panicked s)
    (hQ : ∀ ws' ∈ commands ws ts, ∀ before' ts' st', Parsing st' before' ts' ws' →
      Q ws'.length st') :
    wp (parseLoop fuel ws.length) Q E st := by
  induction fuel generalizing ts ws before st with
  | zero => omega
  | succ fuel ih =>
      cases ts with
      | nil => exact wp_loop_end h fun st' hnext => hQ ws List.mem_cons_self _ _ st' hnext
      | cons t ts =>
          rw [List.length_cons] at hfuel
          cases t with
          | word w =>
              refine wp_loop_word h (fun _ => hE) fun hroom before' st' hnext _ => ?_
              rw [commands, if_neg hroom] at hQ
              exact ih (by omega) hnext hQ
          | symbol c =>
              by_cases hc : c = byte '<' ∨ c = byte '>'
              · refine wp_loop_redirect hc h fun before' st' hnext _ => ?_
                refine redirect_spec hnext hE fun w ts' more st'' hts hnext' => ?_
                subst hts
                rw [commands_redirect hc] at hQ
                exact ih (by rw [List.length_cons] at hfuel; omega) hnext' hQ
              by_cases hpipe : c = byte '|'
              · subst hpipe
                rw [commands_pipe] at hQ
                refine wp_loop_pipe h fun before' st' hnext _ => ?_
                refine pipe_fork_spec hE fun again answers => ?_
                cases again with
                | false => exact hQ ws List.mem_cons_self _ _ _ (hnext.answers answers)
                | true =>
                    exact ih (by omega) (hnext.answers answers).again fun ws' hws' =>
                      hQ ws' (List.mem_cons_of_mem ws hws')
              · exact wp_loop_other h hc hpipe hE'

/-- The access to the arrays of the shell. -/
theorem wp_on_line {α : Type} {x : Prog (Arrays Arr) (Fault Arr) α} {Q : α → State → Prop}
    (h : wp x (fun a m => Q a { st with tok := { st.tok with mem := m } })
      (fun e m => E (.fault e) { st with tok := { st.tok with mem := m } }) st.tok.mem) :
    wp (onTokens (onArrays x)) Q E st :=
  wp_on_tokens (wp_on_arrays h)

/-- The null pointer is stored behind the arguments if there is room. -/
theorem spawn_command_spec (hargv : st.argv.length = maxargs) (hlen : ws.length ≤ maxargs)
    (hfirst : ∀ w ∈ ws.head?, w.head? ≠ some (byte '/') → w.length + 1 < bufsiz) :
    wp (spawnCommand ws.length) (fun _ _ => Roomy ws) (fun stop _ => Fine stop ↔ Roomy ws) st := by
  rw [spawnCommand, wp_bind]
  by_cases hroom : ws.length < maxargs
  · refine wp_set_argv (by rw [hargv]; exact hroom) ?_
    rw [wp_bind]
    refine wp_ask fun answers => ?_
    exact ⟨fun _ => ⟨by omega, hfirst⟩, fun _ => trivial⟩
  · unfold wp setArgv
    rw [if_neg (by rw [hargv]; exact hroom)]
    exact ⟨False.elim, fun h => h.1 (by omega)⟩

/-- The name of the command fits its buffer with a slash in front of it, or has one. -/
theorem add_slash_spec {w : List UInt8} {Q : Unit → State → Prop}
    (h : Parsing st before ts (w :: ws))
    (hover : w.head? ≠ some (byte '/') → bufsiz ≤ w.length + 1 → ∀ f s, E (.fault f) s)
    (hQ : (w.head? ≠ some (byte '/') → w.length + 1 < bufsiz) → ∀ s, s.argv.length = maxargs →
      Q () s) : wp addSlash Q E st := by
  obtain ⟨p, hp, hkept⟩ := h.first w rfl
  have hword : HoldsString (st.tok.mem .line) p w := hkept.holds h.awaits.starts
  have hget : getArgv 0 st = .ret (.line, p) st := by rw [getArgv, hp]
  rw [addSlash, wp_bind]
  refine (wp_of_ret hget).2 ?_
  rw [wp_bind]
  refine wp_on_line (wp_load_head hword ?_)
  by_cases hslash : w.head?.getD 0 ≠ byte '/'
  · have hhead : w.head? ≠ some (byte '/') := by
      intro heq
      rw [heq] at hslash
      exact hslash rfl
    have hlen : (w ++ [0]).length = w.length + 1 := by simp
    rw [if_pos hslash, wp_bind]
    -- the slash is stored at the start of the buffer, and `strcpy` follows
    refine wp_on_line (wp_store (by rw [h.buffer]; decide) ?_)
    rw [wp_bind]
    refine wp_on_line (wp_string_at (s := w) ?_ ?_)
    · dsimp only
      rw [Function.update_of_ne (by decide)]
      exact hword
    rw [wp_bind]
    refine wp_on_line (wp_store_bytes ?_ ?_ ?_)
    · dsimp only
      rw [Function.update_self, List.length_set, h.buffer]
      decide
    · dsimp only
      rw [Function.update_self, List.length_set, h.buffer, hlen]
      intro hfit
      refine wp_set_argv (by rw [h.argv]; decide) (hQ (fun _ => by omega) _ ?_)
      dsimp only
      rw [List.length_set, h.argv]
    · dsimp only
      rw [Function.update_self, List.length_set, h.buffer, hlen]
      intro hfull j m
      exact hover hhead (by omega) _ _
  · have hhead : w.head? = some (byte '/') := by
      cases w with
      | nil => exact absurd (by decide) hslash
      | cons c w => simpa using hslash
    rw [if_neg hslash]
    exact hQ (fun hne => absurd hhead hne) _ h.argv

/-- The stores of `runit` stay in their arrays exactly when the arguments leave room. -/
theorem runit_spec (h : Parsing st before ts ws) :
    wp (runit ws.length) (fun _ _ => Roomy ws) (fun stop _ => Fine stop ↔ Roomy ws) st := by
  rw [runit]
  cases ws with
  | nil =>
      rw [if_pos List.length_nil]
      exact ⟨by decide, fun w hw => by cases hw⟩
  | cons w ws =>
      rw [if_neg (by rw [List.length_cons]; exact Nat.succ_ne_zero _), wp_bind]
      refine add_slash_spec h ?_ ?_
      · intro hhead hlong f s
        refine ⟨False.elim, fun hroomy => ?_⟩
        have hshort := hroomy.2 w rfl hhead
        omega
      · intro hfirst s hargv
        refine spawn_command_spec hargv h.room fun v hv => ?_
        cases hv
        exact hfirst

theorem mem_commands_symbol {c : UInt8} {ws' : List (List UInt8)}
    (h : ws' ∈ commands ws (.symbol c :: ts)) :
    ((c = byte '<' ∨ c = byte '>') ∧ ∃ w ts', ts = .word w :: ts' ∧ ws' ∈ commands ws ts') ∨
      (c = byte '|' ∧ (ws' = ws ∨ ws' ∈ commands [] ts)) := by
  unfold commands at h
  split at h
  case isTrue hc =>
    split at h
    case h_1 w ts' => exact .inl ⟨hc, w, ts', rfl, h⟩
    case h_2 => cases h
  case isFalse =>
    split at h
    case isTrue hc => exact .inr ⟨hc, List.mem_cons.1 h⟩
    case isFalse => cases h

/-- A file that is opened as the number that it should have. -/
theorem redirect_opens {n : Int} {w : List UInt8} {answers : List Int} {Q : Unit → State → Prop}
    (h : Parsing st before (.word w :: ts) ws) (hanswers : st.answers = n :: answers) (hn : 0 ≤ n)
    (hQ : ∀ more st', Parsing st' (before ++ more) ts ws → st'.answers = answers → Q () st') :
    wp (redirect n) Q E st := by
  rw [redirect, wp_bind]
  refine wp_next h fun r more st' hr hnext _ hsame => ?_
  dsimp only
  rw [if_neg (fun hne => hne hr.1), wp_bind]
  have hask : ask st' = .ret n { st' with answers := answers } := by
    rw [ask, hsame, hanswers]
    rfl
  refine (wp_of_ret hask).2 ?_
  rw [if_neg (by omega), moveFd, if_neg (fun hne => hne rfl)]
  exact hQ more _ (hnext.answers answers) rfl

theorem pipe_fork_child {answers : List Int} (h : st.answers = 0 :: 0 :: 1 :: 0 :: 0 :: answers) :
    pipeFork st = .ret true { st with answers := answers } := by
  obtain ⟨tok, argv, given⟩ := st
  cases h
  rfl

theorem pipe_fork_parent (h : st.answers = [0, 0, 1, 1, 0]) :
    pipeFork st = .ret false { st with answers := [] } := by
  obtain ⟨tok, argv, given⟩ := st
  cases h
  rfl

/-- With these answers of the system, the loop comes from `ws` and the tokens to the command
`ws'`. -/
def Reaches (ts : List (Token UInt8)) (ws ws' : List (List UInt8)) (answers : List Int) : Prop :=
  ∀ fuel before st, ts.length < fuel → Parsing st before ts ws → st.answers = answers →
    wp (parseLoop fuel ws.length) (fun argc st' => argc = ws'.length ∧ ∃ before' ts',
      Parsing st' before' ts' ws') (fun _ _ => False) st

section Reaches

variable {ws' : List (List UInt8)} {answers : List Int}

theorem reaches_end : Reaches [] ws ws [] := by
  intro fuel before st hfuel h _
  cases fuel with
  | zero => omega
  | succ fuel => exact wp_loop_end h fun st' hnext => ⟨rfl, _, _, hnext⟩

theorem Reaches.word {w : List UInt8} (hroom : ws.length ≠ maxargs)
    (hrun : Reaches ts (ws ++ [w]) ws' answers) : Reaches (.word w :: ts) ws ws' answers := by
  intro fuel before st hfuel h hanswers
  rw [List.length_cons] at hfuel
  cases fuel with
  | zero => omega
  | succ fuel =>
      refine wp_loop_word h (fun hfull => absurd hfull hroom) fun _ before' st' hnext hsame => ?_
      exact hrun fuel before' st' (by omega) hnext (hsame.trans hanswers)

/-- The file is opened as the number that it should have. -/
theorem Reaches.redirect {c : UInt8} {w : List UInt8} (hc : c = byte '<' ∨ c = byte '>')
    (hrun : Reaches ts ws ws' answers) : Reaches (.symbol c :: .word w :: ts) ws ws'
      ((if c = byte '<' then 0 else 1) :: answers) := by
  intro fuel before st hfuel h hanswers
  rw [List.length_cons, List.length_cons] at hfuel
  cases fuel with
  | zero => omega
  | succ fuel =>
      refine wp_loop_redirect hc h fun before' st' hnext hsame => ?_
      refine redirect_opens hnext (hsame.trans hanswers) (by split <;> decide) ?_
      intro more st'' hnext' hanswers'
      exact hrun fuel _ st'' (by omega) hnext' hanswers'

/-- The parent runs the command in front of the pipe. -/
theorem reaches_pipe : Reaches (.symbol (byte '|') :: ts) ws ws [0, 0, 1, 1, 0] := by
  intro fuel before st hfuel h hanswers
  cases fuel with
  | zero => omega
  | succ fuel =>
      refine wp_loop_pipe h fun before' st' hnext hsame => ?_
      refine (wp_of_ret (pipe_fork_parent (hsame.trans hanswers))).2 ?_
      exact ⟨rfl, _, _, hnext.answers []⟩

/-- The child goes on with the commands behind the pipe. -/
theorem Reaches.pipe (hrun : Reaches ts [] ws' answers) :
    Reaches (.symbol (byte '|') :: ts) ws ws' (0 :: 0 :: 1 :: 0 :: 0 :: answers) := by
  intro fuel before st hfuel h hanswers
  rw [List.length_cons] at hfuel
  cases fuel with
  | zero => omega
  | succ fuel =>
      refine wp_loop_pipe h fun before' st' hnext hsame => ?_
      refine (wp_of_ret (pipe_fork_child (hsame.trans hanswers))).2 ?_
      exact hrun fuel _ _ (by omega) (hnext.answers answers).again rfl

/-- Every command can be come to. -/
theorem parse_reaches (hws' : ws' ∈ commands ws ts) : ∃ answers, Reaches ts ws ws' answers := by
  -- a redirection takes two tokens at once
  induction hlen : ts.length using Nat.strong_induction_on generalizing ws ts with
  | _ n ih =>
      cases ts with
      | nil =>
          rw [commands, List.mem_singleton] at hws'
          subst hws'
          exact ⟨[], reaches_end⟩
      | cons t ts =>
          rw [List.length_cons] at hlen
          cases t with
          | word w =>
              rw [commands] at hws'
              by_cases hfull : ws.length = maxargs
              · rw [if_pos hfull] at hws'
                cases hws'
              · rw [if_neg hfull] at hws'
                obtain ⟨answers, hrun⟩ := ih ts.length (by omega) hws' rfl
                exact ⟨answers, hrun.word hfull⟩
          | symbol c =>
              cases mem_commands_symbol hws' with
              | inl hredirect =>
                  obtain ⟨hc, w, ts', rfl, hmem⟩ := hredirect
                  rw [List.length_cons] at hlen
                  obtain ⟨answers, hrun⟩ := ih ts'.length (by omega) hmem rfl
                  exact ⟨_, hrun.redirect hc⟩
              | inr hpipe =>
                  obtain ⟨rfl, hmem⟩ := hpipe
                  cases hmem with
                  | inl hmem =>
                      subst hmem
                      exact ⟨_, reaches_pipe⟩
                  | inr hmem =>
                      obtain ⟨answers, hrun⟩ := ih ts.length (by omega) hmem rfl
                      exact ⟨_, hrun.pipe⟩

end Reaches

end Parse

/-! ## The stores of a run -/

section Run

/-- The shell in front of `runcmd`, with any bytes in its arrays, any old values of its variables,
and these results of system calls. -/
structure Shell where
  line : Vector UInt8 bufsiz
  argv0buf : Vector UInt8 bufsiz
  argv : Vector (Option (Arr × Nat)) maxargs
  c : UInt8
  nc : UInt8
  np1 : Option Nat
  np2 : Option Nat

/-- The state in front of `runcmd`. -/
def Shell.start (shell : Shell) (answers : List Int) : State where
  tok :=
    { mem := fun
        | .line => shell.line.toList
        | .argv0buf => shell.argv0buf.toList
      c := shell.c
      nc := shell.nc
      np1 := shell.np1
      np2 := shell.np2 }
  argv := shell.argv.toList
  answers := answers

/-- Whatever the system calls return, `runcmd` stays in its arrays. -/
def Shell.Safe (shell : Shell) : Prop :=
  ∀ answers, wp (runcmd 0) (fun _ _ => True) (fun stop _ => Fine stop) (shell.start answers)

variable {shell : Shell} {s : List UInt8} {answers : List Int}
  {Q : Unit → State → Prop} {E : Stop → State → Prop}

/-- The first token has been read when the loop starts. -/
theorem runcmd_starts (hline : HoldsString shell.line.toList 0 s)
    (h : ∀ before st fuel, Parsing st before (tokens isBlank isSymbol s) [] →
      st.answers = answers → (tokens isBlank isSymbol s).length < fuel →
      wp (parseLoop fuel ([] : List (List UInt8)).length) (fun argc t => wp (runit argc) Q E t) E
        st) :
    wp (runcmd 0) Q E (shell.start answers) := by
  have hsplit : Tokens s (tokens isBlank isSymbol s) := split_tokens s
  rw [runcmd, wp_bind]
  refine wp_on_tokens (gettoken_start hline hsplit fun before t hready hother => ?_)
  rw [wp_bind, wp_gets, wp_bind]
  refine h before _ _ ⟨hready, fun c => symbol_of_split hsplit, ?_, ?_, Nat.zero_le _, ?_⟩ rfl ?_
  · rw [hother]
    exact shell.argv0buf.length_toList
  · exact shell.argv.length_toList
  · intro w hw
    cases hw
  · have hlen := hready.length_le
    dsimp only
    omega

/-- Every command can be come to, so it must leave room. -/
theorem roomy_of_safe {ws : List (List UInt8)} (hline : HoldsString shell.line.toList 0 s)
    (hsafe : shell.Safe) (hws : ws ∈ commands [] (tokens isBlank isSymbol s)) : Roomy ws := by
  obtain ⟨answers, hreach⟩ := parse_reaches hws
  have hrun : wp (runcmd 0) (fun _ _ => Roomy ws) (fun stop _ => Fine stop ↔ Roomy ws)
      (shell.start answers) := by
    refine runcmd_starts hline fun before st fuel h hanswers hfuel => ?_
    refine wp_mono (hreach fuel before st hfuel h hanswers) ?_ fun _ _ hfalse => hfalse.elim
    intro argc t hcommand
    obtain ⟨hargc, before', ts', h'⟩ := hcommand
    rw [hargc]
    exact runit_spec h'
  have hboth := wp_and (hsafe answers) hrun
  cases hend : runcmd 0 (shell.start answers) with
  | ret a t => exact ((wp_of_ret hend).1 hboth).2
  | exit e t =>
      obtain ⟨hfine, hiff⟩ := (wp_of_exit hend).1 hboth
      exact hiff.1 hfine

/-- Whatever the system calls return, every store of `runcmd` to `argv` and `argv0buf` is inside its
array exactly when every command that it comes to leaves room. -/
theorem runcmd_safe_iff (hline : HoldsString shell.line.toList 0 s) :
    shell.Safe ↔ ∀ ws ∈ commands [] (tokens isBlank isSymbol s), Roomy ws := by
  constructor
  · intro hsafe ws hws
    exact roomy_of_safe hline hsafe hws
  · intro hroomy answers
    refine runcmd_starts hline fun before st fuel h _ hfuel => ?_
    refine parse_loop_spec hfuel h (fun _ => trivial) (fun _ => trivial) ?_
    intro ws hws before' ts' st' h'
    refine wp_mono (runit_spec h') (fun _ _ _ => trivial) fun stop _ hiff => ?_
    exact hiff.2 (hroomy ws hws)

/-- The shell with this line, and zeros everywhere else. -/
def Shell.ofLine (s : List UInt8) (hlen : s.length ≤ 1023) : Shell where
  line := ⟨(s ++ 0 :: List.replicate (1023 - s.length) 0).toArray, by
    simp only [List.size_toArray, List.length_append, List.length_cons, List.length_replicate]
    unfold bufsiz
    omega⟩
  argv0buf := Vector.replicate bufsiz 0
  argv := Vector.replicate maxargs none
  c := 0
  nc := 0
  np1 := none
  np2 := none

theorem holds_line (hlen : s.length ≤ 1023) (hzero : 0 ∉ s) :
    HoldsString (Shell.ofLine s hlen).line.toList 0 s :=
  holds_string_start hzero

/-- A line with two commands. -/
theorem runcmd_safe_iff_pipe : (Shell.ofLine (ascii "ls|wc") (by decide)).Safe ↔
    ∀ ws ∈ commands [] (tokens isBlank isSymbol (ascii "ls|wc")), Roomy ws :=
  runcmd_safe_iff (holds_line _ (by decide))

/-- Sixteen arguments. -/
def sixteen : List (List UInt8) := List.replicate 16 (ascii "a")

/-- The sixteen arguments fill `argv`, and the null pointer goes behind it. -/
theorem sixteen_overrun : ¬ ∀ (shell : Shell) (s : List UInt8),
    HoldsString shell.line.toList 0 s → s.length ≤ 1023 → shell.Safe := by
  intro hall
  obtain ⟨shell, hline⟩ : ∃ shell : Shell,
      HoldsString shell.line.toList 0 (ascii "a a a a a a a a a a a a a a a a") :=
    ⟨_, holds_line (by decide) (by decide)⟩
  have hcommand : sixteen ∈ commands [] (tokens isBlank isSymbol
      (ascii "a a a a a a a a a a a a a a a a")) := by decide
  exact (roomy_of_safe hline (hall _ _ hline (by decide)) hcommand).1 (by decide)

end Run

/-! ## The line -/

/-- The loop of `readline` of `lib/readline.c` for these characters, none where `getchar` fails:
whether a line has been read. -/
def readlineLoop : List (Option UInt8) → Nat → Prog (Arrays Arr) (Fault Arr) Bool
  | [], _ => return false
  | none :: _, _ => return false
  | some c :: cs, i =>
      if (c = 8 ∨ c = 127) ∧ 0 < i then
        readlineLoop cs (i - 1)
      else if byte ' ' ≤ c ∧ i < bufsiz - 1 then do
        store .line i c
        readlineLoop cs (i + 1)
      else if c = byte '\n' ∨ c = byte '\r' then do
        store .line i 0
        return true
      else
        readlineLoop cs i

/-- The function `readline`. -/
def readline (cs : List (Option UInt8)) : Prog (Arrays Arr) (Fault Arr) Bool := readlineLoop cs 0

theorem readline_loop_spec {cs : List (Option UInt8)} {done old : List UInt8} {i : Nat}
    {m : Arrays Arr} {Q : Bool → Arrays Arr → Prop} {E : Fault Arr → Arrays Arr → Prop}
    (hline : m .line = done ++ old) (hlen : (m .line).length = bufsiz) (hi : i ≤ bufsiz - 1)
    (hdone : done.length = i) (hzero : 0 ∉ done) (hfalse : ∀ m', Q false m')
    (htrue : ∀ s m', HoldsString (m' .line) 0 s → s.length ≤ bufsiz - 1 →
      (m' .line).length = bufsiz → Q true m') :
    wp (readlineLoop cs i) Q E m := by
  induction cs generalizing done old i m with
  | nil => exact hfalse m
  | cons c cs ih =>
      cases c with
      | none => exact hfalse m
      | some c =>
          -- the buffer has room for one more byte
          obtain ⟨x, behind, hold⟩ : ∃ x behind, old = x :: behind := by
            cases old with
            | nil =>
                rw [hline, List.append_nil, hdone] at hlen
                unfold bufsiz at hlen hi
                omega
            | cons x behind => exact ⟨x, behind, rfl⟩
          subst hold
          have hsame : ∀ d : UInt8, (done ++ d :: behind).length = bufsiz := by
            intro d
            rw [← hlen, hline]
            simp
          rw [readlineLoop]
          split
          case isTrue hback =>
            obtain ⟨front, last, hsplit⟩ : ∃ front last, done = front ++ [last] := by
              rcases List.eq_nil_or_concat done with hnil | ⟨front, last, hsplit⟩
              · rw [hnil] at hdone
                exact absurd hback.2 (by rw [← hdone]; decide)
              · exact ⟨front, last, by rw [hsplit, List.concat_eq_append]⟩
            subst hsplit
            rw [List.append_assoc] at hline
            rw [List.length_append, List.length_singleton] at hdone
            exact ih hline hlen (by omega) (by omega) fun hmem =>
              hzero (List.mem_append_left _ hmem)
          case isFalse =>
            split
            case isTrue hplain =>
              rw [wp_bind]
              refine wp_store_at hline hdone.symm ?_
              have hgrow : done ++ c :: behind = (done ++ [c]) ++ behind := by simp
              refine ih ((Function.update_self ..).trans hgrow) ?_ (by omega) ?_ ?_
              · rw [Function.update_self, hsame]
              · rw [List.length_append, List.length_singleton, hdone]
              · rw [List.mem_append, not_or, List.mem_singleton]
                refine ⟨hzero, fun heq => ?_⟩
                rw [← heq] at hplain
                exact absurd hplain.1 (by decide)
            case isFalse =>
              split
              case isTrue =>
                rw [wp_bind]
                refine wp_store_at hline hdone.symm (htrue done _ ?_ (by omega) ?_)
                · rw [Function.update_self]
                  exact holds_string_start hzero
                · rw [Function.update_self, hsame]
              case isFalse => exact ih hline hlen hi hdone hzero

/-- What `readline` returns is a string of at most 1023 bytes, and its stores are in its buffer. -/
theorem readline_spec {cs : List (Option UInt8)} {m : Arrays Arr}
    (hlen : (m .line).length = bufsiz) :
    wp (readline cs) (fun r m' => r = true → ∃ s, HoldsString (m' .line) 0 s ∧ s.length ≤ 1023)
      (fun _ _ => False) m := by
  refine readline_loop_spec (List.nil_append _).symm hlen (Nat.zero_le _) rfl List.not_mem_nil ?_ ?_
  · intro m' h
    cases h
  · intro s m' hline hshort _ _
    exact ⟨s, hline, hshort⟩

end Labs.Jos.Runcmd
