import Labs.Zoo.ReadLine

/-!
# The response of a script

The parent's branch of `http_serve_executable` in `http.c`. It reads the header lines that the
script prints, keeps those in front of the `Status` line in the array `headers`, and sends what
comes behind them line by line. `strncasecmp` takes a `Status` line in any case.
-/

namespace Labs.Zoo.Executable

open Prog CArray ReadLine

/-- The array whose contents are sent. -/
inductive Arr where
  | headers
  deriving DecidableEq

/-- The array, what the script has yet to print, and what has been sent to the client. -/
structure State where
  mem : Arrays Arr
  input : List UInt8
  sent : List UInt8

/-- A program of the parent. -/
abbrev ServeM (α : Type) := Prog State (Fault Arr) α

/-- Work on the array. -/
def onHeaders {α : Type} (x : Prog (Arrays Arr) (Fault Arr) α) : ServeM α :=
  zoom State.mem (fun m s => { s with mem := m }) x

/-- The end of a line. -/
def crlf : List UInt8 := [byte '\r', byte '\n']

/-- Send bytes to the client. -/
def send (bytes : List UInt8) : ServeM Unit := modify fun s => { s with sent := s.sent ++ bytes }

/-- What the function `http_err` sends with the code 500. -/
def errorPage (msg : List UInt8) : List UInt8 :=
  ascii "HTTP/1.0 500 Error" ++ crlf ++ ascii "Content-Type: text/html" ++ crlf ++ crlf ++
    ascii "<H1>An error occurred</H1>" ++ crlf ++ msg ++ [byte '\n']

/-- `tolower`. -/
def tolower (c : UInt8) : UInt8 := if byte 'A' ≤ c ∧ c ≤ byte 'Z' then c + 32 else c

/-- `strncasecmp("Status: ", buf, 8) == 0`. -/
def isStatus (buf : List UInt8) : Bool := (buf.take 8).map tolower = ascii "status: "

/-- `snprintf(&a[i], n, …)` of this text, for a positive `n`. -/
def snprintf (a : Arr) (i n : Nat) (text : List UInt8) : Prog (Arrays Arr) (Fault Arr) Nat := do
  storeBytes a i (text.take (n - 1) ++ [0])
  return text.length

/-- The loop over the header lines: `statusprinted` at the end, or none after an error. -/
def headLoop : Nat → Bool → Nat → Nat → ServeM (Option Bool)
  | 0, _, _, _ => exit .fuel
  | fuel + 1, statusprinted, pheaders, headerslen => do
      let input ← gets State.input
      match Http.httpReadLine 1024 [] input with
      | none => do
          modify fun s => { s with input := [] }
          send (errorPage (ascii "Premature end of script headers"))
          return none
      | some (line, rest) => do
          modify fun s => { s with input := rest }
          let buf := cstr line
          if buf = [] then
            return some statusprinted
          else if statusprinted = false ∧ isStatus buf = true then
            let headers ← onHeaders (stringAt .headers 0)
            send (ascii "HTTP/1.1 " ++ buf.drop 8 ++ crlf ++ headers)
            headLoop fuel true pheaders headerslen
          else if statusprinted = true then
            send (buf ++ crlf)
            headLoop fuel statusprinted pheaders headerslen
          else
            let ret ← onHeaders (snprintf .headers pheaders headerslen (buf ++ crlf))
            if headerslen ≤ ret then
              send (errorPage (ascii "Too many script headers"))
              return none
            else if headerslen - ret = 0 then
              send (errorPage (ascii "Too many script headers"))
              return none
            else
              headLoop fuel statusprinted (pheaders + ret) (headerslen - ret)

/-- The loop that sends what the script prints behind its headers. -/
def copyLoop : Nat → ServeM Unit
  | 0 => exit .fuel
  | fuel + 1 => do
      let input ← gets State.input
      if input = [] then
        return ()
      else
        modify fun s => { s with input := input.drop 1024 }
        send (input.take 1024)
        copyLoop fuel

/-- The function `http_serve_executable` in the parent, for a script that prints `input`. -/
def httpServeExecutable : ServeM Unit := do
  let input ← gets State.input
  match ← headLoop (input.length + 1) false 0 4096 with
  | none => return ()
  | some statusprinted => do
      if statusprinted = true then
        send crlf
      else
        let headers ← onHeaders (stringAt .headers 0)
        send (ascii "HTTP/1.0 200 OK" ++ crlf ++ headers ++ crlf)
      copyLoop (input.length + 1)

/-- Lines as they are sent. -/
def written (ls : List (List UInt8)) : List UInt8 := ls.flatMap (· ++ crlf)

/-- The status line of a script without one. -/
def okLine : List UInt8 := ascii "HTTP/1.0 200 OK" ++ crlf

/-- The status line for these header lines. -/
def statusLine (ls : List (List UInt8)) : List UInt8 :=
  match ls.find? isStatus with
  | some l => ascii "HTTP/1.1 " ++ l.drop 8 ++ crlf
  | none => okLine

/-- The other lines. -/
def others (ls : List (List UInt8)) : List (List UInt8) := ls.filter fun l => !isStatus l

/-- The head of the response for these header lines: one status line, the other lines in their
order, and the blank line. -/
def head (ls : List (List UInt8)) : List UInt8 := statusLine ls ++ written (others ls) ++ crlf

/-- The lines in front of the `Status` line, which wait in `headers`. -/
def buffered (ls : List (List UInt8)) : List (List UInt8) := ls.takeWhile fun l => !isStatus l

/-- What is sent for the lines behind the status line. A line that starts with a zero ends the
headers, and the rest passes for the body. -/
def Streamed (body : List UInt8) : List (List UInt8) → List UInt8 → Prop
  | [], out => out = crlf ++ body
  | l :: ls, out =>
      if cstr l = [] then ∃ rest, out = crlf ++ rest
      else ∃ out', out = cstr l ++ crlf ++ out' ∧ Streamed body ls out'

/-- What is sent when the lines `done` are in `headers`. -/
def Sent (body : List UInt8) (done : List (List UInt8)) : List (List UInt8) → List UInt8 → Prop
  | [], out => out = okLine ++ written (done.map cstr) ++ crlf ++ body
  | l :: ls, out =>
      if cstr l = [] then
        ∃ rest, out = okLine ++ written (done.map cstr) ++ crlf ++ rest
      else if isStatus (cstr l) = true then
        ∃ out', out =
            ascii "HTTP/1.1 " ++ (cstr l).drop 8 ++ crlf ++ written (done.map cstr) ++ out' ∧
          Streamed body ls out'
      else if 4096 ≤ (written ((done ++ [l]).map cstr)).length then
        out = errorPage (ascii "Too many script headers")
      else
        Sent body (done ++ [l]) ls out

section Pure

variable {body out : List UInt8} {l : List UInt8} {ls done : List (List UInt8)}

/-- A line that is kept leaves the answer to the lines behind it. -/
theorem sent_keep (hne : cstr l ≠ []) (hplain : isStatus (cstr l) ≠ true)
    (hfit : (written ((done ++ [l]).map cstr)).length < 4096) (h : Sent body (done ++ [l]) ls out) :
    Sent body done (l :: ls) out := by
  rw [Sent, if_neg hne, if_neg hplain, if_neg (Nat.not_le_of_lt hfit)]
  exact h

theorem written_append (ls ls' : List (List UInt8)) :
    written (ls ++ ls') = written ls ++ written ls' := List.flatMap_append

theorem written_cons (l : List UInt8) (ls : List (List UInt8)) :
    written (l :: ls) = l ++ crlf ++ written ls := List.flatMap_cons

/-- A list with a zero is its string, and then a zero. -/
theorem cstr_split (h : 0 ∈ l) : ∃ rest, l = cstr l ++ 0 :: rest := by
  cases hcut : cut 0 l with
  | none => exact absurd h (cut_eq_none.1 hcut)
  | some found =>
      obtain ⟨piece, rest⟩ := found
      obtain ⟨hl, hpiece⟩ := cut_eq_some.1 hcut
      refine ⟨rest, ?_⟩
      rw [hl, cstr_append_zero hpiece]

/-- A line that is sent in full has no zero. -/
theorem cstr_cancel {x y : List UInt8} (h : cstr l ++ crlf ++ x = l ++ crlf ++ y) :
    0 ∉ l ∧ x = y := by
  have hzero : 0 ∉ l := by
    intro hmem
    obtain ⟨rest, hl⟩ := cstr_split hmem
    have htail : crlf ++ x = 0 :: (rest ++ (crlf ++ y)) := by
      refine List.append_cancel_left (?_ : cstr l ++ _ = cstr l ++ _)
      rw [← List.append_assoc, h]
      conv_lhs => rw [hl]
      simp
    cases htail
  rw [cstr_of_not_mem hzero] at h
  exact ⟨hzero, List.append_cancel_left h⟩

/-- Lines that are sent in full have no zeros. -/
theorem written_cancel {x y : List UInt8} (h : written (ls.map cstr) ++ x = written ls ++ y) :
    (∀ l ∈ ls, 0 ∉ l) ∧ x = y := by
  induction ls with
  | nil =>
      refine ⟨?_, h⟩
      intro l hl
      cases hl
  | cons l ls ih =>
      rw [List.map_cons, written_cons, written_cons, List.append_assoc _ (written _),
        List.append_assoc _ (written _)] at h
      obtain ⟨hl, hrest⟩ := cstr_cancel h
      obtain ⟨hls, hxy⟩ := ih hrest
      exact ⟨List.forall_mem_cons.2 ⟨hl, hls⟩, hxy⟩

theorem map_cstr (h : ∀ l ∈ ls, 0 ∉ l) : ls.map cstr = ls := by
  refine (List.map_congr_left fun l hl => ?_).trans (List.map_id ls)
  exact cstr_of_not_mem (h l hl)

/-- A line that is not empty but has an empty string starts with a zero. -/
theorem cstr_eq_nil (hne : l ≠ []) (h : cstr l = []) : ∃ rest, l = 0 :: rest := by
  by_cases hzero : 0 ∈ l
  · obtain ⟨rest, hl⟩ := cstr_split hzero
    rw [h] at hl
    exact ⟨rest, hl⟩
  · rw [cstr_of_not_mem hzero] at h
    exact absurd h hne

/-- The bytes of a line in front of its first zero are those of its string. -/
theorem take_cstr {n : Nat} (h : 0 ∉ l.take n) : (cstr l).take n = l.take n := by
  by_cases hzero : 0 ∈ l
  · obtain ⟨rest, hl⟩ := cstr_split hzero
    have hlen : n ≤ (cstr l).length := by
      by_contra hlong
      refine h ?_
      have hroom : n - (cstr l).length = n - (cstr l).length - 1 + 1 := by omega
      rw [hl, List.take_append, hroom, List.take_succ_cons]
      simp
    conv_rhs => rw [hl]
    rw [List.take_append_of_le_length hlen]
  · rw [cstr_of_not_mem hzero]

theorem is_status_zero (h : isStatus l = true) : 0 ∉ l.take 8 := by
  intro hmem
  have hmap := List.mem_map_of_mem (f := tolower) hmem
  rw [of_decide_eq_true h] at hmap
  exact absurd hmap (by decide)

/-- `strncasecmp` does not look behind a zero. -/
theorem is_status_cstr : isStatus (cstr l) = isStatus l := by
  rw [Bool.eq_iff_iff]
  constructor
  · intro h
    have hlen := congrArg List.length (of_decide_eq_true h)
    rw [List.length_map, List.length_take] at hlen
    have hlen' : 8 ≤ (cstr l).length := by
      have hname : (ascii "status: ").length = 8 := by decide
      omega
    obtain ⟨rest, hl⟩ : cstr l <+: l := List.takeWhile_prefix _
    have htake : l.take 8 = (cstr l).take 8 := by
      conv_lhs => rw [← hl]
      exact List.take_append_of_le_length hlen'
    unfold isStatus at h ⊢
    rw [htake]
    exact h
  · intro h
    have htake := take_cstr (is_status_zero h)
    unfold isStatus at h ⊢
    rw [htake]
    exact h

/-- Two texts whose first bytes differ. -/
theorem heads_differ {p q x y : List UInt8} (n : Nat) (hp : n ≤ p.length) (hq : n ≤ q.length)
    (hne : p.take n ≠ q.take n) : p ++ x ≠ q ++ y := by
  intro h
  have htake := congrArg (List.take n) h
  rw [List.take_append_of_le_length hp, List.take_append_of_le_length hq] at htake
  exact hne htake

/-- Behind the status line, the lines are sent in full exactly when they have no zeros. -/
theorem streamed_iff (hne : ∀ l ∈ ls, l ≠ []) (h : Streamed body ls out) :
    out = written ls ++ crlf ++ body ↔ ∀ l ∈ ls, 0 ∉ l := by
  induction ls generalizing out with
  | nil =>
      rw [Streamed] at h
      refine ⟨?_, fun _ => h⟩
      intro _ l hl
      cases hl
  | cons l ls ih =>
      obtain ⟨hl, hls⟩ := List.forall_mem_cons.1 hne
      rw [Streamed] at h
      rw [written_cons]
      by_cases hempty : cstr l = []
      · rw [if_pos hempty] at h
        obtain ⟨rest, hout⟩ := h
        obtain ⟨rest', hzero⟩ := cstr_eq_nil hl hempty
        constructor
        · intro heq
          rw [hout, hzero] at heq
          cases heq
        · intro hall
          exact absurd List.mem_cons_self (hzero ▸ hall l List.mem_cons_self)
      · rw [if_neg hempty] at h
        obtain ⟨out', hout, hrest⟩ := h
        rw [List.forall_mem_cons, ← ih hls hrest, hout]
        constructor
        · intro heq
          rw [List.append_assoc (l ++ crlf), List.append_assoc (l ++ crlf)] at heq
          obtain ⟨hzero, htail⟩ := cstr_cancel heq
          exact ⟨hzero, by rw [htail, List.append_assoc]⟩
        · intro hboth
          rw [cstr_of_not_mem hboth.1, hboth.2]
          simp only [List.append_assoc]

/-- The response for these lines when the lines `done` went into `headers` before them. -/
def response (body : List UInt8) (done ls : List (List UInt8)) : List UInt8 :=
  statusLine ls ++ (written done ++ (written (others ls) ++ crlf ++ body))

theorem status_line_skip (h : isStatus l = false) : statusLine (l :: ls) = statusLine ls := by
  rw [statusLine, statusLine, List.find?_cons, h]

theorem others_skip (h : isStatus l = false) : others (l :: ls) = l :: others ls := by
  rw [others, others, List.filter_cons, h]
  rfl

/-- A line that is kept in `headers` is a line in front of the others. -/
theorem response_skip (h : isStatus l = false) :
    response body done (l :: ls) = response body (done ++ [l]) ls := by
  rw [response, response, status_line_skip h, others_skip h, written_append, written_cons]
  simp [written]

/-- A response starts with one of the two status lines. -/
theorem response_ne {msg : List UInt8} : errorPage msg ≠ response body done ls := by
  unfold errorPage response statusLine okLine
  simp only [List.append_assoc]
  cases ls.find? isStatus with
  | none =>
      simp only [List.append_assoc]
      exact heads_differ 10 (by decide) (by decide) (by decide)
  | some l =>
      simp only [List.append_assoc]
      exact heads_differ 8 (by decide) (by decide) (by decide)

/-- A response that stops with the lines in `headers` is in full only if nothing is left. -/
theorem stopped_iff {x : List UInt8} (hls : ls = [] ∧ x = body ∨ ∃ l rest, ls = (0 :: l) :: rest) :
    okLine ++ written (done.map cstr) ++ crlf ++ x = response body done ls ↔
      ls = [] ∧ ∀ l ∈ done, 0 ∉ l := by
  rcases hls with ⟨hls, hx⟩ | ⟨l, rest, hls⟩
  · subst hls hx
    have hnil : response x done [] = okLine ++ (written done ++ (crlf ++ x)) := rfl
    rw [hnil, List.append_assoc okLine, List.append_assoc okLine, List.append_cancel_left_eq,
      List.append_assoc]
    constructor
    · intro h
      exact ⟨rfl, (written_cancel h).1⟩
    · intro h
      rw [map_cstr h.2]
  · subst hls
    have hplain : isStatus (0 :: l) = false := by
      rw [← is_status_cstr, show cstr (0 :: l) = [] from rfl]
      decide
    constructor
    · intro h
      rw [response, status_line_skip hplain, others_skip hplain, statusLine] at h
      cases hfind : rest.find? isStatus with
      | some l' =>
          rw [hfind] at h
          dsimp only at h
          unfold okLine at h
          simp only [List.append_assoc] at h
          exact absurd h (heads_differ 8 (by decide) (by decide) (by decide))
      | none =>
          rw [hfind] at h
          dsimp only at h
          rw [List.append_assoc okLine, List.append_assoc okLine, List.append_cancel_left_eq,
            List.append_assoc] at h
          cases (written_cancel h).2
    · intro h
      cases h.1

theorem status_cancel {x y : List UInt8} (hname : (cstr l).take 8 = l.take 8) :
    ascii "HTTP/1.1 " ++ ((cstr l).drop 8 ++ x) = ascii "HTTP/1.1 " ++ (l.drop 8 ++ y) ↔
      cstr l ++ x = l ++ y := by
  have hleft : cstr l ++ x = l.take 8 ++ ((cstr l).drop 8 ++ x) := by
    rw [← hname, ← List.append_assoc, List.take_append_drop]
  have hright : l ++ y = l.take 8 ++ (l.drop 8 ++ y) := by
    rw [← List.append_assoc, List.take_append_drop]
  rw [List.append_cancel_left_eq, hleft, hright, List.append_cancel_left_eq]

/-- Of the `Status` line on, the response is sent exactly when no line has a zero. -/
theorem sent_status_iff {out' : List UInt8} (hls : ∀ l ∈ ls, l ≠ []) (hstatus : isStatus l = true)
    (hone : ((l :: ls).filter isStatus).length ≤ 1) (hrest : Streamed body ls out') :
    ascii "HTTP/1.1 " ++ (cstr l).drop 8 ++ crlf ++ written (done.map cstr) ++ out' =
      response body done (l :: ls) ↔ ∀ l' ∈ done ++ l :: ls, 0 ∉ l' := by
  have hnone : ls.filter isStatus = [] := by
    rw [List.filter_cons, if_pos hstatus, List.length_cons] at hone
    exact List.length_eq_zero_iff.1 (by omega)
  have hothers : others (l :: ls) = ls := by
    rw [others, List.filter_cons, hstatus]
    refine List.filter_eq_self.2 fun l' hl' => ?_
    simpa using List.filter_eq_nil_iff.1 hnone l' hl'
  have hfirst : statusLine (l :: ls) = ascii "HTTP/1.1 " ++ l.drop 8 ++ crlf := by
    rw [statusLine, List.find?_cons, hstatus]
  have hleft : ascii "HTTP/1.1 " ++ (cstr l).drop 8 ++ crlf ++ written (done.map cstr) ++ out' =
      ascii "HTTP/1.1 " ++ ((cstr l).drop 8 ++ (crlf ++ (written (done.map cstr) ++ out'))) := by
    simp only [List.append_assoc]
  have hright : response body done (l :: ls) = ascii "HTTP/1.1 " ++
      (l.drop 8 ++ (crlf ++ (written done ++ (written ls ++ crlf ++ body)))) := by
    rw [response, hothers, hfirst]
    simp only [List.append_assoc]
  -- the name in front of the status is the same in the line and in its string
  rw [hleft, hright, status_cancel (take_cstr (is_status_zero hstatus)),
    ← List.append_assoc (cstr l), ← List.append_assoc l, List.forall_mem_append,
    List.forall_mem_cons, ← streamed_iff hls hrest]
  constructor
  · intro heq
    obtain ⟨hzero, htail⟩ := cstr_cancel heq
    obtain ⟨hdone, hout⟩ := written_cancel htail
    exact ⟨hdone, hzero, hout⟩
  · intro hall
    rw [cstr_of_not_mem hall.2.1, map_cstr hall.1, hall.2.2]

/-- What is sent is the response exactly when no line has a zero and the lines in front of the
`Status` line fit `headers` with their ends. -/
theorem sent_iff (hne : ∀ l ∈ ls, l ≠ []) (hone : (ls.filter isStatus).length ≤ 1)
    (hdone : (written (done.map cstr)).length < 4096) (h : Sent body done ls out) :
    out = response body done ls ↔
      (∀ l ∈ done ++ ls, 0 ∉ l) ∧ (written (done ++ buffered ls)).length < 4096 := by
  induction ls generalizing done with
  | nil =>
      rw [Sent] at h
      rw [h, stopped_iff (.inl ⟨rfl, rfl⟩), List.append_nil, buffered, List.takeWhile_nil,
        List.append_nil]
      constructor
      · intro hall
        rw [map_cstr hall.2] at hdone
        exact ⟨hall.2, hdone⟩
      · intro hall
        exact ⟨rfl, hall.1⟩
  | cons l ls ih =>
      obtain ⟨hl, hls⟩ := List.forall_mem_cons.1 hne
      rw [Sent] at h
      by_cases hempty : cstr l = []
      · rw [if_pos hempty] at h
        obtain ⟨rest, hout⟩ := h
        obtain ⟨rest', hzero⟩ := cstr_eq_nil hl hempty
        rw [hout, stopped_iff (.inr ⟨rest', ls, by rw [hzero]⟩)]
        constructor
        · intro hall
          cases hall.1
        · intro hall
          have hline := hall.1 l (List.mem_append_right _ List.mem_cons_self)
          rw [hzero] at hline
          exact absurd List.mem_cons_self hline
      rw [if_neg hempty] at h
      by_cases hstatus : isStatus (cstr l) = true
      -- behind the `Status` line nothing goes into `headers`
      · rw [if_pos hstatus] at h
        obtain ⟨out', hout, hrest⟩ := h
        rw [is_status_cstr] at hstatus
        have hbuffered : buffered (l :: ls) = [] := by
          rw [buffered, List.takeWhile_cons, hstatus]
          rfl
        rw [hout, sent_status_iff hls hstatus hone hrest, hbuffered, List.append_nil]
        constructor
        · intro hall
          rw [map_cstr fun l' hl' => hall l' (List.mem_append_left _ hl')] at hdone
          exact ⟨hall, hdone⟩
        · intro hall
          exact hall.1
      · rw [if_neg hstatus] at h
        have hline : isStatus l = false := by
          rw [is_status_cstr] at hstatus
          exact Bool.eq_false_iff.2 hstatus
        have hbuffered : buffered (l :: ls) = l :: buffered ls := by
          rw [buffered, List.takeWhile_cons, hline]
          rfl
        have hsplit : ∀ ls', done ++ l :: ls' = done ++ [l] ++ ls' := by
          intro ls'
          rw [List.append_assoc]
          rfl
        rw [response_skip hline, hbuffered, hsplit ls, hsplit (buffered ls)]
        by_cases hfull : 4096 ≤ (written ((done ++ [l]).map cstr)).length
        · rw [if_pos hfull] at h
          rw [h]
          constructor
          · intro heq
            exact absurd heq response_ne
          · intro hall
            rw [map_cstr fun l' hl' => hall.1 l' (List.mem_append_left _ hl')] at hfull
            have hlong := hall.2
            rw [written_append, List.length_append] at hlong
            omega
        · rw [if_neg hfull] at h
          refine ih hls ?_ (by omega) h
          rw [List.filter_cons, hline] at hone
          exact hone

end Pure

/-! ## The loops -/

theorem wp_on_headers {α : Type} {x : Prog (Arrays Arr) (Fault Arr) α} {Q : α → State → Prop}
    {E : Fault Arr → State → Prop} {s : State}
    (h : wp x (fun a m => Q a { s with mem := m }) (fun e m => E e { s with mem := m }) s.mem) :
    wp (onHeaders x) Q E s :=
  wp_zoom.2 h

/-- A call of `http_read_line` on a line that fits its buffer. -/
theorem read_raw {size : Nat} {done raw rest : List UInt8} (hplain : byte '\n' ∉ raw)
    (hlen : done.length + (strip raw).length < size) :
    Http.httpReadLine size done (raw ++ byte '\n' :: rest) = some (done ++ strip raw, rest) := by
  induction raw generalizing done with
  | nil => rw [List.nil_append, Http.httpReadLine, if_neg (by decide), if_pos rfl]; simp [strip]
  | cons c raw ih =>
      rw [List.mem_cons, not_or] at hplain
      rw [List.cons_append, Http.httpReadLine]
      by_cases hcr : c = byte '\r'
      · subst hcr
        rw [strip_cr] at hlen
        rw [if_pos rfl, strip_cr, ih hplain.2 hlen]
      · rw [strip_cons hcr, List.length_cons] at hlen
        rw [if_neg hcr, if_neg (Ne.symm hplain.1), if_neg (by omega), strip_cons hcr,
          ih hplain.2 (by rw [List.length_append, List.length_singleton]; omega),
          List.append_assoc]
        rfl

section Loops

variable {s : State} {E : Fault Arr → State → Prop} {body blank held : List UInt8}
  {raws done : List (List UInt8)}

/-- A script prints these lines, a blank line and the body. -/
def output (raws : List (List UInt8)) (blank body : List UInt8) : List UInt8 :=
  frame (byte '\n') raws ++ (blank ++ byte '\n' :: body)

/-- A line that `http_read_line` reads whole and that does not end the headers. -/
def IsLine (raw : List UInt8) : Prop :=
  byte '\n' ∉ raw ∧ strip raw ≠ [] ∧ (strip raw).length < 1023

/-- A line of carriage returns. -/
def IsBlank (raw : List UInt8) : Prop := byte '\n' ∉ raw ∧ strip raw = []

instance (raw : List UInt8) : Decidable (IsLine raw) :=
  inferInstanceAs (Decidable (byte '\n' ∉ raw ∧ strip raw ≠ [] ∧ (strip raw).length < 1023))

instance (raw : List UInt8) : Decidable (IsBlank raw) :=
  inferInstanceAs (Decidable (byte '\n' ∉ raw ∧ strip raw = []))

/-- Every line is a part of the output. -/
theorem output_shorter {raw : List UInt8} :
    (output raws blank body).length ≤ (output (raw :: raws) blank body).length := by
  rw [output, output, frame_cons]
  simp only [List.length_append, List.length_cons]
  omega

theorem read_first {raw : List UInt8} (hraw : IsLine raw) :
    Http.httpReadLine 1024 [] (output (raw :: raws) blank body) =
      some (strip raw, output raws blank body) := by
  rw [output, frame_cons, List.append_assoc, List.cons_append]
  exact read_raw hraw.1 (by rw [List.length_nil]; have := hraw.2.2; omega)

theorem read_blank (hblank : IsBlank blank) :
    Http.httpReadLine 1024 [] (output [] blank body) = some ([], body) := by
  rw [output, frame_nil, List.nil_append]
  have hread := @read_raw 1024 [] blank body hblank.1 (by rw [hblank.2]; decide)
  rw [hblank.2] at hread
  exact hread

/-- The loop behind the status line. -/
theorem stream_spec {fuel pheaders headerslen : Nat} {Q : Option Bool → State → Prop}
    (hfuel : raws.length < fuel) (hraws : ∀ raw ∈ raws, IsLine raw) (hblank : IsBlank blank)
    (hinput : s.input = output raws blank body)
    (hQ : ∀ out s', Streamed body (raws.map strip) out →
      s'.sent ++ (crlf ++ s'.input) = s.sent ++ out → s'.input.length ≤ s.input.length →
      Q (some true) s') :
    wp (headLoop fuel true pheaders headerslen) Q E s := by
  induction fuel generalizing raws s with
  | zero => omega
  | succ fuel ih =>
      rw [headLoop, wp_bind, wp_gets, hinput]
      cases raws with
      | nil =>
          rw [read_blank hblank]
          refine hQ (crlf ++ body) _ rfl rfl ?_
          rw [hinput, output]
          simp only [frame_nil, List.nil_append, List.length_append, List.length_cons]
          omega
      | cons raw raws =>
          obtain ⟨hraw, hrest⟩ := List.forall_mem_cons.1 hraws
          rw [read_first hraw]
          have hshorter : (output raws blank body).length ≤ s.input.length := by
            rw [hinput]
            exact output_shorter
          show wp (if cstr (strip raw) = [] then return some true
            else if true = false ∧ isStatus (cstr (strip raw)) = true then do
              let headers ← onHeaders (stringAt .headers 0)
              send (ascii "HTTP/1.1 " ++ (cstr (strip raw)).drop 8 ++ crlf ++ headers)
              headLoop fuel true pheaders headerslen
            else do
              send (cstr (strip raw) ++ crlf)
              headLoop fuel true pheaders headerslen) Q E
            { s with input := output raws blank body }
          by_cases hempty : cstr (strip raw) = []
          · rw [if_pos hempty]
            refine hQ (crlf ++ output raws blank body) _ ?_ rfl hshorter
            rw [List.map_cons, Streamed, if_pos hempty]
            exact ⟨_, rfl⟩
          · rw [if_neg hempty, if_neg (fun h => by cases h.1), wp_bind]
            refine ih (Nat.lt_of_succ_lt_succ hfuel) hrest rfl ?_
            intro out s' hout hsent hlen
            refine hQ (cstr (strip raw) ++ crlf ++ out) s' ?_ ?_ (hlen.trans hshorter)
            · rw [List.map_cons, Streamed, if_neg hempty]
              exact ⟨out, rfl, hout⟩
            · rw [hsent]
              simp

/-- `snprintf` behind the lines that are in `headers`. -/
theorem snprintf_spec {m : Arrays Arr} {text : List UInt8} {Q : Nat → Arrays Arr → Prop}
    {E : Fault Arr → Arrays Arr → Prop} (hlen : (m .headers).length = 4096)
    (htake : (m .headers).take held.length = held) (hroom : held.length < 4096)
    (hzero : 0 ∉ held ++ text)
    (hfull : 4096 - held.length ≤ text.length → ∀ m', Q text.length m')
    (hfit : text.length < 4096 - held.length → ∀ m', (m' .headers).length = 4096 →
      HoldsString (m' .headers) 0 (held ++ text) → Q text.length m') :
    wp (snprintf .headers held.length (4096 - held.length) text) Q E m := by
  have hstored : (text.take (4096 - held.length - 1) ++ [0]).length ≤ 4096 - held.length := by
    rw [List.length_append, List.length_take, List.length_singleton]
    omega
  rw [snprintf, wp_bind]
  refine wp_store_bytes (by omega) ?_ ?_
  · intro hroom'
    by_cases hlong : 4096 - held.length ≤ text.length
    · exact hfull hlong _
    · refine hfit (by omega) _ ?_ ?_
      · rw [Function.update_self, length_overwrite hroom', hlen]
      · rw [Function.update_self, overwrite, htake, List.take_of_length_le (by omega)]
        have hsplit : ∀ rest : List UInt8, held ++ (text ++ [0]) ++ rest =
            held ++ text ++ 0 :: rest := by
          intro rest
          simp
        rw [hsplit]
        exact holds_string_start hzero
  · intro hover
    omega

/-- A pass of the loop over a line that is kept. -/
theorem keep_pass {fuel : Nat} {line rest : List UInt8} {Q : Option Bool → State → Prop}
    (hread : Http.httpReadLine 1024 [] s.input = some (line, rest)) (hne : cstr line ≠ [])
    (hplain : isStatus (cstr line) ≠ true) (hlen : (s.mem .headers).length = 4096)
    (htake : (s.mem .headers).take held.length = held) (hroom : held.length < 4096)
    (hzero : 0 ∉ held)
    (hfull : 4096 ≤ (held ++ (cstr line ++ crlf)).length → ∀ s',
      s'.sent = s.sent ++ errorPage (ascii "Too many script headers") → Q none s')
    (hfit : (held ++ (cstr line ++ crlf)).length < 4096 → ∀ s', s'.input = rest →
      s'.sent = s.sent → (s'.mem .headers).length = 4096 →
      HoldsString (s'.mem .headers) 0 (held ++ (cstr line ++ crlf)) →
      wp (headLoop fuel false (held ++ (cstr line ++ crlf)).length
        (4096 - (held ++ (cstr line ++ crlf)).length)) Q E s') :
    wp (headLoop (fuel + 1) false held.length (4096 - held.length)) Q E s := by
  rw [List.length_append] at hfull hfit
  have hnozero : 0 ∉ held ++ (cstr line ++ crlf) := by
    simp only [List.mem_append, not_or]
    exact ⟨hzero, zero_not_mem_cstr, by decide⟩
  rw [headLoop, wp_bind, wp_gets, hread]
  show wp (if cstr line = [] then return some false
    else if false = false ∧ isStatus (cstr line) = true then do
      let headers ← onHeaders (stringAt .headers 0)
      send (ascii "HTTP/1.1 " ++ (cstr line).drop 8 ++ crlf ++ headers)
      headLoop fuel true held.length (4096 - held.length)
    else do
      let ret ← onHeaders (snprintf .headers held.length (4096 - held.length) (cstr line ++ crlf))
      if 4096 - held.length ≤ ret then
        send (errorPage (ascii "Too many script headers"))
        return none
      else if 4096 - held.length - ret = 0 then
        send (errorPage (ascii "Too many script headers"))
        return none
      else
        headLoop fuel false (held.length + ret) (4096 - held.length - ret)) Q E
    { s with input := rest }
  rw [if_neg hne, if_neg fun h => hplain h.2, wp_bind]
  refine wp_on_headers (snprintf_spec hlen htake hroom hnozero ?_ ?_)
  · intro hlong m'
    rw [if_pos hlong]
    exact hfull (by omega) _ rfl
  · intro hshort m' hlen' hheld
    rw [if_neg (by omega), if_neg (by omega), Nat.sub_sub]
    exact hfit (by omega) _ rfl rfl hlen' hheld

theorem take_held {l text : List UInt8} (h : HoldsString l 0 text) :
    l.take text.length = text := by
  obtain ⟨_, rest, hdrop⟩ := h
  rw [List.drop_zero] at hdrop
  rw [hdrop, List.take_left]

theorem written_map_concat (done : List (List UInt8)) (l : List UInt8) :
    written ((done ++ [l]).map cstr) = written (done.map cstr) ++ (cstr l ++ crlf) := by
  rw [List.map_append, written_append, List.map_singleton]
  simp [written]

/-- The loop with the lines `done` in `headers`. -/
theorem keep_spec {fuel : Nat} {Q : Option Bool → State → Prop} (hfuel : raws.length < fuel)
    (hraws : ∀ raw ∈ raws, IsLine raw) (hblank : IsBlank blank)
    (hinput : s.input = output raws blank body) (hheld : held = written (done.map cstr))
    (hlen : (s.mem .headers).length = 4096) (hstr : HoldsString (s.mem .headers) 0 held)
    (hroom : held.length < 4096)
    (hnone : ∀ out s', Sent body done (raws.map strip) out → s'.sent = s.sent ++ out → Q none s')
    (htrue : ∀ out s', Sent body done (raws.map strip) out →
      s'.sent ++ (crlf ++ s'.input) = s.sent ++ out → s'.input.length ≤ s.input.length →
      Q (some true) s')
    (hfalse : ∀ out held' s', Sent body done (raws.map strip) out →
      HoldsString (s'.mem .headers) 0 held' →
      s'.sent ++ (okLine ++ held' ++ crlf ++ s'.input) = s.sent ++ out →
      s'.input.length ≤ s.input.length → Q (some false) s') :
    wp (headLoop fuel false held.length (4096 - held.length)) Q E s := by
  induction fuel generalizing raws done held s with
  | zero => omega
  | succ fuel ih =>
      cases raws with
      | nil =>
          rw [headLoop, wp_bind, wp_gets, hinput, read_blank hblank]
          refine hfalse _ held _ rfl hstr ?_ ?_
          · rw [hheld]
          · rw [hinput, output]
            simp only [frame_nil, List.nil_append, List.length_append, List.length_cons]
            omega
      | cons raw raws =>
          obtain ⟨hraw, hrest⟩ := List.forall_mem_cons.1 hraws
          have hread : Http.httpReadLine 1024 [] s.input =
              some (strip raw, output raws blank body) := by
            rw [hinput]
            exact read_first hraw
          have hshorter : (output raws blank body).length ≤ s.input.length := by
            rw [hinput]
            exact output_shorter
          rw [List.map_cons] at hnone htrue hfalse
          by_cases hempty : cstr (strip raw) = []
          -- a line that starts with a zero passes for the blank line
          · rw [headLoop, wp_bind, wp_gets, hread]
            show wp (if cstr (strip raw) = [] then return some false else _) Q E
              { s with input := output raws blank body }
            rw [if_pos hempty]
            refine hfalse (okLine ++ held ++ crlf ++ output raws blank body) held _ ?_ hstr rfl
              hshorter
            rw [Sent, if_pos hempty, hheld]
            exact ⟨_, rfl⟩
          · by_cases hstatus : isStatus (cstr (strip raw)) = true
            -- from here on the lines are sent as they come
            · rw [headLoop, wp_bind, wp_gets, hread]
              show wp (if cstr (strip raw) = [] then return some false
                else if false = false ∧ isStatus (cstr (strip raw)) = true then do
                  let headers ← onHeaders (stringAt .headers 0)
                  send (ascii "HTTP/1.1 " ++ (cstr (strip raw)).drop 8 ++ crlf ++ headers)
                  headLoop fuel true held.length (4096 - held.length)
                else _) Q E { s with input := output raws blank body }
              rw [if_neg hempty, if_pos ⟨rfl, hstatus⟩, wp_bind]
              refine wp_on_headers (wp_string_at hstr ?_)
              rw [wp_bind]
              refine stream_spec (Nat.lt_of_succ_lt_succ hfuel) hrest hblank rfl ?_
              intro out s' hout hsent hlen'
              refine htrue (ascii "HTTP/1.1 " ++ (cstr (strip raw)).drop 8 ++ crlf ++ held ++ out)
                s' ?_ ?_ (hlen'.trans hshorter)
              · rw [Sent, if_neg hempty, if_pos hstatus, hheld]
                exact ⟨out, rfl, hout⟩
              · rw [hsent]
                simp only [List.append_assoc]
            · have hkept : written ((done ++ [strip raw]).map cstr) =
                  held ++ (cstr (strip raw) ++ crlf) := by
                rw [written_map_concat, hheld]
              refine keep_pass hread hempty hstatus hlen (take_held hstr) hroom
                hstr.zero_not_mem ?_ ?_
              · intro hfull s' hsent
                refine hnone _ s' ?_ hsent
                rw [Sent, if_neg hempty, if_neg hstatus, if_pos (by rw [hkept]; exact hfull)]
              · intro hfit s' hinput' hsent hlen' hstr'
                have hsame : ∀ out, Sent body (done ++ [strip raw]) (raws.map strip) out →
                    Sent body done (strip raw :: raws.map strip) out :=
                  fun _ hout => sent_keep hempty hstatus (by rw [hkept]; exact hfit) hout
                refine ih (Nat.lt_of_succ_lt_succ hfuel) hrest hinput' hkept.symm hlen' hstr' hfit
                  ?_ ?_ ?_
                · intro out t hout ht
                  exact hnone out t (hsame out hout) (hsent ▸ ht)
                · intro out t hout ht hlt
                  exact htrue out t (hsame out hout) (hsent ▸ ht) (by rw [hinput'] at hlt; omega)
                · intro out held' t hout hheld' ht hlt
                  exact hfalse out held' t (hsame out hout) hheld' (hsent ▸ ht)
                    (by rw [hinput'] at hlt; omega)

/-- The loop that sends the body. -/
theorem copy_spec {fuel : Nat} {Q : Unit → State → Prop} (hfuel : s.input.length < fuel)
    (hQ : ∀ s', s'.sent = s.sent ++ s.input → Q () s') : wp (copyLoop fuel) Q E s := by
  induction fuel generalizing s with
  | zero => omega
  | succ fuel ih =>
      rw [copyLoop, wp_bind, wp_gets]
      by_cases hempty : s.input = []
      · rw [if_pos hempty]
        refine hQ s ?_
        rw [hempty, List.append_nil]
      · have hpos : 0 < s.input.length := List.length_pos_iff.2 hempty
        rw [if_neg hempty, wp_bind, wp_modify, wp_bind]
        refine ih ?_ ?_
        · show (s.input.drop 1024).length < fuel
          rw [List.length_drop]
          omega
        · intro s' hsent
          refine hQ s' (hsent.trans ?_)
          show s.sent ++ s.input.take 1024 ++ s.input.drop 1024 = s.sent ++ s.input
          rw [List.append_assoc, List.take_append_drop]

end Loops

/-- What a script prints: header lines of which one at most is a `Status` line, a blank line and
the body. -/
structure Script where
  raws : List (List UInt8)
  blank : List UInt8
  body : List UInt8
  raws_line : ∀ raw ∈ raws, IsLine raw
  blank_blank : IsBlank blank
  one_status : ((raws.map strip).filter isStatus).length ≤ 1

namespace Script

/-- The header lines. -/
def lines (script : Script) : List (List UInt8) := script.raws.map strip

/-- The parent with any bytes in its array. -/
def start (script : Script) (headers : Vector UInt8 4096) : State where
  mem := fun _ => headers.toList
  input := output script.raws script.blank script.body
  sent := []

/-- Whatever is in the array at first, the client gets the head for these lines and the body. -/
def Answered (script : Script) : Prop :=
  ∀ headers, ∃ s', httpServeExecutable (script.start headers) = .ret () s' ∧
    s'.sent = head script.lines ++ script.body

/-- The lines in front of the `Status` line with their ends, and a terminator, fit `headers`. -/
def Fits (script : Script) : Prop := (written (buffered script.lines)).length < 4096

/-- The `Status` line is not the first one, nor the blank line. -/
def Preceded (script : Script) : Prop := ∃ l ∈ script.lines.head?, isStatus l = false

end Script

section Serve

variable {script : Script} {headers : Vector UInt8 4096}

theorem head_eq (ls : List (List UInt8)) (body : List UInt8) :
    head ls ++ body = response body [] ls := by
  rw [head, response]
  simp [written]

/-- `headers` is written before it is sent. -/
def Script.Written (script : Script) : Prop :=
  ∃ l ∈ script.lines.head?, isStatus l = false ∧ cstr l ≠ []

/-- An array without a zero is no string. -/
theorem wp_string_none {a : Arr} {p : Nat} {m : Arrays Arr} {Q : List UInt8 → Arrays Arr → Prop}
    {E : Fault Arr → Arrays Arr → Prop} (h : 0 ∉ (m a).drop p)
    (hE : E (.overrun a (m a).length) m) : wp (stringAt a p) Q E m := by
  unfold wp stringAt skipString
  rw [cut_eq_none.2 h]
  exact hE

/-- The first line, or the blank line: it is not kept when `headers` is not written first. -/
theorem first_line (hfirst : ¬ script.Written) : ∃ line rest,
    Http.httpReadLine 1024 [] (output script.raws script.blank script.body) = some (line, rest) ∧
      (cstr line ≠ [] → isStatus (cstr line) = true) := by
  cases hraws : script.raws with
  | nil => exact ⟨[], _, read_blank script.blank_blank, fun hne => absurd rfl hne⟩
  | cons raw raws =>
      have hraw : IsLine raw := script.raws_line raw (by rw [hraws]; exact List.mem_cons_self)
      refine ⟨strip raw, _, read_first hraw, fun hne => ?_⟩
      by_contra hplain
      refine hfirst ⟨strip raw, ?_, ?_, hne⟩
      · rw [Script.lines, hraws]
        rfl
      · rw [is_status_cstr] at hplain
        exact Bool.eq_false_iff.2 hplain

/-- Where `headers` is sent before it is written, the program runs over an array without a zero. -/
theorem headers_overrun (hfirst : ¬ script.Written) (hfull : 0 ∉ headers.toList) :
    wp httpServeExecutable (fun _ _ => False) (fun _ _ => True) (script.start headers) := by
  obtain ⟨line, rest, hread, hline⟩ := first_line hfirst
  have hinput : (script.start headers).input = output script.raws script.blank script.body := rfl
  rw [httpServeExecutable, wp_bind, wp_gets, wp_bind, headLoop, wp_bind, wp_gets, hinput, hread]
  show wp (if cstr line = [] then return some false
    else if false = false ∧ isStatus (cstr line) = true then do
      let headers ← onHeaders (stringAt .headers 0)
      send (ascii "HTTP/1.1 " ++ (cstr line).drop 8 ++ crlf ++ headers)
      headLoop _ true 0 4096
    else _) _ _ _
  by_cases hempty : cstr line = []
  · rw [if_pos hempty, wp_pure]
    show wp (do
      let headers ← onHeaders (stringAt .headers 0)
      send (okLine ++ headers ++ crlf)
      copyLoop _) _ _ _
    rw [wp_bind]
    exact wp_on_headers (wp_string_none hfull trivial)
  · rw [if_neg hempty, if_pos ⟨rfl, hline hempty⟩, wp_bind]
    exact wp_on_headers (wp_string_none hfull trivial)

theorem not_answered (hfirst : ¬ script.Written) : ¬ script.Answered := by
  intro hall
  have hfull : 0 ∉ (Vector.replicate 4096 (1 : UInt8)).toList := by
    rw [Vector.toList_replicate]
    intro h
    exact absurd (List.eq_of_mem_replicate h) (by decide)
  obtain ⟨s', hret, _⟩ := hall (Vector.replicate 4096 1)
  exact (wp_of_ret hret).1 (headers_overrun hfirst hfull)

/-- Every line has its newline. -/
theorem length_le_frame (sep : UInt8) (pieces : List (List UInt8)) :
    pieces.length ≤ (frame sep pieces).length := by
  induction pieces with
  | nil => exact Nat.le_refl 0
  | cons piece pieces ih =>
      rw [frame_cons]
      simp only [List.length_append, List.length_cons]
      omega

/-- The end of the function, after the loop over the header lines. -/
theorem finish_spec {s : State} {fuel : Nat} {Q : Unit → State → Prop}
    {E : Fault Arr → State → Prop} {text : List UInt8} (hlen : s.input.length < fuel)
    (hQ : ∀ s', s'.sent = s.sent ++ (text ++ s.input) → Q () s') :
    wp (do send text; copyLoop fuel) Q E s := by
  rw [wp_bind]
  refine copy_spec hlen ?_
  intro s' hsent
  refine hQ s' (hsent.trans ?_)
  simp

/-- With a line in front of the `Status` line, what is sent does not depend on the array. -/
theorem serve_spec (hfirst : script.Written) :
    ∃ out s', httpServeExecutable (script.start headers) = .ret () s' ∧ s'.sent = out ∧
      Sent script.body [] script.lines out := by
  obtain ⟨l, hl, hplain, hne⟩ := hfirst
  obtain ⟨raw, raws, hraws, rfl⟩ : ∃ raw raws, script.raws = raw :: raws ∧ strip raw = l := by
    rw [Script.lines, List.head?_map] at hl
    obtain ⟨raw, hraw, hstrip⟩ := Option.map_eq_some_iff.1 hl
    obtain ⟨raws, hraws⟩ := List.head?_eq_some_iff.1 hraw
    exact ⟨raw, raws, hraws, hstrip⟩
  rw [← is_status_cstr] at hplain
  have hlines : script.lines = strip raw :: raws.map strip := by
    rw [Script.lines, hraws, List.map_cons]
  have hkept : written ([strip raw].map cstr) = cstr (strip raw) ++ crlf := by
    simp [written]
  have hrun : wp httpServeExecutable (fun _ s' => Sent script.body [] script.lines s'.sent)
      (fun _ _ => False) (script.start headers) := by
    have hinput : (script.start headers).input =
        output (raw :: raws) script.blank script.body := by
      rw [← hraws]
      rfl
    have hshorter : (output raws script.blank script.body).length ≤
        (script.start headers).input.length := by
      rw [hinput]
      exact output_shorter
    have hlong : raws.length < (script.start headers).input.length := by
      refine Nat.lt_of_lt_of_le ?_ hshorter
      have hframe := length_le_frame (byte '\n') raws
      simp only [output, List.length_append, List.length_cons]
      omega
    obtain ⟨hraw, hrest⟩ := List.forall_mem_cons.1 (hraws ▸ script.raws_line)
    have hread : Http.httpReadLine 1024 [] (script.start headers).input =
        some (strip raw, output raws script.blank script.body) := by
      rw [hinput]
      exact read_first hraw
    rw [hlines, httpServeExecutable, wp_bind, wp_gets, wp_bind]
    -- the first line makes `headers` a string, so the loop starts behind it
    refine @keep_pass (script.start headers) _ [] _ _ _ _ hread hne (by rw [hplain]; decide)
      headers.length_toList rfl (by decide) List.not_mem_nil ?_ ?_
    · intro hfull s' hsent
      rw [List.nil_append] at hfull
      show Sent _ _ _ s'.sent
      rw [Sent, if_neg hne, if_neg (by rw [hplain]; decide), List.nil_append, hkept, if_pos hfull]
      exact hsent
    · intro hfit s' hinput' hsent hlen hheld
      rw [List.nil_append] at hfit
      have hlater : ∀ out, Sent script.body [strip raw] (raws.map strip) out →
          Sent script.body [] (strip raw :: raws.map strip) out := by
        intro out hout
        refine sent_keep hne (by rw [hplain]; decide) ?_ hout
        rw [List.nil_append, hkept]
        exact hfit
      have hleft : s'.sent = [] := hsent
      refine keep_spec hlong hrest script.blank_blank hinput' hkept.symm hlen hheld hfit ?_ ?_ ?_
      · intro out t hout ht
        rw [hleft, List.nil_append] at ht
        show Sent _ _ _ t.sent
        rw [ht]
        exact hlater out hout
      · intro out t hout ht hlt
        rw [hleft, List.nil_append] at ht
        refine finish_spec (by rw [hinput'] at hlt; omega) ?_
        intro u hu
        rw [hu, ht]
        exact hlater out hout
      · intro out held' t hout hheld' ht hlt
        rw [hleft, List.nil_append] at ht
        show wp (onHeaders (stringAt .headers 0) >>= fun headers => do
          send (okLine ++ headers ++ crlf)
          copyLoop _) _ _ t
        rw [wp_bind]
        refine wp_on_headers (wp_string_at hheld' (finish_spec ?_ ?_))
        · show t.input.length < _
          rw [hinput'] at hlt
          omega
        · intro u hu
          have hu' : u.sent = t.sent ++ (okLine ++ held' ++ crlf ++ t.input) := hu
          rw [hu', ht]
          exact hlater out hout
  obtain ⟨_, s', hret, hsent⟩ := ret_of_wp hrun
  exact ⟨_, s', hret, rfl, hsent⟩

/-- A script is answered when its header lines have no zeros, one of them is in front of the `Status`
line or the blank line, and those in front fit. -/
theorem answered_of_lines {script : Script} (hzero : ∀ l ∈ script.lines, 0 ∉ l)
    (hpreceded : script.Preceded) (hfits : script.Fits) : script.Answered := by
  intro headers
  have hne : ∀ l ∈ script.lines, l ≠ [] := by
    intro l hl
    obtain ⟨raw, hraw, rfl⟩ := List.mem_map.1 hl
    exact (script.raws_line raw hraw).2.1
  have hempty : (written (([] : List (List UInt8)).map cstr)).length < 4096 := by decide
  obtain ⟨l, hl, hplain⟩ := hpreceded
  have hmem : l ∈ script.lines := List.mem_of_head? hl
  have hfirst : script.Written := ⟨l, hl, hplain, by
    rw [cstr_of_not_mem (hzero l hmem)]
    exact hne l hmem⟩
  obtain ⟨out, s', hret, hout, hpure⟩ := @serve_spec script headers hfirst
  refine ⟨s', hret, ?_⟩
  rw [hout, head_eq]
  exact (sent_iff hne script.one_status hempty hpure).2 ⟨hzero, hfits⟩

/-- For every script, the client gets one status line, the other header lines in their order, the
blank line and the body, whatever was in `headers`, exactly when no header line has a zero, another
line is in front of the `Status` line or the blank line, and the lines in front fit `headers`. -/
theorem script_answered_iff (script : Script) : script.Answered ↔
    (∀ l ∈ script.lines, 0 ∉ l) ∧ script.Preceded ∧ script.Fits := by
  have hne : ∀ l ∈ script.lines, l ≠ [] := by
    intro l hl
    obtain ⟨raw, hraw, rfl⟩ := List.mem_map.1 hl
    exact (script.raws_line raw hraw).2.1
  have hempty : (written (([] : List (List UInt8)).map cstr)).length < 4096 := by decide
  constructor
  · intro hall
    have hfirst : script.Written := by
      by_contra hnot
      exact not_answered hnot hall
    obtain ⟨s', hret, hsent⟩ := hall (Vector.replicate 4096 0)
    obtain ⟨out, t, hret', hout, hpure⟩ := @serve_spec script (Vector.replicate 4096 0) hfirst
    rw [hret] at hret'
    cases hret'
    rw [hsent, head_eq] at hout
    obtain ⟨hzero, hfits⟩ := (sent_iff hne script.one_status hempty hpure).1 hout.symm
    obtain ⟨l, hl, hplain, _⟩ := hfirst
    exact ⟨hzero, ⟨l, hl, hplain⟩, hfits⟩
  · rintro ⟨hzero, hpreceded, hfits⟩
    exact answered_of_lines hzero hpreceded hfits

/-- A script whose status comes behind its type. -/
def typeFirst : Script where
  raws := [ascii "Content-Type: text/plain", ascii "Status: 404 Not Found"]
  blank := []
  body := ascii "nothing here"
  raws_line := by decide
  blank_blank := by decide
  one_status := by decide

example : typeFirst.Answered :=
  answered_of_lines (by decide) ⟨_, rfl, by decide⟩ (show (written _).length < 4096 by decide)

/-- A script that starts with its status. -/
def statusFirst : Script where
  raws := [ascii "Status: 404 Not Found"]
  blank := []
  body := []
  raws_line := by decide
  blank_blank := by decide
  one_status := by decide

/-- The status alone is answered with bytes that nobody wrote. -/
theorem status_first_not_answered : ¬ ∀ script : Script,
    (written script.lines).length < 4096 → script.Answered := by
  intro hall
  have hfirst : ¬ statusFirst.Written := by
    intro hfirst
    obtain ⟨l, hl, hplain, _⟩ := hfirst
    cases hl
    exact absurd hplain (by decide)
  exact not_answered hfirst (hall statusFirst (by decide))

end Serve

end Labs.Zoo.Executable
