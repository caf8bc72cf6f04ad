import Labs.Base.CArray
import Labs.Zoo.Http
import Mathlib.Algebra.Group.Nat.Defs

/-!
# Parsing a request inside its arrays

The functions of `http.c` that read a request from a client: `http_read_line`, `http_request_line`
as `process_client` of `zookd.c` calls it, `http_request_headers` as the service process calls it,
and `url_decode_n`. The code is compiled for 32 bits. All arrays have their bounds, and the client
may send any bytes; an end of the stream and a failed `read` are the same.
-/

namespace Labs.Zoo.Zookd

open Prog CArray

/-- The arrays of the two processes. -/
inductive Arr where
  /-- `buf` of `http_request_line`. -/
  | line
  /-- `reqpath` of `process_client`. -/
  | reqpath
  /-- `env` of `process_client`. -/
  | env
  /-- `buf` of `http_request_headers`. -/
  | header
  | value
  | envvar
  deriving DecidableEq

/-- The sizes of the arrays. -/
def Arr.size : Arr → Nat
  | .line => 8192
  | .reqpath => 2048
  | .env => 8192
  | .header => 8192
  | .value => 512
  | .envvar => 512

/-- `sizeof` of a pointer. -/
def sizeofPointer : Nat := 4

/-- The arrays, what the client has yet to send, the environment of the service process and
`env_len`. -/
structure State where
  mem : Arrays Arr
  input : List UInt8
  environ : Http.Environ
  envLen : Nat

/-- A program of the two processes. -/
abbrev HttpM (α : Type) := Prog State (Fault Arr) α

/-- Work on the arrays. -/
def onArrays {α : Type} (x : Prog (Arrays Arr) (Fault Arr) α) : HttpM α :=
  zoom State.mem (fun m s => { s with mem := m }) x

/-- The loop of `http_read_line`, with `input` to come. -/
def readLineLoop (a : Arr) (size : Nat) : List UInt8 → Nat → HttpM Int
  | [], _ => do
      modify fun s => { s with input := [] }
      return -1
  | c :: input, i => do
      onArrays (store a i c)
      if c = byte '\r' then
        onArrays (store a i 0)
        readLineLoop a size input i
      else if c = byte '\n' then
        onArrays (store a i 0)
        modify fun s => { s with input := input }
        return 0
      else if size - 1 ≤ i then
        onArrays (store a i 0)
        modify fun s => { s with input := input }
        return 0
      else
        readLineLoop a size input (i + 1)

/-- The function `http_read_line`. -/
def httpReadLine (a : Arr) (size : Nat) : HttpM Int := do
  let input ← gets State.input
  readLineLoop a size input 0

/-- The two bytes of an escape at `&src[p]`: `src[0] == '%' && src[1] && src[2]`. -/
def hexbuf (src : Arr) (p : Nat) : Prog (Arrays Arr) (Fault Arr) (Option (UInt8 × UInt8)) := do
  let c ← load src p
  if c = byte '%' then
    let x ← load src (p + 1)
    if x = 0 then
      return none
    else
      let y ← load src (p + 2)
      if y = 0 then return none else return some (x, y)
  else
    return none

/-- The loop of `url_decode_n`. -/
def urlDecodeLoop (dst : Arr) (dstlen : Nat) (src : Arr) :
    Nat → Nat → Nat → Prog (Arrays Arr) (Fault Arr) Unit
  | 0, _, _ => exit .fuel
  | fuel + 1, i, p => do
      if dstlen ≠ 2 ^ 32 - 1 ∧ dstlen - 1 ≤ i then
        store dst i 0
      else
        match ← hexbuf src p with
        | some (x, y) => do
            store dst i (UInt8.ofInt (Http.strtol16 [x, y]))
            urlDecodeLoop dst dstlen src fuel (i + 1) (p + 3)
        | none => do
            let c ← load src p
            if c = byte '+' then
              store dst i (byte ' ')
              urlDecodeLoop dst dstlen src fuel (i + 1) (p + 1)
            else
              store dst i c
              if c = 0 then return () else urlDecodeLoop dst dstlen src fuel (i + 1) (p + 1)

/-- The function `url_decode_n`, for a `dstlen` that bounds the loop. -/
def urlDecodeN (dst : Arr) (dstlen : Nat) (src : Arr) (p : Nat) :
    Prog (Arrays Arr) (Fault Arr) Unit :=
  urlDecodeLoop dst dstlen src dstlen 0 p

/-- `QUERY_STRING`, if there is one at `sp1`. -/
def formatQuery (sp1 envp : Nat) : Prog (Arrays Arr) (Fault Arr) Nat := do
  match ← strchrAt .line sp1 (byte '?') with
  | none => return envp
  | some qp => do
      store .line qp 0
      let n ← sprintf .env envp (ascii "QUERY_STRING=") .line (qp + 1)
      return envp + n + 1

/-- `http_request_line` from `url_decode_n` on: the length of `env`, or none if it is too long for
the check. -/
def formatUri (sp1 envp : Nat) : Prog (Arrays Arr) (Fault Arr) (Option Nat) := do
  -- `sizeof(reqpath)` is the size of a parameter
  urlDecodeN .reqpath sizeofPointer .line sp1
  let n ← strlen .reqpath 0
  if 8192 ≤ envp + 20 + n then
    return none
  else
    let n ← sprintf .env envp (ascii "REQUEST_URI=") .reqpath 0
    let envp := envp + n + 1
    storeBytes .env envp (ascii "SERVER_NAME=zoobar.org" ++ [0])
    let envp := envp + 22 + 1
    store .env envp 0
    return some (envp + 1)

/-- `http_request_line` from the first `sprintf` on. -/
def formatEnv (sp1 sp2 : Nat) : Prog (Arrays Arr) (Fault Arr) (Option Nat) := do
  let n ← sprintf .env 0 (ascii "REQUEST_METHOD=") .line 0
  let envp := n + 1
  let n ← sprintf .env envp (ascii "SERVER_PROTOCOL=") .line sp2
  let envp ← formatQuery sp1 (envp + n + 1)
  formatUri sp1 envp

/-- `http_request_line` from `*sp1 = '\\0'` on. -/
def requestTail (sp1 : Nat) : HttpM (Option String) := do
  onArrays (store .line sp1 0)
  let sp1 := sp1 + 1
  let c ← onArrays (load .line sp1)
  if c ≠ byte '/' then
    return some "Bad request path"
  else
    match ← onArrays (strchrAt .line sp1 (byte ' ')) with
    | none => return some "Cannot parse HTTP request (2)"
    | some sp2 => do
        onArrays (store .line sp2 0)
        let sp2 := sp2 + 1
        let method ← onArrays (stringAt .line 0)
        if method ≠ ascii "GET" ∧ method ≠ ascii "POST" then
          return some "Unsupported request (not GET or POST)"
        else
          match ← onArrays (formatEnv sp1 sp2) with
          | none => return some "Environment buffer overflow"
          | some envLen => do
              modify fun s => { s with envLen := envLen }
              return none

/-- The function `http_request_line`: the error text, or none. -/
def httpRequestLine : HttpM (Option String) := do
  let r ← httpReadLine .line 8192
  if r < 0 then
    return some "Socket IO error"
  else
    match ← onArrays (strchrAt .line 0 (byte ' ')) with
    | none => return some "Cannot parse HTTP request (1)"
    | some sp1 => requestTail sp1

/-- `toupper`, and `_` for a hyphen. -/
def upcase (c : UInt8) : UInt8 :=
  if c = byte '-' then byte '_'
  else if byte 'a' ≤ c ∧ c ≤ byte 'z' then c - 32 else c

/-- The loop over the name of a header. -/
def upcaseLoop : Nat → Nat → Prog (Arrays Arr) (Fault Arr) Unit
  | 0, _ => exit .fuel
  | fuel + 1, i => do
      let n ← strlen .header 0
      if i < n then
        let c ← load .header i
        store .header i (upcase c)
        upcaseLoop fuel (i + 1)
      else
        return ()

/-- `setenv(&a[0], value, 1)`. -/
def setenvAt (a : Arr) : HttpM Unit := do
  let name ← onArrays (stringAt a 0)
  let value ← onArrays (stringAt .value 0)
  modify fun s => { s with environ := Http.setenv s.environ name value }

/-- Store a header in the environment. -/
def setHeader : HttpM Unit := do
  let name ← onArrays (stringAt .header 0)
  if name ≠ ascii "CONTENT_TYPE" ∧ name ≠ ascii "CONTENT_LENGTH" then
    let _ ← onArrays (sprintf .envvar 0 (ascii "HTTP_") .header 0)
    setenvAt .envvar
  else
    setenvAt .header

/-- A pass of `http_request_headers` from `*sp = '\\0'` on: the error text, or none. -/
def headerTail (sp : Nat) : HttpM (Option String) := do
  onArrays (store .header sp 0)
  let n ← onArrays (strlen .header 0)
  if n = 0 then
    return some "Header parse error (2)"
  else
    let colon ← onArrays (load .header (n - 1))
    if colon ≠ byte ':' then
      return some "Header parse error (3)"
    else
      onArrays (store .header (n - 1) 0)
      onArrays (upcaseLoop 8192 0)
      onArrays (urlDecodeN .value 512 .header (sp + 1))
      setHeader
      return none

/-- The loop of `http_request_headers`: the error text, or none. -/
def headersLoop : Nat → HttpM (Option String)
  | 0 => exit .fuel
  | fuel + 1 => do
      let r ← httpReadLine .header 8192
      if r < 0 then
        return some "Socket IO error"
      else
        let c ← onArrays (load .header 0)
        if c = 0 then
          return none
        else
          match ← onArrays (strchrAt .header 0 (byte ' ')) with
          | none => return some "Header parse error (1)"
          | some sp => do
              match ← headerTail sp with
              | some err => return some err
              | none => headersLoop fuel

/-- The function `http_request_headers`. Each pass reads at least one byte. -/
def httpRequestHeaders : HttpM (Option String) := do
  let input ← gets State.input
  headersLoop (input.length + 1)

/-- A connection: `process_client` reads the request line and finds a service for the path, which
reads the headers. `dispatch` tells whether a pattern of a service matches and `sendfd` works. -/
def serveConnection (dispatch : List UInt8 → Bool) : HttpM (Option String) := do
  match ← httpRequestLine with
  | some err => return some err
  | none => do
      let reqpath ← onArrays (stringAt .reqpath 0)
      if dispatch reqpath then httpRequestHeaders else return some "Error dispatching request"

/-- Every array has its size. -/
def Sized (m : Arrays Arr) : Prop := ∀ a, (m a).length = a.size

/-- The arrays other than `a` are the same. -/
def Elsewhere (a : Arr) (m m' : Arrays Arr) : Prop := ∀ b, b ≠ a → m' b = m b

theorem Sized.update {m : Arrays Arr} {a : Arr} {l : List UInt8} (h : Sized m)
    (hl : l.length = (m a).length) : Sized (Function.update m a l) := by
  intro b
  by_cases hb : b = a
  · subst hb
    rw [Function.update_self, hl]
    exact h b
  · rw [Function.update_of_ne hb]
    exact h b

theorem length_updated {m : Arrays Arr} {a : Arr} {l : List UInt8} {n : Nat} (h : l.length = n) :
    (Function.update m a l a).length = n := by
  rw [Function.update_self, h]

theorem elsewhere_update (m : Arrays Arr) (a : Arr) (l : List UInt8) :
    Elsewhere a m (Function.update m a l) :=
  fun _ hb => Function.update_of_ne hb l m

/-- Work on the arrays, with the rest of the state kept. -/
theorem wp_on_arrays {α : Type} {x : Prog (Arrays Arr) (Fault Arr) α} {Q : α → State → Prop}
    {E : Fault Arr → State → Prop} {s : State}
    (h : wp x (fun a m => Q a { s with mem := m }) (fun e m => E e { s with mem := m }) s.mem) :
    wp (onArrays x) Q E s :=
  wp_zoom.2 h

/-- A store between known bytes of an array of its size. -/
theorem store_spec {a : Arr} {i : Nat} {c x : UInt8} {before behind : List UInt8} {m : Arrays Arr}
    {Q : Unit → Arrays Arr → Prop} {E : Fault Arr → Arrays Arr → Prop} (hsized : Sized m)
    (h : m a = before ++ x :: behind) (hi : i = before.length)
    (hQ : ∀ m', Sized m' → Elsewhere a m m' → m' a = before ++ c :: behind → Q () m') :
    wp (store a i c) Q E m := by
  refine wp_store_at h hi (hQ _ (hsized.update ?_) (elsewhere_update _ _ _) (Function.update_self ..))
  rw [h]
  simp

/-- The loop of `http_read_line` stays in its array. -/
theorem read_line_loop_spec {a : Arr} {size i : Nat} {input done old : List UInt8} {s : State}
    {Q : Int → State → Prop} {E : Fault Arr → State → Prop} (hmem : s.mem a = done ++ old)
    (hdone : done.length = i) (hlen : (s.mem a).length = size) (hi : i < size)
    (hnone : Http.httpReadLine size done input = none → ∀ l, l.length = size →
      Q (-1) { s with mem := Function.update s.mem a l, input := [] })
    (hsome : ∀ buf rest junk, Http.httpReadLine size done input = some (buf, rest) →
      (buf ++ 0 :: junk).length = size →
      Q 0 { s with mem := Function.update s.mem a (buf ++ 0 :: junk), input := rest }) :
    wp (readLineLoop a size input i) Q E s := by
  induction input generalizing i done old s with
  | nil =>
      have hend := hnone rfl (s.mem a) hlen
      rw [Function.update_eq_self] at hend
      exact hend
  | cons c input ih =>
      cases old with
      | nil =>
          rw [hmem, List.append_nil] at hlen
          omega
      | cons x old =>
          have hroom : (done ++ c :: old).length = size := by
            rw [← hlen, hmem]
            simp
          have hend : (done ++ 0 :: old).length = size := by
            rw [← hroom]
            simp
          rw [readLineLoop, wp_bind]
          refine wp_on_arrays (wp_store_at hmem hdone.symm ?_)
          by_cases hcr : c = byte '\r'
          · rw [if_pos hcr, wp_bind]
            refine wp_on_arrays (wp_store_at (Function.update_self ..) hdone.symm ?_)
            rw [Function.update_idem]
            refine ih (Function.update_self ..) hdone (length_updated hend) hi ?_ ?_
            · intro hline l hl
              rw [Function.update_idem]
              refine hnone ?_ l hl
              rw [Http.httpReadLine, if_pos hcr]
              exact hline
            · intro buf rest junk hline hl
              rw [Function.update_idem]
              refine hsome buf rest junk ?_ hl
              rw [Http.httpReadLine, if_pos hcr]
              exact hline
          · rw [if_neg hcr]
            by_cases hnl : c = byte '\n'
            · rw [if_pos hnl, wp_bind]
              refine wp_on_arrays (wp_store_at (Function.update_self ..) hdone.symm ?_)
              rw [Function.update_idem]
              refine hsome done input old ?_ hend
              rw [Http.httpReadLine, if_neg hcr, if_pos hnl]
            · rw [if_neg hnl]
              by_cases hfull : size - 1 ≤ i
              · rw [if_pos hfull, wp_bind]
                refine wp_on_arrays (wp_store_at (Function.update_self ..) hdone.symm ?_)
                rw [Function.update_idem]
                refine hsome done input old ?_ hend
                rw [Http.httpReadLine, if_neg hcr, if_neg hnl, if_pos (by omega)]
              · rw [if_neg hfull]
                have hgrow : done ++ c :: old = (done ++ [c]) ++ old := by simp
                refine ih ((Function.update_self ..).trans hgrow) (by simp [hdone])
                  (length_updated hroom) (by omega) ?_ ?_
                · intro hline l hl
                  rw [Function.update_idem]
                  refine hnone ?_ l hl
                  rw [Http.httpReadLine, if_neg hcr, if_neg hnl, if_neg (by omega)]
                  exact hline
                · intro buf rest junk hline hl
                  rw [Function.update_idem]
                  refine hsome buf rest junk ?_ hl
                  rw [Http.httpReadLine, if_neg hcr, if_neg hnl, if_neg (by omega)]
                  exact hline

/-- `http_read_line` fills its array with the line and a terminator. -/
theorem read_line_spec {a : Arr} {s : State} {Q : Int → State → Prop}
    {E : Fault Arr → State → Prop} (hsized : Sized s.mem)
    (hnone : Http.httpReadLine a.size [] s.input = none → ∀ m, Q (-1) { s with mem := m, input := [] })
    (hsome : ∀ buf rest junk m, Http.httpReadLine a.size [] s.input = some (buf, rest) →
      m a = buf ++ 0 :: junk → Sized m → Q 0 { s with mem := m, input := rest }) :
    wp (httpReadLine a a.size) Q E s := by
  have hpos : 0 < a.size := by
    cases a <;> decide
  rw [httpReadLine, wp_bind]
  refine read_line_loop_spec (List.nil_append _).symm rfl (hsized a) hpos ?_ ?_
  · intro hline l _
    exact hnone hline _
  · intro buf rest junk hline hl
    refine hsome buf rest junk _ hline (Function.update_self ..) (hsized.update ?_)
    rw [hl, hsized a]

/-- The escape at the start of a string. -/
def escape : List UInt8 → Option (UInt8 × UInt8)
  | c :: x :: y :: _ => if c = byte '%' then some (x, y) else none
  | _ => none

theorem hexbuf_spec {src : Arr} {p : Nat} {m : Arrays Arr} {s : List UInt8}
    {Q : Option (UInt8 × UInt8) → Arrays Arr → Prop} {E : Fault Arr → Arrays Arr → Prop}
    (h : HoldsString (m src) p s) (hQ : Q (escape s) m) : wp (hexbuf src p) Q E m := by
  rw [hexbuf, wp_bind]
  cases s with
  | nil => 
      refine wp_load h.nil ?_
      rw [if_neg (by decide)]
      exact hQ
  | cons c s =>
      obtain ⟨hc, _, htail⟩ := h.cons
      refine wp_load hc ?_
      by_cases hpercent : c = byte '%'
      · rw [if_pos hpercent, wp_bind]
        cases s with
        | nil =>
            refine wp_load htail.nil ?_
            rw [if_pos rfl]
            exact hQ
        | cons x s =>
            obtain ⟨hx, hx0, htail'⟩ := htail.cons
            refine wp_load hx ?_
            rw [if_neg hx0, wp_bind]
            cases s with
            | nil =>
                refine wp_load htail'.nil ?_
                rw [if_pos rfl]
                exact hQ
            | cons y s =>
                obtain ⟨hy, hy0, _⟩ := htail'.cons
                refine wp_load hy ?_
                rw [if_neg hy0]
                rw [escape, if_pos hpercent] at hQ
                exact hQ
      · rw [if_neg hpercent]
        have hescape : escape (c :: s) = none := by
          unfold escape
          split
          · rename_i heq
            cases heq
            rw [if_neg hpercent]
          · rfl
        rw [hescape] at hQ
        exact hQ

theorem escape_eq_some {s : List UInt8} {x y : UInt8} (h : escape s = some (x, y)) :
    ∃ rest, s = byte '%' :: x :: y :: rest := by
  unfold escape at h
  split at h
  case h_1 c x' y' rest =>
    split at h
    case isTrue hc =>
      cases h
      exact ⟨rest, by rw [hc]⟩
    case isFalse => cases h
  case h_2 => cases h

/-- Without an escape, the first byte is decoded by itself. -/
theorem url_decode_cons {c : UInt8} {s : List UInt8} (h : escape (c :: s) = none) :
    Http.urlDecode (c :: s) = Http.plusDecode c :: Http.urlDecode s := by
  cases s with
  | nil => rfl
  | cons x s =>
      cases s with
      | nil => rfl
      | cons y s =>
          have hc : c ≠ byte '%' := by
            intro heq
            rw [escape, if_pos heq] at h
            cases h
          rw [Http.urlDecode, if_neg hc]

/-- The loop of `url_decode_n` writes the decoded string, cut off before the last byte of its
array, and a terminator. -/
theorem url_decode_loop_exact {dst src : Arr} (hne : src ≠ dst) {dstlen fuel i p : Nat}
    {s : List UInt8} {m : Arrays Arr} {Q : Unit → Arrays Arr → Prop}
    {E : Fault Arr → Arrays Arr → Prop} (hfuel : fuel + i = dstlen) (hi : i < dstlen)
    (hroom : dstlen ≤ (m dst).length) (hword : dstlen ≠ 2 ^ 32 - 1)
    (hstr : HoldsString (m src) p s)
    (hQ : Q () (Function.update m dst
      (overwrite (m dst) i ((Http.urlDecode s).take (dstlen - 1 - i) ++ [0])))) :
    wp (urlDecodeLoop dst dstlen src fuel i p) Q E m := by
  induction fuel generalizing i p s m with
  | zero => omega
  | succ fuel ih =>
      have hlt : i < (m dst).length := by omega
      rw [urlDecodeLoop]
      by_cases hfull : dstlen - 1 ≤ i
      · rw [if_pos ⟨hword, hfull⟩]
        have hempty : dstlen - 1 - i = 0 := by omega
        rw [hempty, List.take_zero, List.nil_append, overwrite_singleton hlt] at hQ
        exact wp_store hlt hQ
      · rw [if_neg (fun h => hfull h.2), wp_bind]
        -- one decoded byte has been stored, and the loop goes on behind what it stands for
        have hnext : ∀ b p' s', Http.urlDecode s = b :: Http.urlDecode s' →
            HoldsString (m src) p' s' →
            wp (urlDecodeLoop dst dstlen src fuel (i + 1) p') Q E
              (Function.update m dst ((m dst).set i b)) := by
          intro b p' s' hdecode hstr'
          have hcount : dstlen - 1 - i = dstlen - 1 - (i + 1) + 1 := by omega
          have hkept : HoldsString (Function.update m dst ((m dst).set i b) src) p' s' := by
            rw [Function.update_of_ne hne]
            exact hstr'
          refine ih (by omega) (by omega) ?_ hkept ?_
          · rw [Function.update_self, List.length_set]
            exact hroom
          · rw [hdecode, hcount, List.take_succ_cons, List.cons_append] at hQ
            rw [Function.update_self, Function.update_idem, overwrite_set hlt]
            exact hQ
        refine hexbuf_spec hstr ?_
        cases hescape : escape s with
        | some found =>
            obtain ⟨a, b⟩ := found
            obtain ⟨rest, hs⟩ := escape_eq_some hescape
            rw [hs] at hstr
            show wp (do store dst i _; urlDecodeLoop dst dstlen src fuel (i + 1) (p + 3)) Q E m
            rw [wp_bind]
            refine wp_store hlt (hnext _ _ rest ?_ hstr.cons.2.2.cons.2.2.cons.2.2)
            rw [hs, Http.urlDecode, if_pos rfl]
        | none =>
            show wp (do
              let c ← load src p
              if c = byte '+' then
                store dst i (byte ' ')
                urlDecodeLoop dst dstlen src fuel (i + 1) (p + 1)
              else
                store dst i c
                if c = 0 then return () else
                  urlDecodeLoop dst dstlen src fuel (i + 1) (p + 1)) Q E m
            rw [wp_bind]
            cases s with
            | nil =>
                refine wp_load hstr.nil ?_
                rw [if_neg (by decide), wp_bind]
                refine wp_store hlt ?_
                rw [if_pos rfl]
                rw [Http.urlDecode, List.take_nil, List.nil_append, overwrite_singleton hlt] at hQ
                exact hQ
            | cons c s =>
                obtain ⟨hc, hc0, htail⟩ := hstr.cons
                have hdecode := url_decode_cons hescape
                refine wp_load hc ?_
                by_cases hplus : c = byte '+'
                · rw [if_pos hplus, wp_bind]
                  refine wp_store hlt (hnext _ _ s ?_ htail)
                  rw [hdecode, Http.plusDecode, if_pos hplus]
                · rw [if_neg hplus, wp_bind]
                  refine wp_store hlt ?_
                  rw [if_neg hc0]
                  refine hnext _ _ s ?_ htail
                  rw [hdecode, Http.plusDecode, if_neg hplus]

/-- `url_decode_n` leaves a string in its array. -/
theorem url_decode_n_spec {dst src : Arr} (hne : src ≠ dst) {dstlen p : Nat} {s : List UInt8}
    {m : Arrays Arr} {Q : Unit → Arrays Arr → Prop} {E : Fault Arr → Arrays Arr → Prop}
    (hsized : Sized m) (hpos : 0 < dstlen) (hroom : dstlen ≤ dst.size)
    (hstr : HoldsString (m src) p s)
    (hQ : ∀ m', Sized m' → Elsewhere dst m m' →
      HoldsString (m' dst) 0 (cstr ((Http.urlDecode s).take (dstlen - 1))) → Q () m') :
    wp (urlDecodeN dst dstlen src p) Q E m := by
  have hsmall : dst.size ≤ 8192 := by
    cases dst <;> decide
  have hlength : dstlen ≤ (m dst).length := by
    rw [hsized dst]
    exact hroom
  refine url_decode_loop_exact hne rfl hpos hlength (by omega) hstr ?_
  refine hQ _ (hsized.update (length_overwrite ?_)) (elsewhere_update _ _ _) ?_
  · rw [List.length_append, List.length_take, List.length_singleton]
    omega
  · rw [Function.update_self, overwrite, List.take_zero, List.nil_append, List.append_assoc]
    exact holds_string_cstr rfl

/-- The parts of a request line. -/
structure Parts where
  method : List UInt8
  uri : List UInt8
  protocol : List UInt8
  deriving DecidableEq

/-- The parts of a request line behind its method. -/
def parseTail (method sp1 : List UInt8) : Option Parts :=
  if sp1.head? ≠ some (byte '/') then none
  else
    match cut (byte ' ') sp1 with
    | none => none
    | some (uri, protocol) =>
        if method ≠ ascii "GET" ∧ method ≠ ascii "POST" then none
        else some ⟨method, uri, protocol⟩

/-- The parts of a request line that passes the checks of `http_request_line`. -/
def parse (s : List UInt8) : Option Parts :=
  match cut (byte ' ') s with
  | none => none
  | some (method, sp1) => parseTail method sp1

/-- The bytes of the query string, with its terminator. -/
def queryLength (uri : List UInt8) : Nat :=
  match cut (byte '?') uri with
  | none => 0
  | some (_, query) => 13 + query.length + 1

/-- The entry of the query string. -/
def queryEntry (uri : List UInt8) : List (List UInt8) :=
  match cut (byte '?') uri with
  | none => []
  | some (_, query) => [ascii "QUERY_STRING=" ++ query]

namespace Parts

/-- The bytes of the entries in front of the check. -/
def entries (r : Parts) : Nat :=
  15 + r.method.length + 1 + 16 + r.protocol.length + 1 + queryLength r.uri

/-- The path as `url_decode_n` leaves it, which takes `reqpath` to be as long as a pointer. -/
def reqpath (r : Parts) : List UInt8 :=
  cstr ((Http.urlDecode (Http.pathOf r.uri)).take (sizeofPointer - 1))

/-- The entries of `env`, the last one empty. -/
def block (r : Parts) : List (List UInt8) :=
  [ascii "REQUEST_METHOD=" ++ r.method, ascii "SERVER_PROTOCOL=" ++ r.protocol] ++
    queryEntry r.uri ++
    [ascii "REQUEST_URI=" ++ r.reqpath, ascii "SERVER_NAME=zoobar.org", []]

/-- The entries pass the check. -/
def Checked (r : Parts) : Prop := r.entries + 20 + r.reqpath.length < 8192

/-- The entries fit `env`, the last two with the byte behind them included. -/
def Fits (r : Parts) : Prop :=
  r.entries ≤ 8192 ∧ (r.Checked → r.entries + 12 + r.reqpath.length + 1 + 22 + 1 + 1 ≤ 8192)

end Parts

/-- `sprintf` to an array of its size. -/
theorem sprintf_spec {a b : Arr} {i p : Nat} {fmt s : List UInt8} {m : Arrays Arr}
    {Q : Nat → Arrays Arr → Prop} {E : Fault Arr → Arrays Arr → Prop} (hsized : Sized m)
    (hstr : HoldsString (m b) p s) (hi : i ≤ a.size)
    (hfit : i + fmt.length + s.length + 1 ≤ a.size →
      ∀ m', Sized m' → Elsewhere a m m' → m' a = overwrite (m a) i (fmt ++ s ++ [0]) →
        Q (fmt.length + s.length) m')
    (hover : a.size < i + fmt.length + s.length + 1 → ∀ j t, E (.overrun a j) t) :
    wp (sprintf a i fmt b p) Q E m := by
  refine wp_sprintf hstr (by rw [hsized a]; exact hi) ?_ ?_
  · intro hroom
    rw [hsized a] at hroom
    refine hfit hroom _ (hsized.update (length_overwrite ?_)) (elsewhere_update _ _ _)
      (Function.update_self ..)
    rw [hsized a]
    simp only [List.length_append, List.length_singleton]
    omega
  · intro hfull
    rw [hsized a] at hfull
    exact hover hfull

/-- An entry behind the entries that are there. -/
theorem take_entry {envp : Nat} {e : List UInt8} {es : List (List UInt8)} {m m' : Arrays Arr}
    (hsized : Sized m) (henvp : envp ≤ 8192) (hes : (m .env).take envp = frame 0 es)
    (hm' : m' .env = overwrite (m .env) envp (e ++ [0])) :
    (m' .env).take (envp + e.length + 1) = frame 0 (es ++ [e]) := by
  have hroom : envp ≤ (m .env).length := by
    rw [hsized .env]
    exact henvp
  have hlen : envp + e.length + 1 = envp + (e ++ [0]).length := by
    rw [List.length_append, List.length_singleton, Nat.add_assoc]
  rw [hm', hlen, take_overwrite hroom, hes, frame_append, frame_cons, frame_nil]

/-- The query string is cut off the path and stored, if it fits. -/
theorem format_query_spec {sp1 envp : Nat} {before uri rest : List UInt8}
    {es : List (List UInt8)} {m : Arrays Arr}
    {Q : Nat → Arrays Arr → Prop} {E : Fault Arr → Arrays Arr → Prop} (hsized : Sized m)
    (hline : m .line = before ++ (uri ++ 0 :: rest)) (hsp1 : sp1 = before.length)
    (hzero : 0 ∉ uri) (henvp : envp ≤ 8192) (hes : (m .env).take envp = frame 0 es)
    (hfit : envp + queryLength uri ≤ 8192 → ∀ m', Sized m' →
      HoldsString (m' .line) sp1 (Http.pathOf uri) →
      (m' .env).take (envp + queryLength uri) = frame 0 (es ++ queryEntry uri) →
      Q (envp + queryLength uri) m')
    (hover : 8192 < envp + queryLength uri → ∀ a j t, E (.overrun a j) t) :
    wp (formatQuery sp1 envp) Q E m := by
  have hstr : HoldsString (m .line) sp1 uri := by
    rw [hline]
    exact holds_string_behind hzero hsp1
  rw [formatQuery, wp_bind]
  refine wp_strchr_at (by decide) hstr ?_
  cases hcut : cut (byte '?') uri with
  | none =>
      have hpath : Http.pathOf uri = uri := by rw [Http.pathOf, hcut]
      have hnone : queryLength uri = 0 := by rw [queryLength, hcut]
      have hempty : queryEntry uri = [] := by rw [queryEntry, hcut]
      rw [hpath, hnone, hempty, List.append_nil] at hfit
      exact hfit henvp m hsized hstr hes
  | some found =>
      obtain ⟨path, query⟩ := found
      have hpath : Http.pathOf uri = path := by rw [Http.pathOf, hcut]
      have hlength : queryLength uri = 13 + query.length + 1 := by rw [queryLength, hcut]
      have hentry : queryEntry uri = [ascii "QUERY_STRING=" ++ query] := by rw [queryEntry, hcut]
      obtain ⟨huri, _⟩ := cut_eq_some.1 hcut
      rw [hpath, hlength, hentry] at hfit
      rw [hlength] at hover
      rw [huri] at hline hzero
      simp only [List.mem_append, List.mem_cons, not_or] at hzero
      have hmark : m .line = (before ++ path) ++ byte '?' :: (query ++ 0 :: rest) := by
        rw [hline]
        simp
      show wp (do
        store .line (sp1 + path.length) 0
        let n ← sprintf .env envp (ascii "QUERY_STRING=") .line (sp1 + path.length + 1)
        return envp + n + 1) Q E m
      rw [wp_bind]
      refine wp_store_at hmark (by simp [hsp1]) ?_
      have hsized' : Sized (Function.update m .line
          ((before ++ path) ++ 0 :: (query ++ 0 :: rest))) := by
        refine hsized.update ?_
        rw [hmark]
        simp
      have hquery : HoldsString (Function.update m .line
          ((before ++ path) ++ 0 :: (query ++ 0 :: rest)) .line) (sp1 + path.length + 1) query := by
        rw [Function.update_self]
        have hsplit : (before ++ path) ++ 0 :: (query ++ 0 :: rest) =
            (before ++ path ++ [0]) ++ (query ++ 0 :: rest) := by simp
        rw [hsplit]
        exact holds_string_behind hzero.2.2 (by simp [hsp1, Nat.add_assoc])
      have hname : (ascii "QUERY_STRING=").length = 13 := by decide
      rw [wp_bind]
      refine sprintf_spec hsized' hquery henvp ?_ ?_
      · intro hroom m' hsized'' helse henv
        rw [hname] at hroom ⊢
        have hshort : envp + 13 + query.length + 1 ≤ 8192 := hroom
        refine hfit (by omega) m' hsized'' ?_ ?_
        · rw [helse .line (by decide), Function.update_self]
          have hsplit : (before ++ path) ++ 0 :: (query ++ 0 :: rest) =
              before ++ (path ++ 0 :: (query ++ 0 :: rest)) := by simp
          rw [hsplit]
          exact holds_string_behind hzero.1 hsp1
        · have htake := take_entry hsized' henvp
            (show (Function.update m .line _ .env).take envp = frame 0 es by
              rw [Function.update_of_ne (by decide)]
              exact hes) henv
          rw [List.length_append, hname] at htake
          exact htake
      · intro hfull
        rw [hname] at hfull
        have hlong : 8192 < envp + 13 + query.length + 1 := hfull
        exact hover (by omega) .env

/-- The path is decoded, and the last entries go to `env` if the check passes and they fit. -/
theorem format_uri_spec {sp1 envp : Nat} {path r : List UInt8} {es : List (List UInt8)}
    {m : Arrays Arr}
    {Q : Option Nat → Arrays Arr → Prop} {E : Fault Arr → Arrays Arr → Prop} (hsized : Sized m)
    (hstr : HoldsString (m .line) sp1 path) (henvp : envp ≤ 8192)
    (hes : (m .env).take envp = frame 0 es)
    (hr : r = cstr ((Http.urlDecode path).take (sizeofPointer - 1)))
    (hshort : 8192 ≤ envp + 20 + r.length → ∀ m', Q none m')
    (hfits : envp + 20 + r.length < 8192 → envp + 12 + r.length + 1 + 22 + 1 + 1 ≤ 8192 →
      ∀ n m', Sized m' → HoldsString (m' .reqpath) 0 r →
        (m' .env).take n = frame 0 (es ++ [ascii "REQUEST_URI=" ++ r] ++
          [ascii "SERVER_NAME=zoobar.org"] ++ [[]]) → Q (some n) m')
    (hover : envp + 20 + r.length < 8192 → 8192 < envp + 12 + r.length + 1 + 22 + 1 + 1 →
      ∀ a j t, E (.overrun a j) t) :
    wp (formatUri sp1 envp) Q E m := by
  have huriName : (ascii "REQUEST_URI=").length = 12 := by decide
  have hserverName : (ascii "SERVER_NAME=zoobar.org" ++ [0]).length = 23 := by decide
  have hserver22 : (ascii "SERVER_NAME=zoobar.org").length = 22 := by decide
  rw [formatUri, wp_bind]
  refine url_decode_n_spec (by decide) hsized (by decide) (by decide) hstr ?_
  intro m₁ hsized₁ helse₁ hreqpath
  rw [← hr] at hreqpath
  rw [wp_bind]
  refine wp_strlen hreqpath ?_
  by_cases hcheck : 8192 ≤ envp + 20 + r.length
  · rw [if_pos hcheck]
    exact hshort hcheck m₁
  · rw [if_neg hcheck, wp_bind]
    refine sprintf_spec hsized₁ hreqpath henvp ?_ ?_
    · intro hroom m₂ hsized₂ helse₂ henv₂
      have htake₂ := take_entry hsized₁ henvp (by rw [helse₁ .env (by decide), hes]) henv₂
      rw [List.length_append] at htake₂
      rw [huriName] at hroom htake₂ ⊢
      have hroom' : envp + 12 + r.length + 1 ≤ 8192 := hroom
      rw [wp_bind]
      refine wp_store_bytes (by rw [hsized₂ .env, ← Nat.add_assoc]; exact hroom) ?_ ?_
      · intro hserver
        rw [hserverName, hsized₂ .env] at hserver
        have hserver' : envp + (12 + r.length) + 1 + 23 ≤ 8192 := hserver
        have hsized₃ : Sized (Function.update m₂ .env (overwrite (m₂ .env)
            (envp + (12 + r.length) + 1) (ascii "SERVER_NAME=zoobar.org" ++ [0]))) := by
          refine hsized₂.update (length_overwrite ?_)
          rw [hserverName, hsized₂ .env]
          exact hserver
        have htake₃ := take_entry (e := ascii "SERVER_NAME=zoobar.org") hsized₂
          (show envp + (12 + r.length) + 1 ≤ 8192 by omega) htake₂
          (Function.update_self .env (overwrite (m₂ .env) (envp + (12 + r.length) + 1)
            (ascii "SERVER_NAME=zoobar.org" ++ [0])) m₂)
        rw [hserver22] at htake₃
        rw [wp_bind]
        by_cases hend : envp + (12 + r.length) + 1 + 22 + 1 < 8192
        · refine wp_store (by rw [hsized₃ .env]; exact hend) ?_
          refine hfits (by omega) (by omega) _ _ (hsized₃.update (List.length_set ..)) ?_ ?_
          · rw [Function.update_of_ne (by decide), Function.update_of_ne (by decide),
              helse₂ .reqpath (by decide)]
            exact hreqpath
          · have hlast : [0] = frame (0 : UInt8) [[]] := rfl
            rw [Function.update_self, take_set (by rw [hsized₃ .env]; exact hend), htake₃, hlast,
              ← frame_append]
        · unfold wp store
          rw [if_neg (by rw [hsized₃ .env]; exact hend)]
          exact hover (by omega) (by omega) _ _ _
      · intro hfull
        rw [hserverName, hsized₂ .env] at hfull
        have hfull' : 8192 < envp + (12 + r.length) + 1 + 23 := hfull
        exact hover (by omega) (by omega) .env
    · intro hfull
      rw [huriName] at hfull
      have hfull' : 8192 < envp + 12 + r.length + 1 := hfull
      exact hover (by omega) (by omega) .env

/-- The entries go to `env`, if they fit. -/
theorem format_env_spec {parts : Parts} {junk : List UInt8} {m : Arrays Arr}
    {Q : Option Nat → Arrays Arr → Prop} {E : Fault Arr → Arrays Arr → Prop}
    (hsized : Sized m)
    (hline : m .line = parts.method ++ 0 :: (parts.uri ++ 0 :: (parts.protocol ++ 0 :: junk)))
    (hmethod : 0 ∉ parts.method) (huri : 0 ∉ parts.uri) (hprotocol : 0 ∉ parts.protocol)
    (hshort : ¬ parts.Checked → parts.Fits → ∀ m', Q none m')
    (hfits : parts.Checked → parts.Fits → ∀ n m', Sized m' →
      HoldsString (m' .reqpath) 0 parts.reqpath → (m' .env).take n = frame 0 parts.block →
      Q (some n) m')
    (hover : ¬ parts.Fits → ∀ a j t, E (.overrun a j) t) :
    wp (formatEnv (parts.method.length + 1) (parts.method.length + 1 + parts.uri.length + 1))
      Q E m := by
  have hmethodName : (ascii "REQUEST_METHOD=").length = 15 := by decide
  have hprotocolName : (ascii "SERVER_PROTOCOL=").length = 16 := by decide
  have hlarge : 8192 < parts.entries → ∀ a j t, E (.overrun a j) t := by
    intro hlong
    exact hover fun hall => absurd hall.1 (by omega)
  unfold Parts.Fits Parts.Checked at *
  have hentries : parts.entries = 15 + parts.method.length + 1 + 16 + parts.protocol.length + 1 +
      queryLength parts.uri := rfl
  rw [formatEnv, wp_bind]
  refine sprintf_spec (s := parts.method) hsized ?_ (Nat.zero_le _) ?_ ?_
  · rw [hline]
    exact holds_string_start hmethod
  · intro hroom₁ m₁ hsized₁ helse₁ henv₁
    have htake₁ := take_entry hsized (Nat.zero_le _)
      (show (m .env).take 0 = frame 0 [] from List.take_zero) henv₁
    rw [List.length_append, Nat.zero_add] at htake₁
    rw [hmethodName] at hroom₁ htake₁ ⊢
    have hroom₁' : 0 + 15 + parts.method.length + 1 ≤ 8192 := hroom₁
    have hline₁ : m₁ .line = m .line := helse₁ .line (by decide)
    rw [wp_bind]
    refine sprintf_spec (s := parts.protocol) hsized₁ ?_ (by omega) ?_ ?_
    · have hsplit : m₁ .line =
          (parts.method ++ 0 :: parts.uri ++ [0]) ++ (parts.protocol ++ 0 :: junk) := by
        rw [hline₁, hline]
        simp
      rw [hsplit]
      refine holds_string_behind hprotocol ?_
      simp only [List.length_append, List.length_cons, List.length_nil]
      omega
    · intro hroom₂ m₂ hsized₂ helse₂ henv₂
      have htake₂ := take_entry hsized₁ (by omega) htake₁ henv₂
      rw [List.length_append] at htake₂
      rw [hprotocolName] at hroom₂ htake₂ ⊢
      have hroom₂' : 15 + parts.method.length + 1 + 16 + parts.protocol.length + 1 ≤ 8192 := hroom₂
      have hline₂ : m₂ .line =
          (parts.method ++ [0]) ++ (parts.uri ++ 0 :: (parts.protocol ++ 0 :: junk)) := by
        rw [helse₂ .line (by decide), hline₁, hline]
        simp
      rw [wp_bind]
      refine format_query_spec hsized₂ hline₂ (by simp) huri (by omega) htake₂ ?_ ?_
      · intro hroom₃ m₃ hsized₃ hpath htake₃
        have hsum : 15 + parts.method.length + 1 + (16 + parts.protocol.length) + 1 +
            queryLength parts.uri = parts.entries := by omega
        rw [hsum] at hroom₃ htake₃ ⊢
        refine format_uri_spec hsized₃ hpath hroom₃ htake₃ rfl ?_ ?_ ?_
        · intro hcheck
          exact hshort (by unfold Parts.reqpath; omega) ⟨hroom₃, fun h => absurd h (by
            unfold Parts.reqpath
            omega)⟩
        · intro hcheck hroom n m' hsized' hreqpath hblock
          refine hfits hcheck ⟨hroom₃, fun _ => hroom⟩ n m' hsized' hreqpath ?_
          rw [hblock]
          simp [Parts.block, Parts.reqpath]
        · intro hcheck hfull
          refine hover fun hall => ?_
          have hroom := hall.2 hcheck
          unfold Parts.reqpath at hroom
          omega
      · intro hfull
        exact hlarge (by omega)
    · intro hfull
      rw [hprotocolName] at hfull
      have hfull' : 8192 < 15 + parts.method.length + 1 + 16 + parts.protocol.length + 1 := hfull
      exact hlarge (by omega) .env
  · intro hfull
    rw [hmethodName] at hfull
    have hfull' : 8192 < 0 + 15 + parts.method.length + 1 := hfull
    exact hlarge (by omega) .env

/-- What `http_request_line` does behind the method. -/
theorem request_tail_spec {method sp1 tail : List UInt8} {s : State}
    {Q : Option String → State → Prop} {E : Fault Arr → State → Prop} (hsized : Sized s.mem)
    (hmem : s.mem .line = method ++ byte ' ' :: (sp1 ++ 0 :: tail)) (hmethod : 0 ∉ method)
    (hsp1 : 0 ∉ sp1)
    (hbad : (∀ parts, parseTail method sp1 = some parts → parts.Fits ∧ ¬ parts.Checked) →
      ∀ err t, Q (some err) t)
    (hgood : ∀ parts, parseTail method sp1 = some parts → parts.Fits → parts.Checked → ∀ t,
      t.input = s.input → Sized t.mem → HoldsString (t.mem .reqpath) 0 parts.reqpath →
      (t.mem .env).take t.envLen = frame 0 parts.block → Q none t)
    (hover : ∀ parts, parseTail method sp1 = some parts → ¬ parts.Fits →
      ∀ a j t, E (.overrun a j) t) :
    wp (requestTail method.length) Q E s := by
  have hstop : parseTail method sp1 = none → ∀ err t, Q (some err) t := by
    intro hparse
    refine hbad fun parts hparts => ?_
    rw [hparse] at hparts
    cases hparts
  rw [requestTail, wp_bind]
  refine wp_on_arrays (store_spec hsized hmem rfl ?_)
  intro m₁ hsized₁ _ hline₁
  have hstr : HoldsString (m₁ .line) (method.length + 1) sp1 := by
    have hsplit : m₁ .line = (method ++ [0]) ++ (sp1 ++ 0 :: tail) := by
      rw [hline₁]
      simp
    rw [hsplit]
    exact holds_string_behind hsp1 (by simp)
  rw [wp_bind]
  refine wp_on_arrays (wp_load_head hstr ?_)
  by_cases hslash : sp1.head?.getD 0 ≠ byte '/'
  · rw [if_pos hslash]
    refine hstop ?_ _ _
    rw [parseTail, if_pos]
    intro hhead
    rw [hhead] at hslash
    exact hslash rfl
  · have hhead : ¬ sp1.head? ≠ some (byte '/') := by
      cases sp1 with
      | nil => exact absurd (by decide) hslash
      | cons c sp1 => simpa using hslash
    rw [if_neg hslash, wp_bind]
    refine wp_on_arrays (wp_strchr_at (by decide) hstr ?_)
    cases hcut : cut (byte ' ') sp1 with
    | none =>
        refine hstop ?_ _ _
        rw [parseTail, if_neg hhead, hcut]
    | some found =>
        obtain ⟨uri, protocol⟩ := found
        obtain ⟨hsplit, _⟩ := cut_eq_some.1 hcut
        subst hsplit
        simp only [List.mem_append, List.mem_cons, not_or] at hsp1
        have hspace : m₁ .line = (method ++ 0 :: uri) ++ byte ' ' :: (protocol ++ 0 :: tail) := by
          rw [hline₁]
          simp
        show wp (do
          onArrays (store .line (method.length + 1 + uri.length) 0)
          let method' ← onArrays (stringAt .line 0)
          if method' ≠ ascii "GET" ∧ method' ≠ ascii "POST" then
            return some "Unsupported request (not GET or POST)"
          else
            match ← onArrays (formatEnv (method.length + 1)
              (method.length + 1 + uri.length + 1)) with
            | none => return some "Environment buffer overflow"
            | some envLen => do
                modify fun s => { s with envLen := envLen }
                return none) Q E _
        rw [wp_bind]
        refine wp_on_arrays (store_spec hsized₁ hspace (by simp [Nat.add_comm, Nat.add_left_comm]) ?_)
        intro m₂ hsized₂ _ hline₂
        have hline : m₂ .line = method ++ 0 :: (uri ++ 0 :: (protocol ++ 0 :: tail)) := by
          rw [hline₂]
          simp
        have hname : HoldsString (m₂ .line) 0 method := by
          rw [hline]
          exact holds_string_start hmethod
        rw [wp_bind]
        refine wp_on_arrays (wp_string_at hname ?_)
        by_cases hknown : method ≠ ascii "GET" ∧ method ≠ ascii "POST"
        · rw [if_pos hknown]
          refine hstop ?_ _ _
          rw [parseTail, if_neg hhead, hcut]
          exact if_pos hknown
        · have hparse : parseTail method (uri ++ byte ' ' :: protocol) =
              some ⟨method, uri, protocol⟩ := by
            rw [parseTail, if_neg hhead, hcut]
            exact if_neg hknown
          have hparts : ∀ {parts}, parseTail method (uri ++ byte ' ' :: protocol) = some parts →
              parts = ⟨method, uri, protocol⟩ := fun h => Option.some.inj (h.symm.trans hparse)
          rw [if_neg hknown, wp_bind]
          refine wp_on_arrays (@format_env_spec ⟨method, uri, protocol⟩ _ _ _ _ hsized₂ hline
            hmethod hsp1.1 hsp1.2.2 ?_ ?_ ?_)
          · intro hunchecked hfits m'
            refine hbad (fun parts h => ?_) _ _
            rw [hparts h]
            exact ⟨hfits, hunchecked⟩
          · intro hchecked hfits n m' hsized' hreqpath hblock
            exact hgood _ hparse hfits hchecked _ rfl hsized' hreqpath hblock
          · intro hfull a j t
            exact hover _ hparse hfull a j _

/-- What `http_request_line` does. -/
theorem request_line_spec {s : State} {Q : Option String → State → Prop}
    {E : Fault Arr → State → Prop} (hsized : Sized s.mem)
    (hbad : (∀ buf rest parts, Http.httpReadLine 8192 [] s.input = some (buf, rest) →
      parse (cstr buf) = some parts → parts.Fits ∧ ¬ parts.Checked) → ∀ err t, Q (some err) t)
    (hgood : ∀ buf rest parts, Http.httpReadLine 8192 [] s.input = some (buf, rest) →
      parse (cstr buf) = some parts → parts.Fits → parts.Checked → ∀ t, t.input = rest →
      Sized t.mem → HoldsString (t.mem .reqpath) 0 parts.reqpath →
      (t.mem .env).take t.envLen = frame 0 parts.block → Q none t)
    (hover : ∀ buf rest parts, Http.httpReadLine 8192 [] s.input = some (buf, rest) →
      parse (cstr buf) = some parts → ¬ parts.Fits → ∀ a j t, E (.overrun a j) t) :
    wp httpRequestLine Q E s := by
  rw [httpRequestLine, wp_bind]
  refine read_line_spec (a := .line) hsized ?_ ?_
  · intro hline m
    rw [if_pos (by decide)]
    refine hbad ?_ _ _
    intro buf rest parts hline'
    rw [show Http.httpReadLine 8192 [] s.input = none from hline] at hline'
    cases hline'
  intro buf rest junk m hline hmem hsized₁
  -- from here on, the line is known
  have hread : ∀ {buf' rest'}, Http.httpReadLine 8192 [] s.input = some (buf', rest') →
      buf' = buf ∧ rest' = rest := by
    intro buf' rest' hline'
    rw [show Http.httpReadLine 8192 [] s.input = some (buf, rest) from hline] at hline'
    cases hline'
    exact ⟨rfl, rfl⟩
  obtain ⟨hzero, tail, htail⟩ := holds_string_cstr hmem
  rw [List.drop_zero] at htail
  rw [if_neg (by decide), wp_bind]
  refine wp_on_arrays (wp_strchr_at (s := cstr buf) (by decide) ⟨hzero, tail, htail⟩ ?_)
  cases hcut : cut (byte ' ') (cstr buf) with
  | none =>
      refine hbad ?_ _ _
      intro buf' rest' parts hline' hparse
      obtain ⟨rfl, rfl⟩ := hread hline'
      rw [parse, hcut] at hparse
      cases hparse
  | some found =>
      obtain ⟨method, sp1⟩ := found
      obtain ⟨hbuf, _⟩ := cut_eq_some.1 hcut
      have hparse : parse (cstr buf) = parseTail method sp1 := by rw [parse, hcut]
      rw [hbuf] at hzero htail
      simp only [List.mem_append, List.mem_cons, not_or] at hzero
      have hmem' : m .line = method ++ byte ' ' :: (sp1 ++ 0 :: tail) := by
        rw [htail]
        simp
      show wp (requestTail (0 + method.length)) Q E _
      rw [Nat.zero_add]
      refine request_tail_spec hsized₁ hmem' hzero.1 hzero.2.2 ?_ ?_ ?_
      · intro hshort
        refine hbad ?_
        intro buf' rest' parts hline' hparts
        obtain ⟨rfl, rfl⟩ := hread hline'
        exact hshort parts (hparse ▸ hparts)
      · intro parts hparts hfits hchecked t hinput hsized' hreqpath hblock
        exact hgood buf rest parts hline (hparse ▸ hparts) hfits hchecked t hinput hsized' hreqpath
          hblock
      · intro parts hparts hfull
        exact hover buf rest parts hline (hparse ▸ hparts) hfull

/-- The name of a header, as it is stored. -/
def headerName (s : List UInt8) : Option (List UInt8) :=
  match cut (byte ' ') s with
  | none => none
  | some (name, _) =>
      if name.getLast? = some (byte ':') then some (name.dropLast.map upcase) else none

theorem read_line_length {size : Nat} {done input buf rest : List UInt8}
    (h : Http.httpReadLine size done input = some (buf, rest)) : rest.length < input.length := by
  induction input generalizing done with
  | nil => cases h
  | cons c input ih =>
      rw [Http.httpReadLine] at h
      split at h
      · exact Nat.lt_succ_of_lt (ih h)
      · split at h
        · cases h
          exact Nat.lt_succ_self _
        · split at h
          · cases h
            exact Nat.lt_succ_self _
          · exact Nat.lt_succ_of_lt (ih h)

/-- The names of the headers that `http_request_headers` stores, up to the end of the headers or
the first line that it cannot parse. -/
def headerNames (input : List UInt8) : List (List UInt8) :=
  match _hline : Http.httpReadLine 8192 [] input with
  | none => []
  | some (buf, rest) =>
      match headerName (cstr buf) with
      | none => []
      | some name => name :: headerNames rest
termination_by input.length
decreasing_by exact read_line_length ‹_›

/-- The name of a header fits `envvar`, or needs no prefix. -/
def NameFits (name : List UInt8) : Prop :=
  name ≠ ascii "CONTENT_TYPE" → name ≠ ascii "CONTENT_LENGTH" → 5 + name.length + 1 ≤ 512

/-- The names of the headers fit. -/
def HeadersFit (input : List UInt8) : Prop := ∀ name ∈ headerNames input, NameFits name

theorem upcase_ne_zero {c : UInt8} (h : c ≠ 0) : upcase c ≠ 0 := by
  unfold upcase
  split
  · decide
  · split
    case isTrue hlower =>
      intro hzero
      have hspace : c = 32 := by grind
      rw [hspace] at hlower
      exact absurd hlower.1 (by decide)
    case isFalse => exact h

/-- The loop over the name of a header, with `done` behind it. -/
theorem upcase_loop_spec {fuel i : Nat} {done name tail : List UInt8} {m : Arrays Arr}
    {Q : Unit → Arrays Arr → Prop} {E : Fault Arr → Arrays Arr → Prop}
    (hmem : m .header = done ++ (name ++ 0 :: tail)) (hdone : done.length = i)
    (hzero : 0 ∉ done) (hzero' : 0 ∉ name) (hfuel : name.length < fuel)
    (hQ : Q () (Function.update m .header (done ++ (name.map upcase ++ 0 :: tail)))) :
    wp (upcaseLoop fuel i) Q E m := by
  induction fuel generalizing i done name m with
  | zero => omega
  | succ fuel ih =>
      have hstr : HoldsString (m .header) 0 (done ++ name) := by
        rw [hmem, ← List.append_assoc]
        refine holds_string_start ?_
        simp [hzero, hzero']
      rw [upcaseLoop, wp_bind]
      refine wp_strlen hstr ?_
      cases name with
      | nil =>
          rw [List.append_nil, hdone, if_neg (Nat.lt_irrefl i)]
          rw [List.map_nil, List.nil_append] at hQ
          rw [List.nil_append] at hmem
          rw [← hmem, Function.update_eq_self] at hQ
          exact hQ
      | cons c name =>
          simp only [List.mem_cons, not_or] at hzero'
          have hlt : i < (done ++ c :: name).length := by
            rw [List.length_append, List.length_cons]
            omega
          have hget : (m .header)[i]? = some c := by
            rw [hmem, List.getElem?_append_right (by omega), hdone, Nat.sub_self]
            rfl
          rw [if_pos hlt, wp_bind]
          refine wp_load hget ?_
          rw [wp_bind]
          refine wp_store_at hmem hdone.symm ?_
          have hgrow : done ++ upcase c :: (name ++ 0 :: tail) =
              (done ++ [upcase c]) ++ (name ++ 0 :: tail) := by simp
          refine ih ((Function.update_self ..).trans hgrow) (by simp [hdone]) ?_ hzero'.2 ?_ ?_
          · have hc := upcase_ne_zero (Ne.symm hzero'.1)
            simp [hzero, Ne.symm hc]
          · rw [List.length_cons] at hfuel
            omega
          · have hsame : (done ++ [upcase c]) ++ (name.map upcase ++ 0 :: tail) =
                done ++ ((c :: name).map upcase ++ 0 :: tail) := by simp
            rw [hsame, Function.update_idem]
            exact hQ

/-- The name of a header is turned into upper case in its place. -/
theorem upcase_spec {name tail : List UInt8} {m : Arrays Arr} {Q : Unit → Arrays Arr → Prop}
    {E : Fault Arr → Arrays Arr → Prop} (hsized : Sized m) (hmem : m .header = name ++ 0 :: tail)
    (hzero : 0 ∉ name)
    (hQ : ∀ m', Sized m' → m' .header = name.map upcase ++ 0 :: tail → Q () m') :
    wp (upcaseLoop 8192 0) Q E m := by
  have hlen : (name ++ 0 :: tail).length = 8192 := by
    rw [← hmem]
    exact hsized .header
  have hshort : name.length < 8192 := by
    rw [List.length_append, List.length_cons] at hlen
    omega
  refine upcase_loop_spec (hmem.trans (List.nil_append _).symm) rfl (by simp) hzero hshort ?_
  refine hQ _ (hsized.update ?_) (Function.update_self ..)
  rw [hmem]
  simp

theorem setenv_at_spec {a : Arr} {name value : List UInt8} {s : State} {Q : Unit → State → Prop}
    {E : Fault Arr → State → Prop} (hname : HoldsString (s.mem a) 0 name)
    (hvalue : HoldsString (s.mem .value) 0 value)
    (hQ : ∀ t, t.input = s.input → t.mem = s.mem → Q () t) : wp (setenvAt a) Q E s := by
  rw [setenvAt, wp_bind]
  refine wp_on_arrays (wp_string_at hname ?_)
  rw [wp_bind]
  exact wp_on_arrays (wp_string_at hvalue (hQ _ rfl rfl))

/-- The header is stored, if its name fits. -/
theorem set_header_spec {name value : List UInt8} {s : State} {Q : Unit → State → Prop}
    {E : Fault Arr → State → Prop} (hsized : Sized s.mem)
    (hname : HoldsString (s.mem .header) 0 name) (hvalue : HoldsString (s.mem .value) 0 value)
    (hQ : NameFits name → ∀ t, t.input = s.input → Sized t.mem → Q () t)
    (hover : ¬ NameFits name → ∀ a j t, E (.overrun a j) t) : wp setHeader Q E s := by
  have hprefixName : (ascii "HTTP_").length = 5 := by decide
  rw [setHeader, wp_bind]
  refine wp_on_arrays (wp_string_at hname ?_)
  by_cases hplain : name ≠ ascii "CONTENT_TYPE" ∧ name ≠ ascii "CONTENT_LENGTH"
  · rw [if_pos hplain, wp_bind]
    refine wp_on_arrays (sprintf_spec (a := .envvar) hsized hname (Nat.zero_le _) ?_ ?_)
    · intro hroom m' hsized' helse hnew
      rw [hprefixName] at hroom
      have hfits : NameFits name := by
        intro _ _
        have hroom' : 0 + 5 + name.length + 1 ≤ 512 := hroom
        omega
      have henvvar : HoldsString (m' .envvar) 0 (ascii "HTTP_" ++ name) := by
        rw [hnew, overwrite, List.take_zero, List.nil_append, List.append_assoc]
        refine holds_string_start ?_
        simp only [List.mem_append, not_or]
        exact ⟨by decide, hname.zero_not_mem⟩
      have hvalue' : HoldsString (m' .value) 0 value := by
        rw [helse .value (by decide)]
        exact hvalue
      refine setenv_at_spec henvvar hvalue' ?_
      intro t hinput hmem
      exact hQ hfits t hinput (hmem ▸ hsized')
    · intro hfull j t
      rw [hprefixName] at hfull
      refine hover (fun hfits => ?_) .envvar j _
      have hroom := hfits hplain.1 hplain.2
      have hfull' : 512 < 0 + 5 + name.length + 1 := hfull
      omega
  · rw [if_neg hplain]
    have hfits : NameFits name := fun htype hlength => absurd ⟨htype, hlength⟩ hplain
    refine setenv_at_spec hname hvalue ?_
    intro t hinput hmem
    exact hQ hfits t hinput (hmem ▸ hsized)

/-- A pass over a header line whose name ends at a space. -/
theorem header_tail_spec {name value tail : List UInt8} {s : State}
    {Q : Option String → State → Prop} {E : Fault Arr → State → Prop} (hsized : Sized s.mem)
    (hmem : s.mem .header = name ++ byte ' ' :: (value ++ 0 :: tail)) (hzero : 0 ∉ name)
    (hzero' : 0 ∉ value)
    (hbad : name.getLast? ≠ some (byte ':') → ∀ err t, Q (some err) t)
    (hgood : name.getLast? = some (byte ':') → NameFits (name.dropLast.map upcase) → ∀ t,
      t.input = s.input → Sized t.mem → Q none t)
    (hover : name.getLast? = some (byte ':') → ¬ NameFits (name.dropLast.map upcase) →
      ∀ a j t, E (.overrun a j) t) :
    wp (headerTail name.length) Q E s := by
  rw [headerTail, wp_bind]
  refine wp_on_arrays (store_spec hsized hmem rfl ?_)
  intro m₁ hsized₁ _ hheader₁
  have hstr : HoldsString (m₁ .header) 0 name := by
    rw [hheader₁]
    exact holds_string_start hzero
  rw [wp_bind]
  refine wp_on_arrays (wp_strlen hstr ?_)
  rcases List.eq_nil_or_concat name with hnil | ⟨front, c, hname⟩
  · rw [hnil, List.length_nil, if_pos rfl]
    exact hbad (by rw [hnil]; simp) _ _
  · rw [List.concat_eq_append] at hname
    subst hname
    have hlength : (front ++ [c]).length = front.length + 1 := by simp
    have hlast : (front ++ [c]).getLast? = some c := by simp
    have hdrop : (front ++ [c]).dropLast = front := by simp
    have hfront : 0 ∉ front := fun h => hzero (List.mem_append_left _ h)
    have hcolon : m₁ .header = front ++ c :: 0 :: (value ++ 0 :: tail) := by
      rw [hheader₁]
      simp
    have hget : (m₁ .header)[front.length]? = some c := by
      rw [hcolon, List.getElem?_append_right le_rfl, Nat.sub_self]
      rfl
    rw [hlast] at hbad hgood hover
    rw [hdrop] at hgood hover
    rw [hlength, if_neg (Nat.succ_ne_zero _), Nat.add_sub_cancel, wp_bind]
    refine wp_on_arrays (wp_load hget ?_)
    by_cases hmark : c ≠ byte ':'
    · rw [if_pos hmark]
      exact hbad (fun h => hmark (Option.some.inj h)) _ _
    · have hc : some c = some (byte ':') := congrArg some (not_not.1 hmark)
      rw [if_neg hmark, wp_bind]
      refine wp_on_arrays (store_spec hsized₁ hcolon rfl ?_)
      intro m₂ hsized₂ _ hheader₂
      rw [wp_bind]
      refine wp_on_arrays (upcase_spec hsized₂ hheader₂ hfront ?_)
      intro m₃ hsized₃ hheader₃
      have hvalue : m₃ .header = (front.map upcase ++ [0, 0]) ++ (value ++ 0 :: tail) := by
        rw [hheader₃]
        simp
      have hupper : 0 ∉ front.map upcase := by
        intro h
        obtain ⟨d, hd, hd0⟩ := List.mem_map.1 h
        exact upcase_ne_zero (fun hnone => hfront (hnone ▸ hd)) hd0
      rw [wp_bind]
      refine wp_on_arrays (url_decode_n_spec (s := value) (by decide) hsized₃ (by decide)
        (by decide) ?_ ?_)
      · show HoldsString (m₃ .header) _ _
        rw [hvalue]
        exact holds_string_behind hzero' (by simp)
      intro m₄ hsized₄ helse hdecoded
      have hname : HoldsString (m₄ .header) 0 (front.map upcase) := by
        rw [helse .header (by decide)]
        show HoldsString (m₃ .header) _ _
        rw [hheader₃]
        exact holds_string_start hupper
      rw [wp_bind]
      refine set_header_spec hsized₄ hname hdecoded ?_ ?_
      · intro hfits t hinput hsized'
        exact hgood hc hfits t hinput hsized'
      · intro hfull
        exact hover hc hfull

theorem header_names_none {input : List UInt8} (h : Http.httpReadLine 8192 [] input = none) :
    headerNames input = [] := by
  rw [headerNames]
  split
  case h_1 => rfl
  case h_2 hline =>
    rw [h] at hline
    cases hline

/-- The headers behind a header line. -/
theorem header_names_some {input buf rest : List UInt8}
    (h : Http.httpReadLine 8192 [] input = some (buf, rest)) :
    headerNames input = match headerName (cstr buf) with
      | none => []
      | some name => name :: headerNames rest := by
  rw [headerNames]
  split
  case h_1 hline =>
    rw [h] at hline
    cases hline
  case h_2 hline =>
    rw [h] at hline
    cases hline
    rfl

/-- `http_request_headers` stays in its arrays as long as the names of the headers fit. -/
theorem headers_loop_spec {fuel : Nat} {s : State} {Q : Option String → State → Prop}
    {E : Fault Arr → State → Prop} (hsized : Sized s.mem) (hfuel : s.input.length < fuel)
    (hQ : HeadersFit s.input → ∀ r t, Q r t)
    (hover : ¬ HeadersFit s.input → ∀ a j t, E (.overrun a j) t) :
    wp (headersLoop fuel) Q E s := by
  induction fuel generalizing s with
  | zero => omega
  | succ fuel ih =>
      have hstop : headerNames s.input = [] → ∀ r t, Q r t := by
        intro hnames
        refine hQ fun name hname => ?_
        rw [hnames] at hname
        cases hname
      rw [headersLoop, wp_bind]
      refine read_line_spec (a := .header) hsized ?_ ?_
      · intro hline m
        rw [if_pos (by decide)]
        exact hstop (header_names_none hline) _ _
      intro buf rest junk m hline hmem hsized₁
      have hnames := header_names_some hline
      have hrest := read_line_length hline
      obtain ⟨hzero, tail, htail⟩ := holds_string_cstr hmem
      rw [List.drop_zero] at htail
      have hstr : HoldsString (m .header) 0 (cstr buf) := ⟨hzero, tail, htail⟩
      rw [if_neg (by decide), wp_bind]
      refine wp_on_arrays (wp_load_head hstr ?_)
      by_cases hend : (cstr buf).head?.getD 0 = 0
      · rw [if_pos hend]
        have hempty : cstr buf = [] := by
          cases hbuf : cstr buf with
          | nil => rfl
          | cons c l =>
              rw [hbuf] at hend hzero
              exact absurd (List.mem_cons.2 (.inl hend.symm)) hzero
        refine hstop ?_ _ _
        rw [hnames, hempty]
        rfl
      · rw [if_neg hend, wp_bind]
        refine wp_on_arrays (wp_strchr_at (by decide) hstr ?_)
        cases hcut : cut (byte ' ') (cstr buf) with
        | none =>
            refine hstop ?_ _ _
            rw [hnames, headerName, hcut]
        | some found =>
            obtain ⟨name, value⟩ := found
            obtain ⟨hbuf, _⟩ := cut_eq_some.1 hcut
            rw [hbuf] at hzero htail
            simp only [List.mem_append, List.mem_cons, not_or] at hzero
            have hmem' : m .header = name ++ byte ' ' :: (value ++ 0 :: tail) := by
              rw [htail]
              simp
            have hname : headerName (cstr buf) = if name.getLast? = some (byte ':') then
                some (name.dropLast.map upcase) else none := by
              rw [headerName, hcut]
            show wp (do
              match ← headerTail (0 + name.length) with
              | some err => return some err
              | none => headersLoop fuel) Q E _
            rw [Nat.zero_add, wp_bind]
            refine header_tail_spec hsized₁ hmem' hzero.1 hzero.2.2 ?_ ?_ ?_
            · intro hmark err t
              refine hstop ?_ _ _
              rw [hnames, hname, if_neg hmark]
            · intro hmark hfits t hinput hsized'
              rw [hname, if_pos hmark] at hnames
              have hinput' : t.input = rest := hinput
              have hnames' : headerNames s.input = name.dropLast.map upcase :: headerNames rest :=
                hnames
              have hiff : HeadersFit s.input ↔ HeadersFit t.input := by
                rw [HeadersFit, HeadersFit, hnames', hinput', List.forall_mem_cons]
                exact and_iff_right hfits
              refine ih hsized' ?_ ?_ ?_
              · rw [hinput']
                omega
              · intro hall
                exact hQ (hiff.2 hall)
              · intro hfull
                exact hover fun hall => hfull (hiff.1 hall)
            · intro hmark hlong
              rw [hname, if_pos hmark] at hnames
              refine hover fun hall => hlong (hall _ ?_)
              rw [hnames]
              exact List.mem_cons_self

/-- The request of a client fits the arrays: the parts of its request line fit `env`, and the names
of its headers fit `envvar` if a service reads them. -/
def RequestFits (dispatch : List UInt8 → Bool) (input : List UInt8) : Prop :=
  ∀ buf rest parts, Http.httpReadLine 8192 [] input = some (buf, rest) →
    parse (cstr buf) = some parts →
    parts.Fits ∧ (parts.Checked → dispatch parts.reqpath = true → HeadersFit rest)

/-- A connection stays in its arrays exactly when the request fits them. -/
theorem connection_spec (dispatch : List UInt8 → Bool) {s : State} (hsized : Sized s.mem) :
    wp (serveConnection dispatch) (fun _ _ => RequestFits dispatch s.input)
      (fun _ _ => ¬ RequestFits dispatch s.input) s := by
  rw [serveConnection, wp_bind]
  refine request_line_spec hsized ?_ ?_ ?_
  · intro hshort err t buf rest parts hline hparse
    obtain ⟨hfits, hunchecked⟩ := hshort buf rest parts hline hparse
    exact ⟨hfits, fun hchecked => absurd hchecked hunchecked⟩
  · intro buf rest parts hline hparse hfits hchecked t hinput hsized' hreqpath _
    have hiff : RequestFits dispatch s.input ↔
        (dispatch parts.reqpath = true → HeadersFit rest) := by
      constructor
      · intro hall
        exact (hall buf rest parts hline hparse).2 hchecked
      · intro hheaders buf' rest' parts' hline' hparse'
        rw [hline] at hline'
        cases hline'
        rw [hparse] at hparse'
        cases hparse'
        exact ⟨hfits, fun _ => hheaders⟩
    show wp (do
      let reqpath ← onArrays (stringAt .reqpath 0)
      if dispatch reqpath then httpRequestHeaders else return some "Error dispatching request") _ _ t
    rw [wp_bind]
    refine wp_on_arrays (wp_string_at hreqpath ?_)
    rw [hiff]
    by_cases hservice : dispatch parts.reqpath = true
    · rw [if_pos hservice, httpRequestHeaders, wp_bind]
      refine headers_loop_spec hsized' (Nat.lt_succ_self _) ?_ ?_
      · intro hall _ _ _
        exact hinput ▸ hall
      · intro hfull _ _ _ hall
        exact hfull (hinput ▸ hall hservice)
    · rw [if_neg hservice]
      exact fun hyes => absurd hyes hservice
  · intro buf rest parts hline hparse hfull a j t hall
    exact hfull (hall buf rest parts hline hparse).1

/-- The processes with any bytes in their arrays, and a client. -/
def State.start (mem : ∀ a : Arr, Vector UInt8 a.size) (input : List UInt8)
    (environ : Http.Environ) : State where
  mem := fun a => (mem a).toList
  input := input
  environ := environ
  envLen := 0

theorem sized_start (mem : ∀ a : Arr, Vector UInt8 a.size) (input : List UInt8)
    (environ : Http.Environ) : Sized (State.start mem input environ).mem :=
  fun a => (mem a).length_toList

section Safe

variable {dispatch : List UInt8 → Bool} {mem : ∀ a : Arr, Vector UInt8 a.size}
  {input : List UInt8} {environ : Http.Environ} {t : State}

/-- The request of a connection that returns fits the arrays. -/
theorem fits_of_ret {r : Option String}
    (h : serveConnection dispatch (State.start mem input environ) = .ret r t) :
    RequestFits dispatch input :=
  (wp_of_ret h).1 (connection_spec dispatch (sized_start mem input environ))

theorem not_fits_of_exit {e : Fault Arr}
    (h : serveConnection dispatch (State.start mem input environ) = .exit e t) :
    ¬ RequestFits dispatch input :=
  (wp_of_exit h).1 (connection_spec dispatch (sized_start mem input environ))

end Safe

/-- For every byte stream of a client, every access of the two processes stays inside its array
exactly when the request fits the arrays. -/
theorem parsing_safe_iff (dispatch : List UInt8 → Bool) (mem : ∀ a : Arr, Vector UInt8 a.size)
    (input : List UInt8) (environ : Http.Environ) :
    (∃ r t, serveConnection dispatch (State.start mem input environ) = .ret r t) ↔
      RequestFits dispatch input := by
  constructor
  · intro h
    obtain ⟨r, t, hret⟩ := h
    exact fits_of_ret hret
  · intro hfits
    cases hrun : serveConnection dispatch (State.start mem input environ) with
    | ret r t => exact ⟨r, t, rfl⟩
    | exit e t => exact absurd hfits (not_fits_of_exit hrun)

/-- A short line of ordinary bytes is read as it is. -/
theorem read_line_plain {size : Nat} {done l rest : List UInt8}
    (hplain : ∀ c ∈ l, c ≠ byte '\r' ∧ c ≠ byte '\n') (hlen : done.length + l.length < size) :
    Http.httpReadLine size done (l ++ byte '\n' :: rest) = some (done ++ l, rest) := by
  induction l generalizing done with
  | nil =>
      rw [List.nil_append, Http.httpReadLine, if_neg (by decide), if_pos rfl, List.append_nil]
  | cons c l ih =>
      obtain ⟨hcr, hnl⟩ := hplain c List.mem_cons_self
      rw [List.length_cons] at hlen
      rw [List.cons_append, Http.httpReadLine, if_neg hcr, if_neg hnl, if_neg (by omega)]
      have hrest := @ih (done ++ [c]) (fun d hd => hplain d (List.mem_cons_of_mem c hd))
        (by rw [List.length_append, List.length_singleton]; omega)
      rw [hrest]
      simp

/-- A request with a header whose name has 507 letters. -/
def longHeader : List UInt8 :=
  ascii "GET / H" ++ byte '\n' ::
    ((List.replicate 507 (byte 'A') ++ ascii ": x") ++ byte '\n' :: [byte '\n'])

/-- The long name does not fit `envvar`. -/
theorem long_header_unfit : ¬ RequestFits (fun _ => true) longHeader := by
  intro hspec
  have hfirst : Http.httpReadLine 8192 [] longHeader = some (ascii "GET / H",
      (List.replicate 507 (byte 'A') ++ ascii ": x") ++ byte '\n' :: [byte '\n']) :=
    read_line_plain (by decide +kernel) (by decide +kernel)
  have hplain : ∀ c ∈ List.replicate 507 (byte 'A') ++ ascii ": x", c ≠ byte '\r' ∧ c ≠ byte '\n' := by
    intro c hc
    rcases List.mem_append.1 hc with hname | hvalue
    · rw [List.eq_of_mem_replicate hname]
      decide
    · have hall : ∀ d ∈ ascii ": x", d ≠ byte '\r' ∧ d ≠ byte '\n' := by decide +kernel
      exact hall c hvalue
  have hshort : ([] : List UInt8).length + (List.replicate 507 (byte 'A') ++ ascii ": x").length <
      8192 := by
    rw [List.length_append, List.length_replicate]
    decide
  have hsecond := @read_line_plain 8192 [] _ [byte '\n'] hplain hshort
  have hparse : parse (cstr (ascii "GET / H")) = some ⟨ascii "GET", ascii "/", ascii "H"⟩ := by
    decide
  have hheaders := (hspec _ _ _ hfirst hparse).2 (by unfold Parts.Checked; decide) rfl
  have hzero : 0 ∉ List.replicate 507 (byte 'A') ++ ascii ": x" := by
    intro h
    rcases List.mem_append.1 h with hname | hvalue
    · exact absurd (List.eq_of_mem_replicate hname) (by decide)
    · revert hvalue
      decide
  have hcut : cut (byte ' ') (List.replicate 507 (byte 'A') ++ ascii ": x") =
      some (List.replicate 507 (byte 'A') ++ [byte ':'], [byte 'x']) := by
    refine cut_eq_some.2 ⟨?_, ?_⟩
    · rw [List.append_assoc]
      rfl
    · intro h
      rcases List.mem_append.1 h with hname | hcolon
      · exact absurd (List.eq_of_mem_replicate hname) (by decide)
      · revert hcolon
        decide
  have hname : headerName (cstr (List.replicate 507 (byte 'A') ++ ascii ": x")) =
      some (List.replicate 507 (byte 'A')) := by
    rw [cstr_of_not_mem hzero, headerName, hcut]
    simp only [List.getLast?_append, List.getLast?_singleton, Option.some_or, if_true,
      List.dropLast_concat, List.map_replicate]
    rfl
  have hlong : NameFits (List.replicate 507 (byte 'A')) := by
    refine hheaders _ ?_
    rw [header_names_some hsecond, List.nil_append, hname]
    exact List.mem_cons_self
  have hhead : ∀ l : List UInt8, l.length ≠ 507 → List.replicate 507 (byte 'A') ≠ l := by
    intro l hl heq
    rw [← heq, List.length_replicate] at hl
    exact hl rfl
  have hroom := hlong (hhead _ (by decide)) (hhead _ (by decide))
  rw [List.length_replicate] at hroom
  omega

/-- With zeros in all arrays at first, the long name runs off `envvar`. -/
theorem long_header_overruns :
    ¬ ∃ r t, serveConnection (fun _ => true)
      (State.start (fun a => Vector.replicate a.size 0) longHeader fun _ => none) = .ret r t := by
  intro h
  obtain ⟨r, t, hret⟩ := h
  exact long_header_unfit (fits_of_ret hret)

end Labs.Zoo.Zookd
