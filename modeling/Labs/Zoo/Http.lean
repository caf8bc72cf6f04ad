import Labs.Base.CString

/-!
# The request line

The function `http_request_line` of `http.c`, which turns the request line into a block of
environment strings, and `env_deserialize`, which sets the environment from such a block in the
process that serves the request.
-/

namespace Labs.Zoo.Http

/-- `isspace`. -/
def isspace (c : UInt8) : Bool := c = byte ' ' || (9 ≤ c && c ≤ 13)

/-- The value of a hexadecimal digit. -/
def hexDigit (c : UInt8) : Option Nat :=
  if byte '0' ≤ c ∧ c ≤ byte '9' then some (c.toNat - 48)
  else if byte 'a' ≤ c ∧ c ≤ byte 'f' then some (c.toNat - 87)
  else if byte 'A' ≤ c ∧ c ≤ byte 'F' then some (c.toNat - 55)
  else none

/-- The number that the digits at the front of a string denote. -/
def hexValue (n : Nat) : List UInt8 → Nat
  | [] => n
  | c :: rest =>
      match hexDigit c with
      | none => n
      | some d => hexValue (16 * n + d) rest

/-- `strtol(s, 0, 16)`, for a string too short to hold the prefix `0x` and a digit. -/
def strtol16 (s : List UInt8) : Int :=
  match s.dropWhile isspace with
  | [] => 0
  | c :: rest =>
      if c = byte '-' then -(hexValue 0 rest)
      else if c = byte '+' then hexValue 0 rest
      else hexValue 0 (c :: rest)

/-- A byte that stands for itself, or for a space. -/
def plusDecode (c : UInt8) : UInt8 := if c = byte '+' then byte ' ' else c

/-- The bytes that `url_decode` writes for a string, before the terminator. An escape at the end of
the string stays as it is. -/
def urlDecode : List UInt8 → List UInt8
  | [] => []
  | c :: a :: b :: rest =>
      if c = byte '%' then
        UInt8.ofInt (strtol16 [a, b]) :: urlDecode rest
      else
        plusDecode c :: urlDecode (a :: b :: rest)
  | c :: rest => plusDecode c :: urlDecode rest

/-- `http_read_line` with a buffer of `size` bytes, of which `buf` have been filled: the contents of
the buffer before the terminator, and the input behind the line. There is no result when the input
ends inside the line. -/
def httpReadLine (size : Nat) (buf : List UInt8) : List UInt8 → Option (List UInt8 × List UInt8)
  | [] => none
  | c :: input =>
      if c = byte '\r' then
        httpReadLine size buf input
      else if c = byte '\n' then
        some (buf, input)
      else if size - 1 ≤ buf.length then
        some (buf, input)
      else
        httpReadLine size (buf ++ [c]) input

/-- What `http_request_line` stores for its caller: the decoded path, and the block of environment
strings with its length. -/
structure RequestLine where
  reqpath : List UInt8
  env : List UInt8
  envLen : BitVec 32

/-- The bytes of `sprintf(envp, "NAME=%s", value) + 1`. -/
def entry (name : String) (value : List UInt8) : List UInt8 :=
  ascii name ++ byte '=' :: (value ++ [0])

/-- The function `http_request_line`, with the error texts of the source. -/
def httpRequestLine (input : List UInt8) : Except String (RequestLine × List UInt8) :=
  match httpReadLine 8192 [] input with
  | none => .error "Socket IO error"
  | some (buf, input) =>
      -- the string functions see the buffer up to its first zero
      match cut (byte ' ') (cstr buf) with
      | none => .error "Cannot parse HTTP request (1)"
      | some (method, sp1) =>
          if sp1.head? ≠ some (byte '/') then
            .error "Bad request path"
          else
            match cut (byte ' ') sp1 with
            | none => .error "Cannot parse HTTP request (2)"
            | some (uri, sp2) =>
                if method ≠ ascii "GET" ∧ method ≠ ascii "POST" then
                  .error "Unsupported request (not GET or POST)"
                else
                  let envp := entry "REQUEST_METHOD" method ++ entry "SERVER_PROTOCOL" sp2
                  let (path, envp) := match cut (byte '?') uri with
                    | none => (uri, envp)
                    | some (path, qp) => (path, envp ++ entry "QUERY_STRING" qp)
                  let reqpath := urlDecode path
                  let envp := envp ++ entry "REQUEST_URI" (cstr reqpath)
                  let envp := envp ++ entry "SERVER_NAME" (ascii "zoobar.org")
                  let env := envp ++ [0]
                  .ok (⟨reqpath, env, BitVec.ofNat 32 env.length⟩, input)

/-- The environment of a process. -/
abbrev Environ := List UInt8 → Option (List UInt8)

/-- `setenv(name, value, 1)`, which refuses an empty name and a name with `=`. -/
def setenv (environ : Environ) (name value : List UInt8) : Environ :=
  if name = [] ∨ byte '=' ∈ name then environ else Function.update environ name (some value)

/-- The loop of `env_deserialize` at the pointer `env`: the environment it leaves, and the pointer
where it stops. -/
def deserializeLoop (environ : Environ) (env : List UInt8) (len : BitVec 32) :
    Option (Environ × List UInt8) :=
  match _hname : strchr (byte '=') env with
  | none => none
  | some none => some (environ, env)
  | some (some (name, p)) =>
      if len < BitVec.ofNat 32 name.length then
        some (environ, env)
      else
        match _hvalue : skipString p with
        | none => none
        | some (value, next) =>
            deserializeLoop (setenv environ name value) next
              (len - BitVec.ofNat 32 (name.length + 1 + value.length + 1))
termination_by env.length
decreasing_by exact Nat.lt_trans (cut_length ‹_›) (strchr_length ‹_›)

/-- The function `env_deserialize`. -/
def envDeserialize (environ : Environ) (env : List UInt8) (len : BitVec 32) :
    Option (Environ × List UInt8) := do
  let (environ, stop) ← deserializeLoop environ env len
  let environ := setenv environ (ascii "GATEWAY_INTERFACE") (ascii "CGI/1.1")
  let environ := setenv environ (ascii "REDIRECT_STATUS") (ascii "200")
  return (environ, stop)

/-- A variable and its value. -/
abbrev Var := List UInt8 × List UInt8

/-- The block of these variables, without its end. -/
def block (vars : List Var) : List UInt8 :=
  vars.flatMap fun v => v.1 ++ byte '=' :: (v.2 ++ [0])

/-- The name of a variable that a block can carry. -/
def IsName (name : List UInt8) : Prop := name ≠ [] ∧ byte '=' ∉ name ∧ 0 ∉ name

instance (name : List UInt8) : Decidable (IsName name) := by
  unfold IsName
  infer_instance

/-- Variables that a block can carry. -/
def Carried (vars : List Var) : Prop := ∀ v ∈ vars, IsName v.1 ∧ 0 ∉ v.2

/-- Set variables one after another. -/
def setAll (environ : Environ) (vars : List Var) : Environ :=
  vars.foldl (fun environ v => setenv environ v.1 v.2) environ

/-- The loop sets the variable at the pointer and goes on behind it. -/
theorem deserialize_loop_cons {environ : Environ} {name value rest : List UInt8} {len : BitVec 32}
    (hname : IsName name) (hvalue : 0 ∉ value) (hlen : name.length ≤ len.toNat) :
    deserializeLoop environ (name ++ byte '=' :: (value ++ 0 :: rest)) len =
      deserializeLoop (setenv environ name value) rest
        (len - BitVec.ofNat 32 (name.length + 1 + value.length + 1)) := by
  have hfound : strchr (byte '=') (name ++ byte '=' :: (value ++ 0 :: rest)) =
      some (some (name, value ++ 0 :: rest)) := strchr_found hname.2.1 hname.2.2
  have hskip : skipString (value ++ 0 :: rest) = some (value, rest) := skip_string_append hvalue
  have hnear : ¬ len < BitVec.ofNat 32 name.length := by
    rw [BitVec.not_lt, BitVec.le_def, BitVec.toNat_ofNat]
    exact Nat.le_trans (Nat.mod_le _ _) hlen
  rw [deserializeLoop]
  split
  case h_1 h =>
    rw [hfound] at h
    cases h
  case h_2 h =>
    rw [hfound] at h
    cases h
  case h_3 h =>
    rw [hfound] at h
    cases h
    rw [if_neg hnear]
    split
    case h_1 h =>
      rw [hskip] at h
      cases h
    case h_2 h =>
      rw [hskip] at h
      cases h
      rfl

/-- The loop reads the variables of a block back, and stops at the end of the block, whatever
stands behind it. -/
theorem deserialize_block {environ : Environ} {vars : List Var} {junk : List UInt8}
    {len : BitVec 32} (hvars : Carried vars) (hlen : (block vars).length ≤ len.toNat) :
    deserializeLoop environ (block vars ++ 0 :: junk) len =
      some (setAll environ vars, 0 :: junk) := by
  induction vars generalizing environ len with
  | nil =>
      have hend : strchr (byte '=') (0 :: junk) = some none := strchr_empty (by decide)
      rw [deserializeLoop]
      split
      case h_1 h =>
        rw [show block [] ++ 0 :: junk = 0 :: junk from rfl, hend] at h
        cases h
      case h_2 => rfl
      case h_3 h =>
        rw [show block [] ++ 0 :: junk = 0 :: junk from rfl, hend] at h
        cases h
  | cons v vars ih =>
      obtain ⟨name, value⟩ := v
      obtain ⟨hname, hvalue⟩ : IsName name ∧ 0 ∉ value := hvars (name, value) (by simp)
      have hblock : block ((name, value) :: vars) ++ 0 :: junk =
          name ++ byte '=' :: (value ++ 0 :: (block vars ++ 0 :: junk)) := by
        simp [block]
      have hlength : (block ((name, value) :: vars)).length =
          name.length + 1 + value.length + 1 + (block vars).length := by
        simp only [block, List.flatMap_cons, List.length_append, List.length_cons, List.length_nil]
        omega
      rw [hlength] at hlen
      rw [hblock, deserialize_loop_cons hname hvalue (by omega)]
      refine ih (fun v hmem => hvars v (by simp [hmem])) ?_
      have hlt := len.isLt
      rw [BitVec.toNat_sub, BitVec.toNat_ofNat]
      omega

theorem setenv_apply {environ : Environ} {name value other : List UInt8} (hname : IsName name) :
    setenv environ name value other = if other = name then some value else environ other := by
  rw [setenv, if_neg (by simp [hname.1, hname.2.1]), Function.update_apply]

/-- After setting variables with different names, each of them has its value, and every other
variable is as before. -/
theorem set_all_apply {environ : Environ} {vars : List Var} (hvars : Carried vars)
    (hnodup : (vars.map Prod.fst).Nodup) (name : List UInt8) :
    setAll environ vars name = (vars.lookup name).or (environ name) := by
  induction vars generalizing environ with
  | nil => rfl
  | cons v vars ih =>
      obtain ⟨var, value⟩ := v
      have hname : IsName var := (hvars (var, value) (by simp)).1
      rw [List.map_cons, List.nodup_cons] at hnodup
      have hrest := @ih (setenv environ var value) (fun v hmem => hvars v (by simp [hmem])) hnodup.2
      show setAll (setenv environ var value) vars name = _
      rw [hrest, setenv_apply hname, List.lookup_cons]
      by_cases hsame : name = var
      · subst hsame
        have hnone : vars.lookup name = none := by
          rw [List.lookup_eq_none_iff]
          intro p hp
          have hne : name ≠ p.1 := fun h => hnodup.1 (h ▸ List.mem_map.2 ⟨p, hp, rfl⟩)
          simpa using hne
        simp [hnone]
      · have hbeq : (name == var) = false := by simp [hsame]
        simp [hsame, hbeq]

/-- The request line that the server reads: the buffer up to its first zero. -/
def requestLine (input : List UInt8) : Option (List UInt8) :=
  (httpReadLine 8192 [] input).map fun (buf, _) => cstr buf

/-- The variable of the query string, if the path has a `?`. -/
def queryVariables (uri : List UInt8) : List Var :=
  match cut (byte '?') uri with
  | none => []
  | some (_, query) => [(ascii "QUERY_STRING", query)]

/-- The path in front of the query string. -/
def pathOf (uri : List UInt8) : List UInt8 :=
  match cut (byte '?') uri with
  | none => uri
  | some (path, _) => path

/-- The variables that a request line stands for. -/
def requestVariables (method uri protocol : List UInt8) : List Var :=
  [(ascii "REQUEST_METHOD", method), (ascii "SERVER_PROTOCOL", protocol)] ++ queryVariables uri ++
    [(ascii "REQUEST_URI", cstr (urlDecode (pathOf uri))), (ascii "SERVER_NAME", ascii "zoobar.org")]

/-- The variables that are set for every request. -/
def fixedVariables : List Var :=
  [(ascii "GATEWAY_INTERFACE", ascii "CGI/1.1"), (ascii "REDIRECT_STATUS", ascii "200")]

/-- An accepted request line is a method, a path and a protocol between its first two spaces, and
its block is the block of its variables. -/
theorem request_line_block {input rest : List UInt8} {result : RequestLine}
    (h : httpRequestLine input = .ok (result, rest)) :
    ∃ method uri protocol : List UInt8,
      requestLine input = some (method ++ byte ' ' :: (uri ++ byte ' ' :: protocol)) ∧
      (method = ascii "GET" ∨ method = ascii "POST") ∧ byte ' ' ∉ uri ∧
      0 ∉ method ∧ 0 ∉ uri ∧ 0 ∉ protocol ∧
      result.reqpath = urlDecode (pathOf uri) ∧
      result.env = block (requestVariables method uri protocol) ++ [0] ∧
      result.envLen = BitVec.ofNat 32 result.env.length := by
  unfold httpRequestLine at h
  unfold requestLine
  cases hline : httpReadLine 8192 [] input with
  | none =>
      rw [hline] at h
      cases h
  | some line =>
      obtain ⟨buf, input'⟩ := line
      rw [hline] at h
      have hzero : 0 ∉ cstr buf := zero_not_mem_cstr
      cases hmethod : cut (byte ' ') (cstr buf) with
      | none =>
          simp only [hmethod] at h
          cases h
      | some found =>
          obtain ⟨method, sp1⟩ := found
          simp only [hmethod] at h
          obtain ⟨hbuf, _⟩ := cut_eq_some.1 hmethod
          split at h
          case isTrue => cases h
          case isFalse hpath =>
            cases huri : cut (byte ' ') sp1 with
            | none =>
                simp only [huri] at h
                cases h
            | some found =>
                obtain ⟨uri, protocol⟩ := found
                simp only [huri] at h
                obtain ⟨hsp1, hspace⟩ := cut_eq_some.1 huri
                split at h
                case isTrue => cases h
                case isFalse hknown =>
                  rw [hsp1] at hbuf
                  rw [hbuf] at hzero
                  simp only [List.mem_append, List.mem_cons, not_or] at hzero
                  refine ⟨method, uri, protocol, by simp [hbuf], ?_, hspace, hzero.1, hzero.2.2.1,
                    hzero.2.2.2.2, ?_⟩
                  · by_cases hget : method = ascii "GET"
                    · exact .inl hget
                    · simp only [hget, ne_eq, not_false_eq_true, true_and, not_not] at hknown
                      exact .inr hknown
                  · unfold requestVariables queryVariables pathOf
                    cases hquery : cut (byte '?') uri with
                    | none =>
                        simp only [hquery, Except.ok.injEq, Prod.mk.injEq] at h
                        obtain ⟨rfl, _⟩ := h
                        exact ⟨rfl, by simp [block, entry], rfl⟩
                    | some found =>
                        obtain ⟨path, query⟩ := found
                        simp only [hquery, Except.ok.injEq, Prod.mk.injEq] at h
                        obtain ⟨rfl, _⟩ := h
                        exact ⟨rfl, by simp [block, entry], rfl⟩

theorem query_variables_carried {uri : List UInt8} (huri : 0 ∉ uri) :
    Carried (queryVariables uri) := by
  intro v hmem
  unfold queryVariables at hmem
  cases hquery : cut (byte '?') uri with
  | none => simp [hquery] at hmem
  | some found =>
      obtain ⟨path, query⟩ := found
      simp only [hquery, List.mem_singleton] at hmem
      subst hmem
      obtain ⟨rfl, _⟩ := cut_eq_some.1 hquery
      simp only [List.mem_append, List.mem_cons, not_or] at huri
      exact ⟨(by decide : IsName (ascii "QUERY_STRING")), huri.2.2⟩

/-- The block of a request line carries its variables. -/
theorem request_variables_carried {method uri protocol : List UInt8} (hmethod : 0 ∉ method)
    (huri : 0 ∉ uri) (hprotocol : 0 ∉ protocol) :
    Carried (requestVariables method uri protocol ++ fixedVariables) := by
  intro v hmem
  simp only [requestVariables, fixedVariables, List.mem_append, List.mem_cons, List.not_mem_nil,
    or_false] at hmem
  rcases hmem with (((rfl | rfl) | hmem) | (rfl | rfl)) | (rfl | rfl)
  · exact ⟨(by decide : IsName (ascii "REQUEST_METHOD")), hmethod⟩
  · exact ⟨(by decide : IsName (ascii "SERVER_PROTOCOL")), hprotocol⟩
  · exact query_variables_carried huri v hmem
  · exact ⟨(by decide : IsName (ascii "REQUEST_URI")), zero_not_mem_cstr⟩
  · exact ⟨by decide, by decide⟩
  · exact ⟨by decide, by decide⟩
  · exact ⟨by decide, by decide⟩

/-- The variables of a request have different names. -/
theorem request_variables_nodup (method uri protocol : List UInt8) :
    ((requestVariables method uri protocol ++ fixedVariables).map Prod.fst).Nodup := by
  unfold requestVariables queryVariables fixedVariables
  cases cut (byte '?') uri with
  | none =>
      simp only [List.map_append, List.map_cons, List.map_nil]
      decide
  | some found =>
      simp only [List.map_append, List.map_cons, List.map_nil]
      decide

/-- The environment that the service sets from the block of an accepted request line. The lookup
takes the values as the line has them, and the loop stops at the end of the block, whatever stands
behind it and whichever length it is given that covers the block. -/
theorem env_round_trip {input rest junk : List UInt8} {result : RequestLine} {environ : Environ}
    {len : BitVec 32} (haccept : httpRequestLine input = .ok (result, rest))
    (hfit : result.env.length ≤ 8192) (hlen : result.envLen.toNat ≤ len.toNat) :
    ∃ method uri protocol : List UInt8,
      requestLine input = some (method ++ byte ' ' :: (uri ++ byte ' ' :: protocol)) ∧
      (method = ascii "GET" ∨ method = ascii "POST") ∧ byte ' ' ∉ uri ∧
      ∃ environ', envDeserialize environ (result.env ++ junk) len = some (environ', 0 :: junk) ∧
        ∀ name, environ' name =
          ((requestVariables method uri protocol ++ fixedVariables).lookup name).or
            (environ name) := by
  obtain ⟨method, uri, protocol, hline, hmethod, hspace, hzero, hzero', hzero'', _, henv, henvLen⟩ :=
    request_line_block haccept
  have hcarried := request_variables_carried hzero hzero' hzero''
  have hblock : Carried (requestVariables method uri protocol) :=
    fun v hmem => hcarried v (List.mem_append_left _ hmem)
  have hcovers : (block (requestVariables method uri protocol)).length ≤ len.toNat := by
    rw [henvLen, BitVec.toNat_ofNat, Nat.mod_eq_of_lt (by omega), henv] at hlen
    simp only [List.length_append, List.length_singleton] at hlen
    omega
  refine ⟨method, uri, protocol, hline, hmethod, hspace,
    setAll environ (requestVariables method uri protocol ++ fixedVariables), ?_, fun name => ?_⟩
  · unfold envDeserialize
    rw [henv, List.append_assoc, List.singleton_append, deserialize_block hblock hcovers]
    simp [setAll, fixedVariables]
  · exact set_all_apply hcarried (request_variables_nodup method uri protocol) name

/-- The round trip of a request with a query string, from the length that goes with the block. -/
theorem env_round_trip_query : ∃ result rest,
    httpRequestLine (ascii "GET /a?x=1 HTTP/1.0\n") = .ok (result, rest) ∧
    ∃ environ', envDeserialize (fun _ => none) (result.env ++ [1]) result.envLen =
      some (environ', [0, 1]) := by
  have haccept : httpRequestLine (ascii "GET /a?x=1 HTTP/1.0\n") = .ok (⟨ascii "/a",
      block (requestVariables (ascii "GET") (ascii "/a?x=1") (ascii "HTTP/1.0")) ++ [0], 100⟩, []) :=
    rfl
  obtain ⟨_, _, _, _, _, _, environ', hround, _⟩ :=
    @env_round_trip _ _ [1] _ (fun _ => none) _ haccept (by decide) (Nat.le_refl _)
  exact ⟨_, _, haccept, environ', hround⟩

end Labs.Zoo.Http
