import Labs.Zoo.Zookd

/-!
# The path of a request

`process_client` gives `http_request_line` an array of 2048 bytes for the path of the request, and
`http_request_line` puts the path into `env` for the service. It decodes the path with the size of
`reqpath`, which is a pointer there.
-/

namespace Labs.Zoo.ReqPath

open Prog CArray Zookd

/-- The path of a request line, decoded. -/
def decodedPath (parts : Parts) : List UInt8 := Http.urlDecode (Http.pathOf parts.uri)

/-- The variables of an environment block. -/
def varsOf (block : List UInt8) : List Http.Var := (lines 0 block).filterMap (cut (byte '='))

/-- `REQUEST_URI` in the block that `process_client` sends. -/
def requestUri (s : State) : Option (List UInt8) :=
  (varsOf ((s.mem .env).take s.envLen)).lookup (ascii "REQUEST_URI")

/-- The string `reqpath` and the entry of `env` are this path. -/
def Carries (s : State) (path : List UInt8) : Prop :=
  HoldsString (s.mem .reqpath) 0 path ∧ requestUri s = some path

/-- The parts of a string are strings. -/
theorem parse_zero {s : List UInt8} {parts : Parts} (hzero : 0 ∉ s) (h : parse s = some parts) :
    0 ∉ parts.method ∧ 0 ∉ parts.uri ∧ 0 ∉ parts.protocol := by
  unfold parse at h
  cases hcut : cut (byte ' ') s with
  | none =>
      rw [hcut] at h
      cases h
  | some found =>
      obtain ⟨method, sp1⟩ := found
      obtain ⟨hs, _⟩ := cut_eq_some.1 hcut
      rw [hcut] at h
      dsimp only at h
      rw [hs] at hzero
      simp only [List.mem_append, List.mem_cons, not_or] at hzero
      unfold parseTail at h
      split at h
      · cases h
      · cases hcut' : cut (byte ' ') sp1 with
        | none =>
            rw [hcut'] at h
            cases h
        | some found' =>
            obtain ⟨uri, protocol⟩ := found'
            obtain ⟨hsp1, _⟩ := cut_eq_some.1 hcut'
            rw [hcut'] at h
            dsimp only at h
            rw [hsp1] at hzero
            simp only [List.mem_append, List.mem_cons, not_or] at hzero
            split at h
            · cases h
            · cases h
              exact ⟨hzero.1, hzero.2.2.1, hzero.2.2.2.2⟩

/-- The entry of a variable. -/
def entry (v : Http.Var) : List UInt8 := v.1 ++ byte '=' :: v.2

/-- The variables of a block are read back, with the empty entry at its end left out. -/
theorem vars_of_frame {vars : List Http.Var} (hvars : Http.Carried vars) :
    varsOf (frame 0 (vars.map entry ++ [[]])) = vars := by
  have hpieces : ∀ piece ∈ vars.map entry ++ [[]], 0 ∉ piece := by
    intro piece hpiece
    rcases List.mem_append.1 hpiece with hentry | hlast
    · obtain ⟨v, hv, rfl⟩ := List.mem_map.1 hentry
      obtain ⟨hname, hvalue⟩ := hvars v hv
      rw [entry, List.mem_append, List.mem_cons]
      rintro (hzero | hzero | hzero)
      · exact hname.2.2 hzero
      · exact absurd hzero (by decide)
      · exact hvalue hzero
    · rw [List.mem_singleton.1 hlast]
      exact List.not_mem_nil
  have hcut : ∀ v ∈ vars, cut (byte '=') (entry v) = some v :=
    fun v hv => cut_eq_some.2 ⟨rfl, (hvars v hv).1.2.1⟩
  rw [varsOf, lines_frame hpieces, List.filterMap_append, List.filterMap_map]
  refine (List.append_nil _).trans ?_
  calc vars.filterMap (cut (byte '=') ∘ entry) = vars.filterMap some :=
        List.filterMap_congr hcut
    _ = vars := List.filterMap_some

/-- The variables of the block of a request. -/
def requestVars (parts : Parts) : List Http.Var :=
  [(ascii "REQUEST_METHOD", parts.method), (ascii "SERVER_PROTOCOL", parts.protocol)] ++
    Http.queryVariables parts.uri ++
    [(ascii "REQUEST_URI", parts.reqpath), (ascii "SERVER_NAME", ascii "zoobar.org")]

theorem block_eq (parts : Parts) : parts.block = (requestVars parts).map entry ++ [[]] := by
  have hquery : queryEntry parts.uri = (Http.queryVariables parts.uri).map entry := by
    unfold queryEntry Http.queryVariables
    cases cut (byte '?') parts.uri <;> rfl
  rw [Parts.block, requestVars, hquery, List.map_append, List.map_append, List.append_assoc,
    List.append_assoc, List.append_assoc]
  rfl

theorem request_vars_carried {parts : Parts} (hmethod : 0 ∉ parts.method) (huri : 0 ∉ parts.uri)
    (hprotocol : 0 ∉ parts.protocol) : Http.Carried (requestVars parts) := by
  intro v hv
  simp only [requestVars, List.mem_append, List.mem_cons, List.not_mem_nil, or_false] at hv
  rcases hv with ((rfl | rfl) | hquery) | rfl | rfl
  · exact ⟨(by decide : Http.IsName (ascii "REQUEST_METHOD")), hmethod⟩
  · exact ⟨(by decide : Http.IsName (ascii "SERVER_PROTOCOL")), hprotocol⟩
  · exact Http.query_variables_carried huri v hquery
  · exact ⟨(by decide : Http.IsName (ascii "REQUEST_URI")), zero_not_mem_cstr⟩
  · exact ⟨by decide, by decide⟩

theorem lookup_request_vars (parts : Parts) :
    (requestVars parts).lookup (ascii "REQUEST_URI") = some parts.reqpath := by
  have hquery : (Http.queryVariables parts.uri).lookup (ascii "REQUEST_URI") = none := by
    unfold Http.queryVariables
    cases cut (byte '?') parts.uri with
    | none => rfl
    | some found => rfl
  rw [requestVars, List.append_assoc, List.lookup_append, List.lookup_append, hquery]
  rfl

/-- What an accepted request line leaves in `reqpath` and in `env`. -/
theorem accepted_path {s s' : State} {buf rest : List UInt8} {parts : Parts}
    (hsized : Sized s.mem) (hline : Http.httpReadLine 8192 [] s.input = some (buf, rest))
    (hparse : parse (cstr buf) = some parts) (haccept : httpRequestLine s = .ret none s') :
    Carries s' parts.reqpath := by
  obtain ⟨hmethod, huri, hprotocol⟩ := parse_zero zero_not_mem_cstr hparse
  have hrun : wp httpRequestLine (fun r t => r = none → Carries t parts.reqpath)
      (fun _ _ => True) s := by
    refine request_line_spec hsized ?_ ?_ ?_
    · intro _ err t h
      cases h
    · intro buf' rest' parts' hline' hparse' _ _ t _ _ hreqpath hblock _
      rw [hline] at hline'
      cases hline'
      rw [hparse] at hparse'
      cases hparse'
      refine ⟨hreqpath, ?_⟩
      rw [requestUri, hblock, block_eq, vars_of_frame (request_vars_carried hmethod huri hprotocol)]
      exact lookup_request_vars parts
    · intros
      exact trivial
  exact (wp_of_ret haccept).1 hrun rfl

/-- A string is its own beginning exactly when it is short. -/
theorem reqpath_eq_iff {parts : Parts} : parts.reqpath = decodedPath parts ↔
    (decodedPath parts).length < sizeofPointer ∧ 0 ∉ decodedPath parts := by
  have hpos : 0 < sizeofPointer := by decide
  have hcut : parts.reqpath = cstr ((decodedPath parts).take (sizeofPointer - 1)) := rfl
  constructor
  · intro h
    have hlen := congrArg List.length h
    have hle : parts.reqpath.length ≤ sizeofPointer - 1 := by
      rw [hcut]
      exact (List.takeWhile_prefix _).length_le.trans (List.length_take_le _ _)
    refine ⟨by omega, ?_⟩
    rw [← h]
    exact zero_not_mem_cstr
  · intro h
    rw [hcut, List.take_of_length_le (by omega), cstr_of_not_mem h.2]

/-- A request line that passes the checks is accepted. -/
theorem request_accepted {s : State} {buf rest : List UInt8} {parts : Parts}
    (hsized : Sized s.mem) (hline : Http.httpReadLine 8192 [] s.input = some (buf, rest))
    (hparse : parse (cstr buf) = some parts) (hfits : parts.Fits) (hchecked : parts.Checked) :
    ∃ s', httpRequestLine s = .ret none s' := by
  have hsame : ∀ {buf' rest' parts'}, Http.httpReadLine 8192 [] s.input = some (buf', rest') →
      parse (cstr buf') = some parts' → parts' = parts := by
    intro buf' rest' parts' hline' hparse'
    rw [hline] at hline'
    cases hline'
    exact Option.some.inj (hparse'.symm.trans hparse)
  have hrun : wp httpRequestLine (fun r _ => r = none) (fun _ _ => False) s := by
    refine request_line_spec hsized ?_ ?_ ?_
    · intro hshort
      exact absurd hchecked (hshort buf rest parts hline hparse).2
    · intros
      rfl
    · intro buf' rest' parts' hline' hparse' hfull
      exact absurd (hsame hline' hparse' ▸ hfits) hfull
  cases hret : httpRequestLine s with
  | ret r s' => exact ⟨s', by rw [(wp_of_ret hret).1 hrun]⟩
  | exit e s' => exact ((wp_of_exit hret).1 hrun).elim

/-- For every accepted request line, the decoded path is in `reqpath` and in `env` in full exactly
when it is shorter than a pointer and has no zero. -/
theorem path_whole_iff {s s' : State} {buf rest : List UInt8} {parts : Parts}
    (hsized : Sized s.mem) (hline : Http.httpReadLine 8192 [] s.input = some (buf, rest))
    (hparse : parse (cstr buf) = some parts) (haccept : httpRequestLine s = .ret none s') :
    Carries s' (decodedPath parts) ↔
      (decodedPath parts).length < sizeofPointer ∧ 0 ∉ decodedPath parts := by
  obtain ⟨hreqpath, huri⟩ := accepted_path hsized hline hparse haccept
  rw [← reqpath_eq_iff]
  constructor
  · intro hwhole
    exact hreqpath.unique hwhole.1
  · intro h
    rw [← h]
    exact ⟨hreqpath, huri⟩

/-- `process_client` with zeros in its arrays, and a client that sends one line. -/
def client (l : List UInt8) : State :=
  State.start (fun a => Vector.replicate a.size 0) (l ++ [byte '\n']) fun _ => none

theorem client_line {l : List UInt8}
    (hplain : (l.all fun c => c != byte '\r' && c != byte '\n') = true) (hlen : l.length < 8192) :
    Http.httpReadLine 8192 [] (client l).input = some (l, []) := by
  have hbytes : ∀ c ∈ l, c ≠ byte '\r' ∧ c ≠ byte '\n' := by
    intro c hc
    simpa using List.all_eq_true.1 hplain c hc
  exact read_line_plain hbytes (by rw [List.length_nil, Nat.zero_add]; exact hlen)

/-- The parts of a request for a path, with `H` as its protocol. -/
def request (path : String) : Parts := ⟨ascii "GET", ascii path, ascii "H"⟩

/-- A path of two bytes is whole. -/
theorem path_whole_iff_short : ∃ s', httpRequestLine (client (ascii "GET /a H")) = .ret none s' ∧
    Carries s' (ascii "/a") := by
  have hline := client_line (l := ascii "GET /a H") rfl (by decide)
  have hparse : parse (cstr (ascii "GET /a H")) = some (request "/a") := by decide
  have hsized : Sized (client (ascii "GET /a H")).mem := sized_start _ _ _
  obtain ⟨s', haccept⟩ := request_accepted hsized hline hparse
    ⟨by decide, fun _ => by decide⟩ (by unfold Parts.Checked; decide)
  exact ⟨s', haccept, (path_whole_iff hsized hline hparse haccept).2 ⟨by decide, by decide⟩⟩

/-- Of a path of four bytes, the last one is lost. -/
theorem path_cut_off : ¬ ∀ (s s' : State) (buf rest : List UInt8) (parts : Parts), Sized s.mem →
    Http.httpReadLine 8192 [] s.input = some (buf, rest) → parse (cstr buf) = some parts →
    (decodedPath parts).length ≤ 2047 → httpRequestLine s = .ret none s' →
    Carries s' (decodedPath parts) := by
  intro hall
  have hline := client_line (l := ascii "GET /foo H") rfl (by decide)
  have hparse : parse (cstr (ascii "GET /foo H")) = some (request "/foo") := by decide
  have hsized : Sized (client (ascii "GET /foo H")).mem := sized_start _ _ _
  obtain ⟨s', haccept⟩ := request_accepted hsized hline hparse
    ⟨by decide, fun _ => by decide⟩ (by unfold Parts.Checked; decide)
  have hwhole := hall _ s' _ _ _ hsized hline hparse (by decide) haccept
  have hcut := (accepted_path hsized hline hparse haccept).1.unique hwhole.1
  revert hcut
  decide

end Labs.Zoo.ReqPath
