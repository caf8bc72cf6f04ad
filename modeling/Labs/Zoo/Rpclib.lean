import Labs.Base.Lines
import Labs.Base.Prog
import Mathlib.Data.List.Forall2
import Mathlib.Data.Prod.Lex
import Mathlib.Logic.Relation
import Mathlib.Order.WellFounded

/-!
# Remote procedure calls

The servers and the client of `zoobar/rpclib.py`. A request and a response are each one line of
JSON. Both servers and the client collect lines from whatever pieces of the stream a read returns.
-/

namespace Labs.Zoo.Rpclib

open Prog

/-- A byte string. -/
abbrev Str := List UInt8

/-- The byte `'\n'`. -/
def newline : UInt8 := 10

/-- The outcomes of `recv`: some bytes, of which there are none at the end of the stream, or one of
two kinds of `IOError`. -/
inductive Recv where
  | data (bytes : Str)
  | connReset
  | ioError

/-- The loop `while '\n' in buf`: the lines that it takes off the buffer, and what is left. -/
def drain (buf : Str) : List Str × Str :=
  match _h : cut newline buf with
  | none => ([], buf)
  | some (line, rest) => (line :: (drain rest).1, (drain rest).2)
termination_by buf.length
decreasing_by all_goals exact cut_length ‹_›

/-- The lines that `buffered_readlines` yields with `buf` in its buffer, when `recv` gives one
outcome after another. At the end of the list the stream has ended. -/
def bufferedReadlines (buf : Str) : List Recv → List Str
  | [] => (drain buf).1
  | .data newdata :: recvs =>
      if newdata = [] then
        (drain buf).1
      else
        (drain buf).1 ++ bufferedReadlines ((drain buf).2 ++ newdata) recvs
  | .connReset :: _ => (drain buf).1
  | .ioError :: recvs => (drain buf).1 ++ bufferedReadlines (drain buf).2 recvs

variable {σ Req Resp : Type}

/-- What a server supplies: `parse_req`, the methods with the prefix `rpc_`, and `format_resp`.
Each of them may raise an exception. -/
structure Service (σ Req Resp : Type) where
  parseReq : Str → Option Req
  method : Req → Option (σ → Option Resp × σ)
  formatResp : Resp → Option Str

/-- What a server has done: the state that its methods work on, the calls it made with what they
returned, and the bytes it wrote. -/
structure Served (σ Req Resp : Type) where
  state : σ
  calls : List (Req × Option Resp)
  output : Str

/-- The body of either server's loop. An exception ends the server. -/
def serveLine (service : Service σ Req Resp) (req : Str) : Prog (Served σ Req Resp) Unit Unit :=
  match service.parseReq req with
  | none => exit ()
  | some call =>
      match service.method call with
      | none => exit ()
      | some m => do
          let s ← get
          let (ret, state) := m s.state
          modify fun s => { s with state := state, calls := s.calls ++ [(call, ret)] }
          match ret.bind service.formatResp with
          | none => exit ()
          | some resp => modify fun s => { s with output := s.output ++ (resp ++ [newline]) }

/-- The server on a socket. -/
def runSock (service : Service σ Req Resp) (recvs : List Recv) :
    Prog (Served σ Req Resp) Unit Unit :=
  forEach (bufferedReadlines [] recvs) (serveLine service)

/-- The inner loop of the server on the standard streams. -/
def stdioLines (service : Service σ Req Resp) (buf : Str) : Prog (Served σ Req Resp) Unit Str :=
  match _h : cut newline buf with
  | none => pure buf
  | some (line, rest) => do
      serveLine service line
      stdioLines service rest
termination_by buf.length
decreasing_by exact cut_length ‹_›

/-- The server on the standard streams, with `buf` in its buffer, when `read` gives one chunk after
another. -/
def runStdio (service : Service σ Req Resp) (buf : Str) :
    List Str → Prog (Served σ Req Resp) Unit Unit
  | [] => do
      let _ ← stdioLines service buf
      return ()
  | chunk :: chunks => do
      let buf ← stdioLines service buf
      if chunk = [] then
        return ()
      else
        runStdio service (buf ++ chunk) chunks

/-- What a server does with the lines of a stream: it parses, calls and answers one after another, up
to the first that raises an exception. -/
inductive Serves (service : Service σ Req Resp) :
    List Str → Served σ Req Resp → Outcome (Served σ Req Resp) Unit Unit → Prop where
  | done {s : Served σ Req Resp} : Serves service [] s (.ret () s)
  | answer {s : Served σ Req Resp} {line text : Str} {rest : List Str} {call : Req}
      {m : σ → Option Resp × σ} {resp : Resp} {state : σ}
      {out : Outcome (Served σ Req Resp) Unit Unit} (hparse : service.parseReq line = some call)
      (hmethod : service.method call = some m) (hret : m s.state = (some resp, state))
      (hformat : service.formatResp resp = some text)
      (hrest : Serves service rest
        ⟨state, s.calls ++ [(call, some resp)], s.output ++ (text ++ [newline])⟩ out) :
      Serves service (line :: rest) s out
  | badRequest {s : Served σ Req Resp} {line : Str} {rest : List Str}
      (hparse : service.parseReq line = none) : Serves service (line :: rest) s (.exit () s)
  | noMethod {s : Served σ Req Resp} {line : Str} {rest : List Str} {call : Req}
      (hparse : service.parseReq line = some call) (hmethod : service.method call = none) :
      Serves service (line :: rest) s (.exit () s)
  | raise {s : Served σ Req Resp} {line : Str} {rest : List Str} {call : Req}
      {m : σ → Option Resp × σ} {ret : Option Resp} {state : σ}
      (hparse : service.parseReq line = some call) (hmethod : service.method call = some m)
      (hret : m s.state = (ret, state)) (hformat : ret.bind service.formatResp = none) :
      Serves service (line :: rest) s (.exit () ⟨state, s.calls ++ [(call, ret)], s.output⟩)

theorem drain_of_none {buf : Str} (h : cut newline buf = none) : drain buf = ([], buf) := by
  rw [drain]
  split
  · rfl
  · next heq => simp [h] at heq

theorem drain_of_cut {buf line rest : Str} (h : cut newline buf = some (line, rest)) :
    drain buf = (line :: (drain rest).1, (drain rest).2) := by
  rw [drain]
  split
  · next heq => simp [h] at heq
  · next line' rest' heq =>
      rw [h, Option.some.injEq, Prod.mk.injEq] at heq
      obtain ⟨rfl, rfl⟩ := heq
      rfl

/-- The loop takes off all terminated lines. More input adds lines to what is left. -/
theorem lines_drain (buf more : Str) :
    newline ∉ (drain buf).2 ∧
    lines newline (buf ++ more) = (drain buf).1 ++ lines newline ((drain buf).2 ++ more) := by
  induction buf using drain.induct with
  | case1 buf h =>
      rw [drain_of_none h]
      exact ⟨cut_eq_none.1 h, rfl⟩
  | case2 buf line rest h ih =>
      rw [drain_of_cut h, lines_of_cut (cut_append h)]
      exact ⟨ih.1, by rw [ih.2]; rfl⟩

theorem lines_eq_drain (buf : Str) : lines newline buf = (drain buf).1 := by
  obtain ⟨hrest, hlines⟩ := lines_drain buf []
  rwa [List.append_nil, List.append_nil, lines_of_not_mem hrest, List.append_nil] at hlines

/-- `buffered_readlines` yields the terminated lines of the stream, however it is cut. -/
theorem buffered_readlines_eq {chunks : List Str} (buf : Str) (hchunks : ∀ chunk ∈ chunks, chunk ≠ []) :
    bufferedReadlines buf (chunks.map .data) = lines newline (buf ++ chunks.flatten) := by
  induction chunks generalizing buf with
  | nil =>
      rw [List.flatten_nil, List.append_nil, lines_eq_drain]
      rfl
  | cons chunk chunks ih =>
      rw [List.map_cons, bufferedReadlines, if_neg (hchunks chunk (by simp)),
        ih _ fun chunk' hmem => hchunks chunk' (by simp [hmem]), List.flatten_cons,
        (lines_drain buf (chunk ++ chunks.flatten)).2, List.append_assoc]

/-- The inner loop of the standard-stream server serves the lines that `drain` takes off. -/
theorem stdio_lines_eq (service : Service σ Req Resp) (buf : Str) :
    stdioLines service buf = do
      forEach (drain buf).1 (serveLine service)
      return (drain buf).2 := by
  induction buf using drain.induct with
  | case1 buf h =>
      rw [drain_of_none h, stdioLines]
      split
      · rfl
      · next heq => simp [h] at heq
  | case2 buf line rest h ih =>
      rw [drain_of_cut h, stdioLines]
      split
      · next heq => simp [h] at heq
      · next line' rest' heq =>
          rw [h, Option.some.injEq, Prod.mk.injEq] at heq
          obtain ⟨rfl, rfl⟩ := heq
          rw [ih, forEach, bind_assoc]

/-- The standard-stream server serves the terminated lines of the stream, however it is cut. -/
theorem run_stdio_eq (service : Service σ Req Resp) {chunks : List Str} (buf : Str)
    (hchunks : ∀ chunk ∈ chunks, chunk ≠ []) :
    runStdio service buf chunks =
      forEach (lines newline (buf ++ chunks.flatten)) (serveLine service) := by
  induction chunks generalizing buf with
  | nil =>
      rw [List.flatten_nil, List.append_nil, lines_eq_drain, runStdio, stdio_lines_eq, bind_assoc]
      simp
  | cons chunk chunks ih =>
      rw [runStdio, stdio_lines_eq, List.flatten_cons,
        (lines_drain buf (chunk ++ chunks.flatten)).2, for_each_append, bind_assoc]
      simp only [pure_bind, if_neg (hchunks chunk (by simp)),
        ih _ fun chunk' hmem => hchunks chunk' (by simp [hmem]), List.append_assoc]

/-- What a client supplies: `format_req` and `parse_resp`. -/
structure Client (Req Resp : Type) where
  formatReq : Req → Option Str
  parseResp : Str → Option Resp

/-- A client and a server at the ends of a connection. The field `served.output` holds the bytes on
their way to the client. Beside them stand the requests that the client has sent and what its calls
have returned. -/
structure World (σ Req Resp : Type) where
  served : Served σ Req Resp
  serverBuf : Str
  ended : Bool
  toServer : Str
  clientBuf : Str
  requests : List Req
  results : List Resp

/-- The client is inside a call. -/
def World.Waiting (w : World σ Req Resp) : Prop := w.results.length < w.requests.length

/-- A read returns some of the bytes of a channel, at most 4096, and leaves the others. -/
def Reads (channel chunk rest : Str) : Prop :=
  channel = chunk ++ rest ∧ chunk ≠ [] ∧ chunk.length ≤ 4096

/-- The steps of the two programs inside a call. Where the server serves a line, other connections
may have left the state of its methods anyhow. -/
inductive Inside (service : Service σ Req Resp) (client : Client Req Resp) :
    World σ Req Resp → World σ Req Resp → Prop where
  | serverRecv {w : World σ Req Resp} {chunk rest : Str} (hlive : w.ended = false)
      (hbuf : newline ∉ w.serverBuf) (hread : Reads w.toServer chunk rest) :
      Inside service client w { w with serverBuf := w.serverBuf ++ chunk, toServer := rest }
  | serve {w : World σ Req Resp} {line rest : Str} {served : Served σ Req Resp} (state : σ)
      (hlive : w.ended = false) (hbuf : cut newline w.serverBuf = some (line, rest))
      (hserve : serveLine service line { w.served with state := state } = .ret () served) :
      Inside service client w { w with served := served, serverBuf := rest }
  | raise {w : World σ Req Resp} {line rest : Str} {served : Served σ Req Resp} (state : σ)
      (hlive : w.ended = false) (hbuf : cut newline w.serverBuf = some (line, rest))
      (hserve : serveLine service line { w.served with state := state } = .exit () served) :
      Inside service client w { w with served := served, serverBuf := rest, ended := true }
  | clientRecv {w : World σ Req Resp} {chunk rest : Str} (hwait : w.Waiting)
      (hbuf : newline ∉ w.clientBuf) (hread : Reads w.served.output chunk rest) :
      Inside service client w
        { w with clientBuf := w.clientBuf ++ chunk, served := { w.served with output := rest } }
  | «return» {w : World σ Req Resp} {line rest : Str} {resp : Resp} (hwait : w.Waiting)
      (hbuf : cut newline w.clientBuf = some (line, rest))
      (hparse : client.parseResp line = some resp) :
      Inside service client w { w with clientBuf := rest, results := w.results ++ [resp] }

/-- The steps of the connection: those inside a call, and the start of a call, which sends its
request. -/
inductive Step (service : Service σ Req Resp) (client : Client Req Resp) :
    World σ Req Resp → World σ Req Resp → Prop where
  | inside {w w' : World σ Req Resp} (h : Inside service client w w') : Step service client w w'
  | call {w : World σ Req Resp} {req : Req} {text : Str} (hidle : ¬ w.Waiting)
      (hformat : client.formatReq req = some text) :
      Step service client w { w with
        toServer := w.toServer ++ (text ++ [newline])
        requests := w.requests ++ [req] }

/-- A fresh connection. -/
def World.start (state : σ) : World σ Req Resp := ⟨⟨state, [], []⟩, [], false, [], [], [], []⟩

/-- The worlds that a connection can come to. -/
def Reachable (service : Service σ Req Resp) (client : Client Req Resp) (w : World σ Req Resp) :
    Prop :=
  ∃ state, Relation.ReflTransGen (Step service client) (World.start state) w

/-- In some state of the service the method of the request returns `resp`. -/
def Service.Returns (service : Service σ Req Resp) (req : Req) (resp : Resp) : Prop :=
  ∃ m state, service.method req = some m ∧ (m state).1 = some resp

/-- The request has no method, or in some state of the service its method raises an exception or
returns what has no text. -/
def Service.Raises (service : Service σ Req Resp) (req : Req) : Prop :=
  ∀ m, service.method req = some m → ∃ state, (m state).1.bind service.formatResp = none

/-- The last request has ended the server. -/
def World.Raised (service : Service σ Req Resp) (w : World σ Req Resp) : Prop :=
  w.ended = true ∧ ∃ req, w.requests.getLast? = some req ∧ service.Raises req

/-- However the steps inside the call are ordered, the call returns, or its request ends the
server. -/
inductive Settles (service : Service σ Req Resp) (client : Client Req Resp) :
    World σ Req Resp → Prop where
  | returned {w : World σ Req Resp} (h : ¬ w.Waiting) : Settles service client w
  | ended {w : World σ Req Resp} (h : w.Raised service) : Settles service client w
  | step {w : World σ Req Resp} (hmore : ∃ w', Inside service client w w')
      (h : ∀ w', Inside service client w w' → Settles service client w') :
      Settles service client w

/-- What the two programs rely on in the JSON library: a text has no newline, and parsing inverts
formatting. -/
structure JsonLaws (service : Service σ Req Resp) (client : Client Req Resp) : Prop where
  req : ∀ {req text}, client.formatReq req = some text →
    newline ∉ text ∧ service.parseReq text = some req
  resp : ∀ {resp text}, service.formatResp resp = some text →
    newline ∉ text ∧ client.parseResp text = some resp

/-- The bytes are the framed texts of the items. -/
def Encodes {α : Type} (format : α → Option Str) (items : List α) (bytes : Str) : Prop :=
  ∃ texts : List Str, List.Forall₂ (fun item text => format item = some text) items texts ∧
    bytes = frame newline texts

namespace Encodes

variable {α : Type} {format : α → Option Str} {items : List α} {item : α} {buf channel text : Str}

theorem nil : Encodes format [] [] := ⟨[], .nil, rfl⟩

/-- A sender appends a framed text. -/
theorem snoc {bytes : Str} (h : Encodes format items bytes) (hformat : format item = some text) :
    Encodes format (items ++ [item]) (bytes ++ (text ++ [newline])) := by
  obtain ⟨texts, hall, rfl⟩ := h
  refine ⟨texts ++ [text], List.rel_append hall (.cons hformat .nil), ?_⟩
  rw [frame_append]
  simp

/-- The first line that a receiver finds in its buffer is the text of the first item. -/
theorem take_line {line rest : Str} (h : Encodes format items (buf ++ channel))
    (hlaw : ∀ {item text}, format item = some text → newline ∉ text)
    (hcut : cut newline buf = some (line, rest)) :
    ∃ item items', items = item :: items' ∧ format item = some line ∧
      Encodes format items' (rest ++ channel) := by
  obtain ⟨texts, hall, hframe⟩ := h
  cases hall with
  | nil => exact absurd rfl (frame_ne_nil_of_cut hcut hframe)
  | @cons item text items' texts hformat hall =>
      obtain ⟨rfl, hrest⟩ := cut_of_frame hcut hframe (hlaw hformat)
      exact ⟨item, items', rfl, hformat, texts, hall, hrest⟩

/-- While an item is left and the receiver has no full line, bytes are on their way. -/
theorem channel_ne_nil (h : Encodes format (item :: items) (buf ++ channel))
    (hbuf : newline ∉ buf) : channel ≠ [] := by
  obtain ⟨texts, hall, hframe⟩ := h
  rintro rfl
  cases hall with
  | cons hformat hall =>
      apply hbuf
      rw [List.append_nil, frame_cons] at hframe
      rw [hframe]
      simp

end Encodes

/-- A list extended by the next element of the list that it is a prefix of. -/
theorem prefix_snoc {α : Type} {l m tail : List α} {x : α} (h : l <+: m)
    (hnext : m.drop l.length = x :: tail) :
    l ++ [x] <+: m ∧ m.drop (l.length + 1) = tail := by
  obtain ⟨rest, rfl⟩ := h
  rw [List.drop_left] at hnext
  subst hnext
  exact ⟨⟨tail, by simp⟩, by simp⟩

/-- An element of a prefix is the element of the whole list. -/
theorem prefix_get {α : Type} {l m : List α} {n : Nat} {x : α} (h : l <+: m)
    (hx : l[n]? = some x) : m[n]? = some x := by
  obtain ⟨hlt, rfl⟩ := List.getElem?_eq_some_iff.1 hx
  rw [h.getElem hlt]
  exact List.getElem?_eq_getElem _

/-- A line that is served. -/
theorem serve_line_answer {service : Service σ Req Resp} {line text : Str}
    {s : Served σ Req Resp} {call : Req} {m : σ → Option Resp × σ} {resp : Resp} {state : σ}
    (hparse : service.parseReq line = some call) (hmethod : service.method call = some m)
    (hret : m s.state = (some resp, state)) (hformat : service.formatResp resp = some text) :
    serveLine service line s =
      .ret () ⟨state, s.calls ++ [(call, some resp)], s.output ++ (text ++ [newline])⟩ := by
  simp only [serveLine, hparse, hmethod, get_bind, hret, modify_bind, Option.bind_some, hformat]
  rfl

/-- A server serves the lines that it is given. -/
theorem for_each_serves (service : Service σ Req Resp) (lines : List Str)
    (s : Served σ Req Resp) : Serves service lines s (forEach lines (serveLine service) s) := by
  induction lines generalizing s with
  | nil => exact .done
  | cons line rest ih =>
      rw [forEach]
      cases hparse : service.parseReq line with
      | none =>
          have hline : serveLine service line s = .exit () s := by
            simp only [serveLine, hparse]
            rfl
          rw [bind_of_exit hline]
          exact .badRequest hparse
      | some call =>
          cases hmethod : service.method call with
          | none =>
              have hline : serveLine service line s = .exit () s := by
                simp only [serveLine, hparse, hmethod]
                rfl
              rw [bind_of_exit hline]
              exact .noMethod hparse hmethod
          | some m =>
              obtain ⟨ret, state, hret⟩ : ∃ ret state, m s.state = (ret, state) := ⟨_, _, rfl⟩
              cases htext : ret.bind service.formatResp with
              | none =>
                  have hline : serveLine service line s =
                      .exit () ⟨state, s.calls ++ [(call, ret)], s.output⟩ := by
                    simp only [serveLine, hparse, hmethod, get_bind, hret, modify_bind, htext]
                    rfl
                  rw [bind_of_exit hline]
                  exact .raise hparse hmethod hret htext
              | some text =>
                  obtain ⟨resp, rfl, hformat⟩ := Option.bind_eq_some_iff.1 htext
                  rw [bind_of_ret (serve_line_answer hparse hmethod hret hformat)]
                  exact .answer hparse hmethod hret hformat (ih _)

/-- One line. -/
theorem serve_line_serves (service : Service σ Req Resp) (line : Str) (s : Served σ Req Resp) :
    Serves service [line] s (serveLine service line s) := by
  have hone := for_each_serves service [line] s
  rwa [forEach, forEach, bind_pure_unit] at hone

/-- A line that is served is a request, whose method returned the reply. -/
theorem serve_line_ret {service : Service σ Req Resp} {line : Str} {s s' : Served σ Req Resp}
    {req : Req} (hparse : service.parseReq line = some req)
    (hserve : serveLine service line s = .ret () s') :
    ∃ resp text, service.Returns req resp ∧ service.formatResp resp = some text ∧
      s'.calls = s.calls ++ [(req, some resp)] ∧ s'.output = s.output ++ (text ++ [newline]) := by
  have hserves := serve_line_serves service line s
  rw [hserve] at hserves
  cases hserves with
  | @answer _ _ text _ call m resp state _ hcall hmethod hret hformat hrest =>
      obtain rfl : req = call := Option.some.inj (hparse.symm.trans hcall)
      cases hrest
      exact ⟨resp, text, ⟨m, s.state, hmethod, congrArg Prod.fst hret⟩, hformat, rfl, rfl⟩

/-- A request that raises an exception is not replied to, and is called at most once. -/
theorem serve_line_exit {service : Service σ Req Resp} {line : Str} {s s' : Served σ Req Resp}
    {req : Req} (hparse : service.parseReq line = some req)
    (hserve : serveLine service line s = .exit () s') :
    s'.output = s.output ∧ service.Raises req ∧ (s'.calls = s.calls ∨
      ∃ ret, s'.calls = s.calls ++ [(req, ret)] ∧
        ∀ resp, ret = some resp → service.Returns req resp) := by
  have hserves := serve_line_serves service line s
  rw [hserve] at hserves
  cases hserves with
  | answer _ _ _ _ hrest => cases hrest
  | badRequest hcall =>
      rw [hparse] at hcall
      cases hcall
  | noMethod hcall hmethod =>
      obtain rfl := Option.some.inj (hparse.symm.trans hcall)
      refine ⟨rfl, fun m hm => ?_, .inl rfl⟩
      rw [hmethod] at hm
      cases hm
  | @raise _ _ _ call m ret state hcall hmethod hret hformat =>
      obtain rfl : req = call := Option.some.inj (hparse.symm.trans hcall)
      have hfst : (m s.state).1 = ret := congrArg Prod.fst hret
      refine ⟨rfl, fun m' hm => ⟨s.state, ?_⟩, .inr ⟨ret, rfl, fun resp hresp => ?_⟩⟩
      · obtain rfl := Option.some.inj (hmethod.symm.trans hm)
        rw [hfst]
        exact hformat
      · exact ⟨m, s.state, hmethod, hfst.trans hresp⟩

/-- What holds of every reachable world. The server has made the first calls of those that were
asked for, its replies are the results of its calls, and the bytes on the way are the requests that
it has not served and the replies that the client has not returned. If the server has ended, the
first request that has no reply raised the exception. -/
structure Inv (service : Service σ Req Resp) (client : Client Req Resp) (w : World σ Req Resp)
    (replies : List Resp) : Prop where
  asked : w.served.calls.map Prod.fst <+: w.requests
  replied : replies.map some <+: w.served.calls.map Prod.snd
  returned : w.results <+: replies
  paced : w.requests.length ≤ w.results.length + 1
  answered : ∀ call ∈ w.served.calls, ∀ resp, call.2 = some resp → service.Returns call.1 resp
  live : w.ended = false → replies.length = w.served.calls.length
  raised : w.ended = true → ∃ req, w.requests[replies.length]? = some req ∧ service.Raises req
  coming : w.ended = false → Encodes client.formatReq (w.requests.drop w.served.calls.length)
    (w.serverBuf ++ w.toServer)
  going : Encodes service.formatResp (replies.drop w.results.length)
    (w.clientBuf ++ w.served.output)

variable {service : Service σ Req Resp} {client : Client Req Resp} {w w' : World σ Req Resp}

/-- The request in the line that the server takes is the next one that was asked for. -/
theorem Inv.next_request {replies : List Resp} {line rest : Str} (h : Inv service client w replies)
    (hlaws : JsonLaws service client) (hlive : w.ended = false)
    (hbuf : cut newline w.serverBuf = some (line, rest)) :
    ∃ req tail, service.parseReq line = some req ∧
      w.requests.drop w.served.calls.length = req :: tail ∧
      Encodes client.formatReq tail (rest ++ w.toServer) := by
  obtain ⟨req, tail, hdrop, hformat, henc⟩ :=
    (h.coming hlive).take_line (fun h => (hlaws.req h).1) hbuf
  exact ⟨req, tail, (hlaws.req hformat).2, hdrop, henc⟩

/-- The steps inside a call keep the invariant. -/
theorem inv_inside {replies : List Resp} (hlaws : JsonLaws service client)
    (hstep : Inside service client w w') (h : Inv service client w replies) :
    ∃ replies', Inv service client w' replies' := by
  cases hstep with
  | serverRecv hlive hbuf hread =>
      refine ⟨replies, { h with coming := fun _ => ?_ }⟩
      have hcoming := h.coming hlive
      rw [hread.1, ← List.append_assoc] at hcoming
      exact hcoming
  | @serve line rest served state hlive hbuf hserve =>
      obtain ⟨req, tail, hparse, hdrop, henc⟩ := h.next_request hlaws hlive hbuf
      obtain ⟨resp, text, hreturns, hformat, hcalls, houtput⟩ := serve_line_ret hparse hserve
      have hlen := h.live hlive
      have hsnoc := prefix_snoc h.asked (by rw [List.length_map]; exact hdrop)
      rw [List.length_map] at hsnoc
      have hreplied : replies.map some = w.served.calls.map Prod.snd :=
        h.replied.eq_of_length (by simp [hlen])
      refine ⟨replies ++ [resp], ?_, ?_, ?_, h.paced, ?_, ?_, ?_, ?_, ?_⟩
      · simpa [hcalls] using hsnoc.1
      · simp [hcalls, hreplied]
      · exact h.returned.trans (List.prefix_append _ _)
      · rw [hcalls]
        intro call hmem ret hret
        rcases List.mem_append.1 hmem with hold | hnew
        · exact h.answered call hold ret hret
        · obtain rfl := List.mem_singleton.1 hnew
          obtain rfl : resp = ret := Option.some.inj hret
          exact hreturns
      · simp [hcalls, hlen]
      · intro hended
        rw [hlive] at hended
        cases hended
      · intro _
        simpa [hcalls, hsnoc.2] using henc
      · have hgoing := h.going.snoc hformat
        rw [← List.drop_append_of_le_length h.returned.length_le] at hgoing
        simpa [houtput, List.append_assoc] using hgoing
  | @raise line rest served state hlive hbuf hserve =>
      obtain ⟨req, tail, hparse, hdrop, henc⟩ := h.next_request hlaws hlive hbuf
      obtain ⟨houtput, hraises, hcalls⟩ := serve_line_exit hparse hserve
      have hsnoc := prefix_snoc h.asked (by rw [List.length_map]; exact hdrop)
      refine ⟨replies, ?_, ?_, h.returned, h.paced, ?_, ?_, ?_, ?_, ?_⟩
      · rcases hcalls with hcalls | ⟨ret, hcalls, -⟩
        · simpa [hcalls] using h.asked
        · simpa [hcalls] using hsnoc.1
      · rcases hcalls with hcalls | ⟨ret, hcalls, -⟩
        · simpa [hcalls] using h.replied
        · simpa [hcalls] using h.replied.trans (List.prefix_append _ _)
      · rcases hcalls with hcalls | ⟨ret, hcalls, hreturns⟩
        · rw [hcalls]
          exact h.answered
        · rw [hcalls]
          intro call hmem resp hresp
          rcases List.mem_append.1 hmem with hold | hnew
          · exact h.answered call hold resp hresp
          · obtain rfl := List.mem_singleton.1 hnew
            exact hreturns resp hresp
      · intro hended
        cases hended
      · intro _
        refine ⟨req, ?_, hraises⟩
        rw [h.live hlive, ← List.head?_drop, hdrop]
        rfl
      · intro hended
        cases hended
      · simpa [houtput] using h.going
  | clientRecv hwait hbuf hread =>
      refine ⟨replies, { h with going := ?_ }⟩
      have hgoing := h.going
      rw [hread.1, ← List.append_assoc] at hgoing
      exact hgoing
  | @«return» line rest resp hwait hbuf hparse =>
      obtain ⟨item, items, hdrop, hformat, henc⟩ :=
        h.going.take_line (fun h => (hlaws.resp h).1) hbuf
      rw [(hlaws.resp hformat).2, Option.some.injEq] at hparse
      subst hparse
      have hsnoc := prefix_snoc h.returned hdrop
      refine ⟨replies, { h with returned := hsnoc.1, paced := ?_, going := ?_ }⟩
      · have hpaced := h.paced
        simp only [List.length_append, List.length_singleton]
        omega
      · simpa [hsnoc.2] using henc

/-- Every step keeps the invariant. -/
theorem inv_step {replies : List Resp} (hlaws : JsonLaws service client)
    (hstep : Step service client w w') (h : Inv service client w replies) :
    ∃ replies', Inv service client w' replies' := by
  cases hstep with
  | inside hinside => exact inv_inside hlaws hinside h
  | @call req text hidle hformat =>
      have hlen : w.served.calls.length ≤ w.requests.length := by
        simpa using h.asked.length_le
      refine ⟨replies, { h with
        asked := ?_, paced := ?_, raised := fun hended => ?_, coming := fun hlive => ?_ }⟩
      · exact h.asked.trans (List.prefix_append _ _)
      · unfold World.Waiting at hidle
        simp only [List.length_append, List.length_singleton]
        omega
      · obtain ⟨raiser, hget, hraises⟩ := h.raised hended
        exact ⟨raiser, prefix_get (List.prefix_append _ _) hget, hraises⟩
      · have hcoming := (h.coming hlive).snoc hformat
        rw [← List.drop_append_of_le_length hlen] at hcoming
        simpa [List.append_assoc] using hcoming

/-- Every reachable world satisfies the invariant. -/
theorem reachable_inv (hlaws : JsonLaws service client) (h : Reachable service client w) :
    ∃ replies, Inv service client w replies := by
  obtain ⟨state, hrun⟩ := h
  induction hrun with
  | refl =>
      exact ⟨[], List.prefix_rfl, List.prefix_rfl, List.prefix_rfl, by simp [World.start],
        fun _ hmem => absurd hmem List.not_mem_nil, fun _ => rfl, Bool.noConfusion,
        fun _ => Encodes.nil, Encodes.nil⟩
  | tail _ hstep ih =>
      obtain ⟨replies, h⟩ := ih
      exact inv_step hlaws hstep h

/-- The request that ended the server is the one that the client waits for. -/
theorem Inv.world_raised {replies : List Resp} (h : Inv service client w replies)
    (hended : w.ended = true) : w.Raised service := by
  obtain ⟨req, hget, hraises⟩ := h.raised hended
  obtain ⟨hlt, -⟩ := List.getElem?_eq_some_iff.1 hget
  have hpaced := h.paced
  have hreturned := h.returned.length_le
  have hlast : w.requests.length - 1 = replies.length := by omega
  refine ⟨hended, req, ?_, hraises⟩
  rw [List.getLast?_eq_getElem?, hlast]
  exact hget

/-- The result of a call is what the method returned to its request. -/
theorem Inv.returns {replies : List Resp} (h : Inv service client w replies) {n : Nat} {req : Req}
    {resp : Resp} (hreq : w.requests[n]? = some req) (hresult : w.results[n]? = some resp) :
    service.Returns req resp := by
  have hret : (w.served.calls.map Prod.snd)[n]? = some (some resp) := by
    refine prefix_get ((h.returned.map some).trans h.replied) ?_
    rw [List.getElem?_map, hresult]
    rfl
  rw [List.getElem?_map, Option.map_eq_some_iff] at hret
  obtain ⟨call, hcall, hsnd⟩ := hret
  have hfst : w.requests[n]? = some call.1 := by
    refine prefix_get h.asked ?_
    rw [List.getElem?_map, hcall]
    rfl
  obtain rfl := Option.some.inj (hreq.symm.trans hfst)
  exact h.answered call (List.mem_of_getElem? hcall) resp hsnd

/-- While the server is there and the client is inside a call, one of the two has a step. -/
theorem inside_progress {replies : List Resp} (hlaws : JsonLaws service client)
    (h : Inv service client w replies) (hwait : w.Waiting) (hlive : w.ended = false) :
    ∃ w', Inside service client w w' := by
  by_cases hpending : w.served.calls.length < w.requests.length
  · have hcoming := h.coming hlive
    rw [List.drop_eq_getElem_cons hpending] at hcoming
    cases hbuf : cut newline w.serverBuf with
    | none =>
        have hbuf := cut_eq_none.1 hbuf
        obtain ⟨b, rest, hchannel⟩ :=
          List.exists_cons_of_ne_nil (hcoming.channel_ne_nil hbuf)
        have hread : Reads w.toServer [b] rest := ⟨hchannel, by simp, by simp⟩
        exact ⟨_, .serverRecv hlive hbuf hread⟩
    | some cutting =>
        obtain ⟨line, rest⟩ := cutting
        cases hserve : serveLine service line { w.served with state := w.served.state } with
        | ret _ served => exact ⟨_, .serve w.served.state hlive hbuf hserve⟩
        | exit _ served => exact ⟨_, .raise w.served.state hlive hbuf hserve⟩
  · have hmore : w.results.length < replies.length := by
      rw [h.live hlive]
      unfold World.Waiting at hwait
      omega
    have hgoing := h.going
    rw [List.drop_eq_getElem_cons hmore] at hgoing
    cases hbuf : cut newline w.clientBuf with
    | none =>
        have hbuf := cut_eq_none.1 hbuf
        obtain ⟨b, rest, hchannel⟩ :=
          List.exists_cons_of_ne_nil (hgoing.channel_ne_nil hbuf)
        have hread : Reads w.served.output [b] rest := ⟨hchannel, by simp, by simp⟩
        exact ⟨_, .clientRecv hwait hbuf hread⟩
    | some cutting =>
        obtain ⟨line, rest⟩ := cutting
        obtain ⟨item, items, _, hformat, _⟩ := hgoing.take_line (fun h => (hlaws.resp h).1) hbuf
        exact ⟨_, .return hwait hbuf (hlaws.resp hformat).2⟩

/-- The work that is left of a call: the requests that the server has not taken, and then the bytes
on the way. -/
def World.work (w : World σ Req Resp) : Nat ×ₗ Nat :=
  toLex (w.requests.length - w.served.calls.length, w.toServer.length + w.served.output.length)

/-- Every step inside a call that does not end the call takes some of its work away. -/
theorem work_lt {replies : List Resp} (hlaws : JsonLaws service client)
    (hstep : Inside service client w w') (h : Inv service client w replies)
    (hwait : w'.Waiting) (hlive' : w'.ended = false) : w'.work < w.work := by
  unfold World.work
  rw [Prod.Lex.toLex_lt_toLex]
  cases hstep with
  | serverRecv hlive hbuf hread =>
      right
      have hpos := List.length_pos_iff.2 hread.2.1
      refine ⟨rfl, ?_⟩
      show _ < w.toServer.length + _
      rw [hread.1, List.length_append]
      simp only
      omega
  | @serve line rest served state hlive hbuf hserve =>
      left
      obtain ⟨req, tail, hparse, hdrop, _⟩ := h.next_request hlaws hlive hbuf
      obtain ⟨resp, text, _, _, hcalls, _⟩ := serve_line_ret hparse hserve
      have hlen := congrArg List.length hdrop
      rw [List.length_drop, List.length_cons] at hlen
      simp only [hcalls, List.length_append, List.length_singleton]
      omega
  | raise state hlive hbuf hserve => cases hlive'
  | clientRecv hwait hbuf hread =>
      right
      have hpos := List.length_pos_iff.2 hread.2.1
      refine ⟨rfl, ?_⟩
      show _ < _ + w.served.output.length
      rw [hread.1, List.length_append]
      simp only
      omega
  | «return» hwait' hbuf hparse =>
      have hpaced := h.paced
      simp only [World.Waiting, List.length_append, List.length_singleton] at hwait
      omega

/-- A call returns or ends the server, in whichever order the two programs run. -/
theorem settles {replies : List Resp} (hlaws : JsonLaws service client)
    (h : Inv service client w replies) : Settles service client w := by
  induction hwork : w.work using WellFoundedLT.induction generalizing w replies with
  | ind work ih =>
      by_cases hwait : w.Waiting
      · cases hlive : w.ended with
        | true => exact .ended (h.world_raised hlive)
        | false =>
            refine .step (inside_progress hlaws h hwait hlive) fun w' hstep => ?_
            obtain ⟨replies', h'⟩ := inv_inside hlaws hstep h
            by_cases hwait' : w'.Waiting
            · cases hlive' : w'.ended with
              | true => exact .ended (h'.world_raised hlive')
              | false =>
                  have hlt := work_lt hlaws hstep h hwait' hlive'
                  rw [hwork] at hlt
                  exact ih w'.work hlt h' rfl
            · exact .returned hwait'
      · exact .returned hwait

/-- However a stream is cut, `buffered_readlines` yields its terminated lines, and both servers do
the same, which is to serve these lines. On a connection the server makes one call for each request
in order, and the `n`-th call of the client returns what the method returned to the `n`-th request.
Each call returns, unless its own request ends the server with an exception. -/
theorem rpc_framing (service : Service σ Req Resp) (client : Client Req Resp)
    (hlaws : JsonLaws service client) :
    (∀ stream : Str, ∃ server : Prog (Served σ Req Resp) Unit Unit,
      (∀ s, Serves service (lines newline stream) s (server s)) ∧
      ∀ chunks : List Str, (∀ chunk ∈ chunks, chunk ≠ [] ∧ chunk.length ≤ 4096) →
        chunks.flatten = stream →
        bufferedReadlines [] (chunks.map .data) = lines newline stream ∧
        runSock service (chunks.map .data) = server ∧ runStdio service [] chunks = server) ∧
    ∀ w : World σ Req Resp, Reachable service client w →
      w.served.calls.map Prod.fst <+: w.requests ∧
      w.results.map some <+: w.served.calls.map Prod.snd ∧
      (∀ (n : Nat) (req : Req) (resp : Resp), w.requests[n]? = some req →
        w.results[n]? = some resp → service.Returns req resp) ∧
      (w.ended = true → w.Raised service) ∧ Settles service client w := by
  constructor
  · intro stream
    refine ⟨forEach (lines newline stream) (serveLine service), for_each_serves service _, ?_⟩
    intro chunks hchunks hflat
    subst hflat
    have hne : ∀ chunk ∈ chunks, chunk ≠ [] := fun chunk hmem => (hchunks chunk hmem).1
    have hlines := buffered_readlines_eq [] hne
    refine ⟨hlines, ?_, run_stdio_eq service [] hne⟩
    rw [runSock, hlines]
    rfl
  · intro w hreach
    obtain ⟨replies, h⟩ := reachable_inv hlaws hreach
    refine ⟨h.asked, ?_, fun n req resp => h.returns, h.world_raised, settles hlaws h⟩
    exact (h.returned.map some).trans h.replied

/-- A connection between two calls. -/
def betweenCalls (state : σ) (calls : List (Req × Option Resp)) (requests : List Req)
    (results : List Resp) : World σ Req Resp :=
  ⟨⟨state, calls, []⟩, [], false, [], [], requests, results⟩

/-- One more call. Its request `a ++ b` comes in two reads, and so does its reply `c ++ d`. -/
theorem call_in_pieces (hlaws : JsonLaws service client) {state state' : σ}
    {calls : List (Req × Option Resp)} {requests : List Req} {results : List Resp} {req : Req}
    {resp : Resp} {m : σ → Option Resp × σ} {a b c d : Str}
    (h : Reachable service client (betweenCalls state calls requests results))
    (hidle : requests.length = results.length) (hmethod : service.method req = some m)
    (hret : m state = (some resp, state')) (hreq : client.formatReq req = some (a ++ b))
    (hresp : service.formatResp resp = some (c ++ d))
    (hne : a ≠ [] ∧ c ≠ []) (hreqlen : (a ++ b).length < 4096) (hresplen : (c ++ d).length < 4096) :
    Reachable service client
      (betweenCalls state' (calls ++ [(req, some resp)]) (requests ++ [req])
        (results ++ [resp])) := by
  obtain ⟨hreqline, hparsereq⟩ := hlaws.req hreq
  obtain ⟨hrespline, hparseresp⟩ := hlaws.resp hresp
  rw [List.length_append] at hreqlen hresplen
  rw [List.mem_append, not_or] at hreqline hrespline
  have hwait : results.length < (requests ++ [req]).length := by simp [hidle]
  obtain ⟨first, hrun⟩ := h
  have hline : cut newline (a ++ (b ++ [newline])) = some (a ++ b, []) :=
    cut_eq_some.2 ⟨by simp, by simpa using hreqline⟩
  have hcall : Step service client (betweenCalls state calls requests results)
      ⟨⟨state, calls, []⟩, [], false, a ++ b ++ [newline], [], requests ++ [req], results⟩ :=
    .call (by simp [World.Waiting, betweenCalls, hidle]) hreq
  have hread : Inside service client
      ⟨⟨state, calls, []⟩, [], false, a ++ b ++ [newline], [], requests ++ [req], results⟩
      ⟨⟨state, calls, []⟩, a, false, b ++ [newline], [], requests ++ [req], results⟩ :=
    .serverRecv rfl List.not_mem_nil ⟨List.append_assoc .., hne.1, by omega⟩
  have hread' : Inside service client
      ⟨⟨state, calls, []⟩, a, false, b ++ [newline], [], requests ++ [req], results⟩
      ⟨⟨state, calls, []⟩, a ++ (b ++ [newline]), false, [], [], requests ++ [req], results⟩ :=
    .serverRecv rfl hreqline.1 ⟨(List.append_nil _).symm, by simp, by simp; omega⟩
  have hserve : Inside service client
      ⟨⟨state, calls, []⟩, a ++ (b ++ [newline]), false, [], [], requests ++ [req], results⟩
      ⟨⟨state', calls ++ [(req, some resp)], c ++ d ++ [newline]⟩, [], false, [], [],
        requests ++ [req], results⟩ :=
    .serve state rfl hline (serve_line_answer hparsereq hmethod hret hresp)
  have hrecv : Inside service client
      ⟨⟨state', calls ++ [(req, some resp)], c ++ d ++ [newline]⟩, [], false, [], [],
        requests ++ [req], results⟩
      ⟨⟨state', calls ++ [(req, some resp)], d ++ [newline]⟩, [], false, [], c,
        requests ++ [req], results⟩ :=
    .clientRecv hwait List.not_mem_nil ⟨List.append_assoc .., hne.2, by omega⟩
  have hrecv' : Inside service client
      ⟨⟨state', calls ++ [(req, some resp)], d ++ [newline]⟩, [], false, [], c,
        requests ++ [req], results⟩
      ⟨⟨state', calls ++ [(req, some resp)], []⟩, [], false, [], c ++ (d ++ [newline]),
        requests ++ [req], results⟩ :=
    .clientRecv hwait hrespline.1 ⟨(List.append_nil _).symm, by simp, by simp; omega⟩
  have hreturn : Inside service client
      ⟨⟨state', calls ++ [(req, some resp)], []⟩, [], false, [], c ++ (d ++ [newline]),
        requests ++ [req], results⟩
      (betweenCalls state' (calls ++ [(req, some resp)]) (requests ++ [req])
        (results ++ [resp])) :=
    .return hwait (cut_eq_some.2 ⟨by simp, by simpa using hrespline⟩) hparseresp
  exact ⟨first, hrun.tail hcall |>.tail (.inside hread) |>.tail (.inside hread')
    |>.tail (.inside hserve) |>.tail (.inside hrecv) |>.tail (.inside hrecv')
    |>.tail (.inside hreturn)⟩

/-- The text `["check_token", \x7b"username": "bob", "token": token\x7d]`. -/
def checkTokenText (token : Bool) : Str :=
  ("[\"check_token\", \x7b\"username\": \"bob\", \"token\": \"" ++
    (if token then "right" else "wrong") ++ "\"\x7d]").toList.map Char.toUInt8

/-- The text of a truth value. -/
def boolText (b : Bool) : Str := (if b then "true" else "false").toList.map Char.toUInt8

/-- The method `rpc_check_token` for one user, on a server that counts its calls. -/
def checkToken : Service Nat Bool Bool where
  parseReq text :=
    if text = checkTokenText true then some true
    else if text = checkTokenText false then some false
    else none
  method token := some fun n => (some token, n + 1)
  formatResp b := some (boolText b)

/-- The client of that server. -/
def checkTokenClient : Client Bool Bool where
  formatReq token := some (checkTokenText token)
  parseResp text :=
    if text = boolText true then some true
    else if text = boolText false then some false
    else none

theorem check_token_laws : JsonLaws checkToken checkTokenClient where
  req := by
    intro req text h
    obtain rfl := Option.some.inj h
    cases req <;> decide +kernel
  resp := by
    intro resp text h
    obtain rfl := Option.some.inj h
    cases resp <;> decide +kernel

/-- One more call, cut behind the tenth byte of its request and the second of its reply. -/
theorem check_token_called {n : Nat} {calls : List (Bool × Option Bool)}
    {requests results : List Bool}
    (h : Reachable checkToken checkTokenClient (betweenCalls n calls requests results))
    (hidle : requests.length = results.length) (token : Bool) :
    Reachable checkToken checkTokenClient
      (betweenCalls (n + 1) (calls ++ [(token, some token)]) (requests ++ [token])
        (results ++ [token])) := by
  have hreq : checkTokenText token =
      (checkTokenText token).take 10 ++ (checkTokenText token).drop 10 :=
    (List.take_append_drop ..).symm
  have hresp : boolText token = (boolText token).take 2 ++ (boolText token).drop 2 :=
    (List.take_append_drop ..).symm
  refine call_in_pieces check_token_laws h hidle rfl rfl (congrArg some hreq)
    (congrArg some hresp) ?_ ?_ ?_ <;> cases token <;> decide +kernel

/-- A stream of two requests that is cut within the first, and a connection on which two calls have
returned. -/
theorem rpc_framing_check_token :
    (∀ chunks ∈ [
      [frame newline [checkTokenText true, checkTokenText false]],
      [(checkTokenText true).take 10,
        (checkTokenText true).drop 10 ++ newline :: checkTokenText false, [newline]]],
      runSock checkToken (chunks.map .data) ⟨0, [], []⟩ =
        .ret () ⟨2, [(true, some true), (false, some false)],
          frame newline [boolText true, boolText false]⟩ ∧
      runStdio checkToken [] chunks ⟨0, [], []⟩ = runSock checkToken (chunks.map .data) ⟨0, [], []⟩) ∧
    ∃ w : World Nat Bool Bool, Reachable checkToken checkTokenClient w ∧
      w.served.calls = [(true, some true), (false, some false)] ∧ w.results = [true, false] ∧
      (∀ (n : Nat) (req resp : Bool), w.requests[n]? = some req →
        w.results[n]? = some resp → checkToken.Returns req resp) ∧
      Settles checkToken checkTokenClient w := by
  obtain ⟨hstream, hworld⟩ := rpc_framing checkToken checkTokenClient check_token_laws
  constructor
  · obtain ⟨server, _, hserver⟩ :=
      hstream (frame newline [checkTokenText true, checkTokenText false])
    have hserved : server ⟨0, [], []⟩ = .ret () ⟨2, [(true, some true), (false, some false)],
        frame newline [boolText true, boolText false]⟩ := by
      obtain ⟨hlines, hsock, _⟩ := hserver [frame newline [checkTokenText true,
        checkTokenText false]] (by decide +kernel) (by simp)
      rw [← hsock, runSock, hlines, lines_frame (by decide +kernel)]
      exact ret_of_returned (by decide +kernel)
    intro chunks hchunks
    obtain ⟨_, hsock, hstdio⟩ := hserver chunks (by revert chunks; decide +kernel)
      (by revert chunks; decide +kernel)
    rw [hsock, hstdio]
    exact ⟨hserved, rfl⟩
  · have hstart : Reachable checkToken checkTokenClient (betweenCalls 0 [] [] []) := ⟨0, .refl⟩
    have hone := check_token_called hstart rfl true
    have htwo := check_token_called hone rfl false
    obtain ⟨_, _, hreturns, _, hsettles⟩ := hworld _ htwo
    exact ⟨_, htwo, rfl, rfl, hreturns, hsettles⟩

end Labs.Zoo.Rpclib
