import Labs.Jos.Ipc

/-!
# Requests to the file server

A client in `fsipc`, the file server in `serve` and any other environments, one system call at a
time. The client sends a request with `ipc_send` and takes the first message that reaches it as
the reply. Histories number the client's requests and record the replies of the server and the
results of `fsipc`.
-/

namespace Labs.Jos

open Prog

/-- The message fields of an environment. `wants` is `env_ipc_dstva < UTOP`, and `page` is the page
that the last message mapped at `env_ipc_dstva`. -/
structure Post where
  recving : Bool := false
  wants : Bool := false
  sender : Word := 0
  value : Word := 0
  perm : Word := 0
  page : Option Nat := none

namespace Post

/-- `sys_ipc_recv`. -/
def receive (p : Post) (wants : Bool) : Post :=
  { p with recving := true, wants := wants, page := none }

/-- A `sys_ipc_try_send` that returns 0. -/
def send (p : Post) (sender value perm : Word) (page : Option Nat) : Post :=
  { p with
    recving := false
    sender := sender
    value := value
    perm := if page.isSome ∧ p.wants then perm else 0
    page := if p.wants then page else none }

/-- A `sys_ipc_try_send` that returns `-E_NO_MEM`: the receiver is woken all the same. -/
def sendNoMem (p : Post) (sender value : Word) : Post :=
  { p with recving := false, sender := sender, value := value, page := none }

end Post

/-- Where the client is in `fsipc`. `wants` is set if `dstva` is not null. -/
inductive ClientPoint where
  /-- Out of the function. -/
  | idle
  /-- At `sys_ipc_try_send` in `ipc_send`. -/
  | send (wants : Bool)
  /-- At `sys_yield` in `ipc_send`. -/
  | yield (wants : Bool)
  /-- At `sys_ipc_recv` in `ipc_recv`. -/
  | recv (wants : Bool)
  /-- In `sys_ipc_recv`. -/
  | blocked (wants : Bool)
  | panicked

/-- Where the server is in `serve`. -/
inductive ServerPoint where
  | recv
  | blocked
  /-- In a handler, for a request of `whom`. -/
  | handle (whom : Word)
  /-- At `sys_ipc_try_send` in `ipc_send`. -/
  | reply (whom value perm : Word) (page : Option Nat)
  | yield (whom value perm : Word) (page : Option Nat)
  /-- At `sys_page_unmap`. -/
  | unmap
  | panicked

/-- The client, the server and their message fields. `sent` is the number of requests sent, and
`tag` the number of the client's request that the server holds. -/
structure RpcSystem where
  clientId : Word
  serverId : Word
  client : ClientPoint
  server : ServerPoint
  clientPost : Post
  serverPost : Post
  sent : Nat
  tag : Option Nat
  replies : List (Nat × Word × Option Nat)
  results : List (Nat × Word × Bool × Option Nat)

/-- What happens. -/
inductive RpcOp where
  /-- A step of the client other than a return. -/
  | client
  /-- `fsipc` returns. -/
  | result
  /-- A step of the server. -/
  | server
  /-- The reply of the server finds no memory for a page table of the client. -/
  | replyNoMem
  /-- Another environment sends a message to the server. -/
  | request
  /-- Another environment sends a message to the client. -/
  | message
  deriving DecidableEq

/-- One step. -/
inductive RpcStep (s : RpcSystem) : RpcOp → RpcSystem → Prop where
  | call (wants : Bool) (hat : s.client = .idle) :
      RpcStep s .client { s with client := .send wants }
  | sendBusy {wants : Bool} (hat : s.client = .send wants) (hbusy : s.serverPost.recving = false) :
      RpcStep s .client { s with client := .yield wants }
  | sendAgain {wants : Bool} (hat : s.client = .yield wants) :
      RpcStep s .client { s with client := .send wants }
  | sent {wants : Bool} (type : Word) (page : Nat) (hat : s.client = .send wants)
      (hrecving : s.serverPost.recving = true) :
      RpcStep s .client { s with
        client := .recv wants
        serverPost := s.serverPost.send s.clientId type (pteP ||| pteW ||| pteU) (some page)
        sent := s.sent + 1
        tag := some (s.sent + 1) }
  /-- `ipc_send` panics on other errors. -/
  | sendFails {wants : Bool} (hat : s.client = .send wants) :
      RpcStep s .client { s with client := .panicked }
  | sendNoMem {wants : Bool} (type : Word) (hat : s.client = .send wants)
      (hrecving : s.serverPost.recving = true) :
      RpcStep s .client { s with
        client := .panicked, serverPost := s.serverPost.sendNoMem s.clientId type, tag := none }
  | recv {wants : Bool} (hat : s.client = .recv wants) :
      RpcStep s .client { s with client := .blocked wants, clientPost := s.clientPost.receive wants }
  /-- The client runs again and reads `env_ipc_value`. -/
  | result {wants : Bool} (hat : s.client = .blocked wants)
      (hwoken : s.clientPost.recving = false) :
      RpcStep s .result { s with
        client := .idle
        results := s.results ++ [(s.sent, s.clientPost.value, wants, s.clientPost.page)] }
  | serverRecv (hat : s.server = .recv) :
      RpcStep s .server { s with server := .blocked, serverPost := s.serverPost.receive true }
  /-- A request without an argument page is left hanging. -/
  | hang (hat : s.server = .blocked) (hwoken : s.serverPost.recving = false)
      (hperm : hasFlag s.serverPost.perm pteP = false) :
      RpcStep s .server { s with server := .recv, tag := none }
  | take (hat : s.server = .blocked) (hwoken : s.serverPost.recving = false)
      (hperm : hasFlag s.serverPost.perm pteP = true) :
      RpcStep s .server { s with server := .handle s.serverPost.sender }
  /-- The handler has a reply: `page` is the `Fd` page of a successful `FSREQ_OPEN`. -/
  | handled {whom : Word} (value perm : Word) (page : Option Nat) (hat : s.server = .handle whom) :
      RpcStep s .server { s with
        server := .reply whom value perm page
        replies := s.replies ++ (s.tag.map fun n => (n, value, page)).toList }
  /-- The receiver is not in `sys_ipc_recv`. -/
  | replyBusy {whom value perm : Word} {page : Option Nat} (hat : s.server = .reply whom value perm page)
      (hbusy : whom = s.clientId → s.clientPost.recving = false) :
      RpcStep s .server { s with server := .yield whom value perm page }
  | replyAgain {whom value perm : Word} {page : Option Nat} (hat : s.server = .yield whom value perm page) :
      RpcStep s .server { s with server := .reply whom value perm page }
  | replied {value perm : Word} {page : Option Nat}
      (hat : s.server = .reply s.clientId value perm page) (hrecving : s.clientPost.recving = true) :
      RpcStep s .server { s with
        server := .unmap, clientPost := s.clientPost.send s.serverId value perm page, tag := none }
  | replyNoMem {value perm : Word} {page : Option Nat}
      (hat : s.server = .reply s.clientId value perm page) (hrecving : s.clientPost.recving = true)
      (hpage : page.isSome = true) (hwants : s.clientPost.wants = true) :
      RpcStep s .replyNoMem { s with
        server := .panicked, clientPost := s.clientPost.sendNoMem s.serverId value, tag := none }
  | repliedOther {whom value perm : Word} {page : Option Nat}
      (hat : s.server = .reply whom value perm page) (hother : whom ≠ s.clientId) :
      RpcStep s .server { s with server := .unmap, tag := none }
  /-- `ipc_send` panics on other errors. -/
  | replyFails {whom value perm : Word} {page : Option Nat}
      (hat : s.server = .reply whom value perm page) :
      RpcStep s .server { s with server := .panicked }
  | unmap (hat : s.server = .unmap) : RpcStep s .server { s with server := .recv }
  | request {whom : Word} (value perm : Word) (page : Option Nat) (hother : whom ≠ s.clientId)
      (hrecving : s.serverPost.recving = true) :
      RpcStep s .request { s with
        serverPost := s.serverPost.send whom value perm page, tag := none }
  | requestNoMem {whom : Word} (value : Word) (hother : whom ≠ s.clientId)
      (hrecving : s.serverPost.recving = true) :
      RpcStep s .request { s with serverPost := s.serverPost.sendNoMem whom value, tag := none }
  | message {whom : Word} (value perm : Word) (page : Option Nat) (hother : whom ≠ s.serverId)
      (hrecving : s.clientPost.recving = true) :
      RpcStep s .message { s with clientPost := s.clientPost.send whom value perm page }
  | messageNoMem {whom : Word} (value : Word) (hother : whom ≠ s.serverId)
      (hrecving : s.clientPost.recving = true) :
      RpcStep s .message { s with clientPost := s.clientPost.sendNoMem whom value }

/-- The client is about to call `fsipc` for the first time, and the server is about to receive. -/
def rpcStart (clientId serverId : Word) : RpcSystem where
  clientId := clientId
  serverId := serverId
  client := .idle
  server := .recv
  clientPost := {}
  serverPost := {}
  sent := 0
  tag := none
  replies := []
  results := []

/-- The states reached through steps that meet `ok`. -/
inductive RpcRun (ok : RpcOp → Prop) (s₀ : RpcSystem) : RpcSystem → Prop where
  | start : RpcRun ok s₀ s₀
  | step {s s' : RpcSystem} {op : RpcOp} (hrun : RpcRun ok s₀ s) (hok : ok op)
      (hstep : RpcStep s op s') : RpcRun ok s₀ s'

/-- Each result of `fsipc` is the reply of the server to the request of that call, and there is one
reply to a request. -/
structure RpcSystem.Matched (s : RpcSystem) : Prop where
  result : ∀ n value wants page, (n, value, wants, page) ∈ s.results →
    ∃ sent, (n, value, sent) ∈ s.replies ∧ page = if wants then sent else none
  once : ∀ n value page value' page', (n, value, page) ∈ s.replies →
    (n, value', page') ∈ s.replies → value' = value ∧ page' = page

/-! ## The kernel's messages -/

/-- The message fields of slot `e`; which page is mapped is left open. -/
def Kernel.post (s : Kernel) (e : EnvIx) (page : Option Nat) : Post where
  recving := (s.envs e).envIpcRecving
  wants := decide ((s.envs e).envIpcDstva < utop)
  sender := (s.envs e).envIpcFrom
  value := (s.envs e).envIpcValue
  perm := (s.envs e).envIpcPerm
  page := page

/-- A send of the kernel that returns 0 is a `send` to a waiting environment, and one that fails
leaves every post alone or wakes its receiver. -/
theorem sys_ipc_try_send_post {s s' : Kernel} {k : CpuId} {c : EnvIx} {r : Int}
    {envid value srcva perm : Word}
    (hcall : sysIpcTrySend k c envid value srcva perm s = .ret r s') (page : Option Nat)
    (hpage : page.isSome = true ↔ srcva < utop) :
    (r ≠ 0 ∧ s' = s) ∨ ∃ e, (s.post e none).recving = true ∧ (s'.post e none).recving = false ∧
      (∀ e', e' ≠ e → s'.post e' none = s.post e' none) ∧
      (r = 0 → let sent := (s.post e none).send (s.envs c).envId value perm page
        (s'.post e none).sender = sent.sender ∧ (s'.post e none).value = sent.value ∧
          (s'.post e none).perm = sent.perm) := by
  rcases (wp_of_ret hcall).1 sys_ipc_try_send_spec with hsame | ⟨e, -, hrecv, hd⟩
  · exact .inl hsame
  · refine .inr ⟨e, hrecv, hd.lowered, fun e' he' => ?_, fun hr => ?_⟩
    · simp only [Kernel.post, hd.others e' he']
    · obtain ⟨hsender, hvalue, hperm⟩ := hd.success hr
      refine ⟨hsender, hvalue, hperm.trans ?_⟩
      simp only [delivery, Post.send, Kernel.post, hpage, decide_eq_true_eq]

/-! ## The invariant -/

/-- No reply to request `n` has been made. -/
def Unanswered (n : Nat) (replies : List (Nat × Word × Option Nat)) : Prop :=
  ∀ value page, (n, value, page) ∉ replies

/-- The server deals with one request of the client at a time. -/
def ServerPoint.Ok (s : RpcSystem) : ServerPoint → Prop
  | .recv => s.tag = none
  | .blocked => ∀ n, s.tag = some n → s.serverPost.sender = s.clientId ∧
      hasFlag s.serverPost.perm pteP = true ∧ Unanswered n s.replies
  | .handle whom => ∀ n, s.tag = some n → whom = s.clientId ∧ Unanswered n s.replies
  | .reply whom value _ page => ∀ n, s.tag = some n → whom = s.clientId ∧
      (n, value, page) ∈ s.replies
  | .yield whom value _ page => ∀ n, s.tag = some n → whom = s.clientId ∧
      (n, value, page) ∈ s.replies
  | .unmap => s.tag = none
  | .panicked => True

/-- The client waits while the server holds its request, and is woken by the reply. -/
def ClientPoint.Ok (s : RpcSystem) : ClientPoint → Prop
  | .idle => s.tag = none ∧ s.clientPost.recving = false
  | .send _ => s.tag = none ∧ s.clientPost.recving = false
  | .yield _ => s.tag = none ∧ s.clientPost.recving = false
  | .recv _ => s.tag = some s.sent ∧ s.clientPost.recving = false
  | .blocked wants =>
      (s.clientPost.recving = true ∧ s.clientPost.wants = wants ∧ s.tag = some s.sent) ∨
        (s.clientPost.recving = false ∧ s.tag = none ∧
          ∃ sent, (s.sent, s.clientPost.value, sent) ∈ s.replies ∧
            s.clientPost.page = if wants then sent else none)
  | .panicked => s.tag = none ∧ s.clientPost.recving = false

/-- The client, the server and the requests between them agree. -/
structure RpcSystem.Ok (s : RpcSystem) : Prop where
  client : s.client.Ok s
  server : s.server.Ok s
  waiting : s.serverPost.recving = true →
    s.server = .blocked ∧ s.tag = none ∧ s.serverPost.wants = true
  latest : ∀ n, s.tag = some n → n = s.sent
  numbered : ∀ n value page, (n, value, page) ∈ s.replies → n ≤ s.sent
  matched : s.Matched

namespace RpcSystem.Ok

variable {s s' : RpcSystem}

/-- The client waits only for the reply to its latest request. -/
theorem waits (h : s.Ok) (hrecving : s.clientPost.recving = true) :
    s.client = .blocked s.clientPost.wants ∧ s.tag = some s.sent := by
  have hclient := h.client
  cases hat : s.client with
  | blocked wants =>
      rw [hat] at hclient
      rcases hclient with ⟨-, hwants, htag⟩ | ⟨hwoken, -⟩
      · exact ⟨by rw [hwants], htag⟩
      · rw [hwoken] at hrecving
        cases hrecving
  | _ =>
      rw [hat] at hclient
      have hidle := hclient.2
      rw [hidle] at hrecving
      cases hrecving

/-- The client's steps between two messages. -/
theorem set_client (h : s.Ok) {client : ClientPoint}
    (hclient : client.Ok s) : ({ s with client := client } : RpcSystem).Ok where
  client := by cases client <;> exact hclient
  server := h.server
  waiting := h.waiting
  latest := h.latest
  numbered := h.numbered
  matched := ⟨h.matched.result, h.matched.once⟩

/-- The server's steps between two messages. -/
theorem set_server (h : s.Ok) {server : ServerPoint} (hserver : server.Ok s)
    (hwaiting : s.serverPost.recving = true → server = .blocked) :
    ({ s with server := server } : RpcSystem).Ok where
  client := h.client
  server := by cases server <;> exact hserver
  waiting := fun hrecving => ⟨hwaiting hrecving, (h.waiting hrecving).2⟩
  latest := h.latest
  numbered := h.numbered
  matched := ⟨h.matched.result, h.matched.once⟩

/-- A message to the server that is not a request of the client. -/
theorem set_server_post (h : s.Ok) (hrecving : s.serverPost.recving = true) {post : Post}
    (hpost : post.recving = false) :
    ({ s with serverPost := post, tag := none } : RpcSystem).Ok := by
  obtain ⟨hblocked, htag, -⟩ := h.waiting hrecving
  have hclient := h.client
  refine ⟨?_, ?_, fun hrecv => ?_, fun n hn => (by cases hn), h.numbered,
    ⟨h.matched.result, h.matched.once⟩⟩
  · show s.client.Ok { s with serverPost := post, tag := none }
    rw [← htag]
    exact hclient
  · show s.server.Ok _
    rw [hblocked]
    exact fun n hn => (by cases hn)
  · rw [show post.recving = true from hrecv] at hpost
    cases hpost

/-- The server is not in `sys_ipc_recv` unless it is blocked. -/
theorem not_waiting (h : s.Ok) (hat : s.server ≠ .blocked) : s.serverPost.recving = false := by
  cases hrecving : s.serverPost.recving with
  | false => rfl
  | true => exact absurd (h.waiting hrecving).1 hat

/-- `fsipc` returns. -/
theorem result (h : s.Ok) {wants : Bool} (hat : s.client = .blocked wants)
    (hwoken : s.clientPost.recving = false) :
    ({ s with
      client := .idle
      results := s.results ++ [(s.sent, s.clientPost.value, wants, s.clientPost.page)] } :
        RpcSystem).Ok := by
  have hclient := h.client
  rw [hat] at hclient
  rcases hclient with ⟨hrecving, -⟩ | ⟨-, htag, sent, hsent, hpage⟩
  · rw [hwoken] at hrecving
    cases hrecving
  · refine ⟨⟨htag, hwoken⟩, h.server, h.waiting, h.latest, h.numbered, ⟨?_, h.matched.once⟩⟩
    intro n value wants' page hresult
    rcases List.mem_append.1 hresult with hold | hnew
    · exact h.matched.result n value wants' page hold
    · cases List.mem_singleton.1 hnew
      exact ⟨sent, hsent, hpage⟩

/-- The client's request reaches the server. -/
theorem sent (h : s.Ok) {wants : Bool} (type : Word) (page : Nat)
    (hrecving : s.serverPost.recving = true) (hclient : s.clientPost.recving = false) :
    ({ s with
      client := .recv wants
      serverPost := s.serverPost.send s.clientId type (pteP ||| pteW ||| pteU) (some page)
      sent := s.sent + 1
      tag := some (s.sent + 1) } : RpcSystem).Ok := by
  obtain ⟨hblocked, -, hwants⟩ := h.waiting hrecving
  refine ⟨⟨rfl, hclient⟩, ?_, fun hrecv => (by cases hrecv),
    fun n hn => (Option.some.inj hn).symm, fun n value page hreply => ?_, ⟨h.matched.result, h.matched.once⟩⟩
  · show s.server.Ok _
    rw [hblocked]
    intro n hn
    obtain rfl := Option.some.inj hn
    refine ⟨rfl, ?_, fun value page' hreply => ?_⟩
    · show hasFlag (if (some page).isSome ∧ s.serverPost.wants then _ else 0) pteP = true
      rw [if_pos ⟨rfl, hwants⟩]
      decide
    · have hle : s.sent + 1 ≤ s.sent := h.numbered _ value page' hreply
      omega
  · have hle := h.numbered n value page hreply
    show n ≤ s.sent + 1
    omega

/-- The handler has a reply. -/
theorem handled (h : s.Ok) {whom : Word} (value perm : Word) (page : Option Nat)
    (hat : s.server = .handle whom) :
    ({ s with
      server := .reply whom value perm page
      replies := s.replies ++ (s.tag.map fun n => (n, value, page)).toList } : RpcSystem).Ok := by
  have hserver := h.server
  have hbusy := h.not_waiting (by rw [hat]; exact fun heq => (by cases heq))
  rw [hat] at hserver
  rcases Option.eq_none_or_eq_some s.tag with htag | ⟨n, htag⟩
  · have hlist : s.replies ++ (s.tag.map fun n => (n, value, page)).toList = s.replies := by
      rw [htag]
      exact List.append_nil _
    rw [hlist]
    refine @set_server s h (.reply whom value perm page) (fun n hn => ?_) fun hrecving => ?_
    · rw [htag] at hn
      cases hn
    · rw [hbusy] at hrecving
      cases hrecving
  · have hlist : s.replies ++ (s.tag.map fun n => (n, value, page)).toList =
        s.replies ++ [(n, value, page)] := by
      rw [htag]
      rfl
    rw [hlist]
    obtain ⟨hwhom, hfresh⟩ := hserver n htag
    have hlatest := h.latest n htag
    have hmono : ∀ x ∈ s.replies, x ∈ s.replies ++ [(n, value, page)] :=
      fun x hx => List.mem_append_left _ hx
    have hcases : ∀ m value' page', (m, value', page') ∈ s.replies ++ [(n, value, page)] →
        (m, value', page') ∈ s.replies ∨ (m = n ∧ value' = value ∧ page' = page) := by
      intro m value' page' hreply
      rcases List.mem_append.1 hreply with hold | hnew
      · exact .inl hold
      · cases List.mem_singleton.1 hnew
        exact .inr ⟨rfl, rfl, rfl⟩
    refine ⟨?_, ?_, fun hrecv => ?_, h.latest, fun m value' page' hreply => ?_,
      ⟨fun m value' wants page' hresult => ?_, fun m value₁ page₁ value₂ page₂ h₁ h₂ => ?_⟩⟩
    · have hclient := h.client
      show s.client.Ok _
      cases hc : s.client with
      | blocked wants =>
          rw [hc] at hclient
          rcases hclient with hwait | ⟨-, hnone, -⟩
          · exact .inl hwait
          · rw [htag] at hnone
            cases hnone
      | _ =>
          rw [hc] at hclient
          exact hclient
    · intro m hm
      obtain rfl : n = m := Option.some.inj (htag.symm.trans hm)
      exact ⟨hwhom, List.mem_append_right _ (List.mem_singleton_self _)⟩
    · rw [show s.serverPost.recving = true from hrecv] at hbusy
      cases hbusy
    · rcases hcases m value' page' hreply with hold | ⟨rfl, -⟩
      · exact h.numbered m value' page' hold
      · exact hlatest.le
    · obtain ⟨sent, hsent, hpage⟩ := h.matched.result m value' wants page' hresult
      exact ⟨sent, hmono _ hsent, hpage⟩
    · rcases hcases m value₁ page₁ h₁ with hold₁ | ⟨rfl, rfl, rfl⟩
      · rcases hcases m value₂ page₂ h₂ with hold₂ | ⟨rfl, rfl, rfl⟩
        · exact h.matched.once m value₁ page₁ value₂ page₂ hold₁ hold₂
        · exact absurd hold₁ (hfresh value₁ page₁)
      · rcases hcases m value₂ page₂ h₂ with hold₂ | ⟨-, rfl, rfl⟩
        · exact absurd hold₂ (hfresh value₂ page₂)
        · exact ⟨rfl, rfl⟩

/-- The reply reaches the client. -/
theorem replied (h : s.Ok) {value perm : Word} {page : Option Nat}
    (hat : s.server = .reply s.clientId value perm page)
    (hrecving : s.clientPost.recving = true) :
    ({ s with
      server := .unmap
      clientPost := s.clientPost.send s.serverId value perm page
      tag := none } : RpcSystem).Ok := by
  obtain ⟨hblocked, htag⟩ := h.waits hrecving
  have hserver := h.server
  have hbusy := h.not_waiting (by rw [hat]; exact fun heq => (by cases heq))
  rw [hat] at hserver
  obtain ⟨-, hreply⟩ := hserver s.sent htag
  refine ⟨?_, rfl, fun hrecv => ?_, fun n hn => (by cases hn), h.numbered,
    ⟨h.matched.result, h.matched.once⟩⟩
  · show s.client.Ok _
    rw [hblocked]
    exact .inr ⟨rfl, rfl, page, hreply, rfl⟩
  · rw [show s.serverPost.recving = true from hrecv] at hbusy
    cases hbusy

/-- The server drops a message that is not a request of the client. -/
theorem drop (h : s.Ok) {server : ServerPoint} (htag : s.tag = none)
    (hserver : server = .recv ∨ server = .unmap) (hbusy : s.serverPost.recving = false) :
    ({ s with server := server, tag := none } : RpcSystem).Ok := by
  have hnext : ({ s with server := server } : RpcSystem).Ok := by
    refine h.set_server ?_ fun hrecving => ?_
    · rcases hserver with rfl | rfl
      · exact htag
      · exact htag
    · rw [hbusy] at hrecving
      cases hrecving
  rw [← htag]
  exact hnext

end RpcSystem.Ok

/-- Every step without a foreign message and with memory for the reply keeps the invariant. -/
theorem RpcStep.ok {s s' : RpcSystem} {op : RpcOp} (hstep : RpcStep s op s') (h : s.Ok)
    (hop : op ≠ .message ∧ op ≠ .replyNoMem) : s'.Ok := by
  have hclient := h.client
  have hserver := h.server
  cases hstep with
  | call wants hat =>
      rw [hat] at hclient
      exact h.set_client hclient
  | sendBusy hat =>
      rw [hat] at hclient
      exact h.set_client hclient
  | sendAgain hat =>
      rw [hat] at hclient
      exact h.set_client hclient
  | sent type page hat hrecving =>
      rw [hat] at hclient
      exact h.sent type page hrecving hclient.2
  | sendFails hat =>
      rw [hat] at hclient
      exact h.set_client hclient
  | sendNoMem type hat hrecving =>
      rw [hat] at hclient
      have hpanicked : ({ s with client := .panicked } : RpcSystem).Ok := h.set_client hclient
      exact hpanicked.set_server_post hrecving rfl
  | recv hat =>
      rw [hat] at hclient
      refine ⟨.inl ⟨rfl, rfl, hclient.1⟩, hserver, h.waiting, h.latest, h.numbered,
        ⟨h.matched.result, h.matched.once⟩⟩
  | result hat hwoken => exact h.result hat hwoken
  | serverRecv hat =>
      rw [hat] at hserver
      refine ⟨hclient, fun n hn => ?_, fun _ => ⟨rfl, hserver, rfl⟩, h.latest, h.numbered,
        ⟨h.matched.result, h.matched.once⟩⟩
      rw [show s.tag = none from hserver] at hn
      cases hn
  | hang hat hwoken hperm =>
      rw [hat] at hserver
      refine h.drop ?_ (.inl rfl) hwoken
      cases htag : s.tag with
      | none => rfl
      | some n =>
          obtain ⟨-, hpresent, -⟩ := hserver n htag
          rw [hperm] at hpresent
          cases hpresent
  | take hat hwoken hperm =>
      rw [hat] at hserver
      refine h.set_server (fun n hn => ?_) fun hrecving => ?_
      · obtain ⟨hsender, -, hfresh⟩ := hserver n hn
        exact ⟨hsender, hfresh⟩
      · rw [hwoken] at hrecving
        cases hrecving
  | handled value perm page hat => exact h.handled value perm page hat
  | replyBusy hat =>
      rw [hat] at hserver
      refine h.set_server hserver fun hrecving => ?_
      rw [h.not_waiting (by rw [hat]; exact fun heq => (by cases heq))] at hrecving
      cases hrecving
  | replyAgain hat =>
      rw [hat] at hserver
      refine h.set_server hserver fun hrecving => ?_
      rw [h.not_waiting (by rw [hat]; exact fun heq => (by cases heq))] at hrecving
      cases hrecving
  | replied hat hrecving => exact h.replied hat hrecving
  | replyNoMem => exact absurd rfl hop.2
  | repliedOther hat hother =>
      rw [hat] at hserver
      refine h.drop ?_ (.inr rfl) (h.not_waiting (by rw [hat]; exact fun heq => (by cases heq)))
      cases htag : s.tag with
      | none => rfl
      | some n => exact absurd (hserver n htag).1 hother
  | replyFails hat =>
      refine h.set_server trivial fun hrecving => ?_
      rw [h.not_waiting (by rw [hat]; exact fun heq => (by cases heq))] at hrecving
      cases hrecving
  | unmap hat =>
      rw [hat] at hserver
      refine h.set_server hserver fun hrecving => ?_
      rw [h.not_waiting (by rw [hat]; exact fun heq => (by cases heq))] at hrecving
      cases hrecving
  | request value perm page hother hrecving => exact h.set_server_post hrecving rfl
  | requestNoMem value hother hrecving => exact h.set_server_post hrecving rfl
  | message => exact absurd rfl hop.1
  | messageNoMem => exact absurd rfl hop.1

theorem rpc_start_ok (clientId serverId : Word) : (rpcStart clientId serverId).Ok where
  client := ⟨rfl, rfl⟩
  server := rfl
  waiting := fun hrecving => (by cases hrecving)
  latest := fun n hn => (by cases hn)
  numbered := fun n value page hreply => (by cases hreply)
  matched := ⟨fun _ _ _ _ hresult => (by cases hresult), fun _ _ _ _ _ hreply => (by cases hreply)⟩

/-- Where no other environment's message reaches the client in `fsipc` and the reply finds memory,
`fsipc` returns the reply of the server to its own request. -/
theorem fsipc_matched {clientId serverId : Word} {s : RpcSystem}
    (hrun : RpcRun (fun op => op ≠ .message ∧ op ≠ .replyNoMem) (rpcStart clientId serverId) s) :
    s.Matched := by
  have hok : s.Ok := by
    induction hrun with
    | start => exact rpc_start_ok clientId serverId
    | step hrun hop hstep ih => exact hstep.ok ih hop
  exact hok.matched

/-- One call of `fsipc` whose request the server answers with 5. -/
theorem fsipc_matched_one_call : ∃ s, RpcRun (fun op => op ≠ .message ∧ op ≠ .replyNoMem)
    (rpcStart 1 2) s ∧ s.results = [(1, 5, false, none)] ∧ s.Matched := by
  have hwait := (@RpcRun.start (fun op => op ≠ .message ∧ op ≠ .replyNoMem) (rpcStart 1 2)).step
    (by decide) (RpcStep.serverRecv rfl)
  have hcall := hwait.step (by decide) (.call false rfl)
  have hsent := hcall.step (by decide) (.sent 4 3 rfl rfl)
  have hrecv := hsent.step (by decide) (.recv rfl)
  have htake := hrecv.step (by decide) (.take rfl rfl (by decide))
  have hhandled := htake.step (by decide) (.handled 5 0 none rfl)
  have hreplied := hhandled.step (by decide) (.replied rfl rfl)
  have hresult := hreplied.step (by decide) (.result rfl rfl)
  exact ⟨_, hresult, rfl, fsipc_matched hresult⟩

/-- A message of another environment is taken for the reply. -/
theorem fsipc_takes_message : ∃ s, RpcRun (fun op => op ≠ .replyNoMem) (rpcStart 1 2) s ∧
    s.results = [(1, 99, false, none)] ∧ s.replies = [] ∧ ¬ s.Matched := by
  have hwait := (@RpcRun.start (fun op => op ≠ .replyNoMem) (rpcStart 1 2)).step
    (by decide) (RpcStep.serverRecv rfl)
  have hcall := hwait.step (by decide) (.call false rfl)
  have hsent := hcall.step (by decide) (.sent 4 3 rfl rfl)
  have hrecv := hsent.step (by decide) (.recv rfl)
  have hmessage := hrecv.step (by decide) (@RpcStep.message _ 3 99 0 none (by decide) rfl)
  have hresult := hmessage.step (by decide) (.result rfl rfl)
  refine ⟨_, hresult, rfl, rfl, fun hmatched => ?_⟩
  obtain ⟨sent, hsent, -⟩ := hmatched.result 1 99 false none (List.mem_singleton_self _)
  cases hsent

end Labs.Jos
