import Labs.Base.Bytes
import Labs.Base.Prog
import Labs.Jos.Ns

/-!
# What a request thread of the network server touches

`serve_thread` of `net/serv.c` on the page of its request, with `low_level_input` of `jif/jif.c` and
the functions of lwIP that follow a pointer into the page. The log of a run holds the ranges of
addresses at which request or reply data is read or written. The lengths in the page are chosen by
the client, and the pages of other requests lie beside it.
-/

namespace Labs.Jos.Ns

open Prog

def nsreqAccept : Word := 1
def nsreqBind : Word := 2
def nsreqShutdown : Word := 3
def nsreqClose : Word := 4
def nsreqConnect : Word := 5
def nsreqListen : Word := 6
def nsreqRecv : Word := 7
def nsreqSend : Word := 8
def nsreqSocket : Word := 9

def eInval : Int := 3

/-- `sizeof(struct sockaddr_in)`. -/
def sizeofSockaddrIn : Nat := 16

/-- `AF_INET`. -/
def afInet : Byte := 2

/-- `PBUF_POOL_BUFSIZE`. -/
def pbufPoolBufsize : Nat := 2000

/-- `len` bytes from an address on. -/
structure Range where
  start : Word
  len : Nat

/-- The address is one of the range. -/
def Range.Has (x : Range) (a : Word) : Prop := (a - x.start).toNat < x.len

/-- All addresses of a range are among the `len` bytes from `buf` on. -/
def Within (buf : Word) (len : Nat) (x : Range) : Prop := ∀ a, x.Has a → (a - buf).toNat < len

/-- `lwip_recv` and `lwip_send` with what they touch through the pointer that they get: at most the
bytes of the buffer. `result` is what a function of lwIP returns for a request code and its
arguments, and `socket` tells whether there is a socket. -/
structure Lwip where
  result : Word → List Word → Int
  socket : Word → Bool
  recv : Word → Word → Word → Word → List Range
  send : Word → Word → Word → Word → List Range
  recv_within : ∀ s mem len flags, ∀ x ∈ recv s mem len flags, Within mem len.toNat x
  send_within : ∀ s data size flags, ∀ x ∈ send s data size flags, Within data size.toNat x

/-- Why a request thread takes the server down. -/
inductive Fatal where
  /-- The panic of `LWIP_ERROR`. -/
  | lwipError

/-- The page of the request as the client filled it, the log, and what `ipc_send` sent. -/
structure Work where
  page : Bytes
  log : List Range
  sent : Option (Word × Int)

/-- Touch `len` bytes at an offset of the page. -/
def touch (x : Range) : Prog Work Fatal Unit := modify fun w => { w with log := w.log ++ [x] }

/-- Load a field of the page. -/
def field (req : Word) (offset : Nat) : Prog Work Fatal Word := do
  touch ⟨req + BitVec.ofNat 32 offset, 4⟩
  gets fun w => w.page.load32 offset

/-- What `lwip_bind` and `lwip_connect` read of the name at an offset of the page: with the right
length they look at the family, and with the right family at the address and the port. `LWIP_ERROR`
is a panic. -/
def sockName (lwip : Lwip) (req s : Word) (offset : Nat) (namelen : Word) :
    Prog Work Fatal Unit := do
  if lwip.socket s then
    if namelen.toNat = sizeofSockaddrIn then
      touch ⟨req + BitVec.ofNat 32 (offset + 1), 1⟩
      let w ← get
      if w.page (offset + 1) = afInet then
        touch ⟨req + BitVec.ofNat 32 (offset + 4), 4⟩
        touch ⟨req + BitVec.ofNat 32 (offset + 2), 2⟩
      else exit .lwipError
    else exit .lwipError

/-- The tail of a chain of buffers for the bytes that remain, when the pool has `avail` buffers. -/
def pbufTail : Nat → Nat → Option (List Nat)
  | _, 0 => some []
  | 0, _ + 1 => none
  | avail + 1, rem + 1 =>
      (pbufTail avail (rem + 1 - min (rem + 1) pbufPoolBufsize)).map
        (min (rem + 1) pbufPoolBufsize :: ·)

/-- The lengths of the buffers of `pbuf_alloc(PBUF_RAW, length, PBUF_POOL)`. -/
def pbufAlloc : Nat → BitVec 16 → Option (List Nat)
  | 0, _ => none
  | avail + 1, length =>
      (pbufTail avail (length.toNat - min length.toNat pbufPoolBufsize)).map
        (min length.toNat pbufPoolBufsize :: ·)

/-- The loop of `low_level_input` over the chain. `memcpy` takes the number as unsigned. -/
def copyPbufs (rxbuf : Word) (len : Int) : Int → List Nat → Prog Work Fatal Unit
  | _, [] => pure ()
  | copied, q :: chain => do
      let bytes := if (q : Int) > len - copied then len - copied else q
      touch ⟨rxbuf + BitVec.ofInt 32 copied, (BitVec.ofInt 32 bytes).toNat⟩
      copyPbufs rxbuf len (copied + bytes) chain

/-- `low_level_input`. The length is cut to a signed 16-bit number. -/
def lowLevelInput (avail : Nat) (va : Word) : Prog Work Fatal Unit := do
  let jpLen ← field va 0
  let len := jpLen.setWidth 16
  match pbufAlloc avail len with
  | none => pure ()
  | some chain => copyPbufs (va + 4) len.toInt 0 chain

/-- A call of lwIP whose arguments are fields of the page, one word after the other. -/
def serveFields (lwip : Lwip) (args : StArgs) : List Nat → List Word → Prog Work Fatal Int
  | [], values => pure (lwip.result args.reqno values)
  | offset :: offsets, values => do
      let value ← field args.req offset
      serveFields lwip args offsets (values ++ [value])

/-- `NSREQ_ACCEPT`: `memmove(req, &ret, sizeof ret)` puts the answer into the page. -/
def serveAccept (lwip : Lwip) (args : StArgs) : Prog Work Fatal Int := do
  let r ← serveFields lwip args [0] []
  touch ⟨args.req, 20⟩
  pure r

/-- `NSREQ_BIND` and `NSREQ_CONNECT`. -/
def serveName (lwip : Lwip) (args : StArgs) : Prog Work Fatal Int := do
  let s ← field args.req 0
  let namelen ← field args.req 20
  sockName lwip args.req s 4 namelen
  pure (lwip.result args.reqno [s, namelen])

/-- `NSREQ_RECV`: the data overwrites the request, whose fields have been read by then. -/
def serveRecv (lwip : Lwip) (args : StArgs) : Prog Work Fatal Int := do
  let s ← field args.req 0
  let len ← field args.req 4
  let flags ← field args.req 8
  modify fun w => { w with log := w.log ++ lwip.recv s args.req len flags }
  pure (lwip.result args.reqno [s, len, flags])

/-- `NSREQ_SEND`: the data lies behind the fields of the request. -/
def serveSend (lwip : Lwip) (args : StArgs) : Prog Work Fatal Int := do
  let s ← field args.req 0
  let size ← field args.req 4
  let flags ← field args.req 8
  modify fun w => { w with log := w.log ++ lwip.send s (args.req + 12) size flags }
  pure (lwip.result args.reqno [s, size, flags])

/-- `NSREQ_INPUT`. -/
def serveInput (avail : Nat) (args : StArgs) : Prog Work Fatal Int := do
  lowLevelInput avail args.req
  pure 0

/-- The switch of `serve_thread`. -/
def serveRequest (lwip : Lwip) (avail : Nat) (args : StArgs) : Prog Work Fatal Int :=
  if args.reqno = nsreqAccept then serveAccept lwip args
  else if args.reqno = nsreqBind then serveName lwip args
  else if args.reqno = nsreqShutdown then serveFields lwip args [0, 4] []
  else if args.reqno = nsreqClose then serveFields lwip args [0] []
  else if args.reqno = nsreqConnect then serveName lwip args
  else if args.reqno = nsreqListen then serveFields lwip args [0, 4] []
  else if args.reqno = nsreqRecv then serveRecv lwip args
  else if args.reqno = nsreqSend then serveSend lwip args
  else if args.reqno = nsreqSocket then serveFields lwip args [0, 4, 8] []
  else if args.reqno = nsreqInput then serveInput avail args
  else pure (-eInval)

/-- `serve_thread` up to `ipc_send`. -/
def serveThread (lwip : Lwip) (avail : Nat) (args : StArgs) : Prog Work Fatal Unit := do
  let r ← serveRequest lwip avail args
  if args.reqno ≠ nsreqInput then
    modify fun w => { w with sent := some (args.whom, r) }

/-- Every address of the log is in the page of the request. -/
def InPage (req : Word) (w : Work) : Prop := ∀ x ∈ w.log, Within req 4096 x

/-- The thread touches no request or reply data outside the page of its request, whatever lwIP does
within the buffers that it gets. -/
def Confined (avail : Nat) (page : Bytes) (args : StArgs) : Prop :=
  ∀ lwip : Lwip, wp (serveThread lwip avail args) (fun _ w => InPage args.req w)
    (fun _ w => InPage args.req w) ⟨page, [], none⟩

/-! ## Ranges of a page -/

/-- A range that starts in a page lies within it exactly when it ends there. -/
theorem within_page_iff (req : Word) {offset len : Nat} (hoffset : offset ≤ 4096)
    (hlen : len < 2 ^ 32) :
    Within req 4096 ⟨req + BitVec.ofNat 32 offset, len⟩ ↔ len = 0 ∨ offset + len ≤ 4096 := by
  have hstart : ∀ d : Nat, offset + d < 2 ^ 32 →
      (req + BitVec.ofNat 32 (offset + d) - (req + BitVec.ofNat 32 offset)).toNat = d ∧
        (req + BitVec.ofNat 32 (offset + d) - req).toNat = offset + d := by
    intro d hd
    constructor <;> bv_omega
  constructor
  · intro h
    by_contra hnot
    obtain ⟨hne, hlong⟩ := not_or.mp hnot
    -- the first byte behind the page
    have hfirst := hstart (4096 - offset) (by omega)
    have hin := h (req + BitVec.ofNat 32 (offset + (4096 - offset))) (by
      show (_ - _ : Word).toNat < len
      rw [hfirst.1]
      omega)
    rw [hfirst.2] at hin
    omega
  · intro h a ha
    have ha : (a - (req + BitVec.ofNat 32 offset)).toNat < len := ha
    bv_omega

/-- What is within a buffer is within the page that the buffer is in. -/
theorem Within.trans {req buf : Word} {len : Nat} {x : Range} (h : Within buf len x)
    (hbuf : Within req 4096 ⟨buf, len⟩) : Within req 4096 x :=
  fun a ha => hbuf a (h a ha)

variable {req : Word} {lwip : Lwip} {avail : Nat} {page : Bytes} {args : StArgs}

theorem within_field (req : Word) (offset len : Nat) (h : offset + len ≤ 4096) (hlen : 0 < len) :
    Within req 4096 ⟨req + BitVec.ofNat 32 offset, len⟩ :=
  (within_page_iff req (by omega) (by omega)).mpr (.inr h)

/-- The range at the start of the page. -/
theorem within_start {len : Nat} (hlen : len < 2 ^ 32) :
    Within req 4096 ⟨req, len⟩ ↔ len = 0 ∨ len ≤ 4096 := by
  have h := within_page_iff req (show 0 ≤ 4096 by decide) hlen
  rw [BitVec.add_zero, Nat.zero_add] at h
  exact h

/-! ## The requests -/

/-- A program that touches nothing outside the page. -/
abbrev Inside {α : Type} (req : Word) (x : Prog Work Fatal α) (w : Work) : Prop :=
  wp x (fun _ w => InPage req w) (fun _ w => InPage req w) w

theorem in_page_start (req : Word) (page : Bytes) : InPage req ⟨page, [], none⟩ :=
  fun _ h => (by cases h)

variable {w : Work}

theorem in_page_append {xs : List Range} :
    InPage req { w with log := w.log ++ xs } ↔ InPage req w ∧ ∀ x ∈ xs, Within req 4096 x :=
  List.forall_mem_append

theorem inside_touch (h : InPage req w) (x : Range) :
    Inside req (touch x) w ↔ Within req 4096 x := by
  refine in_page_append.trans ⟨fun hx => hx.2 x List.mem_cons_self, fun hx => ⟨h, ?_⟩⟩
  simpa using hx

/-- The state after a field has been loaded. -/
def Work.read (w : Work) (req : Word) (offset : Nat) : Work :=
  { w with log := w.log ++ [⟨req + BitVec.ofNat 32 offset, 4⟩] }

theorem field_eq (req : Word) (offset : Nat) (w : Work) :
    field req offset w = .ret (w.page.load32 offset) (w.read req offset) :=
  rfl

theorem InPage.read (h : InPage req w) (offset : Nat) (hoffset : offset + 4 ≤ 4096) :
    InPage req (w.read req offset) :=
  (inside_touch h _).mpr (within_field req offset 4 hoffset (by decide))

theorem inside_fields (h : InPage args.req w) {offsets : List Nat} (hoffsets : ∀ o ∈ offsets, o ≤ 8)
    (values : List Word) : Inside args.req (serveFields lwip args offsets values) w := by
  induction offsets generalizing w values with
  | nil => exact h
  | cons offset offsets ih =>
      have hoffset := hoffsets offset List.mem_cons_self
      rw [Inside, serveFields, wp_bind, wp_of_ret (field_eq ..)]
      exact ih (h.read _ (by omega)) (fun o ho => hoffsets o (List.mem_cons_of_mem _ ho)) _

theorem inside_accept (h : InPage args.req w) : Inside args.req (serveAccept lwip args) w := by
  unfold serveAccept
  rw [Inside, wp_bind]
  refine wp_mono_ret (inside_fields h (by simp) []) fun r w' h' => ?_
  rw [wp_bind]
  exact (inside_touch h' _).mpr ((within_start (by decide)).mpr (by decide))

theorem inside_name (h : InPage args.req w) : Inside args.req (serveName lwip args) w := by
  unfold serveName
  rw [Inside, wp_bind, wp_of_ret (field_eq ..), wp_bind, wp_of_ret (field_eq ..), wp_bind]
  have h₀ := (h.read 0 (by decide)).read 20 (by decide)
  generalize (w.read args.req 0).read args.req 20 = w₀ at h₀
  unfold sockName
  rw [wp_ite]
  refine ⟨fun _ => ?_, fun _ => h₀⟩
  rw [wp_ite]
  refine ⟨fun _ => ?_, fun _ => h₀⟩
  have h₁ := (inside_touch h₀ _).mpr (within_field args.req (4 + 1) 1 (by decide) (by decide))
  rw [wp_bind]
  refine wp_mono_ret h₁ fun _ w₁ h₁ => ?_
  rw [wp_bind, wp_get, wp_ite]
  refine ⟨fun _ => ?_, fun _ => h₁⟩
  rw [wp_bind]
  have h₂ := (inside_touch h₁ _).mpr (within_field args.req (4 + 4) 4 (by decide) (by decide))
  refine wp_mono_ret h₂ fun _ w₂ h₂ => ?_
  exact (inside_touch h₂ _).mpr (within_field args.req (4 + 2) 2 (by decide) (by decide))

/-- The data of a request to receive. -/
theorem inside_recv (lwip : Lwip) (h : InPage args.req w) :
    Inside args.req (serveRecv lwip args) w ↔
      ∀ x ∈ lwip.recv (w.page.load32 0) args.req (w.page.load32 4) (w.page.load32 8),
        Within args.req 4096 x := by
  unfold serveRecv
  rw [Inside, wp_bind, wp_of_ret (field_eq ..), wp_bind, wp_of_ret (field_eq ..), wp_bind,
    wp_of_ret (field_eq ..), wp_bind, wp_modify]
  have h₀ := ((h.read 0 (by decide)).read 4 (by decide)).read 8 (by decide)
  exact in_page_append.trans ⟨fun hx => hx.2, fun hx => ⟨h₀, hx⟩⟩

/-- The data of a request to send. -/
theorem inside_send (lwip : Lwip) (h : InPage args.req w) :
    Inside args.req (serveSend lwip args) w ↔
      ∀ x ∈ lwip.send (w.page.load32 0) (args.req + 12) (w.page.load32 4) (w.page.load32 8),
        Within args.req 4096 x := by
  unfold serveSend
  rw [Inside, wp_bind, wp_of_ret (field_eq ..), wp_bind, wp_of_ret (field_eq ..), wp_bind,
    wp_of_ret (field_eq ..), wp_bind, wp_modify]
  have h₀ := ((h.read 0 (by decide)).read 4 (by decide)).read 8 (by decide)
  exact in_page_append.trans ⟨fun hx => hx.2, fun hx => ⟨h₀, hx⟩⟩

/-! ## The packet input path -/

/-- The buffers of a chain hold the bytes that were asked for. -/
theorem sum_pbuf_tail {avail rem : Nat} {chain : List Nat} (h : pbufTail avail rem = some chain) :
    chain.sum = rem := by
  induction avail generalizing rem chain with
  | zero =>
      cases rem with
      | zero =>
          cases h
          rfl
      | succ rem => cases h
  | succ avail ih =>
      cases rem with
      | zero =>
          cases h
          rfl
      | succ rem =>
          rw [pbufTail, Option.map_eq_some_iff] at h
          obtain ⟨tail, htail, rfl⟩ := h
          rw [List.sum_cons, ih htail]
          omega

/-- A chain has a first buffer, and its buffers hold the bytes that were asked for. -/
theorem sum_pbuf_alloc {length : BitVec 16} {chain : List Nat}
    (h : pbufAlloc avail length = some chain) :
    chain.sum = length.toNat ∧ ∃ q rest, chain = q :: rest := by
  cases avail with
  | zero => cases h
  | succ avail =>
      rw [pbufAlloc, Option.map_eq_some_iff] at h
      obtain ⟨tail, htail, rfl⟩ := h
      rw [List.sum_cons, sum_pbuf_tail htail]
      exact ⟨by omega, _, _, rfl⟩

/-- The loop keeps what is in the log. -/
theorem in_page_of_copy {rxbuf : Word} {len copied : Int} {chain : List Nat}
    (h : Inside req (copyPbufs rxbuf len copied chain) w) : InPage req w := by
  induction chain generalizing copied w with
  | nil => exact h
  | cons q chain ih =>
      rw [Inside, copyPbufs, wp_bind] at h
      exact (in_page_append.mp (ih h)).1

theorem data_start (req : Word) {copied : Int} (hcopied : 0 ≤ copied) :
    req + 4 + BitVec.ofInt 32 copied = req + BitVec.ofNat 32 (4 + copied.toNat) := by
  obtain ⟨n, rfl⟩ := Int.eq_ofNat_of_zero_le hcopied
  rw [BitVec.add_assoc]
  congr 1
  show (4 : Word) + BitVec.ofNat 32 n = BitVec.ofNat 32 (4 + n)
  exact (BitVec.ofNat_add 4 n).symm

/-- The loop over a chain that holds the rest of the packet stays in the page when the packet
does. -/
theorem inside_copy (h : InPage req w) {len copied : Int} {chain : List Nat}
    (hcopied : 0 ≤ copied) (hstart : 4 + copied ≤ 4096) (hlen : len < 2 ^ 16)
    (hsum : copied + chain.sum = len) :
    Inside req (copyPbufs (req + 4) len copied chain) w ↔ 4 + len ≤ 4096 := by
  induction chain generalizing copied w with
  | nil =>
      rw [List.sum_nil] at hsum
      exact ⟨fun _ => by omega, fun _ => h⟩
  | cons q chain ih =>
      rw [List.sum_cons] at hsum
      have hbytes : (if (q : Int) > len - copied then len - copied else q) = q :=
        if_neg (by omega)
      have hq : (BitVec.ofInt 32 (q : Int)).toNat = q := by
        show (BitVec.ofNat 32 q).toNat = q
        rw [BitVec.toNat_ofNat]
        omega
      rw [Inside, copyPbufs, wp_bind]
      simp only [hbytes]
      rw [data_start req hcopied, hq]
      have hrange := within_page_iff req (show 4 + copied.toNat ≤ 4096 by omega)
        (show q < 2 ^ 32 by omega)
      by_cases hin : q = 0 ∨ 4 + copied.toNat + q ≤ 4096
      · exact ih ((inside_touch h _).mpr (hrange.mpr hin)) (by omega) (by omega) (by omega)
      · refine ⟨fun hrest => absurd (hrange.mp ?_) hin, fun hle => absurd (by omega) hin⟩
        exact (inside_touch h _).mp (in_page_of_copy hrest)

/-- `low_level_input` stays in the page when it gets no buffer, or when the packet ends in the
page. A negative length makes `memcpy` read almost all of the memory. -/
theorem inside_input (h : InPage args.req w) :
    Inside args.req (serveInput avail args) w ↔
      pbufAlloc avail ((w.page.load32 0).setWidth 16) = none ∨
        (0 ≤ ((w.page.load32 0).setWidth 16).toInt ∧
          ((w.page.load32 0).setWidth 16).toInt ≤ 4092) := by
  have h₀ := h.read 0 (by decide)
  unfold serveInput lowLevelInput
  rw [Inside, wp_bind, wp_bind, wp_of_ret (field_eq ..)]
  generalize (w.page.load32 0).setWidth 16 = len
  generalize w.read args.req 0 = w₀ at h₀
  show wp (match pbufAlloc avail len with
    | none => pure ()
    | some chain => copyPbufs (args.req + 4) len.toInt 0 chain) _ _ w₀ ↔ _
  cases halloc : pbufAlloc avail len with
  | none => exact ⟨fun _ => .inl rfl, fun _ => h₀⟩
  | some chain =>
      obtain ⟨hsum, q, rest, rfl⟩ := sum_pbuf_alloc halloc
      have hlt := len.toInt_lt
      have hge := len.le_toInt
      show Inside args.req (copyPbufs (args.req + 4) len.toInt 0 (q :: rest)) w₀ ↔ _
      by_cases hneg : len.toInt < 0
      · refine ⟨fun hin => ?_, fun hok => ?_⟩
        · rw [Inside, copyPbufs, wp_bind] at hin
          have hbytes : (if (q : Int) > len.toInt - 0 then len.toInt - 0 else q) = len.toInt := by
            rw [if_pos (by omega), Int.sub_zero]
          simp only [hbytes] at hin
          have hfirst := (inside_touch h₀ _).mp (in_page_of_copy hin)
          rw [data_start args.req (Int.le_refl 0)] at hfirst
          have hlong : 4096 < (BitVec.ofInt 32 len.toInt).toNat := by
            rw [BitVec.toNat_ofInt]
            omega
          have hin := (within_page_iff args.req (by decide) (BitVec.isLt _)).mp hfirst
          omega
        · rcases hok with hnone | hok
          · cases hnone
          · omega
      · have hnat : (len.toNat : Int) = len.toInt := by
          rw [BitVec.toInt_eq_toNat_cond] at hneg ⊢
          split at hneg <;> omega
        rw [inside_copy h₀ (by decide) (by decide) (by omega) (by omega)]
        constructor
        · exact fun hle => .inr ⟨by omega, by omega⟩
        · rintro (hnone | hle)
          · cases hnone
          · omega

/-! ## All requests -/

/-- `lwip_recv` and `lwip_send` that touch the whole buffer. -/
def greedy : Lwip where
  result _ _ := 0
  socket _ := true
  recv _ mem len _ := [⟨mem, len.toNat⟩]
  send _ data size _ := [⟨data, size.toNat⟩]
  recv_within _ _ _ _ x hx := by
    obtain rfl := List.mem_singleton.mp hx
    exact fun a ha => ha
  send_within _ _ _ _ x hx := by
    obtain rfl := List.mem_singleton.mp hx
    exact fun a ha => ha

/-- A request to receive or to send is confined when its buffer ends in the page. -/
theorem buffers_within_iff (req : Word) (touched : Lwip → List Range) (offset : Nat) (len : Word)
    (hoffset : offset ≤ 4096)
    (hwithin : ∀ lwip, ∀ x ∈ touched lwip, Within (req + BitVec.ofNat 32 offset) len.toNat x)
    (hgreedy : touched greedy = [⟨req + BitVec.ofNat 32 offset, len.toNat⟩]) :
    (∀ lwip, ∀ x ∈ touched lwip, Within req 4096 x) ↔ len = 0 ∨ offset + len.toNat ≤ 4096 := by
  have hpage := within_page_iff req hoffset len.isLt
  have hzero : len.toNat = 0 ↔ len = 0 := by
    rw [← BitVec.toNat_inj]
    rfl
  rw [hzero] at hpage
  refine ⟨fun h => hpage.mp (h greedy _ (by rw [hgreedy]; exact List.mem_cons_self)), fun h => ?_⟩
  exact fun lwip x hx => (hwithin lwip x hx).trans (hpage.mpr h)

/-- `ipc_send` touches no data of the request. -/
theorem inside_thread : Inside args.req (serveThread lwip avail args) w ↔
    Inside args.req (serveRequest lwip avail args) w := by
  unfold serveThread
  rw [Inside, wp_bind]
  by_cases hinput : args.reqno ≠ nsreqInput
  · simp only [if_pos hinput]
    rfl
  · simp only [if_neg hinput]
    rfl

/-- The other requests stay in the page, whatever is in it. -/
theorem inside_other (h : InPage args.req w) (hrecv : args.reqno ≠ nsreqRecv)
    (hsend : args.reqno ≠ nsreqSend) (hinput : args.reqno ≠ nsreqInput) :
    Inside args.req (serveRequest lwip avail args) w := by
  unfold serveRequest
  rw [if_neg hrecv, if_neg hsend, if_neg hinput]
  split
  · exact inside_accept h
  split
  · exact inside_name h
  split
  · exact inside_fields h (by simp) []
  split
  · exact inside_fields h (by simp) []
  split
  · exact inside_name h
  split
  · exact inside_fields h (by simp) []
  split
  · exact inside_fields h (by simp) []
  · exact h

theorem serve_request_recv {lwip : Lwip} {whom req : Word} :
    serveRequest lwip avail ⟨nsreqRecv, whom, req⟩ = serveRecv lwip ⟨nsreqRecv, whom, req⟩ := by
  simp [serveRequest, nsreqRecv, nsreqAccept, nsreqBind, nsreqShutdown, nsreqClose, nsreqConnect,
    nsreqListen]

/-- A request thread touches no data outside its page exactly when the buffer of a receive or a send
request, or the packet that is handed in, ends within the page. -/
theorem serve_thread_confined_iff (avail : Nat) (page : Bytes) (args : StArgs) :
    Confined avail page args ↔
      (args.reqno = nsreqRecv → (page.load32 4).toNat ≤ 4096) ∧
      (args.reqno = nsreqSend → (page.load32 4).toNat ≤ 4084) ∧
      (args.reqno = nsreqInput →
        pbufAlloc avail ((page.load32 0).setWidth 16) = none ∨
          (0 ≤ ((page.load32 0).setWidth 16).toInt ∧
            ((page.load32 0).setWidth 16).toInt ≤ 4092)) := by
  have hstart := in_page_start args.req page
  have hrequest : Confined avail page args ↔
      ∀ lwip, Inside args.req (serveRequest lwip avail args) ⟨page, [], none⟩ :=
    forall_congr' fun _ => inside_thread
  have hrs : nsreqRecv ≠ nsreqSend := by decide
  have hri : nsreqRecv ≠ nsreqInput := by decide
  have hsi : nsreqSend ≠ nsreqInput := by decide
  rw [hrequest]
  obtain ⟨reqno, whom, req⟩ := args
  by_cases hrecv : reqno = nsreqRecv
  · subst hrecv
    have hbuffer := buffers_within_iff req
      (fun lwip => lwip.recv (page.load32 0) req (page.load32 4) (page.load32 8)) 0 (page.load32 4)
      (by decide) (fun lwip x hx => by
        rw [BitVec.add_zero]
        exact lwip.recv_within _ _ _ _ x hx) (by rw [BitVec.add_zero]; rfl)
    refine (forall_congr' fun lwip => inside_recv lwip hstart).trans (hbuffer.trans ?_)
    constructor
    · rintro (hzero | hle)
      · exact ⟨fun _ => by rw [hzero]; decide, fun h => absurd h hrs, fun h => absurd h hri⟩
      · exact ⟨fun _ => by omega, fun h => absurd h hrs, fun h => absurd h hri⟩
    · exact fun h => .inr (by have := h.1 rfl; omega)
  by_cases hsend : reqno = nsreqSend
  · subst hsend
    have hbuffer := buffers_within_iff req
      (fun lwip => lwip.send (page.load32 0) (req + 12) (page.load32 4) (page.load32 8)) 12
      (page.load32 4) (by decide) (fun lwip x hx => lwip.send_within _ _ _ _ x hx) rfl
    refine (forall_congr' fun lwip => inside_send lwip hstart).trans (hbuffer.trans ?_)
    constructor
    · rintro (hzero | hle)
      · exact ⟨fun h => absurd h.symm hrs, fun _ => by rw [hzero]; decide, fun h => absurd h hsi⟩
      · exact ⟨fun h => absurd h.symm hrs, fun _ => by omega, fun h => absurd h hsi⟩
    · exact fun h => .inr (by have := h.2.1 rfl; omega)
  by_cases hinput : reqno = nsreqInput
  · subst hinput
    refine (forall_congr' fun _ => inside_input hstart).trans ?_
    exact ⟨fun h => ⟨fun hcode => absurd hcode.symm hri, fun hcode => absurd hcode.symm hsi,
      fun _ => h greedy⟩, fun h _ => h.2.2 rfl⟩
  · exact ⟨fun _ => ⟨fun h => absurd h hrecv, fun h => absurd h hsend, fun h => absurd h hinput⟩,
      fun _ lwip => inside_other hstart hrecv hsend hinput⟩

/-- A request to receive two pages of data. -/
def twoPages : Bytes := Bytes.store32 (fun _ => 0) 4 0x2000

/-- The data of such a request goes into the page of another request. -/
theorem serve_thread_not_confined : ¬ Confined 1 twoPages ⟨nsreqRecv, 0x1001, slotVa 0⟩ := by
  intro h
  have hstart : InPage (StArgs.mk nsreqRecv 0x1001 (slotVa 0)).req ⟨twoPages, [], none⟩ :=
    in_page_start (slotVa 0) twoPages
  have hin := inside_thread.mp (h greedy)
  rw [serve_request_recv, inside_recv greedy hstart] at hin
  have hwithin := hin ⟨slotVa 0, (twoPages.load32 4).toNat⟩ List.mem_cons_self
  have hlen : (twoPages.load32 4).toNat = 0x2000 := by decide
  rw [hlen] at hwithin
  exact absurd ((within_start (by decide)).mp hwithin) (by decide)

end Labs.Jos.Ns
