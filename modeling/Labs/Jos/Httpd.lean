import Labs.Base.Prog
import Labs.Jos.Mmu
import Mathlib.Data.List.TakeWhile

/-!
# The web server

`handle_client`, `http_request_parse` and `req_free` of `user/httpd.c`, on the bytes that `read`
puts into the buffer. A pointer into the buffer is the part of these bytes from it on. The model
stops where the program goes wrong: at a read behind the received bytes, at a store through a null
pointer, and at a `free` of a pointer that `malloc` has not returned. The functions that send an
answer leave the request and the heap alone, and may end the program.
-/

namespace Labs.Jos.Httpd

open Prog

/-- `BUFFSIZE`. -/
def buffsize : Nat := 512

/-- `E_BAD_REQ`. -/
def eBadReq : Int := 1000

/-- `' '`. -/
def space : Byte := 0x20

/-- `'\n'`. -/
def newline : Byte := 0x0A

/-- `"GET "`. -/
def get4 : List Byte := [0x47, 0x45, 0x54, 0x20]

/-- Why the program ends. -/
inductive Fault where
  /-- A read of the buffer behind the received bytes. -/
  | overread
  /-- A store through a null pointer. -/
  | nullStore
  /-- A `free` of a pointer that is not one of `malloc`, or no more. -/
  | badFree (p : Word)
  /-- The panic `parse failed`. -/
  | panic
  /-- `die`, or a panic, in a function that sends an answer. -/
  | died
  deriving DecidableEq

/-- The answers of the server. -/
inductive Reply where
  | error (code : Nat)
  | file (url : Word)
  deriving DecidableEq

/-- `struct http_request`, the contents of the blocks of the heap, the blocks that `malloc` has
returned for the request, and the answers. -/
structure State where
  sock : Word
  url : Word
  version : Word
  block : Word → List Byte
  live : List Word
  replies : List Reply

/-- `malloc`, by the live blocks and the size: no block is returned twice while it is in use. -/
structure Malloc where
  answer : List Word → Nat → Word
  fresh : ∀ live n, answer live n ≠ 0 → answer live n ∉ live

/-- A call of `malloc`. A failed call returns null. -/
def malloc (heap : Malloc) (n : Nat) : Prog State Fault Word := do
  let s ← get
  let p := heap.answer s.live n
  if p ≠ 0 then
    modify fun s => { s with live := p :: s.live }
  pure p

/-- Store a string and a zero byte in a block: `memmove`, and the store behind it. -/
def storeString (p : Word) (string : List Byte) : Prog State Fault Unit :=
  if p = 0 then exit .nullStore
  else modify fun s => { s with block := Function.update s.block p (string ++ [0]) }

/-- `req->url = url`. -/
def State.setUrl (s : State) (url : Word) : State := { s with url := url }

/-- `req->version = version`. -/
def State.setVersion (s : State) (version : Word) : State := { s with version := version }

/-- Copy a string into a new block, whose pointer goes into a field of the request. -/
def keepString (heap : Malloc) (setField : State → Word → State) (string : List Byte) :
    Prog State Fault Unit := do
  let p ← malloc heap (string.length + 1)
  modify fun s => setField s p
  storeString p string

def free (p : Word) : Prog State Fault Unit := do
  if p = 0 then pure ()
  else
    let s ← get
    if p ∈ s.live then modify fun s => { s with live := s.live.erase p }
    else exit (.badFree p)

def reqFree : Prog State Fault Unit := do
  let s ← get
  free s.url
  let s ← get
  free s.version

/-- `strncmp(p, q, n)` for a literal `q` of `n` characters. -/
def strncmp : List Byte → List Byte → Prog State Fault Int
  | _, [] => pure 0
  | [], _ :: _ => exit .overread
  | c :: p, d :: q =>
      if c ≠ 0 ∧ c = d then strncmp p q
      else pure ((c.toNat : Int) - d.toNat)

/-- `while (*request && *request != stop) request++`: the bytes up to the pointer, and what is
behind it. -/
def scanTo (stop : Byte) : List Byte → Prog State Fault (List Byte × List Byte)
  | [] => exit .overread
  | c :: request =>
      if c ≠ 0 ∧ c ≠ stop then do
        let (word, rest) ← scanTo stop request
        pure (c :: word, rest)
      else
        pure ([], c :: request)

/-- `http_request_parse`, with a request structure. -/
def httpRequestParse (heap : Malloc) (request : List Byte) : Prog State Fault Int := do
  let r ← strncmp request get4
  if r ≠ 0 then pure (-eBadReq)
  else
    -- skip GET
    let request := request.drop 4
    -- get the url
    let (url, request) ← scanTo space request
    keepString heap State.setUrl url
    -- skip space
    let request := request.drop 1
    let (version, _) ← scanTo newline request
    keepString heap State.setVersion version
    pure 0

/-- A function that sends an answer and returns when `returns` holds. -/
def send (returns : Bool) (reply : Reply) : Prog State Fault Unit := do
  modify fun s => { s with replies := reply :: s.replies }
  if returns then pure () else exit .died

/-- `handle_client` after it has received a message. `memset(req, 0, sizeof(req))` clears as many
bytes as a pointer has, which are those of `sock`. -/
def handleClient (heap : Malloc) (returns : Bool) (sock : Word) (buffer : List Byte) :
    Prog State Fault Unit := do
  modify fun s => { s with sock := 0 }
  modify fun s => { s with sock := sock }
  let r ← httpRequestParse heap buffer
  if r = -eBadReq then
    send true (.error 400)
  else if r < 0 then
    exit .panic
  else
    let s ← get
    send returns (.file s.url)
  reqFree

/-- The state before a message is parsed: no block is in use for it, and the structure of the
request holds what was on the stack. -/
def start (stale : State) : State := { stale with live := [] }

/-- The string in a block is a part of the message. -/
def Stored (msg : List Byte) (s : State) (p : Word) : Prop :=
  ∃ string, s.block p = string ++ [0] ∧ string <:+: msg

/-- Every read is one of the received bytes, the two strings are parts of them, and every block that
is freed is one that `malloc` has returned and that has not been freed. All blocks are freed in the
end. -/
def Safe (heap : Malloc) (returns : Bool) (sock : Word) (s : State) (msg : List Byte) : Prop :=
  wp (httpRequestParse heap msg)
      (fun r s' => r = 0 → Stored msg s' s'.url ∧ Stored msg s' s'.version) (fun _ _ => False) s ∧
    wp (handleClient heap returns sock msg) (fun _ s' => s'.live = []) (fun e _ => e = .died) s

variable {heap : Malloc} {s : State} {p q msg : List Byte}

/-! ## The strings in the buffer -/

/-- The literal matches when the message starts with it. -/
theorem strncmp_match (hzero : (0 : Byte) ∉ q) (h : q <+: p) : strncmp p q s = .ret 0 s := by
  induction q generalizing p with
  | nil => cases p <;> rfl
  | cons d q ih =>
      obtain ⟨rest, rfl⟩ := h
      have hd : d ≠ 0 := fun h => hzero (h ▸ List.mem_cons_self)
      show strncmp (d :: (q ++ rest)) (d :: q) s = _
      rw [strncmp, if_pos ⟨hd, rfl⟩]
      exact ih (fun h => hzero (List.mem_cons_of_mem d h)) (List.prefix_append q rest)

/-- The comparison reads on when the message ends within the literal. -/
theorem strncmp_short (hzero : (0 : Byte) ∉ q) (h : p <+: q) (hne : ¬ q <+: p) :
    strncmp p q s = .exit .overread s := by
  induction p generalizing q with
  | nil =>
      cases q with
      | nil => exact absurd List.nil_prefix hne
      | cons d q => rfl
  | cons c p ih =>
      obtain ⟨rest, rfl⟩ := h
      have hc : c ≠ 0 := fun h => hzero (h ▸ List.mem_cons_self)
      show strncmp (c :: p) (c :: (p ++ rest)) s = _
      rw [strncmp, if_pos ⟨hc, rfl⟩]
      refine ih (fun h => hzero (List.mem_cons_of_mem c h)) (List.prefix_append p rest)
        fun hprefix => hne ?_
      show c :: (p ++ rest) <+: c :: p
      exact List.cons_prefix_cons.mpr ⟨rfl, hprefix⟩

/-- The comparison ends at the first byte that differs. -/
theorem strncmp_differs (hzero : (0 : Byte) ∉ q) (hp : ¬ p <+: q) (hq : ¬ q <+: p) :
    ∃ r ≠ 0, strncmp p q s = .ret r s := by
  induction p generalizing q with
  | nil => exact absurd List.nil_prefix hp
  | cons c p ih =>
      cases q with
      | nil => exact absurd List.nil_prefix hq
      | cons d q =>
          have hd : d ≠ 0 := fun h => hzero (h ▸ List.mem_cons_self)
          rw [strncmp]
          by_cases hsame : c = d
          · subst hsame
            rw [if_pos ⟨hd, rfl⟩]
            exact ih (fun h => hzero (List.mem_cons_of_mem c h))
              (fun h => hp (List.cons_prefix_cons.mpr ⟨rfl, h⟩))
              (fun h => hq (List.cons_prefix_cons.mpr ⟨rfl, h⟩))
          · rw [if_neg fun h => hsame h.2]
            refine ⟨(c.toNat : Int) - d.toNat, fun h => hsame ?_, rfl⟩
            exact BitVec.eq_of_toNat_eq (by omega)

/-- A word that ends at the delimiter `d`, which is `stop` or a zero byte. -/
structure Ends (stop : Byte) (word : List Byte) (d : Byte) : Prop where
  word : ∀ c ∈ word, c ≠ 0 ∧ c ≠ stop
  delimiter : d = 0 ∨ d = stop

/-- A scan finds a word, and it reads behind the received bytes when there is no delimiter. -/
theorem wp_scan_to {stop : Byte} {request : List Byte} {Q : List Byte × List Byte → State → Prop}
    {E : Fault → State → Prop} : wp (scanTo stop request) Q E s ↔
      (∃ word d rest, request = word ++ d :: rest ∧ Ends stop word d ∧ Q (word, d :: rest) s) ∨
        (∀ c ∈ request, c ≠ 0 ∧ c ≠ stop) ∧ E .overread s := by
  induction request generalizing Q with
  | nil => simp [scanTo]
  | cons c request ih =>
      rw [scanTo]
      by_cases hc : c ≠ 0 ∧ c ≠ stop
      · rw [if_pos hc, wp_bind, ih]
        constructor
        · rintro (⟨word, d, rest, rfl, hends, hq⟩ | ⟨hall, he⟩)
          · refine .inl ⟨c :: word, d, rest, rfl, ⟨fun b hb => ?_, hends.delimiter⟩, hq⟩
            obtain rfl | hb := List.mem_cons.mp hb
            · exact hc
            · exact hends.word b hb
          · exact .inr ⟨List.forall_mem_cons.mpr ⟨hc, hall⟩, he⟩
        · rintro (⟨word, d, rest, hsplit, hends, hq⟩ | ⟨hall, he⟩)
          · cases word with
            | nil =>
                cases hsplit
                obtain hzero | hstop := hends.delimiter
                · exact absurd hzero hc.1
                · exact absurd hstop hc.2
            | cons b word =>
                cases hsplit
                exact .inl ⟨word, d, rest, rfl,
                  ⟨fun b hb => hends.word b (List.mem_cons_of_mem c hb), hends.delimiter⟩, hq⟩
          · exact .inr ⟨(List.forall_mem_cons.mp hall).2, he⟩
      · rw [if_neg hc, wp_pure]
        have hdelimiter : c = 0 ∨ c = stop := by
          by_contra hnone
          exact hc (not_or.mp hnone)
        refine ⟨fun hq => .inl ⟨[], c, request, rfl, ⟨(fun b hb => (by cases hb)), hdelimiter⟩, hq⟩,
          ?_⟩
        rintro (⟨word, d, rest, hsplit, hends, hq⟩ | ⟨hall, _⟩)
        · cases word with
          | nil =>
              cases hsplit
              exact hq
          | cons b word =>
              cases hsplit
              exact absurd (hends.word c List.mem_cons_self) hc
        · exact absurd (hall c List.mem_cons_self) hc

/-! ## The heap -/

/-- The state after a string has been copied to the block `p`. -/
def kept (setField : State → Word → State) (string : List Byte) (p : Word) (s : State) : State :=
  let s := setField { s with live := p :: s.live } p
  { s with block := Function.update s.block p (string ++ [0]) }

/-- A string is copied when `malloc` finds a block for it. -/
theorem wp_keep_string {setField : State → Word → State} {string : List Byte}
    {Q : Unit → State → Prop} {E : Fault → State → Prop} (hnull : ∀ t, ¬ E .nullStore t) :
    wp (keepString heap setField string) Q E s ↔
      heap.answer s.live (string.length + 1) ≠ 0 ∧
        Q () (kept setField string (heap.answer s.live (string.length + 1)) s) := by
  unfold keepString malloc storeString
  simp only [wp_bind, wp_get]
  generalize heap.answer s.live (string.length + 1) = p
  by_cases hp : p = 0
  · rw [if_neg (not_not.mpr hp), wp_pure, wp_modify, if_pos hp]
    exact ⟨fun he => absurd he (hnull _), fun h => absurd hp h.1⟩
  · rw [if_pos hp, wp_bind, wp_modify, wp_pure, wp_modify, if_neg hp]
    exact ⟨fun hq => ⟨hp, hq⟩, fun h => h.2⟩

/-- The two pointers of a request that is read, after its two calls of `malloc`. -/
def urlBlock (heap : Malloc) (s : State) (url : List Byte) : Word :=
  heap.answer s.live (url.length + 1)

def versionBlock (heap : Malloc) (s : State) (url version : List Byte) : Word :=
  heap.answer (urlBlock heap s url :: s.live) (version.length + 1)

/-- The request after its two strings have been stored. -/
def parsed (heap : Malloc) (s : State) (url version : List Byte) : State :=
  kept State.setVersion version (versionBlock heap s url version)
    (kept State.setUrl url (urlBlock heap s url) s)

/-- A request for a file: `GET`, the name of the file and the version, each with a delimiter behind
it. -/
structure Splits (msg url version : List Byte) (d e : Byte) (rest : List Byte) : Prop where
  split : msg = get4 ++ (url ++ d :: (version ++ e :: rest))
  url : Ends space url d
  version : Ends newline version e

/-- The message is such a request, and there is memory for its two strings. -/
def Accepted (heap : Malloc) (s : State) (msg : List Byte) : Prop :=
  ∃ url version d e rest, Splits msg url version d e rest ∧ urlBlock heap s url ≠ 0 ∧
    versionBlock heap s url version ≠ 0

/-- The message differs from `GET` and a space before either of them ends. -/
def Rejected (msg : List Byte) : Prop := ¬ msg <+: get4 ∧ ¬ get4 <+: msg

theorem zero_not_mem_get4 : (0 : Byte) ∉ get4 := by decide

/-- What `http_request_parse` does with a message that starts with `GET` and a space. -/
theorem wp_parse_get {Q : Int → State → Prop} {E : Fault → State → Prop}
    (hread : ∀ t, ¬ E .overread t) (hnull : ∀ t, ¬ E .nullStore t) (hget : get4 <+: msg) :
    wp (httpRequestParse heap msg) Q E s ↔
      ∃ url version d e rest, Splits msg url version d e rest ∧ urlBlock heap s url ≠ 0 ∧
        versionBlock heap s url version ≠ 0 ∧ Q 0 (parsed heap s url version) := by
  obtain ⟨m, rfl⟩ := hget
  unfold httpRequestParse
  rw [wp_bind, wp_of_ret (strncmp_match zero_not_mem_get4 (List.prefix_append get4 m)),
    if_neg (not_not.mpr rfl)]
  rw [show (get4 ++ m).drop 4 = m from rfl]
  simp only [wp_bind, wp_scan_to, wp_keep_string hnull, wp_pure, hread, and_false, or_false]
  constructor
  · rintro ⟨url, d, request, rfl, hurl, hp, version, e, rest, rfl, hversion, hp', hq⟩
    exact ⟨url, version, d, e, rest, ⟨rfl, hurl, hversion⟩, hp, hp', hq⟩
  · rintro ⟨url, version, d, e, rest, hsplits, hp, hp', hq⟩
    exact ⟨url, d, _, List.append_cancel_left hsplits.split, hsplits.url, hp, version, e, rest, rfl,
      hsplits.version, hp', hq⟩

/-- A message that is rejected. -/
theorem parse_rejected (h : Rejected msg) : httpRequestParse heap msg s = .ret (-eBadReq) s := by
  obtain ⟨r, hr, hrun⟩ := strncmp_differs (s := s) zero_not_mem_get4 h.1 h.2
  unfold httpRequestParse
  rw [bind_of_ret hrun, if_pos hr]
  rfl

/-- A message that ends within `GET` and the space. -/
theorem parse_short (h : msg <+: get4) (hne : ¬ get4 <+: msg) :
    httpRequestParse heap msg s = .exit .overread s := by
  unfold httpRequestParse
  rw [bind_of_exit (strncmp_short zero_not_mem_get4 h hne)]

/-! ## The end of a request -/

theorem wp_free {p : Word} {Q : Unit → State → Prop} {E : Fault → State → Prop}
    (hbad : ¬ E (.badFree p) s) : wp (free p) Q E s ↔
      (p = 0 ∨ p ∈ s.live) ∧ Q () (if p = 0 then s else { s with live := s.live.erase p }) := by
  unfold free
  by_cases hp : p = 0
  · rw [if_pos hp, if_pos hp, wp_pure]
    exact ⟨fun hq => ⟨.inl hp, hq⟩, fun h => h.2⟩
  · rw [if_neg hp, if_neg hp, wp_bind, wp_get]
    by_cases hlive : p ∈ s.live
    · rw [if_pos hlive, wp_modify]
      exact ⟨fun hq => ⟨.inr hlive, hq⟩, fun h => h.2⟩
    · rw [if_neg hlive, wp_exit]
      exact ⟨fun he => absurd he hbad, fun h => absurd h.1 (not_or.mpr ⟨hp, hlive⟩)⟩

/-- With no block in use, the request can only be freed when both of its pointers are null. -/
theorem wp_req_free_none (hlive : s.live = []) :
    wp reqFree (fun _ s' => s'.live = []) (fun e _ => e = .died) s ↔ s.url = 0 ∧ s.version = 0 := by
  unfold reqFree
  rw [wp_bind, wp_get, wp_bind, wp_free (by simp)]
  rw [hlive]
  simp only [List.not_mem_nil, or_false]
  refine and_congr_right fun hurl => ?_
  rw [if_pos hurl, wp_bind, wp_get, wp_free (by simp), hlive]
  simp only [List.not_mem_nil, or_false]
  refine ⟨fun h => h.1, fun h => ⟨h, ?_⟩⟩
  rw [if_pos h]
  exact hlive

/-- The two blocks of a request are freed. -/
theorem wp_req_free_two {E : Fault → State → Prop} (hne : s.version ≠ s.url)
    (hlive : s.live = [s.version, s.url]) (hurl : s.url ≠ 0) (hversion : s.version ≠ 0) :
    wp reqFree (fun _ s' => s'.live = []) E s := by
  have hmem : s.url ∈ s.live := by simp [hlive]
  have herase : s.live.erase s.url = [s.version] := by
    rw [hlive, List.erase_cons_tail (by simpa using hne)]
    simp
  unfold reqFree free
  rw [wp_bind, wp_get, if_neg hurl, wp_bind, wp_bind, wp_get, if_pos hmem, wp_modify, wp_bind,
    wp_get, if_neg hversion, wp_bind, wp_get]
  have hmem' : s.version ∈ s.live.erase s.url := by simp [herase]
  show wp (if s.version ∈ s.live.erase s.url then _ else _) _ _ _
  rw [if_pos hmem', wp_modify]
  show (s.live.erase s.url).erase s.version = []
  rw [herase]
  simp

/-- `handle_client` goes on with the result of the parser. -/
theorem wp_handle_client {returns : Bool} {sock : Word} {Q : Unit → State → Prop}
    {E : Fault → State → Prop} :
    wp (handleClient heap returns sock msg) Q E s ↔
      wp (httpRequestParse heap msg)
        (fun r s' =>
          if r = -eBadReq then
            wp reqFree Q E { s' with replies := .error 400 :: s'.replies }
          else if r < 0 then E .panic s'
          else if returns then wp reqFree Q E { s' with replies := .file s'.url :: s'.replies }
          else E .died { s' with replies := .file s'.url :: s'.replies })
        E { s with sock := sock } := by
  unfold handleClient send
  rw [wp_bind, wp_modify, wp_bind, wp_modify, wp_bind]
  refine Iff.of_eq (congrArg (fun Q => wp (httpRequestParse heap msg) Q E { s with sock := sock })
    (funext fun r => funext fun s' => propext ?_))
  by_cases hbad : r = -eBadReq
  · rw [if_pos hbad, if_pos hbad]
    rfl
  rw [if_neg hbad, if_neg hbad]
  by_cases hneg : r < 0
  · rw [if_pos hneg, if_pos hneg]
    rfl
  rw [if_neg hneg, if_neg hneg]
  cases returns <;> rfl

/-- The second block is not the first. -/
theorem version_ne_url {stale : State} {url version : List Byte}
    (hp : versionBlock heap (start stale) url version ≠ 0) :
    versionBlock heap (start stale) url version ≠ urlBlock heap (start stale) url :=
  fun heq => heap.fresh [urlBlock heap (start stale) url] (version.length + 1) hp
    (List.mem_singleton.mpr heq)

/-- Both strings of a request are parts of the message. -/
theorem Splits.stored {stale : State} {url version rest : List Byte} {d e : Byte}
    (h : Splits msg url version d e rest)
    (hp' : versionBlock heap (start stale) url version ≠ 0) :
    Stored msg (parsed heap (start stale) url version)
        (parsed heap (start stale) url version).url ∧
      Stored msg (parsed heap (start stale) url version)
        (parsed heap (start stale) url version).version := by
  have hsplit := h.split
  refine ⟨⟨url, ?_, ?_⟩, ⟨version, Function.update_self .., ?_⟩⟩
  · exact (Function.update_of_ne (version_ne_url hp').symm _ _).trans (Function.update_self ..)
  · rw [hsplit]
    exact (List.prefix_append url _).isInfix.trans (List.suffix_append get4 _).isInfix
  · rw [hsplit]
    refine List.IsInfix.trans ⟨url ++ [d], e :: rest, ?_⟩ (List.suffix_append get4 _).isInfix
    simp

/-- A request is handled safely exactly when it is rejected while the structure happens to hold null
pointers, or when it has all its delimiters and there is memory for its strings. -/
theorem handle_client_safe_iff (heap : Malloc) (returns : Bool) (sock : Word) (stale : State)
    (msg : List Byte) :
    Safe heap returns sock (start stale) msg ↔
      (Rejected msg ∧ stale.url = 0 ∧ stale.version = 0) ∨ Accepted heap (start stale) msg := by
  by_cases hget : get4 <+: msg
  · -- the message is parsed, and the structure is filled
    unfold Safe
    rw [wp_parse_get (fun _ h => h) (fun _ h => h) hget]
    constructor
    · rintro ⟨⟨url, version, d, e, rest, hsplits, hp, hp', _⟩, _⟩
      exact .inr ⟨url, version, d, e, rest, hsplits, hp, hp'⟩
    · rintro (⟨hrejected, _⟩ | ⟨url, version, d, e, rest, hsplits, hp, hp'⟩)
      · exact absurd hget hrejected.2
      · refine ⟨⟨url, version, d, e, rest, hsplits, hp, hp', fun _ => hsplits.stored hp'⟩, ?_⟩
        rw [wp_handle_client, wp_parse_get (fun _ h => (by cases h)) (fun _ h => (by cases h)) hget]
        refine ⟨url, version, d, e, rest, hsplits, hp, hp', ?_⟩
        rw [if_neg (by decide), if_neg (by decide)]
        cases returns with
        | false => rfl
        | true => exact wp_req_free_two (version_ne_url hp') rfl hp hp'
  by_cases hshort : msg <+: get4
  · -- the message ends too early
    unfold Safe
    rw [wp_of_exit (parse_short hshort hget)]
    refine ⟨fun h => h.1.elim, ?_⟩
    rintro (⟨hrejected, _⟩ | ⟨url, version, d, e, rest, hsplits, _⟩)
    · exact absurd hshort hrejected.1
    · exact absurd (hsplits.split ▸ List.prefix_append _ _) hget
  · -- the message is rejected, and nothing has filled the structure
    have hrejected : Rejected msg := ⟨hshort, hget⟩
    unfold Safe
    rw [wp_of_ret (parse_rejected hrejected), wp_handle_client,
      wp_of_ret (parse_rejected hrejected), if_pos rfl, wp_req_free_none rfl]
    constructor
    · exact fun h => .inl ⟨hrejected, h.2⟩
    · rintro (h | ⟨url, version, d, e, rest, hsplits, _⟩)
      · exact ⟨fun hr => absurd hr (by decide), h.2⟩
      · exact absurd (hsplits.split ▸ List.prefix_append _ _) hget

/-- A heap of two blocks. -/
def twoBlocks : Malloc where
  answer live _ := ([0x08000000, 0x08001000].find? fun p : Word => p ∉ live).getD 0
  fresh live n h hmem := by
    cases hfind : [0x08000000, 0x08001000].find? fun p : Word => p ∉ live with
    | none => exact h (by rw [hfind]; rfl)
    | some p =>
        rw [hfind] at hmem
        exact absurd hmem (by simpa using List.find?_some hfind)

/-- A stack that held a pointer where the structure of the request lies. -/
def dirtyStack : State := ⟨0, 0x10, 0, fun _ => [], [], []⟩

/-- `"GET / "` is read behind its end, and after `"POST "` a pointer from the stack is freed. -/
theorem handle_client_unsafe :
    ¬ Safe twoBlocks true 5 (start dirtyStack) [0x47, 0x45, 0x54, 0x20, 0x2F, 0x20] ∧
      ¬ Safe twoBlocks true 5 (start dirtyStack) [0x50, 0x4F, 0x53, 0x54, 0x20] := by
  constructor
  · exact fun h => h.1
  · intro h
    have hrejected : Rejected [0x50, 0x4F, 0x53, 0x54, 0x20] := ⟨by decide, by decide⟩
    have hrun := h.2
    rw [wp_handle_client, wp_of_ret (parse_rejected hrejected), if_pos rfl,
      wp_req_free_none rfl] at hrun
    exact absurd hrun.1 (by decide)

end Labs.Jos.Httpd
