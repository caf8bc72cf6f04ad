import Labs.Jos.Fsformat
import Labs.Jos.Serv

/-!
# File ids

The ids that `openfile_alloc` has issued are kept as a history, newest first. The invariant says
for each entry of `opentab` what the last of its ids was, and whether its open succeeded. An entry
counts as open when its page is mapped anywhere but in the server, and this agrees with the
history, except for an entry that was never opened and for a page that only the request itself
holds.
-/

namespace Labs.Jos.Serv

open Prog
open Fs (Stop)

/-- A file id that `openfile_alloc` issued, and the file that the open resolved if it succeeded. -/
structure Issue where
  fileid : Word
  file : Option Nat
  deriving DecidableEq

/-- The file that the path of the request leads to. -/
def resolved (s : Server) : Option Nat :=
  match readReq s with
  | .exit _ _ => none
  | .ret req _ =>
      match Fs.fileOpen (reqPath req) s.disk with
      | .ret f _ => some f
      | .exit _ _ => none

/-- What is issued while a request is served. -/
def issue (req : Word) (mem : Bool) (s : Server) : List Issue :=
  if req = fsreqOpen then
    match openfileAlloc mem s, serveOpen mem s with
    | .ret (_, fileid) _, .ret _ _ => [⟨fileid, resolved s⟩]
    | .ret (_, fileid) _, .exit _ _ => [⟨fileid, none⟩]
    | .exit _ _, _ => []
  else []

/-- What is issued in a step. -/
def issues : World → Act → List Issue
  | ⟨s, some q⟩, .serve mem _ => issue q.req mem s
  | _, _ => []

/-- The runs of the server and its clients in which no counter of a page wraps around, with the ids
issued in them. -/
inductive Run (disk : Bytes) : List Issue → World → Prop where
  | init : Run disk [] (World.init disk)
  | step {tr : List Issue} {w w' : World} {a : Act} (hrun : Run disk tr w) (hroom : Roomy w a)
      (hstep : Step w a w') : Run disk (issues w a ++ tr) w'

/-- The id most recently issued for an entry. -/
def lastIssue (tr : List Issue) (i : Ix) : Option Issue := tr.find? fun e => slot e.fileid == i

/-- `openfile_lookup` accepts the file id. -/
def Accepts (s : Server) (fileid : Word) : Prop :=
  openfileLookup fileid s = .ret (slot fileid) s

/-- Some client maps the page of the entry. -/
def Server.Mapped (s : Server) (i : Ix) : Prop := ∃ p, (p, i) ∈ s.maps

/-- `openfile_lookup` is right about a file id: it accepts the last id of an entry as long as a
client maps its page, if the open succeeded, and then the entry has the file of that open. -/
def LookupRight (tr : List Issue) (s : Server) (fileid : Word) : Prop :=
  (Accepts s fileid ↔
    (∃ f, lastIssue tr (slot fileid) = some ⟨fileid, some f⟩) ∧ s.Mapped (slot fileid)) ∧
  (Accepts s fileid → ∃ f, lastIssue tr (slot fileid) = some ⟨fileid, some f⟩ ∧
    (s.opentab (slot fileid)).oFile = some f)

/-- The page of the entry is mapped by the request that is served, and by no client. -/
def Server.OnlyArg (s : Server) (i : Ix) : Prop := s.isArg i = true ∧ ¬ s.Mapped i

variable {tr : List Issue} {s s' : Server} {i j : Ix} {p : Place} {fileid : Word} {mem : Bool}

/-! ## References -/

theorem Server.clients_pos : 0 < s.clients i ↔ s.Mapped i := by
  unfold Server.clients Server.Mapped
  rw [List.countP_pos_iff]
  constructor
  · intro ⟨⟨p, j⟩, hmem, hj⟩
    have hji : j = i := eq_of_beq hj
    exact ⟨p, hji ▸ hmem⟩
  · intro ⟨p, hmem⟩
    exact ⟨(p, i), hmem, beq_self_eq_true i⟩

/-- Mapping a page adds one reference to it at most, and none to others. -/
theorem Server.clients_map_fd : (s.mapFd p i).clients j ≤ s.clients j + if i = j then 1 else 0 := by
  have hle : (s.maps.filter fun m => m.1 != p).countP (fun m => m.2 == j) ≤ s.clients j :=
    List.filter_sublist.countP_le
  unfold Server.clients Server.mapFd
  rw [List.countP_cons]
  by_cases hij : i = j
  · subst hij
    rw [if_pos rfl, if_pos (beq_self_eq_true i)]
    exact Nat.add_le_add_right hle 1
  · rw [if_neg hij, if_neg (by simpa using hij)]
    exact hle

theorem Server.clients_unmap : (s.unmap p).clients i ≤ s.clients i := List.filter_sublist.countP_le

theorem Server.clients_unmap_all {env : EnvIx} : (s.unmapAll env).clients i ≤ s.clients i :=
  List.filter_sublist.countP_le

/-- The page of the entry is mapped somewhere besides the server's own place for it. -/
def Server.Live (s : Server) (i : Ix) : Prop := 0 < s.clients i ∨ s.isArg i = true

/-- The number of references, as long as the kernel's counter does not wrap. -/
theorem Server.pageref_eq (hfd : (s.oFd i).isNone = false) (hfew : s.clients i + 3 ≤ 2 ^ 16) :
    s.pageref i = 1 + s.clients i + if s.isArg i then 1 else 0 := by
  have hsmall : 1 + s.clients i + (if s.isArg i then 1 else 0) < 2 ^ 16 := by
    split <;> omega
  unfold Server.pageref
  rw [hfd]
  exact Nat.mod_eq_of_lt hsmall

theorem Server.pageref_eq_one (hfd : (s.oFd i).isNone = false) (hfew : s.clients i + 3 ≤ 2 ^ 16) :
    s.pageref i = 1 ↔ ¬ s.Live i := by
  rw [Server.pageref_eq hfd hfew]
  unfold Server.Live
  cases s.isArg i with
  | true => simp
  | false => simp

/-! ## What the functions of the server leave alone -/

/-- The open files are the same, and so are the references to their pages. -/
structure Frame (s s' : Server) : Prop where
  opentab : s'.opentab = s.opentab
  maps : s'.maps = s.maps
  oFd : ∀ i, (s'.oFd i).isNone = (s.oFd i).isNone
  isArg : ∀ i, s'.isArg i = s.isArg i

theorem Frame.refl (s : Server) : Frame s s := ⟨rfl, rfl, fun _ => rfl, fun _ => rfl⟩

theorem Frame.trans {t : Server} (h : Frame s t) (h' : Frame t s') : Frame s s' where
  opentab := h'.opentab.trans h.opentab
  maps := h'.maps.trans h.maps
  oFd i := (h'.oFd i).trans (h.oFd i)
  isArg i := (h'.isArg i).trans (h.isArg i)

instance : Composes Frame fun s (_ : Stop) s' => Frame s s' where
  refl := Frame.refl
  trans := Frame.trans
  absorb := Frame.trans

/-- A program that leaves the open files alone, however it ends. -/
abbrev Frames {α : Type} (x : Prog Server Stop α) : Prop := Keeps Frame (fun s _ s' => Frame s s') x

theorem frame_write_fd (f : Bytes → Bytes) : Frame s (s.writeFd i f) where
  opentab := rfl
  maps := rfl
  oFd j := by
    unfold Server.writeFd
    by_cases hj : j = i
    · simp [hj]
    · simp [hj]
  isArg _ := rfl

theorem frames_on_disk {α : Type} (x : Prog Bytes Stop α) : Frames (onDisk x) := by
  intro s
  unfold onDisk
  rw [wp_zoom]
  unfold wp
  cases x s.disk with
  | ret a m => exact ⟨rfl, rfl, fun _ => rfl, fun _ => rfl⟩
  | exit e m => exact ⟨rfl, rfl, fun _ => rfl, fun _ => rfl⟩

theorem frames_read_req : Frames readReq := by
  refine keeps_bind keeps_get fun s => ?_
  split
  · exact keeps_pure _
  · split
    · exact keeps_pure _
    · exact keeps_exit Frame.refl
  · exact keeps_exit Frame.refl

theorem frames_write_req (f : Bytes → Bytes) : Frames (writeReq f) := by
  intro s
  unfold writeReq
  rw [wp_bind, wp_get]
  cases harg : s.fsreq with
  | none => exact Frame.refl s
  | some arg =>
      obtain ⟨page, perm⟩ := arg
      show wp (if _ then _ else _) _ _ _
      rw [wp_ite]
      refine ⟨fun _ => Frame.refl s, fun _ => ?_⟩
      cases page with
      | own bytes =>
          refine ⟨rfl, rfl, fun _ => rfl, fun i => ?_⟩
          show false = s.isArg i
          unfold Server.isArg
          rw [harg]
      | fd i => exact frame_write_fd f

theorem frames_lookup : Frames (openfileLookup fileid) :=
  keeps_bind keeps_get fun _ => keeps_ite (keeps_exit Frame.refl) (keeps_pure _)

theorem frames_serve_read : Frames serveRead := by
  refine keeps_bind frames_read_req fun req => keeps_bind frames_lookup fun i =>
    keeps_bind keeps_get fun s => ?_
  split
  · refine keeps_bind (frames_on_disk _) fun ⟨r, bytes⟩ => ?_
    have hrest : Frames (do
        modify fun s => s.writeFd i fun fd => fd.store32 fdOffset (fd.load32 fdOffset + r)
        pure r : Prog Server Stop Word) :=
      keeps_bind (keeps_modify fun _ => frame_write_fd _) fun _ => keeps_pure r
    exact keeps_ite (keeps_bind (frames_write_req _) fun _ => hrest) hrest
  · exact keeps_exit Frame.refl

theorem frames_serve_stat : Frames serveStat := by
  refine keeps_bind frames_read_req fun req => keeps_bind frames_lookup fun i =>
    keeps_bind keeps_get fun s => ?_
  split
  · exact keeps_exit Frame.refl
  · refine keeps_bind (frames_on_disk _) fun _ => ?_
    split
    · exact keeps_exit Frame.refl
    · exact keeps_bind (frames_write_req _) fun _ => keeps_bind (frames_write_req _) fun _ =>
        keeps_bind (frames_write_req _) fun _ => keeps_pure _

/-- Requests other than opens leave the open files alone. -/
theorem frames_handle {req : Word} (mem : Bool) (hreq : req ≠ fsreqOpen) :
    Frames (handle req mem) := by
  unfold handle
  rw [if_neg hreq]
  exact keeps_ite (keeps_bind frames_serve_read fun _ => keeps_pure _)
    (keeps_ite (keeps_bind frames_serve_stat fun _ => keeps_pure _)
      (keeps_ite (keeps_pure _) (keeps_pure _)))

/-! ## What an open does -/

/-- `openfile_alloc` takes an entry that is not open, or changes nothing. -/
theorem alloc_cases (mem : Bool) (s : Server) :
    (∃ r, openfileAlloc mem s = .exit (.error r) s) ∨
      ∃ i, s.pageref i ≤ 1 ∧ openfileAlloc mem s =
        .ret (i, (s.opentab i).oFileid + BitVec.ofNat 32 maxopen) (s.reopen i) := by
  have hget : (get : Prog Server Stop Server) s = .ret s s := rfl
  unfold openfileAlloc
  rw [bind_of_ret hget]
  cases hfind : (List.finRange maxopen).find? fun i => decide (s.pageref i ≤ 1) with
  | none => exact Or.inl ⟨-Fs.eMaxOpen, rfl⟩
  | some i =>
      have hfree := List.find?_some hfind
      rw [decide_eq_true_iff] at hfree
      dsimp only
      by_cases hmem : s.pageref i = 0 ∧ mem = false
      · rw [if_pos hmem]
        exact Or.inl ⟨-eNoMem, rfl⟩
      · rw [if_neg hmem]
        exact Or.inr ⟨i, hfree, rfl⟩

theorem alloc_wp (mem : Bool) (s : Server) :
    wp (openfileAlloc mem) (fun a t => t = s.reopen a.1) (fun e t => t = s ∧ ∃ r, e = .error r)
      s := by
  cases alloc_cases mem s with
  | inl h =>
      obtain ⟨r, hr⟩ := h
      rw [wp_of_exit hr]
      exact ⟨rfl, r, rfl⟩
  | inr h =>
      obtain ⟨i, -, hi⟩ := h
      rw [wp_of_ret hi]

theorem on_disk_eq {α : Type} (x : Prog Bytes Stop α) (s : Server) :
    onDisk x s = match x s.disk with
      | .ret a disk => .ret a { s with disk := disk }
      | .exit e disk => .exit e { s with disk := disk } := by
  unfold onDisk zoom
  cases x s.disk with
  | ret a disk => rfl
  | exit e disk => rfl

/-- An open that issues no id changes nothing. One that does takes an entry that is not open; it
fills the entry out with the file of its path, or leaves it with the id only. -/
theorem serve_open_cases {req : Bytes} (mem : Bool) (hreq : readReq s = .ret req s) :
    (∃ r, openfileAlloc mem s = .exit (.error r) s ∧ serveOpen mem s = .exit (.error r) s) ∨
      ∃ i, s.pageref i ≤ 1 ∧ openfileAlloc mem s =
          .ret (i, (s.opentab i).oFileid + BitVec.ofNat 32 maxopen) (s.reopen i) ∧
        ((∃ f disk, resolved s = some f ∧ serveOpen mem s =
            .ret i (Server.fillOut { s.reopen i with disk := disk } i f (reqOmode req))) ∨
          ∃ e t, serveOpen mem s = .exit e t ∧ Frame (s.reopen i) t) := by
  unfold serveOpen
  rw [bind_of_ret hreq]
  cases alloc_cases mem s with
  | inl hfail =>
      obtain ⟨r, hr⟩ := hfail
      exact Or.inl ⟨r, hr, bind_of_exit hr⟩
  | inr halloc =>
      obtain ⟨i, hfree, hi⟩ := halloc
      refine Or.inr ⟨i, hfree, hi, ?_⟩
      rw [bind_of_ret hi]
      dsimp only
      by_cases hneg : ((s.opentab i).oFileid + BitVec.ofNat 32 maxopen).slt 0 = true
      · rw [if_pos hneg]
        exact Or.inr ⟨_, _, rfl, Frame.refl _⟩
      · rw [if_neg hneg]
        by_cases hmode : reqOmode req ≠ 0
        · rw [if_pos hmode]
          exact Or.inr ⟨_, _, rfl, Frame.refl _⟩
        · rw [if_neg hmode]
          have hres : resolved s = match Fs.fileOpen (reqPath req) s.disk with
              | .ret f _ => some f
              | .exit _ _ => none := by
            unfold resolved
            rw [hreq]
          have hdisk := on_disk_eq (Fs.fileOpen (reqPath req)) (s.reopen i)
          have hsame : (s.reopen i).disk = s.disk := rfl
          rw [hsame] at hdisk
          cases hfile : Fs.fileOpen (reqPath req) s.disk with
          | ret f disk =>
              rw [hfile] at hres hdisk
              rw [bind_of_ret hdisk]
              exact Or.inl ⟨f, disk, hres, rfl⟩
          | exit e disk =>
              rw [hfile] at hdisk
              rw [bind_of_exit hdisk]
              exact Or.inr ⟨_, _, rfl, rfl, rfl, fun _ => rfl, fun _ => rfl⟩

/-- The reply to a request. -/
theorem serve_ret {q : Request} {dstva : Option Nat} {r : Int}
    (hserve : serve q mem dstva s = .ret r s') : ∃ pg t t',
      (handle q.req mem s = .ret (r, pg) t ∨
        pg = none ∧ handle q.req mem s = .exit (.error r) t) ∧
      ipcSend q pg dstva t = .ret () t' ∧ s' = { t' with fsreq := none } := by
  have hsent : ∀ r' pg t, (do
      ipcSend q pg dstva
      modify fun s => { s with fsreq := none }
      pure r' : Prog Server Stop Int) t = .ret r s' →
        r' = r ∧ ∃ t', ipcSend q pg dstva t = .ret () t' ∧ s' = { t' with fsreq := none } := by
    intro r' pg t heq
    cases hsend : ipcSend q pg dstva t with
    | ret _ t' =>
        rw [bind_of_ret hsend] at heq
        cases heq
        exact ⟨rfl, t', rfl, rfl⟩
    | exit e t' =>
        rw [bind_of_exit hsend] at heq
        cases heq
  unfold serve at hserve
  cases hhandle : handle q.req mem s with
  | ret a t =>
      obtain ⟨r', pg⟩ := a
      have hrescue : rescue (handle q.req mem) errorValue s =
            .ret (r', pg) t := by
        unfold rescue
        rw [hhandle]
      rw [bind_of_ret hrescue] at hserve
      obtain ⟨rfl, t', hsend, hs'⟩ := hsent _ _ _ hserve
      exact ⟨pg, t, t', Or.inl rfl, hsend, hs'⟩
  | exit e t =>
      cases e with
      | panic =>
          have hrescue : rescue (handle q.req mem) errorValue s =
                .exit .panic t := by
            unfold rescue
            rw [hhandle]
            rfl
          rw [bind_of_exit hrescue] at hserve
          cases hserve
      | error r' =>
          have hrescue : rescue (handle q.req mem) errorValue s =
                .ret (r', none) t := by
            unfold rescue
            rw [hhandle]
            rfl
          rw [bind_of_ret hrescue] at hserve
          obtain ⟨rfl, t', hsend, hs'⟩ := hsent _ _ _ hserve
          exact ⟨none, t, t', Or.inr ⟨rfl, rfl⟩, hsend, hs'⟩

/-! ## The invariant -/

/-- What the history says about each entry: what its id is, whether its page has been allocated, and
that the page of an entry which is open belongs to the file of its last id. -/
structure Ids (tr : List Issue) (s : Server) : Prop where
  slot_eq : ∀ i, slot (s.opentab i).oFileid = i
  few : ∀ i, s.clients i + 3 ≤ 2 ^ 16
  never : ∀ i, lastIssue tr i = none →
    (s.oFd i).isNone = true ∧ (s.opentab i).oFileid = BitVec.ofNat 32 i ∧ ¬ s.Live i
  issued : ∀ i e, lastIssue tr i = some e →
    (s.oFd i).isNone = false ∧ (s.opentab i).oFileid = e.fileid ∧
      (∀ f, e.file = some f → (s.opentab i).oFile = some f) ∧ (s.Live i → e.file ≠ none)

/-- References come and go, but only an entry whose last open succeeded becomes open. -/
theorem Ids.preserve (hids : Ids tr s) (hopen : s'.opentab = s.opentab)
    (hfd : ∀ i, (s'.oFd i).isNone = (s.oFd i).isNone) (hfew : ∀ i, s'.clients i + 3 ≤ 2 ^ 16)
    (hlive : ∀ i, s'.Live i → s.Live i ∨ ∃ e, lastIssue tr i = some e ∧ e.file ≠ none) :
    Ids tr s' where
  slot_eq i := by
    rw [hopen]
    exact hids.slot_eq i
  few := hfew
  never i hlast := by
    obtain ⟨hnone, hid, hdead⟩ := hids.never i hlast
    rw [hfd, hopen]
    refine ⟨hnone, hid, fun h => ?_⟩
    cases hlive i h with
    | inl h => exact hdead h
    | inr h =>
        obtain ⟨e, he, _⟩ := h
        rw [hlast] at he
        cases he
  issued i e hlast := by
    obtain ⟨hsome, hid, hfile, hgood⟩ := hids.issued i e hlast
    rw [hfd, hopen]
    refine ⟨hsome, hid, hfile, fun h => ?_⟩
    cases hlive i h with
    | inl h => exact hgood h
    | inr h =>
        obtain ⟨e', he', hne⟩ := h
        rw [hlast] at he'
        cases he'
        exact hne

theorem Ids.frame (hids : Ids tr s) (hframe : Frame s s') : Ids tr s' := by
  have hclients : ∀ i, s'.clients i = s.clients i := by
    intro i
    unfold Server.clients
    rw [hframe.maps]
  refine hids.preserve hframe.opentab hframe.oFd (fun i => ?_) fun i hlive => Or.inl ?_
  · rw [hclients]
    exact hids.few i
  · unfold Server.Live at hlive ⊢
    rw [← hclients, ← hframe.isArg]
    exact hlive

/-- Fewer references. -/
theorem Ids.fewer (hids : Ids tr s) (hopen : s'.opentab = s.opentab) (hfd : s'.oFd = s.oFd)
    (hclients : ∀ i, s'.clients i ≤ s.clients i) (harg : ∀ i, s'.isArg i = true → s.isArg i = true) :
    Ids tr s' := by
  refine hids.preserve hopen (fun i => by rw [hfd]) (fun i => ?_) fun i hlive => Or.inl ?_
  · exact (Nat.add_le_add_right (hclients i) 3).trans (hids.few i)
  · cases hlive with
    | inl h => exact Or.inl (Nat.lt_of_lt_of_le h (hclients i))
    | inr h => exact Or.inr (harg i h)

/-- A page is mapped at one more place. -/
theorem Ids.map_fd (hids : Ids tr s) (hroom : s.clients i + 4 ≤ 2 ^ 16)
    (hgood : s.Live i ∨ ∃ e, lastIssue tr i = some e ∧ e.file ≠ none) : Ids tr (s.mapFd p i) := by
  refine hids.preserve rfl (fun _ => rfl) (fun j => ?_) fun j hlive => ?_
  · have hle : (s.mapFd p i).clients j ≤ s.clients j + if i = j then 1 else 0 :=
      Server.clients_map_fd
    have hfew := hids.few j
    by_cases hij : i = j
    · subst hij
      rw [if_pos rfl] at hle
      omega
    · rw [if_neg hij] at hle
      omega
  · have hle : (s.mapFd p i).clients j ≤ s.clients j + if i = j then 1 else 0 :=
      Server.clients_map_fd
    by_cases hij : i = j
    · subst hij
      exact hgood
    · rw [if_neg hij] at hle
      refine Or.inl ?_
      cases hlive with
      | inl h => exact Or.inl (Nat.lt_of_lt_of_le h hle)
      | inr h => exact Or.inr h

/-- An entry that `openfile_alloc` takes is not open. -/
theorem Ids.not_live (hids : Ids tr s) (hfree : s.pageref i ≤ 1) : ¬ s.Live i := by
  cases hlast : lastIssue tr i with
  | none => exact (hids.never i hlast).2.2
  | some e =>
      have hsome := (hids.issued i e hlast).1
      intro hlive
      have href := Server.pageref_eq hsome (hids.few i)
      unfold Server.Live at hlive
      cases hlive with
      | inl h => omega
      | inr h =>
          rw [h, if_pos rfl] at href
          omega

theorem slot_add_maxopen (fileid : Word) : slot (fileid + BitVec.ofNat 32 maxopen) = slot fileid := by
  have hlt := fileid.isLt
  apply Fin.ext
  show (fileid + BitVec.ofNat 32 maxopen).toNat % maxopen = fileid.toNat % maxopen
  unfold maxopen
  rw [BitVec.toNat_add, BitVec.toNat_ofNat]
  omega

theorem last_issue_cons {e : Issue} : lastIssue (e :: tr) i =
    if slot e.fileid = i then some e else lastIssue tr i := by
  unfold lastIssue
  rw [List.find?_cons]
  by_cases h : slot e.fileid = i
  · rw [if_pos h, beq_iff_eq.mpr h]
  · rw [if_neg h, beq_eq_false_iff_ne.mpr h]

/-- A new id for an entry, whose open has not succeeded yet. -/
theorem Ids.reopen (hids : Ids tr s) (hdead : ¬ s.Live i) :
    Ids (⟨(s.opentab i).oFileid + BitVec.ofNat 32 maxopen, none⟩ :: tr) (s.reopen i) := by
  have hslot : slot ((s.opentab i).oFileid + BitVec.ofNat 32 maxopen) = i :=
    (slot_add_maxopen _).trans (hids.slot_eq i)
  have hother : ∀ j, j ≠ i → (s.reopen i).opentab j = s.opentab j ∧
      (s.reopen i).oFd j = s.oFd j := by
    intro j hj
    exact ⟨if_neg hj, if_neg hj⟩
  have hid : ((s.reopen i).opentab i).oFileid =
      (s.opentab i).oFileid + BitVec.ofNat 32 maxopen := by
    simp [Server.reopen]
  have hfd : ((s.reopen i).oFd i).isNone = false := by
    simp [Server.reopen]
  refine ⟨fun j => ?_, hids.few, fun j hlast => ?_, fun j e hlast => ?_⟩
  · by_cases hj : j = i
    · subst hj
      rw [hid]
      exact hslot
    · rw [(hother j hj).1]
      exact hids.slot_eq j
  · rw [last_issue_cons] at hlast
    by_cases hj : j = i
    · subst hj
      rw [if_pos hslot] at hlast
      cases hlast
    · rw [if_neg fun h => hj (h.symm.trans hslot)] at hlast
      rw [(hother j hj).1, (hother j hj).2]
      exact hids.never j hlast
  · rw [last_issue_cons] at hlast
    by_cases hj : j = i
    · subst hj
      rw [if_pos hslot] at hlast
      obtain rfl := Option.some.inj hlast
      exact ⟨hfd, hid, fun f hf => absurd hf (by simp), fun h => absurd h hdead⟩
    · rw [if_neg fun h => hj (h.symm.trans hslot)] at hlast
      rw [(hother j hj).1, (hother j hj).2]
      exact hids.issued j e hlast

/-- The open of the newest id succeeds. -/
theorem Ids.fill_out {disk : Bytes} {f : Nat} {omode : Word}
    (hids : Ids (⟨fileid, none⟩ :: tr) s) (hslot : slot fileid = i) :
    Ids (⟨fileid, some f⟩ :: tr) (Server.fillOut { s with disk := disk } i f omode) := by
  have hother : ∀ j, j ≠ i →
      (Server.fillOut { s with disk := disk } i f omode).opentab j = s.opentab j ∧
        (Server.fillOut { s with disk := disk } i f omode).oFd j = s.oFd j := by
    intro j hj
    exact ⟨if_neg hj, if_neg hj⟩
  have hentry : (Server.fillOut { s with disk := disk } i f omode).opentab i =
      { s.opentab i with oFile := some f, oMode := omode } := if_pos rfl
  have hfd : ((Server.fillOut { s with disk := disk } i f omode).oFd i).isNone =
      (s.oFd i).isNone := by
    simp [Server.fillOut]
  refine ⟨fun j => ?_, hids.few, fun j hlast => ?_, fun j e hlast => ?_⟩
  · by_cases hj : j = i
    · subst hj
      rw [hentry]
      exact hids.slot_eq j
    · rw [(hother j hj).1]
      exact hids.slot_eq j
  · have hlast' := hids.never j
    rw [last_issue_cons] at hlast hlast'
    by_cases hj : j = i
    · subst hj
      rw [if_pos hslot] at hlast
      cases hlast
    · rw [if_neg fun h => hj (h.symm.trans hslot)] at hlast hlast'
      rw [(hother j hj).1, (hother j hj).2]
      exact hlast' hlast
  · have hlast' := hids.issued j
    rw [last_issue_cons] at hlast hlast'
    by_cases hj : j = i
    · subst hj
      rw [if_pos hslot] at hlast hlast'
      cases hlast
      obtain ⟨hsome, hid, -, -⟩ := hlast' _ rfl
      refine ⟨hfd.trans hsome, ?_, fun g hg => ?_, fun _ => Option.some_ne_none f⟩
      · rw [hentry]
        exact hid
      · rw [hentry]
        exact hg
    · rw [if_neg fun h => hj (h.symm.trans hslot)] at hlast hlast'
      rw [(hother j hj).1, (hother j hj).2]
      exact hlast' e hlast

/-- The request is unmapped when it has been served. -/
theorem Ids.done (hids : Ids tr s) : Ids tr { s with fsreq := none } :=
  hids.fewer rfl rfl (fun _ => Nat.le_refl _) fun _ h => Bool.noConfusion h

/-- The page of an open that succeeded is sent to the client. -/
theorem Ids.send (hids : Ids tr s) {q : Request} {pg : Option Ix} {dstva : Option Nat}
    (hgood : ∀ i ∈ pg, s.clients i + 4 ≤ 2 ^ 16 ∧
      ∃ e, lastIssue tr i = some e ∧ e.file ≠ none)
    (hsend : ipcSend q pg dstva s = .ret () s') : Ids tr s' := by
  unfold ipcSend at hsend
  cases hgone : q.gone with
  | true =>
      rw [hgone] at hsend
      cases hsend
  | false =>
      rw [hgone, if_neg Bool.false_ne_true] at hsend
      cases pg with
      | none =>
          cases hsend
          exact hids
      | some i =>
          cases dstva with
          | none =>
              cases hsend
              exact hids
          | some va =>
              cases hsend
              obtain ⟨hroom, hlast⟩ := hgood i rfl
              exact hids.map_fd hroom (Or.inr hlast)

theorem handle_open {req : Word} (hreq : req = fsreqOpen) :
    handle req mem = (do
      let i ← serveOpen mem
      pure (0, some i) : Prog Server Stop (Int × Option Ix)) := by
  unfold handle
  rw [if_pos hreq]

/-- The page of the request is there, or the server faults. -/
theorem read_req_cases (s : Server) :
    (∃ req, readReq s = .ret req s) ∨ readReq s = .exit .panic s := by
  have hget : (get : Prog Server Stop Server) s = .ret s s := rfl
  unfold readReq
  rw [bind_of_ret hget]
  cases s.fsreq with
  | none => exact Or.inr rfl
  | some arg =>
      obtain ⟨page, perm⟩ := arg
      cases page with
      | own bytes => exact Or.inl ⟨bytes, rfl⟩
      | fd i =>
          dsimp only
          cases s.oFd i with
          | none => exact Or.inr rfl
          | some bytes => exact Or.inl ⟨bytes, rfl⟩

/-- Serving an open. -/
theorem Ids.serve_open (hids : Ids tr s) {q : Request} {dstva : Option Nat} {r : Int}
    (hreq : q.req = fsreqOpen) (hserve : serve q mem dstva s = .ret r s') :
    Ids (issue q.req mem s ++ tr) s' := by
  obtain ⟨pg, t, t', hhandle, hsend, rfl⟩ := serve_ret hserve
  refine Ids.done ?_
  rw [handle_open hreq] at hhandle
  unfold issue
  rw [if_pos hreq]
  cases read_req_cases s with
  | inr hpanic =>
      have hopen : serveOpen mem s = .exit .panic s := bind_of_exit hpanic
      rw [bind_of_exit hopen] at hhandle
      cases hhandle with
      | inl h => cases h
      | inr h => cases h.2
  | inl hpage =>
      obtain ⟨req, hread⟩ := hpage
      cases serve_open_cases mem hread with
      | inl hfail =>
          obtain ⟨r', halloc, hopen⟩ := hfail
          rw [bind_of_exit hopen] at hhandle
          rw [halloc, hopen]
          cases hhandle with
          | inl h => cases h
          | inr h =>
              obtain ⟨rfl, h⟩ := h
              cases h
              exact hids.send (fun i hi => absurd hi (Option.not_mem_none i)) hsend
      | inr hopened =>
          obtain ⟨i, hfree, halloc, hcase⟩ := hopened
          have hdead := hids.not_live hfree
          have hreopened := hids.reopen hdead
          have hslot : slot ((s.opentab i).oFileid + BitVec.ofNat 32 maxopen) = i :=
            (slot_add_maxopen _).trans (hids.slot_eq i)
          cases hcase with
          | inl hgood =>
              obtain ⟨f, disk, hres, hopen⟩ := hgood
              rw [bind_of_ret hopen] at hhandle
              rw [halloc, hopen, hres]
              cases hhandle with
              | inl h =>
                  cases h
                  refine (hreopened.fill_out hslot).send (fun j hj => ?_) hsend
                  obtain rfl := Option.some.inj hj
                  refine ⟨?_, _, (last_issue_cons.trans (if_pos hslot)), Option.some_ne_none f⟩
                  have hzero : s.clients i = 0 := by
                    unfold Server.Live at hdead
                    omega
                  show s.clients i + 4 ≤ 2 ^ 16
                  rw [hzero]
                  decide
              | inr h => cases h.2
          | inr hbad =>
              obtain ⟨e, t₁, hopen, hframe⟩ := hbad
              rw [bind_of_exit hopen] at hhandle
              rw [halloc, hopen]
              cases hhandle with
              | inl h => cases h
              | inr h =>
                  obtain ⟨rfl, h⟩ := h
                  cases h
                  exact (hreopened.frame hframe).send (fun i hi => absurd hi (Option.not_mem_none i)) hsend

/-- Only an open sends a page. -/
theorem handle_page {req : Word} (hreq : req ≠ fsreqOpen) :
    wp (handle req mem) (fun a _ => a.2 = none) (fun _ _ => True) s := by
  have hnone : ∀ x : Prog Server Stop Word, wp (do
      let r ← x
      pure (r.toInt, none) : Prog Server Stop (Int × Option Ix)) (fun a _ => a.2 = none)
      (fun _ _ => True) s := by
    intro x
    rw [wp_bind]
    exact wp_of_forall (fun _ _ => rfl) fun _ _ => trivial
  unfold handle
  rw [if_neg hreq, wp_ite, wp_ite, wp_ite]
  exact ⟨fun _ => hnone serveRead, fun _ => ⟨fun _ => hnone serveStat,
    fun _ => ⟨fun _ => rfl, fun _ => rfl⟩⟩⟩

/-- Serving any other request. -/
theorem Ids.serve_other (hids : Ids tr s) {q : Request} {dstva : Option Nat} {r : Int}
    (hreq : q.req ≠ fsreqOpen) (hserve : serve q mem dstva s = .ret r s') :
    Ids (issue q.req mem s ++ tr) s' := by
  obtain ⟨pg, t, t', hhandle, hsend, rfl⟩ := serve_ret hserve
  have hnothing : issue q.req mem s = [] := if_neg hreq
  have hframe := frames_handle mem hreq s
  rw [hnothing]
  refine Ids.done ?_
  cases hhandle with
  | inl h =>
      rw [wp_of_ret h] at hframe
      have hpage : pg = none := (wp_of_ret h).mp (handle_page hreq)
      rw [hpage] at hsend
      exact (hids.frame hframe).send (fun i hi => absurd hi (Option.not_mem_none i)) hsend
  | inr h =>
      obtain ⟨rfl, h⟩ := h
      rw [wp_of_exit h] at hframe
      exact (hids.frame hframe).send (fun i hi => absurd hi (Option.not_mem_none i)) hsend

/-- What one step preserves. -/
theorem Ids.step {w w' : World} {a : Act} (hids : Ids tr w.server) (hroom : Roomy w a)
    (hstep : Step w a w') : Ids (issues w a ++ tr) w'.server := by
  cases hstep with
  | @recv s whom req arg hsend =>
      cases arg with
      | none => exact hids
      | some arg =>
          refine hids.preserve rfl (fun _ => rfl) hids.few fun i hlive => Or.inl ?_
          cases hlive with
          | inl h => exact Or.inl h
          | inr h =>
              obtain ⟨page, perm⟩ := arg
              cases page with
              | own bytes => exact Bool.noConfusion h
              | fd j =>
                  have hji : j = i := eq_of_beq h
                  obtain ⟨va, hmem⟩ := hsend _ rfl
                  exact Or.inl (Server.clients_pos.mpr ⟨_, hji ▸ hmem⟩)
  | @serve s s' q mem dstva r hserve =>
      show Ids (issue q.req mem s ++ tr) s'
      by_cases hreq : q.req = fsreqOpen
      · exact hids.serve_open hreq hserve
      · exact hids.serve_other hreq hserve
  | @writeArg s pending old new perm harg =>
      have hids' : Ids tr { s with fsreq := some ⟨.own new, perm⟩ } :=
        hids.fewer rfl rfl (fun _ => Nat.le_refl _) fun _ h => Bool.noConfusion h
      cases pending with
      | none => exact hids'
      | some q => exact hids'
  | @writeFd s pending i bytes p hmap =>
      have hids' := hids.frame (frame_write_fd (i := i) fun _ => bytes)
      cases pending with
      | none => exact hids'
      | some q => exact hids'
  | @share s pending i p p' hmap =>
      have hlive : s.Live i := Or.inl (Server.clients_pos.mpr ⟨p, hmap⟩)
      have hids' : Ids tr (s.mapFd p' i) := hids.map_fd (hroom p' i rfl) (Or.inl hlive)
      cases pending with
      | none => exact hids'
      | some q => exact hids'
  | @unmap s pending p =>
      have hids' : Ids tr (s.unmap p) :=
        hids.fewer rfl rfl (fun _ => Server.clients_unmap) fun _ h => h
      cases pending with
      | none => exact hids'
      | some q => exact hids'
  | @destroy s pending env =>
      have hids' : Ids tr (s.unmapAll env) :=
        hids.fewer rfl rfl (fun _ => Server.clients_unmap_all) fun _ h => h
      cases pending with
      | none => exact hids'
      | some q => exact hids'

theorem Ids.init (disk : Bytes) : Ids [] (World.init disk).server where
  slot_eq i := by
    have hlt := i.isLt
    apply Fin.ext
    show (BitVec.ofNat 32 i).toNat % maxopen = i
    unfold maxopen at hlt ⊢
    rw [BitVec.toNat_ofNat]
    omega
  few _ := by
    show 0 + 3 ≤ 2 ^ 16
    decide
  never i _ := by
    refine ⟨rfl, rfl, fun h => ?_⟩
    cases h with
    | inl h => exact absurd h (Nat.not_lt_zero 0)
    | inr h => exact Bool.noConfusion h
  issued _ _ h := (by cases h)

/-- The history is right in every run. -/
theorem Run.ids {disk : Bytes} {w : World} (hrun : Run disk tr w) : Ids tr w.server := by
  induction hrun with
  | init => exact Ids.init disk
  | step _ hroom hstep ih => exact ih.step hroom hstep

theorem accepts_iff : Accepts s fileid ↔
    s.pageref (slot fileid) ≠ 1 ∧ (s.opentab (slot fileid)).oFileid = fileid := by
  have hget : (get : Prog Server Stop Server) s = .ret s s := rfl
  unfold Accepts openfileLookup
  rw [bind_of_ret hget]
  by_cases h : s.pageref (slot fileid) = 1 ∨ (s.opentab (slot fileid)).oFileid ≠ fileid
  · rw [if_pos h]
    constructor
    · intro hret
      cases hret
    · intro ⟨hone, hid⟩
      cases h with
      | inl h => exact absurd h hone
      | inr h => exact absurd hid h
  · rw [if_neg h]
    rw [not_or, not_not] at h
    exact ⟨fun _ => h, fun _ => rfl⟩

/-- The first id of an entry is its index. -/
theorem slot_eq_iff (fileid : Word) :
    BitVec.ofNat 32 (slot fileid) = fileid ↔ ¬ maxopen ≤ fileid.toNat := by
  have hlt := fileid.isLt
  have hslot : (BitVec.ofNat 32 (slot fileid)).toNat = fileid.toNat % maxopen := by
    show (BitVec.ofNat 32 (fileid.toNat % maxopen)).toNat = _
    unfold maxopen
    rw [BitVec.toNat_ofNat]
    omega
  rw [← BitVec.toNat_inj, hslot]
  unfold maxopen
  omega

/-- In every state of every run `openfile_lookup` is right about a file id, if and only if the entry
has been opened before or the id is not its first one, and the page of the entry is not mapped by
the request alone while the id is that of the entry. -/
theorem lookup_right {disk : Bytes} {w : World} (hrun : Run disk tr w) (fileid : Word) :
    LookupRight tr w.server fileid ↔
      ((w.server.oFd (slot fileid)).isSome = true ∨ maxopen ≤ fileid.toNat) ∧
        ¬ (w.server.OnlyArg (slot fileid) ∧
          (w.server.opentab (slot fileid)).oFileid = fileid) := by
  have hids := hrun.ids
  have hmapped := @Server.clients_pos w.server (slot fileid)
  unfold LookupRight
  rw [accepts_iff]
  cases hlast : lastIssue tr (slot fileid) with
  | none =>
      -- an entry that was never opened has its index for an id, and no references at all
      obtain ⟨hnone, hid, hdead⟩ := hids.never _ hlast
      have href : w.server.pageref (slot fileid) = 0 := if_pos hnone
      have hfirst : BitVec.ofNat 32 (slot fileid) = fileid ↔ ¬ maxopen ≤ fileid.toNat :=
        slot_eq_iff fileid
      rw [href, hid, hfirst, Option.isSome_eq_false_iff.mpr hnone]
      constructor
      · intro hright
        refine ⟨Or.inr ?_, fun honly => hdead (Or.inr honly.1.1)⟩
        by_contra hle
        obtain ⟨f, hf⟩ := (hright.1.mp ⟨Nat.zero_ne_one, hle⟩).1
        cases hf
      · intro ⟨hle, _⟩
        cases hle with
        | inl h => cases h
        | inr hle =>
            refine ⟨⟨fun h => absurd hle h.2, fun h => ?_⟩, fun h => absurd hle h.2⟩
            obtain ⟨f, hf⟩ := h.1
            cases hf
  | some e =>
      obtain ⟨hsome, hid, hfile, hgood⟩ := hids.issued _ e hlast
      have hone := Server.pageref_eq_one hsome (hids.few (slot fileid))
      have hpage : (w.server.oFd (slot fileid)).isSome = true :=
        Option.isSome_iff_ne_none.mpr fun h => by
          rw [h] at hsome
          cases hsome
      rw [Ne, hone, not_not, hid]
      constructor
      · intro hright
        refine ⟨Or.inl hpage, fun ⟨⟨harg, hno⟩, hsame⟩ => ?_⟩
        exact hno (hright.1.mp ⟨Or.inr harg, hsame⟩).2
      · intro ⟨_, hno⟩
        have hopen : w.server.Live (slot fileid) ∧ e.fileid = fileid →
            (∃ f, some e = some ⟨fileid, some f⟩ ∧
              (w.server.opentab (slot fileid)).oFile = some f) ∧
                w.server.Mapped (slot fileid) := by
          intro ⟨hlive, hsame⟩
          obtain ⟨f, hf⟩ := Option.ne_none_iff_exists'.mp (hgood hlive)
          refine ⟨⟨f, ?_, hfile f hf⟩, ?_⟩
          · obtain ⟨id, file⟩ := e
            cases hf
            cases hsame
            rfl
          · cases hlive with
            | inl h => exact hmapped.mp h
            | inr harg =>
                by_contra hunmapped
                exact hno ⟨⟨harg, hunmapped⟩, hsame⟩
        refine ⟨⟨fun h => ?_, fun ⟨⟨f, hf⟩, hmap⟩ => ?_⟩, fun h => (hopen h).1⟩
        · obtain ⟨⟨f, hf, _⟩, hmap⟩ := hopen h
          exact ⟨⟨f, hf⟩, hmap⟩
        · obtain rfl := Option.some.inj hf
          exact ⟨Or.inl (hmapped.mpr hmap), rfl⟩

/-! ## A file is opened -/

/-- A request page of a client's own. -/
def ownPage (bytes : Bytes) : Arg := ⟨.own bytes, pteP ||| pteW ||| pteU⟩

/-- The request to open "a", and the one for the first three bytes of the file that was opened
first. -/
def openA : Bytes := Bytes.store (fun _ => 0) 0 [0x61]
def readThree : Bytes := (Bytes.store32 (fun _ => 0) 0 1024).store32 4 3

/-- The first entry of `opentab`. -/
abbrev ix0 : Ix := ⟨0, by decide⟩

/-- The server when environment 0 asks it to open the file of the image, and after it has replied: the
page of the open file is mapped at page number 0 of environment 0. -/
def asked : Server := { (World.init Fs.oneFile).server with fsreq := some (ownPage openA) }
def opened : Server := (serve ⟨0, fsreqOpen, false⟩ true (some 0) asked).state

/-- A client may send a page of its own. -/
theorem step_recv_own (s : Server) (whom : EnvIx) (req : Word) (bytes : Bytes) :
    Step ⟨s, none⟩ (.recv whom req (some (ownPage bytes)))
      ⟨{ s with fsreq := some (ownPage bytes) }, some ⟨whom, req, false⟩⟩ := by
  have hgot : received whom req (some (ownPage bytes)) = some ⟨whom, req, false⟩ :=
    if_neg (by decide : ¬ (pteP ||| pteW ||| pteU) &&& pteP = 0)
  rw [← hgot]
  refine Step.recv fun a ha => ?_
  obtain rfl := Option.some.inj ha
  trivial

theorem serve_open_one_file :
    serve ⟨0, fsreqOpen, false⟩ true (some 0) asked = .ret 0 opened :=
  ret_of_returned (by decide +kernel)

theorem run_opened : Run Fs.oneFile [⟨1024, some 16384⟩] ⟨opened, none⟩ := by
  have hroom : ∀ w whom req arg, Roomy w (.recv whom req arg) := by
    intro w whom req arg p i h
    cases h
  have hasked : Run Fs.oneFile [] ⟨asked, some ⟨0, fsreqOpen, false⟩⟩ :=
    Run.init.step (hroom _ _ _ _) (step_recv_own _ 0 fsreqOpen openA)
  have hissue : issue fsreqOpen true asked = [⟨1024, some 16384⟩] := by decide +kernel
  have hrun := hasked.step (fun p i h => (by cases h)) (.serve serve_open_one_file)
  have hissues : issues ⟨asked, some ⟨0, fsreqOpen, false⟩⟩ (.serve true (some 0)) =
      [⟨1024, some 16384⟩] := hissue
  rw [hissues] at hrun
  exact hrun

/-- The file is opened by environment 0, shared with environment 1 and closed by environment 0, and
environment 1 exits: its id is accepted until then. -/
theorem lookup_right_shared : ∃ s s' : Server,
    Run Fs.oneFile [⟨1024, some 16384⟩] ⟨s, none⟩ ∧ (s.opentab ix0).oFile = some 16384 ∧
      Accepts s 1024 ∧ LookupRight [⟨1024, some 16384⟩] s 1024 ∧
      Step ⟨s, none⟩ (.destroy 1) ⟨s', none⟩ ∧
      ¬ Accepts s' 1024 ∧ LookupRight [⟨1024, some 16384⟩] s' 1024 := by
  have hmap : ((0, 0), ix0) ∈ opened.maps := by decide +kernel
  have hroom : Roomy ⟨opened, none⟩ (.share (1, 0) ix0) := by
    intro p i h
    cases h
    decide +kernel
  have hshared : Run Fs.oneFile [⟨1024, some 16384⟩] ⟨opened.mapFd (1, 0) ix0, none⟩ :=
    run_opened.step hroom (.share hmap)
  have hclosed : Run Fs.oneFile [⟨1024, some 16384⟩]
      ⟨(opened.mapFd (1, 0) ix0).unmap (0, 0), none⟩ :=
    hshared.step (fun p i h => (by cases h)) .unmap
  have hexit : Step ⟨(opened.mapFd (1, 0) ix0).unmap (0, 0), none⟩ (.destroy 1)
      ⟨((opened.mapFd (1, 0) ix0).unmap (0, 0)).unmapAll 1, none⟩ := .destroy
  refine ⟨_, _, hclosed, by decide +kernel, accepts_iff.mpr (by decide +kernel),
    (lookup_right hclosed 1024).mpr ⟨.inl (by decide +kernel), fun h => ?_⟩, hexit, fun h => ?_,
    (lookup_right (hclosed.step (fun p i h => (by cases h)) hexit) 1024).mpr
      ⟨.inl (by decide +kernel), fun h => ?_⟩⟩
  · exact absurd h.1.1 (by decide +kernel)
  · exact (accepts_iff.mp h).1 (by decide +kernel)
  · exact absurd h.1.1 (by decide +kernel)

/-- The first request of all may be for the id 0, which was never issued, and it is accepted. -/
theorem lookup_never_issued : Run Fs.oneFile [] (World.init Fs.oneFile) ∧
    Accepts (World.init Fs.oneFile).server 0 ∧
    ¬ LookupRight [] (World.init Fs.oneFile).server 0 := by
  have haccept : Accepts (World.init Fs.oneFile).server 0 := by
    rw [accepts_iff]
    exact ⟨by decide, rfl⟩
  refine ⟨.init, haccept, fun hright => ?_⟩
  obtain ⟨f, hf⟩ := (hright.1.mp haccept).1
  cases hf

end Labs.Jos.Serv
