import Labs.Jos.FsSafe
import Labs.Jos.ServIds

/-!
# The file server survives its clients

A request makes the server panic when its client is gone before the reply, when it names the first
id of an entry that was never opened, and when the reply needs a page that may not be written to. On
a valid image nothing else does: the invariant is that the disk stays laid out, and that the files
of the open entries are files of the disk.
-/

namespace Labs.Jos.Serv

open Prog
open Fs (Stop Layout FileIn Later Copies ValidImage)

/-- The server may write to the page of the request. -/
def Server.Writable (s : Server) : Prop := ∃ arg, s.fsreq = some arg ∧ arg.perm &&& pteW ≠ 0

/-- The read that the request asks for puts bytes in the page. -/
def Reads (s : Server) (req : Bytes) : Prop :=
  ∃ f fd, (s.opentab (slot (reqFileid req))).oFile = some f ∧
    s.oFd (slot (reqFileid req)) = some fd ∧
      Copies s.disk f (Fs.minU (reqN req) (BitVec.ofNat 32 4096)) (fd.load32 fdOffset)

/-- The request names no entry that was never opened. -/
def Opened (s : Server) (req : Bytes) : Prop :=
  Accepts s (reqFileid req) → (s.oFd (slot (reqFileid req))).isSome = true

/-- A request that does not make the server panic. -/
structure Careful (q : Request) (s : Server) : Prop where
  there : q.gone = false
  opened : ∀ req, readReq s = .ret req s → q.req = fsreqRead ∨ q.req = fsreqStat → Opened s req
  writable : ∀ req, readReq s = .ret req s → Accepts s (reqFileid req) →
    q.req = fsreqRead ∧ Reads s req ∨ q.req = fsreqStat → s.Writable

/-- The runs in which every step meets a condition. The last state is `none` when the server has
panicked. -/
inductive Runs (C : World → Act → Prop) (disk : Bytes) : Option World → Prop where
  | init : Runs C disk (some (World.init disk))
  | step {w w' : World} {a : Act} (hrun : Runs C disk (some w)) (hcond : C w a)
      (hstep : Step w a w') : Runs C disk (some w')
  | panic {s s' : Server} {q : Request} {mem : Bool} {dstva : Option Nat} {e : Stop}
      (hrun : Runs C disk (some ⟨s, some q⟩)) (hcond : C ⟨s, some q⟩ (.serve mem dstva))
      (hpanic : serve q mem dstva s = .exit e s') : Runs C disk none

/-- There is always enough memory. -/
def EnoughMemory (_ : World) (a : Act) : Prop := ∀ mem dstva, a = .serve mem dstva → mem = true

/-- There is always enough memory, and no counter of a page wraps around. -/
def Ordinary (w : World) (a : Act) : Prop := EnoughMemory w a ∧ Roomy w a

/-- An ordinary step, and the request that is served in it is careful. -/
def CarefulAct (w : World) (a : Act) : Prop :=
  Ordinary w a ∧ ∀ mem dstva, a = .serve mem dstva → ∀ q ∈ w.pending, Careful q w.server

/-- The disk is laid out, and the files that are open are files of it. -/
structure Sound (nblocks : Word) (dir ind : Nat → Prop) (s : Server) : Prop where
  layout : Layout nblocks dir ind s.disk
  file : ∀ i f, (s.opentab i).oFile = some f → FileIn dir s.disk f
  page : ∀ i f, (s.opentab i).oFile = some f → (s.oFd i).isNone = false

variable {nblocks : Word} {dir ind : Nat → Prop} {tr : List Issue} {s s' : Server} {i : Ix}
  {mem : Bool}

/-- A later disk with the same open files. -/
theorem Sound.later (hsound : Sound nblocks dir ind s)
    (hlater : Later nblocks dir ind s.disk s'.disk) (hframe : Frame s s') :
    Sound nblocks dir ind s' where
  layout := hlater.1
  file i f hf := by
    rw [hframe.opentab] at hf
    exact (hlater.2 f).mpr (hsound.file i f hf)
  page i f hf := by
    rw [hframe.opentab] at hf
    rw [hframe.oFd]
    exact hsound.page i f hf

/-- An entry whose id is accepted and whose page is there has a file. -/
theorem Ids.accepted (hids : Ids tr s) {fileid : Word} (haccept : Accepts s fileid)
    (hpage : (s.oFd (slot fileid)).isSome = true) :
    ∃ f fd, (s.opentab (slot fileid)).oFile = some f ∧ s.oFd (slot fileid) = some fd := by
  obtain ⟨fd, hfd⟩ := Option.isSome_iff_exists.mp hpage
  have hsome : (s.oFd (slot fileid)).isNone = false := by
    rw [hfd]
    rfl
  obtain ⟨hone, -⟩ := accepts_iff.mp haccept
  cases hlast : lastIssue tr (slot fileid) with
  | none =>
      have hnone := (hids.never _ hlast).1
      rw [hsome] at hnone
      cases hnone
  | some e =>
      obtain ⟨-, -, hfile, hgood⟩ := hids.issued _ e hlast
      rw [Ne, Server.pageref_eq_one hsome (hids.few _), not_not] at hone
      obtain ⟨f, hf⟩ := Option.ne_none_iff_exists'.mp (hgood hone)
      exact ⟨f, fd, hfile f hf, hfd⟩

/-- The page of a request can be read. -/
theorem Ids.read_req (hids : Ids tr s) (harg : s.fsreq ≠ none) :
    ∃ bytes, readReq s = .ret bytes s := by
  cases read_req_cases s with
  | inl h => exact h
  | inr h =>
      exfalso
      obtain ⟨⟨page, perm⟩, hpage⟩ := Option.ne_none_iff_exists'.mp harg
      unfold readReq at h
      rw [get_bind, hpage] at h
      cases page with
      | own bytes => cases h
      | fd i =>
          have hlive : s.Live i := by
            refine Or.inr ?_
            unfold Server.isArg
            rw [hpage]
            exact beq_self_eq_true i
          have hsome : (s.oFd i).isNone = false := by
            cases hlast : lastIssue tr i with
            | none => exact absurd hlive (hids.never i hlast).2.2
            | some e => exact (hids.issued i e hlast).1
          cases hfd : s.oFd i with
          | none =>
              rw [hfd] at hsome
              cases hsome
          | some bytes =>
              dsimp only at h
              rw [hfd] at h
              cases h

theorem lookup_refused {fileid : Word} (hrefused : ¬ Accepts s fileid) :
    openfileLookup fileid s = .exit (.error (-eInval)) s := by
  have hget : (get : Prog Server Stop Server) s = .ret s s := rfl
  rw [accepts_iff, not_and_or, not_not] at hrefused
  unfold openfileLookup
  rw [bind_of_ret hget, if_pos hrefused]
  rfl

/-- A write to the page of the request. -/
theorem write_req_wp (f : Bytes → Bytes) (harg : s.fsreq ≠ none) :
    wp (writeReq f) (fun _ s' => s.Writable ∧ s'.Writable ∧ s'.fsreq ≠ none ∧ s'.disk = s.disk)
      (fun e _ => e = .panic ∧ ¬ s.Writable) s := by
  obtain ⟨⟨page, perm⟩, hpage⟩ := Option.ne_none_iff_exists'.mp harg
  have hwritable : s.Writable ↔ perm &&& pteW ≠ 0 := by
    constructor
    · intro ⟨arg, hargs, hperm⟩
      rw [hpage] at hargs
      obtain rfl := Option.some.inj hargs
      exact hperm
    · exact fun h => ⟨_, hpage, h⟩
  unfold writeReq
  rw [wp_bind, wp_get, hpage]
  show wp (if _ then _ else _) _ _ _
  rw [wp_ite]
  refine ⟨fun hro => ⟨rfl, fun h => hwritable.mp h hro⟩, fun hrw => ?_⟩
  cases page with
  | own bytes =>
      exact ⟨hwritable.mpr hrw, ⟨_, rfl, hrw⟩, Option.some_ne_none _, rfl⟩
  | fd i =>
      exact ⟨hwritable.mpr hrw, ⟨_, hpage, hrw⟩, harg, rfl⟩

/-- `serve_read` panics when the entry was never opened, or when it cannot write what it reads. -/
theorem serve_read_wp {req : Bytes} (hids : Ids tr s) (hsound : Sound nblocks dir ind s)
    (hreq : readReq s = .ret req s) (harg : s.fsreq ≠ none) :
    wp serveRead
      (fun _ s' => (Opened s req ∧ (Accepts s (reqFileid req) → Reads s req → s.Writable)) ∧
        Later nblocks dir ind s.disk s'.disk)
      (fun e s' => (e = .panic ∧
          ¬ (Opened s req ∧ (Accepts s (reqFileid req) → Reads s req → s.Writable))) ∨
        (Opened s req ∧ (Accepts s (reqFileid req) → Reads s req → s.Writable)) ∧
          (∃ r, e = .error r) ∧ Later nblocks dir ind s.disk s'.disk) s := by
  unfold serveRead
  rw [wp_bind, wp_of_ret hreq, wp_bind]
  by_cases haccept : Accepts s (reqFileid req)
  · rw [wp_of_ret haccept, wp_bind, wp_get]
    by_cases hpage : (s.oFd (slot (reqFileid req))).isSome = true
    · obtain ⟨f, fd, hf, hfd⟩ := hids.accepted haccept hpage
      have hreads : Reads s req ↔ Copies s.disk f (Fs.minU (reqN req) (BitVec.ofNat 32 4096))
          (fd.load32 fdOffset) := by
        constructor
        · intro ⟨f', fd', hf', hfd', h⟩
          rw [hf] at hf'
          rw [hfd] at hfd'
          obtain rfl := Option.some.inj hf'
          obtain rfl := Option.some.inj hfd'
          exact h
        · exact fun h => ⟨f, fd, hf, hfd, h⟩
      rw [hf, hfd]
      dsimp only
      rw [wp_bind, onDisk, wp_zoom]
      refine wp_mono (hsound.layout.read (hsound.file _ f hf) _ _) ?_ ?_
      · intro ⟨r, bytes⟩ m' ⟨hlater, hbytes⟩
        dsimp only at hbytes ⊢
        by_cases hnil : bytes ≠ []
        · have hread := hreads.mpr (hbytes.mp hnil)
          rw [if_pos hnil, wp_bind]
          refine wp_mono (write_req_wp _ harg) ?_ ?_
          · intro _ t ⟨hw, _, _, hdisk⟩
            refine ⟨⟨fun _ => hpage, fun _ _ => hw⟩, ?_⟩
            show Later nblocks dir ind s.disk t.disk
            rw [hdisk]
            exact hlater
          · intro e t ⟨he, hw⟩
            exact Or.inl ⟨he, fun h => hw (h.2 haccept hread)⟩
        · rw [if_neg hnil]
          have hread : ¬ Reads s req := fun h => hnil (hbytes.mpr (hreads.mp h))
          exact ⟨⟨fun _ => hpage, fun _ h => absurd h hread⟩, hlater⟩
      · intro e m' ⟨hnot, hm, he⟩
        refine Or.inr ⟨⟨fun _ => hpage, fun _ h => absurd (hreads.mp h) hnot⟩, he, ?_⟩
        rw [hm]
        exact hsound.layout.later
    · have hnone : s.oFd (slot (reqFileid req)) = none := Option.not_isSome_iff_eq_none.mp hpage
      rw [hnone]
      cases (s.opentab (slot (reqFileid req))).oFile with
      | none => exact Or.inl ⟨rfl, fun h => hpage (h.1 haccept)⟩
      | some f => exact Or.inl ⟨rfl, fun h => hpage (h.1 haccept)⟩
  · rw [wp_of_exit (lookup_refused haccept)]
    exact Or.inr ⟨⟨fun h => absurd h haccept, fun h => absurd h haccept⟩, ⟨_, rfl⟩,
      hsound.layout.later⟩

/-- The name of a file ends. -/
theorem strlen_some {m : Bytes} {f : Nat} (hnamed : ∃ n, n < Fs.maxnamelen ∧ m (f + n) = 0) :
    ∃ n, strlen m f = some n := by
  obtain ⟨n, hn, hzero⟩ := hnamed
  have hlt : n < 128 := hn
  unfold strlen
  rw [← Option.isSome_iff_exists, List.find?_isSome]
  exact ⟨n, List.mem_range.mpr (by omega), by rw [hzero]; rfl⟩

/-- `serve_stat` panics when the entry was never opened, or when it cannot write its reply. -/
theorem serve_stat_wp {req : Bytes} (hids : Ids tr s) (hsound : Sound nblocks dir ind s)
    (hreq : readReq s = .ret req s) (harg : s.fsreq ≠ none) :
    wp serveStat
      (fun _ s' => (Opened s req ∧ (Accepts s (reqFileid req) → s.Writable)) ∧
        Later nblocks dir ind s.disk s'.disk)
      (fun e s' => (e = .panic ∧
          ¬ (Opened s req ∧ (Accepts s (reqFileid req) → s.Writable))) ∨
        (Opened s req ∧ (Accepts s (reqFileid req) → s.Writable)) ∧
          (∃ r, e = .error r) ∧ Later nblocks dir ind s.disk s'.disk) s := by
  unfold serveStat
  rw [wp_bind, wp_of_ret hreq, wp_bind]
  by_cases haccept : Accepts s (reqFileid req)
  · rw [wp_of_ret haccept, wp_bind, wp_get]
    cases hfile : (s.opentab (slot (reqFileid req))).oFile with
    | none =>
        refine Or.inl ⟨rfl, fun h => ?_⟩
        obtain ⟨f, fd, hf, -⟩ := hids.accepted haccept (h.1 haccept)
        rw [hfile] at hf
        cases hf
    | some f =>
        have hin := hsound.file _ f hfile
        have hplace : f < nblocks.toNat * 4096 :=
          hsound.layout.size_place hin (by decide : 0 < 256)
        have hfault : Fs.bcPgfault f s.disk = .ret () s.disk :=
          hsound.layout.sized.returns_pgfault hplace
        obtain ⟨n, hn⟩ := strlen_some (hsound.layout.file f hin).named
        have hpage : Opened s req := by
          intro _
          have hsome := hsound.page _ f hfile
          cases hfd : s.oFd (slot (reqFileid req)) with
          | none =>
              rw [hfd] at hsome
              cases hsome
          | some fd => rfl
        dsimp only
        rw [wp_bind, onDisk, wp_zoom, wp_of_ret hfault, hn]
        dsimp only
        rw [wp_bind]
        refine wp_mono (write_req_wp _ harg) ?_ ?_
        · intro _ t ⟨hw, hwt, hargt, hdisk⟩
          have hw' : s.Writable := hw
          rw [wp_bind]
          refine wp_mono (write_req_wp _ hargt) ?_ ?_
          · intro _ t' ⟨_, hwt', hargt', hdisk'⟩
            rw [wp_bind]
            refine wp_mono (write_req_wp _ hargt') ?_ ?_
            · intro _ t'' ⟨_, _, _, hdisk''⟩
              refine ⟨⟨hpage, fun _ => hw'⟩, ?_⟩
              show Later nblocks dir ind s.disk t''.disk
              rw [hdisk'', hdisk', hdisk]
              exact hsound.layout.later
            · intro e t'' ⟨_, hro⟩
              exact absurd hwt' hro
          · intro e t' ⟨_, hro⟩
            exact absurd hwt hro
        · intro e t ⟨he, hro⟩
          exact Or.inl ⟨he, fun h => hro (h.2 haccept)⟩
  · rw [wp_of_exit (lookup_refused haccept)]
    exact Or.inr ⟨⟨fun h => absurd h haccept, fun h => absurd h haccept⟩, ⟨_, rfl⟩,
      hsound.layout.later⟩

/-- An entry is filled out with a file of the disk. -/
theorem Sound.fill_out (hsound : Sound nblocks dir ind s) {g : Nat} (hg : FileIn dir s.disk g)
    (hpage : (s.oFd i).isNone = false) (omode : Word) :
    Sound nblocks dir ind (s.fillOut i g omode) := by
  refine ⟨hsound.layout, fun j f hf => ?_, fun j f hf => ?_⟩
  · by_cases hj : j = i
    · subst hj
      have hgf : g = f := by simpa [Server.fillOut] using hf
      exact hgf ▸ hg
    · have hf' : (s.opentab j).oFile = some f := by simpa [Server.fillOut, hj] using hf
      exact hsound.file j f hf'
  · by_cases hj : j = i
    · subst hj
      simpa [Server.fillOut] using hpage
    · have hf' : (s.opentab j).oFile = some f := by simpa [Server.fillOut, hj] using hf
      have hold := hsound.page j f hf'
      simpa [Server.fillOut, hj] using hold

/-- The part of `serve_open` after an entry has been taken. -/
theorem open_file_wp {path : List Byte} {omode : Word} (hsound : Sound nblocks dir ind s)
    (hpage : (s.oFd i).isNone = false) (hzero : (0 : Byte) ∉ path) :
    wp (do
        let f ← onDisk (Fs.fileOpen path)
        modify fun s => s.fillOut i f omode
        pure i : Prog Server Stop Ix)
      (fun _ s' => Sound nblocks dir ind s')
      (fun e s' => (∃ r, e = .error r) ∧ Sound nblocks dir ind s') s := by
  rw [wp_bind, onDisk, wp_zoom]
  refine wp_mono (hsound.layout.open_wp hzero) ?_ ?_
  · intro g m' ⟨hm, hg⟩
    subst hm
    exact hsound.fill_out hg hpage _
  · intro e m' ⟨hm, he⟩
    subst hm
    exact ⟨he, hsound⟩

/-- The path of a request is a string. -/
theorem zero_not_mem_path (req : Bytes) : (0 : Byte) ∉ reqPath req := by
  unfold reqPath
  intro hmem
  have htake := List.mem_takeWhile_imp hmem
  exact absurd htake (by decide)

/-- An entry is taken. -/
theorem Sound.reopen (hsound : Sound nblocks dir ind s) :
    Sound nblocks dir ind (s.reopen i) ∧ ((s.reopen i).oFd i).isNone = false := by
  have hfile : ∀ j, ((s.reopen i).opentab j).oFile = (s.opentab j).oFile := by
    intro j
    unfold Server.reopen
    by_cases hj : j = i
    · simp [hj]
    · simp [hj]
  refine ⟨⟨hsound.layout, fun j f hf => ?_, fun j f hf => ?_⟩, by simp [Server.reopen]⟩
  · exact hsound.file j f ((hfile j).symm.trans hf)
  · have hpage := hsound.page j f ((hfile j).symm.trans hf)
    unfold Server.reopen
    by_cases hj : j = i
    · simp [hj]
    · simp only [hj, if_false]
      exact hpage

/-- `serve_open` does not panic. -/
theorem serve_open_wp {req : Bytes} (hsound : Sound nblocks dir ind s)
    (hreq : readReq s = .ret req s) :
    wp (serveOpen mem) (fun _ s' => Sound nblocks dir ind s')
      (fun e s' => (∃ r, e = .error r) ∧ Sound nblocks dir ind s') s := by
  unfold serveOpen
  rw [wp_bind, wp_of_ret hreq, wp_bind]
  refine wp_mono (alloc_wp mem s) ?_ ?_
  · intro ⟨i, fileid⟩ t ht
    subst ht
    have hreopened := hsound.reopen (i := i)
    dsimp only
    rw [wp_ite, wp_ite]
    exact ⟨fun _ => ⟨⟨_, rfl⟩, hreopened.1⟩, fun _ => ⟨fun _ => ⟨⟨_, rfl⟩, hreopened.1⟩,
      fun _ => open_file_wp hreopened.1 hreopened.2 (zero_not_mem_path req)⟩⟩
  · intro e t ⟨ht, he⟩
    subst ht
    exact ⟨he, hsound⟩

/-- What makes handling a request panic. -/
def HandleOk (req : Word) (s : Server) : Prop :=
  ∀ bytes, readReq s = .ret bytes s →
    (req = fsreqRead ∨ req = fsreqStat → Opened s bytes) ∧
      (Accepts s (reqFileid bytes) → req = fsreqRead ∧ Reads s bytes ∨ req = fsreqStat → s.Writable)

/-- Handling a request panics exactly when the request is not careful. -/
theorem handle_wp {req : Word} (hids : Ids tr s) (hsound : Sound nblocks dir ind s)
    (harg : s.fsreq ≠ none) :
    wp (handle req mem) (fun _ s' => HandleOk req s ∧ Sound nblocks dir ind s')
      (fun e s' => (e = .panic ∧ ¬ HandleOk req s) ∨
        HandleOk req s ∧ (∃ r, e = .error r) ∧ Sound nblocks dir ind s') s := by
  obtain ⟨bytes, hreq⟩ := hids.read_req harg
  have hok : HandleOk req s ↔
      (req = fsreqRead ∨ req = fsreqStat → Opened s bytes) ∧
        (Accepts s (reqFileid bytes) → req = fsreqRead ∧ Reads s bytes ∨ req = fsreqStat →
          s.Writable) := by
    constructor
    · exact fun h => h bytes hreq
    · intro h bytes' hreq'
      rw [hreq] at hreq'
      cases hreq'
      exact h
  have hstay : Later nblocks dir ind s.disk s.disk := hsound.layout.later
  rw [hok]
  by_cases hopen : req = fsreqOpen
  · subst hopen
    have hrest : (fsreqOpen = fsreqRead ∨ fsreqOpen = fsreqStat → Opened s bytes) ∧
        (Accepts s (reqFileid bytes) → fsreqOpen = fsreqRead ∧ Reads s bytes ∨
          fsreqOpen = fsreqStat → s.Writable) := by
      have hread : fsreqOpen ≠ fsreqRead := by decide
      have hstat : fsreqOpen ≠ fsreqStat := by decide
      exact ⟨fun h => absurd h (not_or.mpr ⟨hread, hstat⟩),
        fun _ h => absurd h (not_or.mpr ⟨fun h => hread h.1, hstat⟩)⟩
    rw [handle_open rfl, wp_bind]
    exact wp_mono (serve_open_wp hsound hreq) (fun _ _ h => ⟨hrest, h⟩)
      fun _ _ h => Or.inr ⟨hrest, h⟩
  · have hframe := frames_handle mem hopen s
    have hsame : ∀ {x : Prog Server Stop Word} {P : Prop},
        wp x (fun _ s' => P ∧ Later nblocks dir ind s.disk s'.disk)
          (fun e s' => e = .panic ∧ ¬ P ∨
            P ∧ (∃ r, e = .error r) ∧ Later nblocks dir ind s.disk s'.disk) s →
        Frames x →
        wp (do
            let r ← x
            pure (r.toInt, none) : Prog Server Stop (Int × Option Ix))
          (fun _ s' => P ∧ Sound nblocks dir ind s')
          (fun e s' => e = .panic ∧ ¬ P ∨
            P ∧ (∃ r, e = .error r) ∧ Sound nblocks dir ind s') s := by
      intro x P hx hkeep
      rw [wp_bind]
      refine wp_mono (wp_and hx (hkeep s)) ?_ ?_
      · intro r s' ⟨⟨hp, hlater⟩, hframe⟩
        exact ⟨hp, hsound.later hlater hframe⟩
      · intro e s' ⟨hcase, hframe⟩
        cases hcase with
        | inl h => exact Or.inl h
        | inr h => exact Or.inr ⟨h.1, h.2.1, hsound.later h.2.2 hframe⟩
    unfold handle
    rw [if_neg hopen]
    by_cases hread : req = fsreqRead
    · subst hread
      have hstat : fsreqRead ≠ fsreqStat := by decide
      rw [if_pos rfl]
      simp only [hstat, or_false, true_and, forall_const]
      exact hsame (serve_read_wp hids hsound hreq harg) frames_serve_read
    · rw [if_neg hread]
      by_cases hstat : req = fsreqStat
      · subst hstat
        rw [if_pos rfl]
        simp only [hread, false_and, or_true, forall_const]
        exact hsame (serve_stat_wp hids hsound hreq harg) frames_serve_stat
      · simp only [hread, hstat, false_and, or_false, false_imp_iff, imp_true_iff, and_true,
          true_and, if_false]
        rw [wp_ite]
        exact ⟨fun _ => hsound, fun _ => hsound⟩

/-- The reply panics when the client is gone. -/
theorem ipc_send_wp {q : Request} {pg : Option Ix} {dstva : Option Nat} :
    wp (ipcSend q pg dstva) (fun _ s' => q.gone = false ∧ s'.disk = s.disk ∧
        s'.opentab = s.opentab ∧ s'.oFd = s.oFd)
      (fun e _ => e = .panic ∧ q.gone = true) s := by
  unfold ipcSend
  cases hgone : q.gone with
  | true => exact ⟨rfl, rfl⟩
  | false =>
      cases pg with
      | none => exact ⟨rfl, rfl, rfl, rfl⟩
      | some i =>
          cases dstva with
          | none => exact ⟨rfl, rfl, rfl, rfl⟩
          | some va => exact ⟨rfl, rfl, rfl, rfl⟩

theorem careful_iff {q : Request} : Careful q s ↔ q.gone = false ∧ HandleOk q.req s := by
  constructor
  · intro h
    exact ⟨h.there, fun bytes hreq => ⟨h.opened bytes hreq, h.writable bytes hreq⟩⟩
  · intro ⟨hthere, hok⟩
    exact ⟨hthere, fun bytes hreq => (hok bytes hreq).1, fun bytes hreq => (hok bytes hreq).2⟩

theorem Sound.sent (hsound : Sound nblocks dir ind s) (hdisk : s'.disk = s.disk)
    (hopen : s'.opentab = s.opentab) (hfd : s'.oFd = s.oFd) : Sound nblocks dir ind s' where
  layout := by
    rw [hdisk]
    exact hsound.layout
  file i f hf := by
    rw [hopen] at hf
    rw [hdisk]
    exact hsound.file i f hf
  page i f hf := by
    rw [hopen] at hf
    rw [hfd]
    exact hsound.page i f hf

/-- Serving a request returns exactly when the request is careful. -/
theorem serve_wp (q : Request) (mem : Bool) (dstva : Option Nat) (hids : Ids tr s)
    (hsound : Sound nblocks dir ind s) (harg : s.fsreq ≠ none) :
    wp (serve q mem dstva) (fun _ s' => Careful q s ∧ Sound nblocks dir ind s')
      (fun _ _ => ¬ Careful q s) s := by
  rw [careful_iff]
  have hreply : ∀ (r : Int) (pg : Option Ix) (t : Server), Sound nblocks dir ind t →
      HandleOk q.req s →
      wp (do
          ipcSend q pg dstva
          modify fun s => { s with fsreq := none }
          pure r : Prog Server Stop Int)
        (fun _ s' => (q.gone = false ∧ HandleOk q.req s) ∧ Sound nblocks dir ind s')
        (fun _ _ => ¬ (q.gone = false ∧ HandleOk q.req s)) t := by
    intro r pg t hsoundt hok
    rw [wp_bind]
    refine wp_mono ipc_send_wp ?_ ?_
    · intro _ t' ⟨hgone, hdisk, hopen, hfd⟩
      exact ⟨⟨hgone, hok⟩, hsoundt.sent hdisk hopen hfd⟩
    · intro e t' ⟨_, hgone⟩ hcareful
      rw [hgone] at hcareful
      exact Bool.noConfusion hcareful.1
  unfold serve
  rw [wp_bind, wp_rescue]
  refine wp_mono (handle_wp hids hsound harg) ?_ ?_
  · intro ⟨r, pg⟩ t ⟨hok, hsoundt⟩
    exact hreply r pg t hsoundt hok
  · intro e t hcase
    cases hcase with
    | inl h =>
        rw [h.1]
        exact fun hcareful => h.2 hcareful.2
    | inr h =>
        obtain ⟨hok, ⟨r, he⟩, hsoundt⟩ := h
        rw [he]
        exact hreply r none t hsoundt hok

/-- The disk stays laid out in every step. -/
theorem Sound.step {w w' : World} {a : Act} (hids : Ids tr w.server)
    (hsound : Sound nblocks dir ind w.server) (harg : w.pending ≠ none → w.server.fsreq ≠ none)
    (hstep : Step w a w') : Sound nblocks dir ind w'.server := by
  cases hstep with
  | recv hsend => exact hsound.sent rfl rfl rfl
  | @serve s s' q mem dstva r hserve =>
      have hwp := serve_wp q mem dstva hids hsound (harg (Option.some_ne_none q))
      rw [wp_of_ret hserve] at hwp
      exact hwp.2
  | writeArg h => exact hsound.sent rfl rfl rfl
  | writeFd hmap => exact hsound.later hsound.layout.later (frame_write_fd _)
  | share hmap => exact hsound.sent rfl rfl rfl
  | unmap => exact hsound.sent rfl rfl rfl
  | destroy => exact hsound.sent rfl rfl rfl

/-- A request that is being served has a page. -/
theorem pending_step {w w' : World} {a : Act} (harg : w.pending ≠ none → w.server.fsreq ≠ none)
    (hstep : Step w a w') : w'.pending ≠ none → w'.server.fsreq ≠ none := by
  cases hstep with
  | @recv s whom req arg hsend =>
      intro hpend
      cases arg with
      | none => exact absurd rfl hpend
      | some arg => exact Option.some_ne_none arg
  | serve hserve => exact fun h => absurd rfl h
  | writeArg h => exact fun _ => Option.some_ne_none _
  | writeFd hmap => exact harg
  | share hmap => exact harg
  | unmap => exact harg
  | @destroy s pending env =>
      intro hpend
      refine harg fun hnone => hpend ?_
      have hp : pending = none := hnone
      subst hp
      rfl

/-- What holds in every state of a run. -/
theorem Runs.sound {C : World → Act → Prop} {disk : Bytes} {o : Option World}
    (hlay : Layout nblocks dir ind disk) (hroom : ∀ w a, C w a → Roomy w a)
    (hrun : Runs C disk o) : ∀ w, o = some w →
      Sound nblocks dir ind w.server ∧ (w.pending ≠ none → w.server.fsreq ≠ none) ∧
        ∃ tr, Ids tr w.server := by
  induction hrun with
  | init =>
      intro w hw
      obtain rfl := Option.some.inj hw
      exact ⟨⟨hlay, fun _ _ h => (by cases h), fun _ _ h => (by cases h)⟩, fun h => absurd rfl h, [],
        Ids.init disk⟩
  | step hrun hcond hstep ih =>
      intro w hw
      obtain rfl := Option.some.inj hw
      obtain ⟨hsound, harg, tr, hids⟩ := ih _ rfl
      exact ⟨hsound.step hids harg hstep, pending_step harg hstep, _,
        hids.step (hroom _ _ hcond) hstep⟩
  | panic hrun hcond hpanic ih =>
      intro w hw
      cases hw

/-- In the runs from a valid image a request makes the server panic exactly when it is not
careful. -/
theorem Runs.panics_iff {C : World → Act → Prop} {disk : Bytes} (hvalid : ValidImage disk)
    (hroom : ∀ w a, C w a → Roomy w a) {q : Request} (hrun : Runs C disk (some ⟨s, some q⟩)) (mem : Bool) (dstva : Option Nat) :
    (∃ e s', serve q mem dstva s = .exit e s') ↔ ¬ Careful q s := by
  obtain ⟨nblocks, dir, ind, hlay⟩ := hvalid
  obtain ⟨hsound, harg, tr, hids⟩ := hrun.sound hlay hroom _ rfl
  have hwp := serve_wp q mem dstva hids hsound (harg (Option.some_ne_none q))
  constructor
  · intro ⟨e, s', hexit⟩
    rw [wp_of_exit hexit] at hwp
    exact hwp
  · intro hnot
    cases hserve : serve q mem dstva s with
    | ret r s' =>
        rw [wp_of_ret hserve] at hwp
        exact absurd hwp.1 hnot
    | exit e s' => exact ⟨e, s', rfl⟩

/-- A step in which a request is served is careful. -/
theorem Runs.careful {disk : Bytes} (hvalid : ValidImage disk) {o : Option World}
    (hrun : Runs Ordinary disk o) : ∀ w, o = some w → Runs CarefulAct disk (some w) := by
  induction hrun with
  | init =>
      intro w hw
      obtain rfl := Option.some.inj hw
      exact .init
  | @step w w' a hrun hcond hstep ih =>
      intro w'' hw
      obtain rfl := Option.some.inj hw
      refine (ih _ rfl).step ⟨hcond, fun mem dstva hact q hq => ?_⟩ hstep
      subst hact
      cases hstep with
      | @serve s s' q' mem dstva r hserve =>
          obtain rfl : q' = q := Option.some.inj hq
          by_contra hnot
          obtain ⟨e, t, hexit⟩ :=
            (hrun.panics_iff hvalid (fun _ _ h => h.2) mem dstva).mpr hnot
          rw [hserve] at hexit
          cases hexit
  | panic =>
      intro w hw
      cases hw

/-- On a valid image, with enough memory and while no counter of a page wraps around, the server does
not panic in any run whose requests are careful, and it panics at each request that is not. -/
theorem server_survives {disk : Bytes} (hvalid : ValidImage disk) :
    ¬ Runs CarefulAct disk none ∧
      ∀ s q mem dstva, Runs Ordinary disk (some ⟨s, some q⟩) →
        ((∃ e s', serve q mem dstva s = .exit e s') ↔ ¬ Careful q s) := by
  refine ⟨fun hrun => ?_, fun s q mem dstva hrun =>
    hrun.panics_iff hvalid (fun _ _ h => h.2) mem dstva⟩
  cases hrun with
  | @panic s s' q mem dstva e hrun hcond hpanic =>
      exact (hrun.panics_iff hvalid (fun _ _ h => h.1.2) mem dstva).mp ⟨e, s', hpanic⟩
        (hcond.2 mem dstva rfl q rfl)

theorem ordinary_recv (w : World) (whom : EnvIx) (req : Word) (arg : Option Arg) :
    Ordinary w (.recv whom req arg) := by
  refine ⟨fun mem dstva h => ?_, fun p i h => ?_⟩
  all_goals cases h

theorem ordinary_serve (w : World) (dstva : Option Nat) : Ordinary w (.serve true dstva) := by
  refine ⟨fun mem dstva' h => ?_, fun p i h => ?_⟩
  all_goals cases h
  rfl

/-- The server when environment 0 asks it for three bytes of the file. -/
def readAsked : Server := { opened with fsreq := some (ownPage readThree) }

/-- On the image with one file the server opens the file, puts its three bytes in the page of a read
request and goes on; no run of careful requests makes it panic. -/
theorem server_survives_open_read : ∃ s s' : Server,
    Runs CarefulAct Fs.oneFile (some ⟨s, some ⟨0, fsreqRead, false⟩⟩) ∧
      (serveRead s).returned = some 3 ∧
      ((readReq (serveRead s).state).returned.map fun page => page.load 0 3) = some [1, 2, 3] ∧
      serve ⟨0, fsreqRead, false⟩ true none s = .ret 3 s' ∧
      Runs CarefulAct Fs.oneFile (some ⟨s', none⟩) ∧ ¬ Runs CarefulAct Fs.oneFile none := by
  have hasked : Runs Ordinary Fs.oneFile (some ⟨asked, some ⟨0, fsreqOpen, false⟩⟩) :=
    .step .init (ordinary_recv _ _ _ _) (step_recv_own _ 0 fsreqOpen openA)
  have hopened : Runs Ordinary Fs.oneFile (some ⟨opened, none⟩) :=
    .step hasked (ordinary_serve _ _) (.serve serve_open_one_file)
  have hread : Runs Ordinary Fs.oneFile (some ⟨readAsked, some ⟨0, fsreqRead, false⟩⟩) :=
    .step hopened (ordinary_recv _ _ _ _) (step_recv_own _ 0 fsreqRead readThree)
  have hserve : serve ⟨0, fsreqRead, false⟩ true none readAsked = .ret 3 _ :=
    ret_of_returned (by decide +kernel)
  have hserved : Runs Ordinary Fs.oneFile (some ⟨_, none⟩) :=
    .step hread (ordinary_serve _ _) (.serve hserve)
  exact ⟨readAsked, _, hread.careful Fs.one_file_valid _ rfl, by decide +kernel, by decide +kernel,
    hserve, hserved.careful Fs.one_file_valid _ rfl, (server_survives Fs.one_file_valid).1⟩

/-- A read of the file id 0 before any open ends in a null pointer dereference. -/
theorem server_panics : Fs.fsformat 8 [([0x61], [1, 2, 3])] (fun _ => 0) = some Fs.oneFile ∧
    ValidImage Fs.oneFile ∧ Runs Ordinary Fs.oneFile none := by
  refine ⟨Fs.fsformat_one_file, Fs.one_file_valid, ?_⟩
  have hrun : Runs Ordinary Fs.oneFile
      (some ⟨{ (World.init Fs.oneFile).server with fsreq := some (ownPage fun _ => 0) },
        some ⟨0, fsreqRead, false⟩⟩) :=
    .step .init (ordinary_recv _ _ _ _) (step_recv_own _ 0 fsreqRead fun _ => 0)
  have hnot : ¬ Careful ⟨0, fsreqRead, false⟩
      { (World.init Fs.oneFile).server with fsreq := some (ownPage fun _ => 0) } := by
    intro hcareful
    have hopened := hcareful.opened (fun _ => 0) rfl (Or.inl rfl) (accepts_iff.mpr ⟨by decide, rfl⟩)
    exact Bool.noConfusion hopened
  obtain ⟨e, s', hpanic⟩ :=
    (hrun.panics_iff Fs.one_file_valid (fun _ _ h => h.2) true none).mpr hnot
  exact hrun.panic (ordinary_serve _ _) hpanic

end Labs.Jos.Serv
