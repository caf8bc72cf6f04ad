import Labs.Jos.Fs
import Labs.Jos.Pmap

/-!
# The file server

`fs/serv.c`, and the requests of its clients. The server maps the page of each open file at a fixed
address of its own; clients map the page of a file they have open, and may share it with others.
The page of a request is mapped at `fsreq` while the request is served. `pageref` is the kernel's
counter of the places where a page is mapped, which has 16 bits.
-/

namespace Labs.Jos.Serv

open Prog
open Fs (Stop)

/-- `MAXOPEN`. -/
def maxopen : Nat := 1024

/-- The index of an entry of `opentab`. -/
abbrev Ix := Fin maxopen

/-- `MAXPATHLEN`. -/
def maxpathlen : Nat := 1024

/-- `&fd->fd_dev_id`, `&fd->fd_offset`, `&fd->fd_omode` and `&fd->fd_file.id`, from `fd` on. -/
def fdDevId : Nat := 0
def fdOffset : Nat := 4
def fdOmode : Nat := 8
def fdFileId : Nat := 12

/-- `devfile.dev_id`. -/
def devfileId : Word := 0x66

/-- `O_ACCMODE`. -/
def oAccmode : Word := 3

def fsreqOpen : Word := 1
def fsreqRead : Word := 3
def fsreqStat : Word := 5
def fsreqFlush : Word := 6

/-- `struct OpenFile`; `o_fd` is the page of the entry. A file that is not there is null. -/
structure OpenFile where
  oFileid : Word
  oFile : Option Nat
  oMode : Word

/-- A place where a page may be mapped: an env and the number of a page below `UTOP`. -/
abbrev Place := EnvIx × Nat

/-- A page that came with a request: a page of the client's own, or the page of an open file. -/
inductive Page where
  | own (bytes : Bytes)
  | fd (i : Ix)

/-- What is mapped at `fsreq`, and with which permissions. -/
structure Arg where
  page : Page
  perm : Word

/-- The memory of the file server, and the places where clients have mapped the pages of its open
files. A page `o_fd` that is not there has never been allocated. -/
structure Server where
  disk : Bytes
  opentab : Ix → OpenFile
  oFd : Ix → Option Bytes
  maps : List (Place × Ix)
  fsreq : Option Arg

/-- The page of the entry `i` is mapped at `fsreq`. -/
def Server.isArg (s : Server) (i : Ix) : Bool :=
  match s.fsreq with
  | some ⟨.fd j, _⟩ => j == i
  | _ => false

/-- The number of places where clients map the page of the entry `i`. -/
def Server.clients (s : Server) (i : Ix) : Nat := s.maps.countP fun m => m.2 == i

/-- `pageref(opentab[i].o_fd)`. -/
def Server.pageref (s : Server) (i : Ix) : Nat :=
  if (s.oFd i).isNone then 0
  else (1 + s.clients i + (if s.isArg i then 1 else 0)) % 2 ^ 16

/-- A file id of the next round for the entry `i`, whose page is cleared. -/
def Server.reopen (s : Server) (i : Ix) : Server :=
  { s with
    opentab := fun j =>
      if j = i then { s.opentab i with oFileid := (s.opentab i).oFileid + BitVec.ofNat 32 maxopen }
      else s.opentab j
    oFd := fun j => if j = i then some fun _ => 0 else s.oFd j }

/-- The file of the entry `i`, and its page, are filled out. -/
def Server.fillOut (s : Server) (i : Ix) (f : Nat) (omode : Word) : Server :=
  { s with
    opentab := fun j =>
      if j = i then { s.opentab i with oFile := some f, oMode := omode } else s.opentab j
    oFd := fun j =>
      if j = i then (s.oFd i).map fun page =>
        ((page.store32 fdFileId (s.opentab i).oFileid).store32 fdOmode
          (omode &&& oAccmode)).store32 fdDevId devfileId
      else s.oFd j }

/-- The bytes of the page of an entry are changed. -/
def Server.writeFd (s : Server) (i : Ix) (f : Bytes → Bytes) : Server :=
  { s with oFd := fun j => if j = i then (s.oFd i).map f else s.oFd j }

/-- The page of the entry `i` is mapped at a place, instead of what was there. -/
def Server.mapFd (s : Server) (p : Place) (i : Ix) : Server :=
  { s with maps := (p, i) :: s.maps.filter fun m => m.1 != p }

def Server.unmap (s : Server) (p : Place) : Server :=
  { s with maps := s.maps.filter fun m => m.1 != p }

/-- An env is destroyed: nothing is mapped in it any more. -/
def Server.unmapAll (s : Server) (env : EnvIx) : Server :=
  { s with maps := s.maps.filter fun m => m.1.1 != env }

/-- Run a function of the file system. -/
def onDisk {α : Type} (x : Prog Bytes Stop α) : Prog Server Stop α :=
  zoom Server.disk (fun disk s => { s with disk := disk }) x

/-- Read the page of the request. -/
def readReq : Prog Server Stop Bytes := do
  let s ← get
  match s.fsreq with
  | some ⟨.own bytes, _⟩ => pure bytes
  | some ⟨.fd i, _⟩ =>
      match s.oFd i with
      | some bytes => pure bytes
      | none => exit .panic
  | none => exit .panic

/-- Write to the page of the request: a fault there is not in the disk map. -/
def writeReq (f : Bytes → Bytes) : Prog Server Stop Unit := do
  let s ← get
  match s.fsreq with
  | some ⟨page, perm⟩ =>
      if perm &&& pteW = 0 then exit .panic
      else
        match page with
        | .own bytes => modify fun s => { s with fsreq := some ⟨.own (f bytes), perm⟩ }
        | .fd i => modify fun s => s.writeFd i f
  | none => exit .panic

/-- `req_path` as `serve_open` copies it. -/
def reqPath (req : Bytes) : List Byte :=
  (req.load 0 (maxpathlen - 1)).takeWhile (· != 0)

-- a thousand bytes would otherwise be unrolled when terms are compared
attribute [irreducible] reqPath

def reqOmode (req : Bytes) : Word := req.load32 maxpathlen

def reqFileid (req : Bytes) : Word := req.load32 0

def reqN (req : Bytes) : Word := req.load32 4

/-- `fileid % MAXOPEN`. -/
def slot (fileid : Word) : Ix := ⟨fileid.toNat % maxopen, Nat.mod_lt _ (by decide)⟩

/-- The entry that `openfile_alloc` takes, and its file id. The page may be refused. -/
def openfileAlloc (mem : Bool) : Prog Server Stop (Ix × Word) := do
  let s ← get
  match (List.finRange maxopen).find? fun i => s.pageref i ≤ 1 with
  | none => exit (.error (-Fs.eMaxOpen))
  | some i =>
      if s.pageref i = 0 ∧ mem = false then exit (.error (-eNoMem))
      else
        modify fun s => s.reopen i
        pure (i, (s.opentab i).oFileid + BitVec.ofNat 32 maxopen)

-- as would be the search through `opentab`
attribute [irreducible] openfileAlloc

def openfileLookup (fileid : Word) : Prog Server Stop Ix := do
  let s ← get
  if s.pageref (slot fileid) = 1 ∨ (s.opentab (slot fileid)).oFileid ≠ fileid then
    exit (.error (-eInval))
  else pure (slot fileid)

/-- The entry whose page is sent to the client. The file id is returned as a signed number, and one
that is negative is taken for an error. -/
def serveOpen (mem : Bool) : Prog Server Stop Ix := do
  let req ← readReq
  let (i, fileid) ← openfileAlloc mem
  if fileid.slt 0 then exit (.error fileid.toInt)
  else if reqOmode req ≠ 0 then exit (.error (-eInval))
  else
    let f ← onDisk (Fs.fileOpen (reqPath req))
    modify fun s => s.fillOut i f (reqOmode req)
    pure i

def serveRead : Prog Server Stop Word := do
  let req ← readReq
  let i ← openfileLookup (reqFileid req)
  let s ← get
  match (s.opentab i).oFile, s.oFd i with
  | some f, some fd =>
      let (r, bytes) ← onDisk
        (Fs.fileRead f (Fs.minU (reqN req) (BitVec.ofNat 32 4096)) (fd.load32 fdOffset))
      if bytes ≠ [] then writeReq fun page => page.store 0 bytes
      modify fun s => s.writeFd i fun fd => fd.store32 fdOffset (fd.load32 fdOffset + r)
      pure r
  | _, _ => exit .panic

/-- The length of the string at `f`. One that does not end within a page is not copied into one. -/
def strlen (m : Bytes) (f : Nat) : Option Nat := (List.range 4096).find? fun n => m (f + n) == 0

def serveStat : Prog Server Stop Word := do
  let req ← readReq
  let i ← openfileLookup (reqFileid req)
  let s ← get
  match (s.opentab i).oFile with
  | none => exit .panic
  | some f =>
      onDisk (Fs.bcPgfault f)
      match strlen s.disk f with
      | none => exit .panic
      | some n =>
          writeReq fun page => page.store 0 (s.disk.load f (n + 1))
          writeReq fun page => page.store32 Fs.maxnamelen (s.disk.load32 (Fs.fSize f))
          writeReq fun page => page.store32 (Fs.maxnamelen + 4)
            (if s.disk.load32 (Fs.fType f) = Fs.ftypeDir then 1 else 0)
          pure 0

/-- The value to reply with, and the entry whose page is sent along. -/
def handle (req : Word) (mem : Bool) : Prog Server Stop (Int × Option Ix) :=
  if req = fsreqOpen then do
    let i ← serveOpen mem
    pure (0, some i)
  else if req = fsreqRead then do
    let r ← serveRead
    pure (r.toInt, none)
  else if req = fsreqStat then do
    let r ← serveStat
    pure (r.toInt, none)
  else if req = fsreqFlush then pure (0, none)
  else pure (-eInval, none)

/-- A request that is being served. Its client may be destroyed before the reply. -/
structure Request where
  whom : EnvIx
  req : Word
  gone : Bool

/-- `ipc_send` when the client is ready: the page is mapped where the client wants it, if it does.
The error that there is no such env makes it panic. -/
def ipcSend (q : Request) (pg : Option Ix) (dstva : Option Nat) : Prog Server Stop Unit :=
  if q.gone then exit .panic
  else
    match pg, dstva with
    | some i, some va => modify fun s => s.mapFd (q.whom, va) i
    | _, _ => pure ()

/-- An error code is the value to reply with. -/
def errorValue : Stop → Prog Server Stop (Int × Option Ix)
  | .panic => exit .panic
  | .error r => pure (r, none)

/-- The body of the loop of `serve` after a request with a page has been received. -/
def serve (q : Request) (mem : Bool) (dstva : Option Nat) : Prog Server Stop Int := do
  let (r, pg) ← rescue (handle q.req mem) errorValue
  ipcSend q pg dstva
  modify fun s => { s with fsreq := none }
  pure r

/-- The file server, and the request it is serving. -/
structure World where
  server : Server
  pending : Option Request

/-- The server after `serve_init` and `fs_init`. -/
def World.init (disk : Bytes) : World where
  server := {
    disk := disk
    opentab := fun i => ⟨BitVec.ofNat 32 i, none, if i.val = 0 then 1 else 0⟩
    oFd := fun _ => none
    maps := []
    fsreq := none }
  pending := none

/-- What happens to the server: a request is received or served, or a client acts on its own. -/
inductive Act where
  | recv (whom : EnvIx) (req : Word) (arg : Option Arg)
  | serve (mem : Bool) (dstva : Option Nat)
  | writeArg (bytes : Bytes)
  | writeFd (i : Ix) (bytes : Bytes)
  | share (p : Place) (i : Ix)
  | unmap (p : Place)
  | destroy (env : EnvIx)

/-- A client may send its own pages, and those of the files that it maps. -/
def Server.MaySend (s : Server) (whom : EnvIx) : Page → Prop
  | .own _ => True
  | .fd i => ∃ va, ((whom, va), i) ∈ s.maps

/-- The request after `ipc_recv`, when it has a page: without one the server goes on waiting. -/
def received (whom : EnvIx) (req : Word) : Option Arg → Option Request
  | some arg => if arg.perm &&& pteP = 0 then none else some ⟨whom, req, false⟩
  | none => none

/-- One step in which the server does not panic. Between the steps of the server its clients write
to the pages they share with it, share them with each other, unmap them and exit. -/
inductive Step : World → Act → World → Prop where
  | recv {s : Server} {whom : EnvIx} {req : Word} {arg : Option Arg}
      (hsend : ∀ a ∈ arg, s.MaySend whom a.page) :
      Step ⟨s, none⟩ (.recv whom req arg)
        ⟨{ s with fsreq := arg.or s.fsreq }, received whom req arg⟩
  | serve {s s' : Server} {q : Request} {mem : Bool} {dstva : Option Nat} {r : Int}
      (hserve : Serv.serve q mem dstva s = .ret r s') :
      Step ⟨s, some q⟩ (.serve mem dstva) ⟨s', none⟩
  | writeArg {s : Server} {pending : Option Request} {old new : Bytes} {perm : Word}
      (harg : s.fsreq = some ⟨.own old, perm⟩) :
      Step ⟨s, pending⟩ (.writeArg new) ⟨{ s with fsreq := some ⟨.own new, perm⟩ }, pending⟩
  | writeFd {s : Server} {pending : Option Request} {i : Ix} {bytes : Bytes} {p : Place}
      (hmap : (p, i) ∈ s.maps) :
      Step ⟨s, pending⟩ (.writeFd i bytes) ⟨s.writeFd i fun _ => bytes, pending⟩
  | share {s : Server} {pending : Option Request} {i : Ix} {p p' : Place}
      (hmap : (p, i) ∈ s.maps) :
      Step ⟨s, pending⟩ (.share p' i) ⟨s.mapFd p' i, pending⟩
  | unmap {s : Server} {pending : Option Request} {p : Place} :
      Step ⟨s, pending⟩ (.unmap p) ⟨s.unmap p, pending⟩
  | destroy {s : Server} {pending : Option Request} {env : EnvIx} :
      Step ⟨s, pending⟩ (.destroy env) ⟨s.unmapAll env,
        pending.map fun q => { q with gone := q.gone || q.whom == env }⟩

/-- The counter of a page does not wrap around: a page that is shared is mapped by clients at fewer
than 65533 places before. -/
def Roomy (w : World) (a : Act) : Prop := ∀ p i, a = .share p i → w.server.clients i + 3 < 2 ^ 16

end Labs.Jos.Serv
