import Labs.Base.Attempt
import Labs.Jos.Dup
import Labs.Jos.Exec
import Labs.Jos.Serv
import Labs.Jos.SpawnStack

/-!
# Spawning a program

`spawn` of `lib/spawn.c` with `map_segment`, `read_map` and `copy_shared_pages`, and what it uses
of `lib/file.c` and `lib/fd.c`. The answers of the kernel and of the file server are arguments: any
call that may fail is free to fail, and a read may return any bytes. Messages between the caller
and the file server pass through `fsipcbuf`, a page of the library that is not part of the model.
-/

namespace Labs.Jos.Spawn

open Prog
open Fd (Lookup index2fd maxfd)

/-- What `spawn` changes: address spaces, the status of the environments and their registers. -/
structure World where
  vm : Vm
  status : EnvIx → EnvStatus
  tf : EnvIx → Trapframe

/-- A program on the address spaces. -/
def onVm {α : Type} (x : Prog Vm Stop α) : Prog World Stop α :=
  zoom World.vm (fun v w => { w with vm := v }) x

/-- An answer: a value, or `c` for the error `-(c + 1)`. -/
abbrev Reply (α : Type) := Except Nat α

def errno (c : Nat) : Int := -(c + 1)

/-- An error here is a panic. -/
def orPanic (msg : String) (x : Prog World Stop (Except Int Unit)) : Prog World Stop Unit := do
  match ← x with
  | .error _ => exit (.panic msg)
  | .ok _ => pure ()

/-! ## Files -/

/-- `fd_alloc`. -/
def fdAlloc (v : Vm) (e : EnvIx) : Option Nat :=
  (List.range maxfd).find? fun i => (v.map e (index2fd i)).isNone

/-- `close` of a file. `devfile_flush` sends a message and changes no mapping. -/
def close (e : EnvIx) (fdnum : Int) : Prog World Stop Unit := onVm do
  if Lookup (← get) e fdnum then do
    let _ ← sysPageUnmap e (index2fd fdnum)
    pure ()
  else pure ()

/-- The permissions with which `serve_open` sends the page of a descriptor. -/
def fdPerm : Word := pteP ||| pteU ||| pteW ||| pteShare

/-- `open(path, O_RDONLY)`, with the page that the file server sends. -/
def openFile (e : EnvIx) (path : List Byte) (reply : Reply Nat) :
    Prog World Stop (Except Int Int) := do
  if Serv.maxpathlen ≤ path.length then pure (.error (-Fs.eBadPath))
  else
    match fdAlloc (← get).vm e with
    | none => pure (.error (-Fs.eMaxOpen))
    | some i =>
        match reply with
        | .error c => do
            -- `fd_close(fd, 0)`
            close e i
            pure (.error (errno c))
        | .ok p => do
            modify fun w => { w with vm := w.vm.pageInsert e p (index2fd i) fdPerm }
            pure (.ok i)

/-- `read` of at most `n` bytes; `put` stores them. The descriptor is of `devfile` and not open for
writing only, as `serve_open` has made it. -/
def read (e : EnvIx) (fdnum : Int) (n : Nat) (put : List Byte → Prog World Stop Unit)
    (reply : Reply (List Byte)) : Prog World Stop (Except Int (List Byte)) := do
  if Lookup (← get).vm e fdnum then
    match reply with
    | .error c => pure (.error (errno c))
    | .ok bytes =>
        if n < bytes.length then exit (.panic "assertion failed: r <= n")
        else if 4096 < bytes.length then exit (.panic "assertion failed: r <= PGSIZE")
        else do
          put bytes
          pure (.ok bytes)
  else pure (.error (-eInval))

/-- The loop of `readn`, which has read `tot`. -/
def readnLoop (e : EnvIx) (fdnum : Int) (n : Nat) (put : Nat → List Byte → Prog World Stop Unit) :
    List (Reply (List Byte)) → List Byte → Prog World Stop (Except Int (List Byte))
  | [], tot => pure (.ok tot)
  | reply :: rest, tot =>
      if n ≤ tot.length then pure (.ok tot)
      else
        andThen (read e fdnum (n - tot.length) (put tot.length) reply) fun bytes =>
          if bytes = [] then pure (.ok tot) else readnLoop e fdnum n put rest (tot ++ bytes)

/-- `readn`, which returns the bytes that it has stored. The file ends after the answers. -/
def readn (e : EnvIx) (fdnum : Int) (n : Nat) (put : Nat → List Byte → Prog World Stop Unit)
    (replies : List (Reply (List Byte))) : Prog World Stop (Except Int (List Byte)) :=
  readnLoop e fdnum n put (replies ++ [.ok []]) []

/-- `seek` sets `fd_offset`, the second word of the descriptor. -/
def seek (e : EnvIx) (fdnum : Int) (offset : Word) : Prog World Stop Int := onVm do
  if Lookup (← get) e fdnum then
    modify fun v =>
      match v.map e (index2fd fdnum) with
      | some (p, _) => v.setWord p 1 offset
      | none => v
    pure 0
  else pure (-eInval)

/-! ## The child -/

/-- `sys_exofork`. The kernel takes a free environment, if there is one. -/
def sysExofork (e : EnvIx) (reply : Reply EnvIx) : Prog World Stop (Except Int EnvIx) := do
  match reply with
  | .error c => pure (.error (errno c))
  | .ok c =>
      if (← get).status c ≠ .free then pure (.error (-eNoFreeEnv))
      else do
        modify fun w =>
          { vm := { w.vm with map := Function.update w.vm.map c fun _ => none }
            status := Function.update w.status c .notRunnable
            tf := Function.update w.tf c { w.tf e with regs := { (w.tf e).regs with eax := 0 } } }
        pure (.ok c)

def sysEnvDestroy (c : EnvIx) : Prog World Stop Unit :=
  modify fun w => { w with vm := w.vm.envFree c, status := Function.update w.status c .free }

def sysEnvSetTrapframe (c : EnvIx) (tf : Trapframe) : Prog World Stop Int := do
  if (← get).status c = .free then pure (-eBadEnv)
  else
    modify fun w => { w with tf := Function.update w.tf c (sanitizeTf tf) }
    pure 0

def sysEnvSetStatus (c : EnvIx) (status : EnvStatus) : Prog World Stop Int := do
  if (← get).status c = .free then pure (-eBadEnv)
  else
    modify fun w => { w with status := Function.update w.status c status }
    pure 0

/-- The page numbers of `UTEXT` and `USTACKTOP`. -/
def utextPn : Nat := pgnum (2 * ptsize)

def ustacktopPn : Nat := pgnum ustacktop

/-- `copy_shared_pages`, with the answers of `sys_page_map`. -/
def copySharedPages (e child : EnvIx) (table : Nat → Bool) : Prog World Stop (Except Int Unit) :=
  tryEach (List.range' utextPn (ustacktopPn - utextPn)) fun n => do
    let pte := Fd.uvpt (← get).vm e n
    if hasFlag pte pteP && hasFlag pte pteU && hasFlag pte pteShare then
      attempt (onVm (sysPageMap (table n) e n child n (pte &&& pteSyscall ||| pte &&& pteShare)))
    else pure (.ok ())

/-! ## Segments -/

/-- `ELF_PROG_FLAG_WRITE`. -/
def elfProgFlagWrite : Word := 2

/-- `struct Proghdr` with its flags. -/
structure Phdr extends Proghdr where
  pFlags : Word

def decodePhdr (bytes : List Byte) (off : Nat) : Phdr :=
  { decodeProghdr bytes off with pFlags := wordAt bytes (off + 24) }

/-- The answers to the calls for one page of a segment: the page that `sys_page_alloc` takes,
whether `sys_page_map` has memory for a page table, and the data that is read. -/
structure PageReply where
  page : Option Nat
  table : Bool
  data : List (Reply (List Byte))

/-- The answers to the calls of `spawn`, in their order. `behind` are the program headers that do
not lie in `elf_buf`, or the addresses of the faults. -/
structure Replies where
  opened : Reply Nat
  header : List (Reply (List Byte))
  child : Reply EnvIx
  shared : Nat → Bool
  stack : Answers
  reopened : Reply Nat
  behind : Nat → Except Word Phdr
  segment : Nat → Nat → PageReply

/-- Store what is read to the page at `UTEMP`. -/
def putTemp (e : EnvIx) (off : Nat) (bytes : List Byte) : Prog World Stop Unit :=
  onVm (storeAll e bytes (utemp + BitVec.ofNat 32 off))

/-- `PGOFF(va)`. -/
def delta (va : Word) : Word := va &&& 0xFFF

/-- The iterations of `for (i = 0; i < memsz; i += PGSIZE)`. -/
def pageCount (memsz : Word) : Nat := (memsz.toNat + 4095) / 4096

/-- The loop over the pages of a segment. It does not end when `i` wraps around below `memsz`. -/
def forPages (memsz : Word) (body : Nat → Prog World Stop (Except Int Unit)) :
    Prog World Stop (Except Int Unit) :=
  andThen (tryEach (List.range (pageCount memsz)) body) fun _ =>
    if 0xFFFFF000 < memsz then exit .hang else pure (.ok ())

/-- `i`, which has been increased `j` times by `PGSIZE`. -/
def pageAt (j : Nat) : Word := BitVec.ofNat 32 (4096 * j)

/-- `read_map`, which returns `*blk`. -/
def readMap (e : EnvIx) (fd : Int) (reply : PageReply) (offset : Word) :
    Prog World Stop (Except Int Word) :=
  andThen (attempt (seek e fd offset)) fun _ =>
  andThen (attempt (onVm (sysPageAlloc e reply.page utempPn stackPerm))) fun _ =>
  andThen (readn e fd 4096 (putTemp e) reply.data) fun _ => pure (.ok utemp)

/-- The permissions of a segment that is not written to. -/
def textPerm : Word := pteP ||| pteU ||| pteShare

/-- One page of a segment that is not written to. -/
def mapTextPage (e child : EnvIx) (fd : Int) (reply : PageReply) (va offset : Word) :
    Prog World Stop (Except Int Unit) :=
  andThen (readMap e fd reply offset) fun blk =>
  andThen (attempt (onVm (sysPageMap reply.table e (pgnum blk) child (pgnum va) textPerm))) fun _ =>
  attempt (onVm (sysPageUnmap e utempPn))

/-- The branch of `spawn` for a segment that is not written to. -/
def mapText (e child : EnvIx) (fd : Int) (reply : Nat → PageReply) (ph : Phdr) :
    Prog World Stop (Except Int Unit) :=
  let δ := delta ph.pVa
  forPages (ph.pMemsz + δ) fun j =>
    mapTextPage e child fd (reply j) (ph.pVa - δ + pageAt j) (ph.pOffset - δ + pageAt j)

/-- One page of `map_segment`, of which `left` bytes or more come from the file. -/
def mapFilePage (e child : EnvIx) (fd : Int) (reply : PageReply) (va offset left perm : Word) :
    Prog World Stop (Except Int Unit) :=
  andThen (attempt (onVm (sysPageAlloc e reply.page utempPn stackPerm))) fun _ =>
  andThen (attempt (seek e fd offset)) fun _ =>
  andThen (readn e fd (min 4096 left.toNat) (putTemp e) reply.data) fun _ => do
    orPanic "spawn: sys_page_map data: %e"
      (attempt (onVm (sysPageMap reply.table e utempPn child (pgnum va) perm)))
    let _ ← onVm (sysPageUnmap e utempPn)
    pure (.ok ())

/-- `map_segment`. -/
def mapSegment (e child : EnvIx) (fd : Int) (reply : Nat → PageReply) (ph : Phdr) (perm : Word) :
    Prog World Stop (Except Int Unit) :=
  let δ := delta ph.pVa
  let filesz := ph.pFilesz + δ
  forPages (ph.pMemsz + δ) fun j =>
    let va := ph.pVa - δ + pageAt j
    if filesz ≤ pageAt j then
      -- a blank page
      attempt (onVm (sysPageAlloc child (reply j).page (pgnum va) perm))
    else
      mapFilePage e child fd (reply j) va (ph.pOffset - δ + pageAt j) (filesz - pageAt j) perm

/-- Program header `i`. -/
def Replies.proghdr (a : Replies) (elfBuf : List Byte) (i : Nat) : Except Word Phdr :=
  let off := ((decodeElf elfBuf).ePhoff + BitVec.ofNat 32 (32 * i)).toNat
  if off + 32 ≤ 512 then .ok (decodePhdr elfBuf off) else a.behind i

/-- The loop over the program headers. -/
def mapSegments (e child : EnvIx) (fd : Int) (a : Replies) (elfBuf : List Byte) :
    Prog World Stop (Except Int Unit) :=
  tryEach (List.range (decodeElf elfBuf).ePhnum.toNat) fun i =>
    match a.proghdr elfBuf i with
    | .error va => exit (.fault va)
    | .ok ph =>
        if ph.pType ≠ elfProgLoad then pure (.ok ())
        else if ph.pFlags &&& elfProgFlagWrite = 0 then mapText e child fd (a.segment i) ph
        else mapSegment e child fd (a.segment i) ph (pteP ||| pteU ||| pteW)

/-! ## `spawn` -/

/-- Open the program, read its ELF header and close it. -/
def readElf (e : EnvIx) (a : Replies) (prog : List Byte) :
    Prog World Stop (Except Int (List Byte)) :=
  andThen (openFile e prog a.opened) fun fd => do
    let r ← readn e fd 512 (fun _ _ => pure ()) a.header
    close e fd
    match r with
    | .error _ => pure (.error (-eNotExec))
    | .ok elfBuf =>
        if elfBuf.length ≠ 512 ∨ (decodeElf elfBuf).eMagic ≠ elfMagic then
          pure (.error (-eNotExec))
        else pure (.ok elfBuf)

/-- The code at `error`. -/
def cleanUp (e child : EnvIx) (fd : Int) : Prog World Stop Unit := do
  sysEnvDestroy child
  close e fd

/-- What `spawn` does when it has a child. -/
def loadChild (e child : EnvIx) (a : Replies) (prog : List Byte) (argv : Word)
    (elfBuf : List Byte) : Prog World Stop (Except Int EnvIx) := do
  let tf ← gets fun w => { w.tf child with eip := (decodeElf elfBuf).eEntry }
  orPanic "copy_shared_pages: %e" (copySharedPages e child a.shared)
  andThen (onVm (initStack e child a.stack argv)) fun esp =>
    andThen (onError (openFile e prog a.reopened) (cleanUp e child (-1))) fun fd =>
      andThen (onError (mapSegments e child fd a elfBuf) (cleanUp e child fd)) fun _ => do
        close e fd
        orPanic "sys_env_set_trapframe: %e"
          (attempt (sysEnvSetTrapframe child { tf with esp := esp }))
        orPanic "sys_env_set_status: %e" (attempt (sysEnvSetStatus child .runnable))
        pure (.ok child)

/-- `spawn(prog, argv)` in environment `e`, which returns the child or an error. -/
def spawn (e : EnvIx) (a : Replies) (prog : List Byte) (argv : Word) :
    Prog World Stop (Except Int EnvIx) :=
  andThen (readElf e a prog) fun elfBuf =>
    andThen (sysExofork e a.child) fun child => loadChild e child a prog argv elfBuf

end Labs.Jos.Spawn
