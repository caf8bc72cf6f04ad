import Labs.Jos.UserMem

/-!
# System calls

The handlers of `kern/syscall.c` except `sys_exec`, and the two functions of `kern/e1000.c` they
call. Each handler runs on CPU `k` for its current environment `c`. Results are C `int`s.
-/

namespace Labs.Jos

open Prog

/-! ## The network card -/

def ethPktSize : Word := 1518
def ntxdesc : Nat := 64
def nrxdesc : Nat := 128
def txdCmdEop : Byte := 0x01
def txdCmdRs : Byte := 0x08
def txdStatDd : Byte := 0x01
def rxdStatDd : Byte := 0x01

/-- Overwrite the first bytes of a packet buffer. -/
def fillBuf (buf : Nat → Byte) (bytes : List Byte) : Nat → Byte := fun i => bytes.getD i (buf i)

def modifyE1000 (f : E1000 → E1000) : Kern Unit := modify fun s => { s with e1000 := f s.e1000 }

def E1000.setTx (dev : E1000) (i : Nat) (f : TxDesc → TxDesc) : E1000 :=
  { dev with txQueue := Function.update dev.txQueue i (f (dev.txQueue i)) }

def E1000.setRx (dev : E1000) (i : Nat) (f : RxDesc → RxDesc) : E1000 :=
  { dev with rxQueue := Function.update dev.rxQueue i (f (dev.rxQueue i)) }

def e1000Transmit (k : CpuId) (buf size : Word) : Kern Int := do
  let dev ← gets Kernel.e1000
  let tail := dev.tdt.toNat
  let desc := dev.txQueue tail
  if ethPktSize < size then pure (-ePktTooLarge)
  else if desc.cmd &&& txdCmdRs ≠ 0 ∧ desc.status &&& txdStatDd = 0 then pure (-eTxFull)
  else
    modifyE1000 fun dev => dev.setTx tail fun d => { d with status := d.status &&& ~~~txdStatDd }
    let bytes ← loadBytes k size.toNat buf
    modifyE1000 fun dev =>
      { dev with txBuf := Function.update dev.txBuf tail (fillBuf (dev.txBuf tail) bytes) }
    modifyE1000 fun dev => dev.setTx tail fun d =>
      { d with length := size.setWidth 16, cmd := d.cmd ||| txdCmdRs ||| txdCmdEop }
    modifyE1000 fun dev => { dev with tdt := BitVec.ofNat 32 ((tail + 1) % ntxdesc) }
    pure 0

def e1000Receive (k : CpuId) (buf size : Word) : Kern Int := do
  let dev ← gets Kernel.e1000
  let next := (dev.rdt.toNat + 1) % nrxdesc
  let desc := dev.rxQueue next
  if desc.status &&& rxdStatDd = 0 then pure (-eRxEmpty)
  else if size.toInt < desc.length.toNat then pure (-ePktTooLarge)
  else
    storeBytes k ((List.range desc.length.toNat).map (dev.rxBuf next)) buf
    modifyE1000 fun dev => dev.setRx next fun d => { d with status := d.status &&& ~~~rxdStatDd }
    modifyE1000 fun dev => { dev with rdt := BitVec.ofNat 32 next }
    pure desc.length.toNat

/-! ## Handlers -/

/-- The string loop of `vprintfmt` for `%.*s`: it loads the byte at `p` before it looks at the
remaining precision, and a negative precision is no limit. -/
def putsLoop (k : CpuId) : Nat → Word → Int → Kern Unit
  | 0, _, _ => Prog.exit .hang
  | fuel + 1, p, precision => do
      let ch ← loadByte k p
      if ch ≠ 0 ∧ (precision < 0 ∨ 0 ≤ precision - 1) then
        modify fun s => { s with consOut := s.consOut ++ [ch] }
        putsLoop k fuel (p + 1) (if precision < 0 then precision else precision - 1)

/-- `cprintf("%.*s", len, s)`; a null string prints as `(null)`. -/
def cprintfString (k : CpuId) (str len : Word) : Kern Unit := do
  if str = 0 then
    let text : List Byte := [0x28, 0x6e, 0x75, 0x6c, 0x6c, 0x29]
    modify fun s => { s with consOut := s.consOut ++
      if len.toInt < 0 then text else text.take len.toNat }
  else putsLoop k (2 ^ 32) str len.toInt

def sysCputs (k : CpuId) (c : EnvIx) (str len : Word) : Kern Unit := do
  userMemAssert k c str len pteU
  cprintfString k str len

/-- `cons_getc`: the next waiting input character, or 0. -/
def sysCgetc : Kern Int := do
  match ← gets Kernel.consIn with
  | [] => pure 0
  | ch :: rest =>
      modify fun s => { s with consIn := rest }
      pure ch.toNat

def sysGetenvid (c : EnvIx) : Kern Int := gets fun s => (s.envs c).envId.toInt

def sysEnvDestroy (k : CpuId) (envid : Word) : Kern Int := do
  match envid2env (← get) k envid true with
  | none => pure (-eBadEnv)
  | some e =>
      envDestroy k e
      pure 0

def sysExofork (c : EnvIx) : Kern Int := do
  match ← envAlloc (← gets fun s => (s.envs c).envId) with
  | .error r => pure r
  | .ok e =>
      modify fun s => s.setEnv e fun env => { env with
        envStatus := .notRunnable
        envTf := { (s.envs c).envTf with regs := { (s.envs c).envTf.regs with eax := 0 } } }
      gets fun s => (s.envs e).envId.toInt

/-- The two statuses that `sys_env_set_status` accepts. -/
def settableStatus (status : Word) : Option EnvStatus :=
  if status = 2 then some .runnable else if status = 4 then some .notRunnable else none

def sysEnvSetStatus (k : CpuId) (envid status : Word) : Kern Int := do
  match settableStatus status with
  | none => pure (-eInval)
  | some st =>
      match envid2env (← get) k envid true with
      | none => pure (-eBadEnv)
      | some e =>
          modifyEnv e fun env => { env with envStatus := st }
          pure 0

/-- The frame `sys_env_set_trapframe` stores for the frame in user memory. -/
def sanitizeTf (tf : Trapframe) : Trapframe :=
  { tf with cs := tf.cs ||| 3, eflags := tf.eflags ||| flIf }

def sysEnvSetTrapframe (k : CpuId) (c : EnvIx) (envid tf : Word) : Kern Int := do
  match envid2env (← get) k envid true with
  | none => pure (-eBadEnv)
  | some e =>
      userMemAssert k c tf 68 pteU
      let bytes ← loadBytes k 68 tf
      modifyEnv e fun env => { env with envTf := sanitizeTf (decodeTrapframe bytes) }
      pure 0

def sysEnvSetPgfaultUpcall (k : CpuId) (envid func : Word) : Kern Int := do
  match envid2env (← get) k envid true with
  | none => pure (-eBadEnv)
  | some e =>
      modifyEnv e fun env => { env with envPgfaultUpcall := func }
      pure 0

/-- The address check of the page system calls fails. -/
def badVa (va : Word) : Bool := utop ≤ va || va % pgsizeW != 0

/-- The permission check of the page system calls fails. -/
def badPerm (perm : Word) : Bool := perm &&& ~~~(pteSyscall ||| pteShare) != 0 || !hasFlag perm pteU

def sysPageAlloc (k : CpuId) (envid va perm : Word) : Kern Int := do
  if badVa va then pure (-eInval)
  else if badPerm perm then pure (-eInval)
  else
    match envid2env (← get) k envid true with
    | none => pure (-eBadEnv)
    | some e =>
        match ← pageAlloc true with
        | none => pure (-eNoMem)
        | some pp =>
            let pgdir ← deref (← gets fun s => (s.envs e).envPgdir)
            let r ← pageInsert k pgdir pp va perm
            if r < 0 then
              pageFree pp
              pure r
            else pure 0

/-- The checks that `sys_page_map` and `sys_ipc_try_send` make on the source entry: it is
present, and writable if `perm` asks for writing. -/
def pteShareable (w perm : Word) : Bool :=
  hasFlag w pteP && (!hasFlag perm pteW || hasFlag w pteW)

def sysPageMap (k : CpuId) (srcenvid srcva dstenvid dstva perm : Word) : Kern Int := do
  if badVa srcva then pure (-eInval)
  else if badVa dstva then pure (-eInval)
  else if badPerm perm then pure (-eInval)
  else
    match envid2env (← get) k srcenvid true with
    | none => pure (-eBadEnv)
    | some srcenv =>
        match envid2env (← get) k dstenvid true with
        | none => pure (-eBadEnv)
        | some dstenv =>
            let srcdir ← deref (← gets fun s => (s.envs srcenv).envPgdir)
            match ← pgdirWalk srcdir srcva false with
            | none => pure (-eInval)
            | some pte =>
                let w ← readWord pte.table pte.index
                if pteShareable w perm then
                  let pp ← pa2page (pteAddr w)
                  let dstdir ← deref (← gets fun s => (s.envs dstenv).envPgdir)
                  pageInsert k dstdir pp dstva perm
                else pure (-eInval)

def sysPageUnmap (k : CpuId) (envid va : Word) : Kern Int := do
  if badVa va then pure (-eInval)
  else
    match envid2env (← get) k envid true with
    | none => pure (-eBadEnv)
    | some e =>
        let pgdir ← deref (← gets fun s => (s.envs e).envPgdir)
        pageRemove k pgdir va
        pure 0

/-- The checks of `sys_ipc_try_send` on the page to send: `none` if one fails, and no entry when
`srcva` is at or above `UTOP`. -/
def ipcSource (c : EnvIx) (srcva perm : Word) : Kern (Option (Option PteRef)) := do
  if utop ≤ srcva then pure (some none)
  else if srcva % pgsizeW ≠ 0 then pure none
  else if badPerm perm then pure none
  else
    let pgdir ← deref (← gets fun s => (s.envs c).envPgdir)
    match ← pgdirWalk pgdir srcva false with
    | none => pure none
    | some pte =>
        if pteShareable (← readWord pte.table pte.index) perm then pure (some (some pte))
        else pure none

/-- The end of `sys_ipc_try_send`: map the page, if one is sent and wanted, and set the
receiver's `env_ipc_perm`. -/
def ipcDeliver (k : CpuId) (e : EnvIx) (source : Option PteRef) (perm : Word) : Kern Int := do
  let dstva ← gets fun s => (s.envs e).envIpcDstva
  match source with
  | some pte =>
      if dstva < utop then
        let pp ← pa2page (pteAddr (← readWord pte.table pte.index))
        let pgdir ← deref (← gets fun s => (s.envs e).envPgdir)
        let r ← pageInsert k pgdir pp dstva perm
        if r < 0 then pure r
        else
          modifyEnv e fun env => { env with envIpcPerm := perm }
          pure 0
      else
        modifyEnv e fun env => { env with envIpcPerm := 0 }
        pure 0
  | none =>
      modifyEnv e fun env => { env with envIpcPerm := 0 }
      pure 0

def sysIpcTrySend (k : CpuId) (c : EnvIx) (envid value srcva perm : Word) : Kern Int := do
  match envid2env (← get) k envid false with
  | none => pure (-eBadEnv)
  | some e =>
      if (← gets fun s => (s.envs e).envIpcRecving) then
        match ← ipcSource c srcva perm with
        | none => pure (-eInval)
        | some source =>
            modify fun s => s.setEnv e fun env => { env with
              envIpcFrom := (s.envs c).envId
              envIpcValue := value
              envIpcRecving := false
              envStatus := .runnable }
            ipcDeliver k e source perm
      else pure (-eIpcNotRecv)

def sysIpcRecv (k : CpuId) (c : EnvIx) (dstva : Word) : Kern Int := do
  if dstva < utop ∧ dstva % pgsizeW ≠ 0 then pure (-eInval)
  else
    modifyEnv c fun env => { env with
      envIpcRecving := true
      envIpcDstva := dstva
      envStatus := .notRunnable }
    schedYield k
    pure 0

def sysTimeMsec : Kern Int := gets fun s => (s.ticks * 10).toInt

def sysNetSend (k : CpuId) (c : EnvIx) (buf size : Word) : Kern Int := do
  userMemAssert k c buf size pteU
  e1000Transmit k buf size

def sysNetRecv (k : CpuId) (c : EnvIx) (buf size : Word) : Kern Int := do
  userMemAssert k c buf size pteU
  e1000Receive k buf size

end Labs.Jos
