import Labs.Base.Prog
import Labs.Base.Chain
import Labs.Base.Fiber
import Labs.Jos.Mmu
import Labs.Jos.State
import Labs.Jos.Pmap
import Labs.Jos.Env
import Labs.Jos.UserMem
import Labs.Jos.Syscall
import Labs.Jos.Exec
import Labs.Jos.Trap
import Labs.Jos.System
import Labs.Jos.Boot
import Labs.Jos.Control
import Labs.Jos.Refines
import Labs.Jos.TrapRefines
import Labs.Jos.Exclusive
import Labs.Jos.BootControl
import Labs.Jos.Lifecycle
import Labs.Jos.Frames
import Labs.Jos.Memory
import Labs.Jos.PmapSpec
import Labs.Jos.EnvSpec
import Labs.Base.Ring
import Labs.Jos.E1000Rx
import Labs.Jos.EnvIds
import Labs.Jos.PageTable
import Labs.Jos.PageTableRefines
import Labs.Jos.PageTableRun
import Labs.Jos.Apart
import Labs.Jos.Ipc
import Labs.Jos.AddrSpace
import Labs.Jos.Fork
import Labs.Jos.ForkCopies
import Labs.Jos.ForkRun
import Labs.Jos.Pipe
import Labs.Jos.PipeEof
import Labs.Jos.PipeEofRun
import Labs.Jos.Rpc
import Labs.Base.Bytes
import Labs.Jos.Fs
import Labs.Jos.FsBitmap
import Labs.Jos.FsSafe
import Labs.Jos.Serv
import Labs.Jos.ServIds
import Labs.Jos.ServSafe
import Labs.Base.CString
import Labs.Base.FileTree
import Labs.Base.Ledger
import Labs.Zoo.Http
import Labs.Zoo.Rpclib
import Labs.Zoo.Sandbox
import Labs.Zoo.Serve
import Labs.Zoo.Xfer
import Labs.Base.Pool
import Labs.Jos.NetInput
import Labs.Jos.SysArch
import Labs.Base.CArray
import Labs.Zoo.Zookd
import Labs.Base.Confine
import Labs.Zoo.SandboxFs
import Labs.Jos.IpcFail
import Labs.Jos.IpcWrap
import Labs.Jos.ServRead
import Labs.Jos.ArgBuf
import Labs.Jos.SysReturn
import Labs.Jos.MallocRun
import Labs.Jos.ExecAtomic
import Labs.Jos.UserAccess
import Labs.Base.Stock
import Labs.Jos.SysMbox
import Labs.Jos.Stab
import Labs.Jos.StabSearch
import Labs.Jos.WalkPath
import Labs.Jos.Httpd
import Labs.Jos.NsPage
import Labs.Jos.Dup
import Labs.Jos.Mmio
import Labs.Jos.StabRegion
import Labs.Jos.DebugInfo
import Labs.Base.ArgVec
import Labs.Jos.StackImage
import Labs.Jos.SpawnStack
import Labs.Jos.ExecPages
import Labs.Jos.ExecStack
import Labs.Jos.SameStack
import Labs.Base.Attempt
import Labs.Jos.Spawn
import Labs.Jos.SpawnMade
import Labs.Jos.SpawnClean
import Labs.Base.Copy
import Labs.Base.Words
import Labs.Base.Printer
import Labs.Jos.Memmove
import Labs.Jos.Gettoken
import Labs.Jos.Runcmd
import Labs.Zoo.ReadLine
import Labs.Zoo.ReqPath
import Labs.Zoo.SplitPath
import Labs.Zoo.Executable
import Labs.Zoo.UrlDecode
import Labs.Jos.Printfmt
import Labs.Jos.PrintfmtOutput
import Labs.Jos.Snprintf
import Labs.Jos.Strtol
import Labs.Base.Flags
import Labs.Jos.Args
import Labs.Base.Records
import Labs.Jos.Mpconfig
import Labs.Jos.DirEntry
import Labs.Jos.BootMap
import Labs.Base.Tiling
import Labs.Jos.LwipMem
import Labs.Jos.LwipMemSpec
import Labs.Jos.LwipMemCalls
import Labs.Jos.LwipMemRun
import Labs.Base.OnesSum
import Labs.Jos.Chksum
import Labs.Jos.ChksumSpec
import Labs.Jos.ChksumVersions
import Labs.Jos.Headers
import Labs.Base.Ia32
import Labs.Jos.Upcall
import Labs.Jos.UpcallSpec
import Labs.Jos.UpcallReturns
import Labs.Jos.FaultDelivery
import Labs.Base.Pieces
import Labs.Jos.FragSend
import Labs.Jos.ReassCount
