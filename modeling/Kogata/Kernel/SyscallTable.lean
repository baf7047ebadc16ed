import Kogata.Lib.Bytes

/-!
# The system-call table

`kernel/user/syscall.c`: the table that `setup_syscall_table` fills, and what each handler makes of
the five words it gets. A `Request` is an operation of the kernel with its arguments as the
handler has decoded them: texts have been copied, numbers have the types of the functions that the
handler calls, and pointers that the kernel writes through or only hands on are addresses. The
probes of the addresses and the `malloc`s succeed here.
-/

namespace Kogata.Kernel.Syscall

open Lib.Bytes

/-- The five words of a `sc_args_t`. -/
structure ScArgs where
  a : UInt32
  b : UInt32
  c : UInt32
  d : UInt32
  e : UInt32
  deriving DecidableEq

/-- An operation of the kernel. `bindTo` is zero for the calling process. -/
inductive Request where
  | dbgPrint (msg : List UInt8)
  | exit (code : Int32)
  | yield
  | usleep (usecs : Int32)
  | newThread (eip esp : UInt32)
  | exitThread
  | mmap (addr size : UInt32) (mode : Int32)
  | mmapFile (file : Int32) (offset addr size : UInt32) (mode : Int32)
  | mchmap (addr : UInt32) (mode : Int32)
  | munmap (addr : UInt32)
  | create (name : List UInt8) (type : Int32)
  | delete (name : List UInt8)
  | move (oldname newname : List UInt8)
  | stat (name : List UInt8) (s : UInt32)
  | openFile (name : List UInt8) (mode : Int32)
  | close (file : Int32)
  | read (file : Int32) (offset len buf : UInt32)
  | write (file : Int32) (offset len buf : UInt32)
  | readdir (file : Int32) (entNo d : UInt32)
  | statOpen (file : Int32) (s : UInt32)
  | ioctl (file command : Int32) (data : UInt32)
  | fctl (file command : Int32)
  | select (fds nfds : UInt32) (timeout : Int32)
  | makeChannel (blocking : Bool) (ret : UInt32)
  | makeShm (size : UInt32)
  | genToken (file : Int32) (tok : UInt32)
  | useToken (tok : UInt32)
  | makeFs (driver fsName : List UInt8) (source : Int32) (opts : List UInt8) (bindTo : Int32)
  | fsAddSource (fs : List UInt8) (source : Int32) (opts : List UInt8)
  | subfs (newName fromFs root : List UInt8) (okModes bindTo : Int32)
  | rmFs (name : List UInt8)
  | newProc
  | bindFs (pid : Int32) (newName fs : List UInt8)
  | bindFd (pid newFd fd : Int32)
  | procExec (pid : Int32) (file : List UInt8)
  | procStatus (pid : Int32) (s : UInt32)
  | procKill (pid : Int32) (s : UInt32)
  | procWait (pid : Int32) (block : Bool) (s : UInt32)
  deriving DecidableEq

namespace Sc

/-- `SC_MAX`. -/
abbrev max : UInt32 := 128
/-- `SC_DBG_PRINT`. -/
abbrev dbgPrint : UInt32 := 0
/-- `SC_EXIT`. -/
abbrev exit : UInt32 := 1
/-- `SC_YIELD`. -/
abbrev yield : UInt32 := 2
/-- `SC_USLEEP`. -/
abbrev usleep : UInt32 := 3
/-- `SC_NEW_THREAD`. -/
abbrev newThread : UInt32 := 4
/-- `SC_EXIT_THREAD`. -/
abbrev exitThread : UInt32 := 5
/-- `SC_MMAP`. -/
abbrev mmap : UInt32 := 10
/-- `SC_MMAP_FILE`. -/
abbrev mmapFile : UInt32 := 11
/-- `SC_MCHMAP`. -/
abbrev mchmap : UInt32 := 12
/-- `SC_MUNMAP`. -/
abbrev munmap : UInt32 := 13
/-- `SC_CREATE`. -/
abbrev create : UInt32 := 20
/-- `SC_DELETE`. -/
abbrev delete : UInt32 := 21
/-- `SC_MOVE`. -/
abbrev move : UInt32 := 22
/-- `SC_STAT`. -/
abbrev stat : UInt32 := 23
/-- `SC_OPEN`. -/
abbrev openFile : UInt32 := 30
/-- `SC_CLOSE`. -/
abbrev close : UInt32 := 31
/-- `SC_READ`. -/
abbrev read : UInt32 := 32
/-- `SC_WRITE`. -/
abbrev write : UInt32 := 33
/-- `SC_READDIR`. -/
abbrev readdir : UInt32 := 34
/-- `SC_STAT_OPEN`. -/
abbrev statOpen : UInt32 := 35
/-- `SC_IOCTL`. -/
abbrev ioctl : UInt32 := 36
/-- `SC_FCTL`. -/
abbrev fctl : UInt32 := 37
/-- `SC_SELECT`. -/
abbrev select : UInt32 := 38
/-- `SC_MK_CHANNEL`. -/
abbrev mkChannel : UInt32 := 40
/-- `SC_MK_SHM`. -/
abbrev mkShm : UInt32 := 41
/-- `SC_GEN_TOKEN`. -/
abbrev genToken : UInt32 := 42
/-- `SC_USE_TOKEN`. -/
abbrev useToken : UInt32 := 43
/-- `SC_MAKE_FS`. -/
abbrev makeFs : UInt32 := 50
/-- `SC_FS_ADD_SRC`. -/
abbrev fsAddSrc : UInt32 := 51
/-- `SC_SUBFS`. -/
abbrev subfs : UInt32 := 52
/-- `SC_RM_FS`. -/
abbrev rmFs : UInt32 := 53
/-- `SC_NEW_PROC`. -/
abbrev newProc : UInt32 := 60
/-- `SC_BIND_FS`. -/
abbrev bindFs : UInt32 := 61
/-- `SC_BIND_SUBFS`. -/
abbrev bindSubfs : UInt32 := 62
/-- `SC_BIND_MAKE_FS`. -/
abbrev bindMakeFs : UInt32 := 63
/-- `SC_BIND_FD`. -/
abbrev bindFd : UInt32 := 64
/-- `SC_PROC_EXEC`. -/
abbrev procExec : UInt32 := 65
/-- `SC_PROC_STATUS`. -/
abbrev procStatus : UInt32 := 66
/-- `SC_PROC_KILL`. -/
abbrev procKill : UInt32 := 67
/-- `SC_PROC_WAIT`. -/
abbrev procWait : UInt32 := 68

end Sc

section Handlers

variable (m : Mem) (args : ScArgs)

/-- `sc_copy_string` and `sc_copy_string_x`: the copy, as the string that it is used as. -/
def scCopyString (addr slen : UInt32) : List UInt8 :=
  ((List.range slen.toNat).map fun i => m (addr.toNat + i)).takeWhile (· ≠ 0)

/-- The `i`-th word of the structure at `a`. -/
def field (a : UInt32) (i : Nat) : UInt32 := UInt32.ofNat (load32 m (a.toNat + 4 * i))

/-- `exit_sc`. -/
def exitSc : Request := .exit args.a.toInt32
/-- `yield_sc`. -/
def yieldSc : Request := .yield
/-- `usleep_sc`. -/
def usleepSc : Request := .usleep args.a.toInt32
/-- `dbg_print_sc`. -/
def dbgPrintSc : Request := .dbgPrint (scCopyString m args.a args.b)
/-- `new_thread_sc`. -/
def newThreadSc : Request := .newThread args.a args.b
/-- `exit_thread_sc`. -/
def exitThreadSc : Request := .exitThread
/-- `mmap_sc`. -/
def mmapSc : Request := .mmap args.a args.b args.c.toInt32
/-- `mmap_file_sc`. -/
def mmapFileSc : Request := .mmapFile args.a.toInt32 args.b args.c args.d args.e.toInt32
/-- `mchmap_sc`. -/
def mchmapSc : Request := .mchmap args.a args.b.toInt32
/-- `munmap_sc`. -/
def munmapSc : Request := .munmap args.a
/-- `create_sc`. -/
def createSc : Request := .create (scCopyString m args.a args.b) args.c.toInt32
/-- `delete_sc`. -/
def deleteSc : Request := .delete (scCopyString m args.a args.b)
/-- `move_sc`. -/
def moveSc : Request := .move (scCopyString m args.a args.b) (scCopyString m args.c args.d)
/-- `stat_sc`. -/
def statSc : Request := .stat (scCopyString m args.a args.b) args.c
/-- `open_sc`. -/
def openSc : Request := .openFile (scCopyString m args.a args.b) args.c.toInt32
/-- `close_sc`. -/
def closeSc : Request := .close args.a.toInt32
/-- `read_sc`. -/
def readSc : Request := .read args.a.toInt32 args.b args.c args.d
/-- `write_sc`. -/
def writeSc : Request := .write args.a.toInt32 args.b args.c args.d
/-- `readdir_sc`. -/
def readdirSc : Request := .readdir args.a.toInt32 args.b args.c
/-- `stat_open_sc`. -/
def statOpenSc : Request := .statOpen args.a.toInt32 args.b
/-- `ioctl_sc`. -/
def ioctlSc : Request := .ioctl args.a.toInt32 args.b.toInt32 args.c
/-- `fctl_sc`; no command has data. -/
def fctlSc : Request := .fctl args.a.toInt32 args.b.toInt32
/-- `select_sc`. -/
def selectSc : Request := .select args.a args.b args.c.toInt32
/-- `make_channel_sc`. -/
def makeChannelSc : Request := .makeChannel (args.a != 0) args.b
/-- `make_shm_sc`. -/
def makeShmSc : Request := .makeShm args.a
/-- `gen_token_sc`. -/
def genTokenSc : Request := .genToken args.a.toInt32 args.b
/-- `use_token_sc`. -/
def useTokenSc : Request := .useToken args.a
/-- `make_fs_sc`, with the fields of `sc_make_fs_args_t`. -/
def makeFsSc : Request :=
  .makeFs (scCopyString m (field m args.a 0) (field m args.a 1))
    (scCopyString m (field m args.a 2) (field m args.a 3)) (field m args.a 4).toInt32
    (scCopyString m (field m args.a 5) (field m args.a 6)) (field m args.a 7).toInt32
/-- `fs_add_src_sc`. -/
def fsAddSrcSc : Request :=
  .fsAddSource (scCopyString m args.a args.b) args.c.toInt32 (scCopyString m args.d args.e)
/-- `fs_subfs_sc`, with the fields of `sc_subfs_args_t`. -/
def fsSubfsSc : Request :=
  .subfs (scCopyString m (field m args.a 0) (field m args.a 1))
    (scCopyString m (field m args.a 2) (field m args.a 3))
    (scCopyString m (field m args.a 4) (field m args.a 5)) (field m args.a 6).toInt32
    (field m args.a 7).toInt32
/-- `rm_fs_sc`. -/
def rmFsSc : Request := .rmFs (scCopyString m args.a args.b)
/-- `new_proc_sc`. -/
def newProcSc : Request := .newProc
/-- `bind_fs_sc`. -/
def bindFsSc : Request :=
  .bindFs args.a.toInt32 (scCopyString m args.b args.c) (scCopyString m args.d args.e)
/-- `bind_fd_sc`. -/
def bindFdSc : Request := .bindFd args.a.toInt32 args.b.toInt32 args.c.toInt32
/-- `proc_exec_sc`. -/
def procExecSc : Request := .procExec args.a.toInt32 (scCopyString m args.b args.c)
/-- `proc_status_sc`. -/
def procStatusSc : Request := .procStatus args.a.toInt32 args.b
/-- `proc_kill_sc`. -/
def procKillSc : Request := .procKill args.a.toInt32 args.b
/-- `proc_wait_sc`. -/
def procWaitSc : Request := .procWait args.a.toInt32 (args.b != 0) args.c

end Handlers

/-- `syscall_handler_t`. -/
abbrev Handler := Mem → ScArgs → Request

/-- The assignments of `setup_syscall_table`. -/
def setupSyscallTable : List (UInt32 × Handler) :=
  [(Sc.exit, fun _ => exitSc), (Sc.yield, fun _ _ => yieldSc), (Sc.dbgPrint, dbgPrintSc),
    (Sc.usleep, fun _ => usleepSc), (Sc.newThread, fun _ => newThreadSc),
    (Sc.exitThread, fun _ _ => exitThreadSc),
    (Sc.mmap, fun _ => mmapSc), (Sc.mmapFile, fun _ => mmapFileSc),
    (Sc.mchmap, fun _ => mchmapSc), (Sc.munmap, fun _ => munmapSc),
    (Sc.create, createSc), (Sc.delete, deleteSc), (Sc.move, moveSc), (Sc.stat, statSc),
    (Sc.openFile, openSc), (Sc.close, fun _ => closeSc), (Sc.read, fun _ => readSc),
    (Sc.write, fun _ => writeSc), (Sc.readdir, fun _ => readdirSc),
    (Sc.statOpen, fun _ => statOpenSc), (Sc.ioctl, fun _ => ioctlSc), (Sc.fctl, fun _ => fctlSc),
    (Sc.select, fun _ => selectSc),
    (Sc.mkChannel, fun _ => makeChannelSc), (Sc.genToken, fun _ => genTokenSc),
    (Sc.useToken, fun _ => useTokenSc),
    (Sc.makeFs, makeFsSc), (Sc.fsAddSrc, fsAddSrcSc), (Sc.subfs, fsSubfsSc), (Sc.rmFs, rmFsSc),
    (Sc.newProc, fun _ _ => newProcSc), (Sc.bindFs, bindFsSc), (Sc.bindSubfs, fsSubfsSc),
    (Sc.bindMakeFs, makeFsSc), (Sc.bindFd, fun _ => bindFdSc), (Sc.procExec, procExecSc),
    (Sc.procStatus, fun _ => procStatusSc), (Sc.procKill, fun _ => procKillSc),
    (Sc.procWait, fun _ => procWaitSc)]

/-- `sc_handlers` behind the assignments, the last one of a number first. -/
def scHandlers (scId : UInt32) : Option Handler :=
  (setupSyscallTable.reverse.find? fun entry => entry.1 == scId).map Prod.snd

/-- `syscall_handler`: what the handler that it calls is asked, or `none`. -/
def syscallHandler (m : Mem) (eax : UInt32) (args : ScArgs) : Option Request :=
  if eax < Sc.max then (scHandlers eax).map fun h => h m args else none

end Kogata.Kernel.Syscall
