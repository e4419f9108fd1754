import AetherOS.Pipe
import AetherOS.TcpFrames

/-!
# Descriptors and the tables behind them

Every process has a table of descriptors. A descriptor refers to a slot of a table that all
processes share: open files, sockets, or pipes; a socket refers to a connection. The calls
below open, inherit and close descriptors, and end processes. What the file system says to
an `open`, which frames arrive while a connection is made, and what the scheduler does
between the calls is arbitrary.
-/
namespace AetherOS.Tcp

/-- The first connection that is not in use, or `none` for `NULL`. -/
def allocConn (s : Stack) : Option (Fin maxConns) :=
  (List.finRange maxConns).find? fun i => !(s.conns i).inUse

/-- Poll until the connection leaves `SYN_SENT`; an empty poll is `none`. -/
def pollLoop (s : Stack) (i : Fin maxConns) : List (Option (List UInt8)) → Stack
  | [] => s
  | frame :: rest =>
    if (s.conns i).state ≠ .synSent then s
    else
      match frame with
      | none => pollLoop s i rest
      | some frame => pollLoop (ethRecv s frame) i rest

/-- `tcp_connect` on the connection `i` that `alloc_conn` returned. -/
def tcpConnect (s : Stack) (i : Fin maxConns) (srcPort : UInt16) (dstIp : UInt32) (dstPort : UInt16)
    (polls : List (Option (List UInt8))) : Option (Fin maxConns) × Stack :=
  let c : Conn :=
    { inUse := true
      state := .synSent
      dstIp := dstIp
      dstPort := dstPort
      srcPort := srcPort
      sndSeq := 0x12345678
      sndUna := 0x12345678
      rcvNxt := 0
      rcvWin := 4095
      rxbuf := ⟨(s.conns i).rxbuf.buf, 0, 0, tcpRxbuf_pos, tcpRxbuf_pos⟩ }
  let s := (tcpSendSeg (s.setConn i c) i tcpFlagSyn []).2
  let s := pollLoop s i (polls.take 300000)
  if (s.conns i).state ≠ .established then (none, s.setConn i { s.conns i with inUse := false })
  else (some i, s)

def tcpClose (s : Stack) (i : Fin maxConns) : Stack :=
  let s :=
    if (s.conns i).state = .established then (tcpSendSeg s i (tcpFlagFin ||| tcpFlagAck) []).2 else s
  s.setConn i { s.conns i with state := .closed, inUse := false }

end AetherOS.Tcp

namespace AetherOS.Proc
open Sched Runs Function

/-! ## The descriptor table of a process -/

abbrev FdTable := Fin maxFds → FdEntry

/-- A descriptor that refers to nothing. -/
def closedFd : FdEntry := ⟨false, .none, 0⟩

/-- The slot of a descriptor. -/
def fdSlot (fd : ℤ) : Option (Fin maxFds) :=
  if h : 0 ≤ fd ∧ fd < maxFds then some ⟨fd.toNat, by omega⟩ else none

/-- The entry of an open descriptor. -/
def fdEntry (t : FdTable) (fd : ℤ) : Option FdEntry :=
  (fdSlot fd).bind fun i => if (t i).isOpen then some (t i) else none

def fdType (t : FdTable) (fd : ℤ) : FdType := ((fdEntry t fd).map (·.type)).getD .none

def fdId (t : FdTable) (fd : ℤ) : ℤ := ((fdEntry t fd).map (·.id)).getD (-1)

def fdToVfs (t : FdTable) (fd : ℤ) : ℤ := if fdType t fd = .file then fdId t fd else -1

/-- The first slot from `start` on that is not open, or `none` for the result -1. -/
def fdAllocFrom (start : ℕ) (type : FdType) (t : FdTable) (id : ℤ) : Option (Fin maxFds) × FdTable :=
  match (List.finRange maxFds).find? fun i => decide (start ≤ i.val) && !(t i).isOpen with
  | none => (none, t)
  | some i => (some i, update t i ⟨true, type, id⟩)

def fdAlloc := fdAllocFrom 3 .file
def fdAllocSocket := fdAllocFrom 0 .socket
def fdAllocPipe (t : FdTable) (idx : ℤ) (type : FdType) := fdAllocFrom 3 type t idx

def fdSet (t : FdTable) (slot : Fin maxFds) (type : FdType) (id : ℤ) : FdTable :=
  update t slot ⟨true, type, id⟩

def fdFree (t : FdTable) (fd : ℤ) : FdTable :=
  match fdSlot fd with
  | none => t
  | some i => update t i closedFd

/-! ## The shared tables -/

abbrev vfsMaxOpen : ℕ := 16
abbrev maxSockets : ℕ := 8

structure VfsFile where
  inUse : Bool
  inode : ℕ
  offset : ℕ
  deriving DecidableEq, Repr

structure Socket where
  used : Bool
  conn : Option (Fin Tcp.maxConns)
  deriving DecidableEq, Repr

/-- The processes with the pipes, the open files, the sockets, and the connections. `live`
are the process records that are allocated. -/
structure World where
  sys : System
  live : ℕ → Bool
  files : Fin vfsMaxOpen → VfsFile
  socks : Fin maxSockets → Socket
  tcp : Tcp.Stack
  nextPort : UInt16

namespace World

def fds (w : World) (p : ℕ) : FdTable := (w.sys.procs p).fds

def setFds (w : World) (p : ℕ) (t : FdTable) : World :=
  { w with sys := w.sys.editProc p fun x => { x with fds := t } }

def setPipes (w : World) (pipes : Fin maxPipes → Pipe) : World :=
  { w with sys := { w.sys with pipes := pipes } }

end World

/-- The flags that `pipe_alloc` sets; the first free slot, or `none` for the result -1. -/
def allocPipe (pipes : Fin maxPipes → Pipe) : Option (Fin maxPipes) × (Fin maxPipes → Pipe) :=
  match (List.finRange maxPipes).find? fun i => !(pipes i).inUse with
  | none => (none, pipes)
  | some i => (some i, update pipes i ⟨true, false, false⟩)

def freePipe (pipes : Fin maxPipes → Pipe) (i : Fin maxPipes) : Fin maxPipes → Pipe :=
  update pipes i { pipes i with inUse := false }

/-- The loop of `vfs_open` over the open files. -/
def vfsOpenSlot (files : Fin vfsMaxOpen → VfsFile) (inode offset : ℕ) :
    Option (Fin vfsMaxOpen) × (Fin vfsMaxOpen → VfsFile) :=
  match (List.finRange vfsMaxOpen).find? fun i => !(files i).inUse with
  | none => (none, files)
  | some i => (some i, update files i ⟨true, inode, offset⟩)

def vfsClose (files : Fin vfsMaxOpen → VfsFile) (fd : ℤ) : Fin vfsMaxOpen → VfsFile :=
  fun i => if (i.val : ℤ) = fd then { files i with inUse := false } else files i

def sockAlloc (socks : Fin maxSockets → Socket) : Option (Fin maxSockets) × (Fin maxSockets → Socket) :=
  match (List.finRange maxSockets).find? fun i => !(socks i).used with
  | none => (none, socks)
  | some i => (some i, update socks i ⟨true, none⟩)

def sockFree (socks : Fin maxSockets → Socket) (i : Fin maxSockets) : Fin maxSockets → Socket :=
  update socks i ⟨false, none⟩

/-- The socket that an index names. -/
def sockSlot (idx : ℤ) : Option (Fin maxSockets) :=
  if h : 0 ≤ idx ∧ idx < maxSockets then some ⟨idx.toNat, by omega⟩ else none

def sockClose (w : World) (idx : ℤ) : World :=
  match sockSlot idx with
  | none => w
  | some i =>
    let c := (w.socks i).conn
    let w := { w with socks := sockFree w.socks i }
    match c with
    | none => w
    | some c => { w with tcp := Tcp.tcpClose w.tcp c }

def sockConnect (w : World) (idx : ℤ) (ip : UInt32) (port : UInt16)
    (polls : List (Option (List UInt8))) : ℤ × World :=
  match sockSlot idx with
  | none => (-1, w)
  | some i =>
    match Tcp.allocConn w.tcp with
    | none => (-1, w)
    | some c =>
      let r := Tcp.tcpConnect w.tcp c w.nextPort ip port polls
      let w := { w with tcp := r.2, nextPort := w.nextPort + 1 }
      match r.1 with
      | none => (-1, w)
      | some c => (0, { w with socks := update w.socks i { w.socks i with conn := some c } })

/-! ## System calls of process `p` -/

/-- `sys_pipe`; `copied` says whether the two descriptors could be copied to the caller. -/
def sysPipe (w : World) (p : ℕ) (copied : Bool) : ℤ × World :=
  match allocPipe w.sys.pipes with
  | (none, _) => (-24, w)
  | (some idx, pipes) =>
    match fdAllocPipe (w.fds p) idx.val .pipeRead with
    | (none, _) => (-24, w.setPipes (freePipe pipes idx))
    | (some rfd, t) =>
      match fdAllocPipe t idx.val .pipeWrite with
      | (none, _) => (-24, (w.setPipes (freePipe pipes idx)).setFds p (fdFree t rfd.val))
      | (some wfd, t) =>
        if copied then (0, (w.setPipes pipes).setFds p t)
        else (-14, (w.setPipes (freePipe pipes idx)).setFds p (fdFree (fdFree t rfd.val) wfd.val))

/-- `sys_open` once the file system has answered with an inode and an offset, or failed. -/
def sysOpen (w : World) (p : ℕ) (found : Option (ℕ × ℕ)) : ℤ × World :=
  match found with
  | none => (-2, w)
  | some (inode, offset) =>
    match vfsOpenSlot w.files inode offset with
    | (none, _) => (-2, w)
    | (some vfd, files) =>
      match fdAlloc (w.fds p) vfd.val with
      | (none, _) => (-24, { w with files := vfsClose files vfd.val })
      | (some fd, t) => (fd.val, { w with files := files }.setFds p t)

def sysSocket (w : World) (p : ℕ) : ℤ × World :=
  match sockAlloc w.socks with
  | (none, _) => (-24, w)
  | (some idx, socks) =>
    match fdAllocSocket (w.fds p) idx.val with
    | (none, _) => (-24, { w with socks := sockFree socks idx })
    | (some fd, t) => (fd.val, { w with socks := socks }.setFds p t)

/-- `sys_connect`; the address is `none` when it cannot be copied from the caller. -/
def sysConnect (w : World) (p : ℕ) (fd : ℤ) (addr : Option (UInt32 × UInt16))
    (polls : List (Option (List UInt8))) : ℤ × World :=
  if fdType (w.fds p) fd ≠ .socket then (-9, w)
  else
    match addr with
    | none => (-14, w)
    | some (ip, port) => sockConnect w (fdId (w.fds p) fd) ip port polls

def sysClose (w : World) (p : ℕ) (fd : ℤ) : ℤ × World :=
  let id := fdId (w.fds p) fd
  match fdType (w.fds p) fd with
  | .socket => (0, (sockClose w id).setFds p (fdFree (w.fds p) fd))
  | .pipeRead => (0, (w.setPipes (pipeCloseRead w.sys.pipes id)).setFds p (fdFree (w.fds p) fd))
  | .pipeWrite => (0, (w.setPipes (pipeCloseWrite w.sys.pipes id)).setFds p (fdFree (w.fds p) fd))
  | _ =>
    if fdToVfs (w.fds p) fd < 0 then (-9, w)
    else (0, { w with files := vfsClose w.files (fdToVfs (w.fds p) fd) }.setFds p (fdFree (w.fds p) fd))

/-- The pipe end of the caller that a child inherits. -/
def inherit (parent child : FdTable) (slot : Fin maxFds) (type : FdType) (fd : ℤ) : FdTable :=
  if 0 ≤ fd ∧ fdType parent fd = type then fdSet child slot type (fdId parent fd) else child

/-- `sys_spawn` once the program is loaded: the record `child` and the thread `t` are new. -/
def sysSpawn (w : World) (p child t : ℕ) (stdinFd stdoutFd : ℤ) : World :=
  let fds := inherit (w.fds p) (fun _ => closedFd) 0 .pipeRead stdinFd
  let fds := inherit (w.fds p) fds 1 .pipeWrite stdoutFd
  { w with
    live := update w.live child true
    sys :=
      { w.sys with
        procs := update w.sys.procs child ⟨t, false, 0, 0, fds⟩
        sched := schedAdd (threadCreateUser w.sys.sched t) t } }

/-- `sys_exit` on CPU `c`; `none` while a waiter cannot be woken. -/
def sysExit (fuel : ℕ) (w : World) (c : Fin maxCpus) (p status : ℕ) : Option World :=
  match processMarkExited fuel (closeFds w.sys p) p (status % 256) with
  | none => none
  | some sys => some { w with sys := { sys with sched := stopCurrent sys.sched c .dead } }

/-! ## Runs -/

inductive Call where
  | pipe (p : ℕ) (copied : Bool)
  | openFile (p : ℕ) (found : Option (ℕ × ℕ))
  | socket (p : ℕ)
  | connect (p : ℕ) (fd : ℤ) (addr : Option (UInt32 × UInt16)) (polls : List (Option (List UInt8)))
  | close (p : ℕ) (fd : ℤ)
  | spawn (p child t : ℕ) (stdinFd stdoutFd : ℤ)
  | exit (c : Fin maxCpus) (p status : ℕ)
  | kill (p : ℕ)
  | reap (p : ℕ)
  | schedule (sched : State)

/-- The effect of a call; `none` while it cannot complete. -/
def World.handle (fuel : ℕ) (w : World) : Call → Option World
  | .pipe p copied => some (sysPipe w p copied).2
  | .openFile p found => some (sysOpen w p found).2
  | .socket p => some (sysSocket w p).2
  | .connect p fd addr polls => some (sysConnect w p fd addr polls).2
  | .close p fd => some (sysClose w p fd).2
  | .spawn p child t stdinFd stdoutFd =>
    if w.live child then none else some (sysSpawn w p child t stdinFd stdoutFd)
  | .exit c p status => sysExit fuel w c p status
  | .kill p => (processKill fuel w.sys p).map fun sys => { w with sys := sys }
  | .reap p => some { w with live := update w.live p false }
  | .schedule sched => some { w with sys := { w.sys with sched := sched } }

def callStep (fuel : ℕ) (w : World) (c : Call) (w' : World) : Prop := w.handle fuel c = some w'

/-- No process has a descriptor, and no slot is in use. -/
structure WorldStart (w : World) : Prop where
  fds : ∀ p k, (w.fds p k).isOpen = false
  files : ∀ k, (w.files k).inUse = false
  socks : ∀ k, (w.socks k).used = false

end AetherOS.Proc
