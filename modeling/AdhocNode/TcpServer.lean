/-
  THE TCP SERVER — `acceptTcpConnet`, `send_tcpserver`, `recv_tcpserver` and `rw_tcpserver` of
  `src/protocol_socket.c`.

  1. **The state** — `SttcpserverCrol` is the structure the functions share.  `TcpState` adds what
     only the system knows: the connections that were accepted and not yet closed, and the calls of
     `write`, `read` and `close` so far.

  2. **The system** — `Env` holds the outcomes of the system calls of one function call: `accept`
     fails or returns a descriptor; `select` returns 0 or less, or reports some of the descriptors it
     was given; `write` and `read` succeed, are to be retried (EINTR, EWOULDBLOCK, EAGAIN), or fail
     for good.  A process has no two connections with one descriptor, so `accept` returns one that
     is not open (`Env.Allowed`).

  3. **The functions** — they return `none` where the code is undefined: a descriptor from
     `FD_SETSIZE` on in an `fd_set` operation, or an index outside `connfd_alive`.  What is read is
     only printed, so the bytes are left out.
-/
import AdhocNode.Lib.CMem
import Mathlib.Data.Finset.Basic
import Mathlib.Data.List.FinRange

namespace AdhocNode

open CMem

/-! ## The state -/

/-- `UART_TCP_CLIENT_MAX`. -/
def uartTcpClientMax : Nat := 16

/-- The number of descriptors that an `fd_set` can hold. -/
def fdSetsize : Nat := 1024

/-- `fd_set`. -/
abbrev FdSet := Finset Nat

/-- `FD_SET`. -/
def fdSet (fd : Nat) (s : FdSet) : Option FdSet := if fd < fdSetsize then some (insert fd s) else none

/-- `FD_CLR`. -/
def fdClr (fd : Nat) (s : FdSet) : Option FdSet := if fd < fdSetsize then some (s.erase fd) else none

/-- `FD_ISSET`. -/
def fdIsset (fd : Nat) (s : FdSet) : Option Bool :=
  if fd < fdSetsize then some (decide (fd ∈ s)) else none

/-- `sttcpserver_crol`. -/
structure SttcpserverCrol where
  connfdAlivenum : Int
  maxFd : Int
  readSet : FdSet
  writeSet : FdSet
  selectReadSet : FdSet
  selectWriteSet : FdSet
  sockfd : Nat
  connfdAlive : Fin uartTcpClientMax → Nat

/-- How a `write` or a `read` ends; `done n` moved `n` bytes. -/
inductive IoResult where
  | done (n : Nat)
  | retry
  | fatal
  deriving DecidableEq, Repr

/-- The calls that a connection sees. -/
inductive SysCall where
  | write (connfd : Nat) (buf : List UInt8) (r : IoResult)
  | read (connfd : Nat) (r : IoResult)
  | close (connfd : Nat)
  deriving DecidableEq, Repr

/-- The shared structure, the open connections and the calls so far. -/
structure TcpState where
  crol : SttcpserverCrol
  isOpen : Finset Nat
  calls : List SysCall

/-- A zeroed structure in which the listening socket is stored. -/
def TcpState.start (sockfd : Nat) : TcpState where
  crol := ⟨0, 0, ∅, ∅, ∅, ∅, sockfd, fun _ => 0⟩
  isOpen := ∅
  calls := []

/-! ## The system -/

/-- The outcomes of the system calls in one function call. -/
structure Env where
  accept : Option Nat
  acceptAgain : Option Nat
  select : Option ((Nat → Bool) × (Nat → Bool))
  write : Fin uartTcpClientMax → IoResult
  read : Fin uartTcpClientMax → IoResult

/-- `accept` returns a positive descriptor that is not in use. -/
def Env.Allowed (env : Env) (st : TcpState) : Prop :=
  ∀ fd, env.accept = some fd → 0 < fd ∧ fd ≠ st.crol.sockfd ∧ fd ∉ st.isOpen

/-- What `select` leaves of a set: the ready ones of the first `nfds` descriptors. -/
def selected (nfds : Int) (ready : Nat → Bool) (s : FdSet) : FdSet :=
  s.filter fun fd => (fd : Int) < nfds ∧ ready fd = true

/-! ## The functions -/

/-- `connfd_alive[connfd_alivenum]`, as an index. -/
def slotIndex (n : Int) : Option (Fin uartTcpClientMax) :=
  if h : 0 ≤ n ∧ n < uartTcpClientMax then some ⟨n.toNat, by omega⟩ else none

/-- The body of the loop in `acceptTcpConnet`, at the first free slot; the connection is stored at
    `connfd_alivenum` all the same. -/
def storeConnfd (connfd : Nat) (st : TcpState) : Option TcpState := do
  let c := st.crol
  let i ← slotIndex c.connfdAlivenum
  let readSet ← fdSet connfd c.readSet
  let writeSet ← fdSet connfd c.writeSet
  return { st with crol := { c with
    connfdAlive := Function.update c.connfdAlive i connfd
    connfdAlivenum := c.connfdAlivenum + 1
    readSet := readSet
    writeSet := writeSet
    maxFd := if (connfd : Int) > c.maxFd then connfd else c.maxFd } }

/-- `acceptTcpConnet`, where `accept` returns `r`. -/
def acceptTcpConnet (r : Option Nat) (st : TcpState) : Option TcpState :=
  if st.crol.connfdAlivenum ≥ uartTcpClientMax then some st
  else match r with
    | none => some st
    | some connfd =>
      -- a search for a free slot; when there is none, the connection is open but stored nowhere
      let st := { st with isOpen := insert connfd st.isOpen }
      if ∃ i, st.crol.connfdAlive i = 0 then storeConnfd connfd st else some st

/-- What the three functions do with a connection that fails for good. -/
def closeConnfd (i : Fin uartTcpClientMax) (connfd : Nat) (st : TcpState) : Option TcpState := do
  let c := st.crol
  let readSet ← fdClr connfd c.readSet
  let writeSet ← fdClr connfd c.writeSet
  return {
    crol := { c with
      connfdAlive := Function.update c.connfdAlive i 0
      connfdAlivenum := c.connfdAlivenum - 1
      readSet := readSet
      writeSet := writeSet }
    isOpen := st.isOpen.erase connfd
    calls := st.calls ++ [.close connfd] }

/-- The write to the connection in slot `i`, and whether it was closed for it. -/
def writeSlot (psendBuf : Mem) (sendLen : Int) (env : Env) (i : Fin uartTcpClientMax) (connfd : Nat)
    (st : TcpState) : Option (TcpState × Bool) := do
  if (← fdIsset connfd st.crol.selectWriteSet) && decide (0 < sendLen) then
    let st := { st with
      calls := st.calls ++ [.write connfd (psendBuf.slice 0 sendLen.toNat) (env.write i)] }
    if env.write i = .fatal then return (← closeConnfd i connfd st, true)
    else return (st, false)
  else return (st, false)

/-- The read from the connection in slot `i`. -/
def readSlot (env : Env) (i : Fin uartTcpClientMax) (connfd : Nat) (st : TcpState) :
    Option TcpState := do
  if ← fdIsset connfd st.crol.selectReadSet then
    let st := { st with calls := st.calls ++ [.read connfd (env.read i)] }
    if env.read i = .fatal then closeConnfd i connfd st else return st
  else return st

/-- The loop body of `send_tcpserver`. -/
def sendSlot (psendBuf : Mem) (sendLen : Int) (env : Env) (i : Fin uartTcpClientMax)
    (st : TcpState) : Option TcpState :=
  (writeSlot psendBuf sendLen env i (st.crol.connfdAlive i) st).map Prod.fst

/-- The loop body of `recv_tcpserver`. -/
def recvSlot (env : Env) (i : Fin uartTcpClientMax) (st : TcpState) : Option TcpState :=
  readSlot env i (st.crol.connfdAlive i) st

/-- The loop body of `rw_tcpserver`: a write that fails for good is followed by `continue`. -/
def rwSlot (psendBuf : Mem) (sendLen : Int) (env : Env) (i : Fin uartTcpClientMax)
    (st : TcpState) : Option TcpState := do
  let connfd := st.crol.connfdAlive i
  let (st, closed) ← writeSlot psendBuf sendLen env i connfd st
  if closed then return st else readSlot env i connfd st

/-- `for (i = 0; i < connMax; i++)`; `i` is unsigned. -/
def scan (body : Fin uartTcpClientMax → TcpState → Option TcpState) (connMax : Int)
    (st : TcpState) : Option TcpState :=
  if toU32 connMax ≤ uartTcpClientMax then
    ((List.finRange uartTcpClientMax).take (toU32 connMax)).foldlM (fun st i => body i st) st
  else none

/-- The second `accept`, when `select` reports the listening socket. -/
def acceptIfReady (env : Env) (st : TcpState) : Option TcpState := do
  if ← fdIsset st.crol.sockfd st.crol.selectReadSet then acceptTcpConnet env.acceptAgain st
  else return st

/-- `send_tcpserver`. -/
def sendTcpserver (psendBuf : Mem) (sendLen : Int) (env : Env) (st : TcpState) :
    Option TcpState := do
  let st ← acceptTcpConnet env.accept st
  let c := st.crol
  match env.select with
  | none => return { st with crol := { c with selectWriteSet := c.writeSet } }
  | some (_, writable) =>
    let st := { st with crol := { c with
      selectWriteSet := selected (c.maxFd + 1) writable c.writeSet } }
    scan (sendSlot psendBuf sendLen env) c.connfdAlivenum st

/-- `recv_tcpserver`. -/
def recvTcpserver (env : Env) (st : TcpState) : Option TcpState := do
  let st ← acceptTcpConnet env.accept st
  let c := st.crol
  match env.select with
  | none => return { st with crol := { c with selectReadSet := c.readSet } }
  | some (readable, _) =>
    let st := { st with crol := { c with
      selectReadSet := selected (c.maxFd + 1) readable c.readSet } }
    let st ← acceptIfReady env st
    scan (recvSlot env) c.connfdAlivenum st

/-- `rw_tcpserver`. -/
def rwTcpserver (psendBuf : Mem) (sendLen : Int) (env : Env) (st : TcpState) : Option TcpState := do
  let st ← acceptTcpConnet env.accept st
  let c := st.crol
  match env.select with
  | none =>
    return { st with crol := { c with selectReadSet := c.readSet, selectWriteSet := c.writeSet } }
  | some (readable, writable) =>
    let st := { st with crol := { c with
      selectReadSet := selected (c.maxFd + 1) readable c.readSet
      selectWriteSet := selected (c.maxFd + 1) writable c.writeSet } }
    let st ← acceptIfReady env st
    scan (rwSlot psendBuf sendLen env) c.connfdAlivenum st

/-- A call of one of the functions. -/
inductive TcpCall where
  | accept
  | send (psendBuf : Mem) (sendLen : Int)
  | recv
  | rw (psendBuf : Mem) (sendLen : Int)

/-- The call, with the outcomes of its system calls. -/
def tcpCall : TcpCall → Env → TcpState → Option TcpState
  | .accept, env => acceptTcpConnet env.accept
  | .send psendBuf sendLen, env => sendTcpserver psendBuf sendLen env
  | .recv, env => recvTcpserver env
  | .rw psendBuf sendLen, env => rwTcpserver psendBuf sendLen env

end AdhocNode
