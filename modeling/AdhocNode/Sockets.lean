/-
  SOCKETS — `init_udp`, `init_udpmulti`, `init_tcpserver`, `init_tcpclient` and the socket of `dist_init`
  of `src/protocol_socket.c`.

  1. **The kernel** — what it keeps of a socket, and the calls.  The kernel decides which descriptor a
     socket gets, which port one that asks for none, and whether a call fails (`SockEnv`); but two
     sockets of a type do not get the same port at overlapping addresses, unless both may reuse it
     (`SO_REUSEADDR`) and the first does not listen.

  2. **The functions** — each opens a socket and prepares it.  `init_udp` sets the option
     `SO_BROADCAST | SO_REUSEADDR`: that is the number of `SO_BROADCAST`, so no UDP socket may reuse its
     address.  `init_tcpclient` does not look at the result of `connect`.

  3. **One call** — either nothing that was open has changed, or one more socket is open, prepared as the
     function is meant to (`Opening`).
-/
import AdhocNode.Lib.CMem
import AdhocNode.Lib.Descriptors

namespace AdhocNode

open Descriptors

/-! ## The kernel -/

/-- `SOCK_DGRAM` and `SOCK_STREAM`. -/
inductive SockType where
  | dgram
  | stream
  deriving DecidableEq

/-- `sockaddr_in`, in the byte order of the host. -/
structure SockAddr where
  addr : UInt32
  port : UInt16
  deriving DecidableEq

/-- `INADDR_ANY`. -/
def inaddrAny : UInt32 := 0

/-- `SO_REUSEADDR`. -/
def soReuseaddr : Nat := 2

/-- `SO_BROADCAST`. -/
def soBroadcast : Nat := 6

/-- What the kernel keeps of a socket. -/
structure Sock where
  type : SockType
  reuseaddr : Bool := false
  broadcast : Bool := false
  multicastLoop : Bool := true
  nonblock : Bool := false
  name : Option SockAddr := none
  backlog : Option Nat := none
  membership : Option UInt32 := none
  peer : Option SockAddr := none
  deriving DecidableEq

/-- The sockets of the process. -/
abbrev Sockets := FdTable Sock

/-- What the kernel decides in a call; `val` is what `init_udp` finds in its variable. -/
structure SockEnv where
  socket : Option Nat
  val : Int32
  ephemeral : SockAddr
  bind : Bool
  listen : Bool
  addMembership : Bool
  connect : Bool

/-- One of the sockets stands at an address of the other's. -/
def SockAddr.overlaps (a b : SockAddr) : Bool :=
  a.port = b.port ∧ (a.addr = b.addr ∨ a.addr = inaddrAny ∨ b.addr = inaddrAny)

/-- Two sockets of one type, at overlapping addresses. -/
def Sock.overlaps (a b : Sock) : Bool :=
  match a.name, b.name with
  | some m, some n => decide (a.type = b.type) && m.overlaps n
  | _, _ => false

/-- A socket that is there keeps another from its address. -/
def Sock.keepsOut (other s : Sock) : Bool :=
  other.overlaps s && !(other.reuseaddr && s.reuseaddr && other.backlog.isNone)

/-- `setsockopt` at the level `SOL_SOCKET`. -/
def Sock.setsockopt (optname : Nat) (optval : Int32) (s : Sock) : Sock :=
  if optname = soReuseaddr then { s with reuseaddr := decide (optval ≠ 0) }
  else if optname = soBroadcast then { s with broadcast := decide (optval ≠ 0) }
  else s

/-- `bind` of a socket; the kernel chooses a port if none is given. -/
def bindSock (env : SockEnv) (sockfd : Nat) (sin : SockAddr) (t : Sockets) : Option Sockets :=
  let sin := if sin.port = 0 then { sin with port := env.ephemeral.port } else sin
  let s := { t.val sockfd with name := some sin }
  if env.bind ∧ ∀ x ∈ t.fds, x ≠ sockfd → (t.val x).keepsOut s = false then
    some (t.modify sockfd fun _ => s)
  else none

/-- `listen`. -/
def listenSock (env : SockEnv) (sockfd backlog : Nat) (t : Sockets) : Option Sockets :=
  if env.listen then some (t.modify sockfd fun s => { s with backlog := some backlog }) else none

/-- `setsockopt` with `IP_ADD_MEMBERSHIP`, of any interface. -/
def addMembership (env : SockEnv) (sockfd : Nat) (group : UInt32) (t : Sockets) : Option Sockets :=
  if env.addMembership then some (t.modify sockfd fun s => { s with membership := some group }) else none

/-- `connect`, which gives the socket a name of the kernel's choice. -/
def connectSock (env : SockEnv) (sockfd : Nat) (addr : SockAddr) (t : Sockets) : Sockets :=
  if env.connect then t.modify sockfd fun s => { s with name := some env.ephemeral, peer := some addr }
  else t

/-! ## The functions -/

/-- `INVALID`. -/
def invalid : Int := -1

/-- `htons(port)`, as the kernel reads it. -/
def htons (port : Int32) : UInt16 := port.toUInt32.toUInt16

/-- "192.168.10.43" -/
def serverAddr : UInt32 := 0xC0A80A2B

/-- "225.0.0.30" -/
def multiAddr : UInt32 := 0xE100001E

/-- `MULTI_PORT`. -/
def multiPort : Int32 := 8008

/-- `init_udp`. -/
def initUdp (env : SockEnv) (port : Int32) (t : Sockets) : Sockets × Int :=
  match env.socket with
  | none => (t, invalid)
  | some sockfd =>
    let t := t.alloc sockfd { type := .dgram }
    let t := t.modify sockfd (Sock.setsockopt (soBroadcast ||| soReuseaddr) env.val)
    match bindSock env sockfd ⟨inaddrAny, htons port⟩ t with
    | none => (t.close sockfd, invalid)
    | some t => (t, sockfd)

/-- `init_udpmulti`; `mulip` is the address that `inet_pton` reads. -/
def initUdpmulti (env : SockEnv) (port : Int32) (mulip : UInt32) (t : Sockets) : Sockets × Int :=
  match env.socket with
  | none => (t, invalid)
  | some sockfd =>
    let t := t.alloc sockfd { type := .dgram }
    match bindSock env sockfd ⟨mulip, htons port⟩ t with
    | none => (t.close sockfd, invalid)
    | some t =>
      let t := t.modify sockfd fun s => { s with multicastLoop := false }
      match addMembership env sockfd mulip t with
      | none => (t.close sockfd, invalid)
      | some t => (t, sockfd)

/-- `init_tcpserver`. -/
def initTcpserver (env : SockEnv) (port : Int32) (t : Sockets) : Sockets × Int :=
  match env.socket with
  | none => (t, invalid)
  | some sockfd =>
    let t := t.alloc sockfd { type := .stream }
    let t := t.modify sockfd fun s => { s with nonblock := true }
    let t := t.modify sockfd (Sock.setsockopt soReuseaddr 1)
    match bindSock env sockfd ⟨inaddrAny, htons port⟩ t with
    | none => (t.close sockfd, invalid)
    | some t =>
      match listenSock env sockfd 5 t with
      | none => (t.close sockfd, invalid)
      | some t => (t, sockfd)

/-- `init_tcpclient`. -/
def initTcpclient (env : SockEnv) (port : Int32) (t : Sockets) : Sockets × Int :=
  match env.socket with
  | none => (t, invalid)
  | some sockfd =>
    let t := t.alloc sockfd { type := .stream }
    let t := t.modify sockfd fun s => { s with nonblock := true }
    let t := t.modify sockfd (Sock.setsockopt soReuseaddr 1)
    (connectSock env sockfd ⟨serverAddr, htons port⟩ t, sockfd)

/-- One of them. -/
inductive NetCall where
  | initUdp (port : Int32)
  | initUdpmulti (port : Int32) (mulip : UInt32)
  | initTcpserver (port : Int32)
  | initTcpclient (port : Int32)
  deriving DecidableEq

/-- The call. -/
def NetCall.exec (env : SockEnv) : NetCall → Sockets → Sockets × Int
  | .initUdp port => AdhocNode.initUdp env port
  | .initUdpmulti port mulip => AdhocNode.initUdpmulti env port mulip
  | .initTcpserver port => AdhocNode.initTcpserver env port
  | .initTcpclient port => AdhocNode.initTcpclient env port

/-- The socket of `dist_init`. -/
def distInitCall : NetCall := .initUdpmulti multiPort multiAddr

/-! ## One call -/

/-- At this address, and at this port if it is one. -/
def Sock.Bound (s : Sock) (addr : UInt32) (port : UInt16) : Prop :=
  ∃ p, s.name = some ⟨addr, p⟩ ∧ (port ≠ 0 → p = port)

/-- What the call is meant to prepare. -/
def NetCall.Prepared : NetCall → Sock → Prop
  | .initUdp port, s => s.type = .dgram ∧ s.Bound inaddrAny (htons port) ∧ s.reuseaddr = false
  | .initUdpmulti port mulip, s =>
    s.type = .dgram ∧ s.Bound mulip (htons port) ∧ s.reuseaddr = false ∧
      s.membership = some mulip ∧ s.multicastLoop = false
  | .initTcpserver port, s =>
    s.type = .stream ∧ s.Bound inaddrAny (htons port) ∧ s.backlog = some 5 ∧ s.nonblock = true
  | .initTcpclient _, s => s.type = .stream ∧ s.nonblock = true

/-- A socket that shares its address with nobody. -/
def Sock.exclusive (s : Sock) : Bool := !s.reuseaddr || s.backlog.isSome

/-- What a call does: it fails, or one more socket is open. -/
inductive Opening (call : NetCall) (env : SockEnv) (t : Sockets) : Sockets × Int → Prop
  | failed {t' : Sockets} (same : Same t t') : Opening call env t (t', invalid)
  | opened {t' : Sockets} {sockfd : Nat} {s : Sock} (new : env.socket = some sockfd)
      (added : Added sockfd s t t') (prepared : call.Prepared s)
      (apart : s.exclusive = true → ∀ x ∈ t.fds, (t.val x).exclusive = true → (t.val x).overlaps s = false) :
      Opening call env t (t', sockfd)

section

variable {env : SockEnv} {t t' t'' : Sockets} {sockfd : Nat} {s other : Sock}

/-- An exclusive socket keeps out all that overlap it. -/
theorem Sock.overlaps_of_exclusive (hother : other.exclusive = true) (hout : other.keepsOut s = false) :
    other.overlaps s = false := by
  unfold Sock.exclusive at hother
  unfold Sock.keepsOut at hout
  revert hother hout
  cases other.overlaps s <;> cases other.reuseaddr <;> cases other.backlog <;> simp

/-- Addresses overlap in both directions. -/
theorem SockAddr.overlaps_comm (m n : SockAddr) : m.overlaps n = n.overlaps m := by
  unfold SockAddr.overlaps
  apply decide_eq_decide.mpr
  rw [eq_comm, eq_comm (a := m.addr), or_comm (a := m.addr = inaddrAny)]

theorem Sock.overlaps_comm (a b : Sock) : a.overlaps b = b.overlaps a := by
  unfold Sock.overlaps
  cases a.name with
  | none => cases b.name <;> rfl
  | some m =>
    cases b.name with
    | none => rfl
    | some n =>
      show (decide (a.type = b.type) && m.overlaps n) = (decide (b.type = a.type) && n.overlaps m)
      rw [SockAddr.overlaps_comm, decide_eq_decide.mpr eq_comm]

/-- **`bind`** of a new socket. -/
theorem bindSock_added {sin : SockAddr} (h : Added sockfd s t t')
    (hbind : bindSock env sockfd sin t' = some t'') : ∃ p, (sin.port ≠ 0 → p = sin.port) ∧
      Added sockfd { s with name := some ⟨sin.addr, p⟩ } t t'' ∧
      ∀ x ∈ t.fds, (t.val x).exclusive = true →
        (t.val x).overlaps { s with name := some ⟨sin.addr, p⟩ } = false := by
  have hname : ∃ p, (sin.port ≠ 0 → p = sin.port) ∧
      (if sin.port = 0 then { sin with port := env.ephemeral.port } else sin) = ⟨sin.addr, p⟩ := by
    by_cases hport : sin.port = 0
    · exact ⟨env.ephemeral.port, fun h => absurd hport h, if_pos hport⟩
    · exact ⟨sin.port, fun _ => rfl, if_neg hport⟩
  rcases hname with ⟨p, hp, hname⟩
  unfold bindSock at hbind
  rw [hname, h.self] at hbind
  dsimp only at hbind
  split at hbind
  · rename_i hfree
    cases hbind
    refine ⟨p, hp, h.modify fun _ => { s with name := some ⟨sin.addr, p⟩ }, fun x hx hexcl => ?_⟩
    apply Sock.overlaps_of_exclusive hexcl
    exact (h.forall_ne_iff (P := fun o => o.keepsOut { s with name := some ⟨sin.addr, p⟩ } = false)).mp
      hfree.2 x hx
  · cases hbind

/-- **`init_udp`** opens and prepares a socket, or leaves nothing behind. -/
theorem initUdp_opening (port : Int32) (hnew : ∀ sockfd ∈ env.socket, sockfd ∉ t.fds) :
    Opening (.initUdp port) env t (initUdp env port t) := by
  unfold initUdp
  cases hsocket : env.socket with
  | none => exact Opening.failed (Same.refl t)
  | some sockfd =>
    have hadded := (Added.alloc (hnew sockfd hsocket) { type := .dgram }).modify
      (Sock.setsockopt (soBroadcast ||| soReuseaddr) env.val)
    dsimp only
    cases hbind : bindSock env sockfd ⟨inaddrAny, htons port⟩ _ with
    | none => exact Opening.failed hadded.close
    | some t₁ =>
      rcases bindSock_added hadded hbind with ⟨p, hp, hadded, hapart⟩
      exact Opening.opened hsocket hadded ⟨rfl, ⟨p, rfl, hp⟩, rfl⟩ fun _ => hapart

theorem initUdpmulti_opening (port : Int32) (mulip : UInt32)
    (hnew : ∀ sockfd ∈ env.socket, sockfd ∉ t.fds) :
    Opening (.initUdpmulti port mulip) env t (initUdpmulti env port mulip t) := by
  unfold initUdpmulti
  cases hsocket : env.socket with
  | none => exact Opening.failed (Same.refl t)
  | some sockfd =>
    have hadded := Added.alloc (hnew sockfd hsocket) { type := .dgram }
    dsimp only
    cases hbind : bindSock env sockfd ⟨mulip, htons port⟩ _ with
    | none => exact Opening.failed hadded.close
    | some t₁ =>
      rcases bindSock_added hadded hbind with ⟨p, hp, hadded, hapart⟩
      have hadded := hadded.modify fun s => { s with multicastLoop := false }
      dsimp only
      unfold addMembership
      cases env.addMembership with
      | false => exact Opening.failed hadded.close
      | true =>
        exact Opening.opened hsocket (hadded.modify fun s => { s with membership := some mulip })
          ⟨rfl, ⟨p, rfl, hp⟩, rfl, rfl, rfl⟩ fun _ => hapart

theorem initTcpserver_opening (port : Int32) (hnew : ∀ sockfd ∈ env.socket, sockfd ∉ t.fds) :
    Opening (.initTcpserver port) env t (initTcpserver env port t) := by
  unfold initTcpserver
  cases hsocket : env.socket with
  | none => exact Opening.failed (Same.refl t)
  | some sockfd =>
    have hadded := ((Added.alloc (hnew sockfd hsocket) { type := .stream }).modify
      fun s => { s with nonblock := true }).modify (Sock.setsockopt soReuseaddr 1)
    dsimp only
    cases hbind : bindSock env sockfd ⟨inaddrAny, htons port⟩ _ with
    | none => exact Opening.failed hadded.close
    | some t₁ =>
      rcases bindSock_added hadded hbind with ⟨p, hp, hadded, hapart⟩
      dsimp only
      unfold listenSock
      cases env.listen with
      | false => exact Opening.failed hadded.close
      | true =>
        exact Opening.opened hsocket (hadded.modify fun s => { s with backlog := some 5 })
          ⟨rfl, ⟨p, rfl, hp⟩, rfl, rfl⟩ fun _ => hapart

/-- **`init_tcpclient`** never closes its socket: it may not be connected, nor connecting. -/
theorem initTcpclient_opening (port : Int32) (hnew : ∀ sockfd ∈ env.socket, sockfd ∉ t.fds) :
    Opening (.initTcpclient port) env t (initTcpclient env port t) := by
  unfold initTcpclient
  cases hsocket : env.socket with
  | none => exact Opening.failed (Same.refl t)
  | some sockfd =>
    have hadded := ((Added.alloc (hnew sockfd hsocket) { type := .stream }).modify
      fun s => { s with nonblock := true }).modify (Sock.setsockopt soReuseaddr 1)
    dsimp only
    unfold connectSock
    cases env.connect with
    | false => exact Opening.opened hsocket hadded ⟨rfl, rfl⟩ fun h => absurd h Bool.false_ne_true
    | true =>
      have hadded := hadded.modify fun s =>
        { s with name := some env.ephemeral, peer := some ⟨serverAddr, htons port⟩ }
      exact Opening.opened hsocket hadded ⟨rfl, rfl⟩ fun h => absurd h Bool.false_ne_true

/-- **Each of the calls opens one socket, prepared as it is meant to be, or leaves nothing behind.** -/
theorem exec_opening (call : NetCall) (hnew : ∀ sockfd ∈ env.socket, sockfd ∉ t.fds) :
    Opening call env t (call.exec env t) := by
  cases call with
  | initUdp port => exact initUdp_opening port hnew
  | initUdpmulti port mulip => exact initUdpmulti_opening port mulip hnew
  | initTcpserver port => exact initTcpserver_opening port hnew
  | initTcpclient port => exact initTcpclient_opening port hnew

end

end AdhocNode
