/-
  THE TCP CLIENT, AND FRAMES — `tcpconnect`, `send_tcpclient`, `recv_tcpclient`, `rw_tcpclient` and
  `generate_msg` of `src/protocol_socket.c`.

  1. **The functions** — what a call asks of the system, with the outcomes (`ClientEnv`).  `connect` may
     give a new connection or not; its result is not looked at, and `tcpconnect` returns INVALID
     always.

  2. **Reconnecting** — a failure of `getsockopt`, an error it reports, and a `write` or `read` that fails
     for good are each answered by one `connect`, and nothing else is (`Answered`): a server that has
     closed the connection is not noticed.

  3. **Frames** — `generate_msg` makes a frame of 20 bytes, one of which it does not set.  Nobody looks at how
     much a `write` took, so what a connection carries splits into such frames iff no `write` took a
     part of one, on the side of the client (`client_frames_iff`) and of the server (`server_frames_iff`).
-/
import AdhocNode.Lib.Framing
import AdhocNode.MultiRx
import AdhocNode.Sockets
import AdhocNode.TcpStream

namespace AdhocNode

open CMem Framing

/-! ## The functions -/

/-- What `SO_ERROR` is: 0, EALREADY or EINPROGRESS, or another error. -/
inductive SoError where
  | none
  | connecting
  | error
  deriving DecidableEq

/-- How a `read` ends; at the end of the stream there is no data. -/
inductive ReadResult where
  | data (bytes : List UInt8)
  | retry
  | fatal
  deriving DecidableEq

/-- The outcomes of the system calls in one function call. -/
structure ClientEnv where
  getsockopt : Option SoError
  write : IoResult
  read : ReadResult
  connect : Bool
  connectAgain : Bool

/-- The system calls; `connect` says whether there is a new connection. -/
inductive ClientSys where
  | getsockopt (r : Option SoError)
  | write (buf : List UInt8) (r : IoResult)
  | read (r : ReadResult)
  | connect (new : Bool)
  deriving DecidableEq

/-- `tcpconnect`. -/
def tcpconnect (new : Bool) : List ClientSys × Int := ([.connect new], invalid)

/-- The write of `send_tcpclient` and `rw_tcpclient`. -/
def writeClient (env : ClientEnv) (pbuf : Mem) (sendLen : Int) : List ClientSys :=
  if 0 < sendLen then
    .write (pbuf.slice 0 sendLen.toNat) env.write ::
      if env.write = .fatal then (tcpconnect env.connect).1 else []
  else []

/-- The read of `recv_tcpclient` and `rw_tcpclient`: the calls, `rLen` and the buffer. -/
def readClient (r : ReadResult) (new : Bool) (pbuf : Mem) : List ClientSys × Int × Mem :=
  match r with
  | .data bytes =>
    let bytes := bytes.take sockBufLen
    ([.read (.data bytes)], bytes.length, pbuf.copy 0 (.ofList bytes) bytes.length)
  | .retry => ([.read .retry], -1, pbuf)
  | .fatal => (.read .fatal :: (tcpconnect new).1, -1, pbuf)

/-- `send_tcpclient`. -/
def sendTcpclient (env : ClientEnv) (pbuf : Mem) (sendLen : Int) : List ClientSys :=
  .getsockopt env.getsockopt :: match env.getsockopt with
    | some .none => writeClient env pbuf sendLen
    | some .connecting => []
    | some .error => (tcpconnect env.connect).1
    | none => (tcpconnect env.connect).1

/-- `recv_tcpclient`. -/
def recvTcpclient (env : ClientEnv) (pbuf : Mem) : List ClientSys × Int × Mem :=
  let (calls, rLen, pbuf) := match env.getsockopt with
    | some .none => readClient env.read env.connect pbuf
    | some .connecting => ([], 0, pbuf)
    | some .error => ((tcpconnect env.connect).1, 0, pbuf)
    | none => ((tcpconnect env.connect).1, 0, pbuf)
  (.getsockopt env.getsockopt :: calls, rLen, pbuf)

/-- `rw_tcpclient`. -/
def rwTcpclient (env : ClientEnv) (sendLen : Int) (psendBuf precvBuf : Mem) :
    List ClientSys × Int × Mem :=
  let (calls, rLen, precvBuf) := match env.getsockopt with
    | some .none =>
      let (calls, rLen, precvBuf) := readClient env.read env.connectAgain precvBuf
      (writeClient env psendBuf sendLen ++ calls, rLen, precvBuf)
    | some .connecting => ([], 0, precvBuf)
    | some .error => ((tcpconnect env.connect).1, 0, precvBuf)
    | none => ((tcpconnect env.connect).1, 0, precvBuf)
  (.getsockopt env.getsockopt :: calls, rLen, precvBuf)

/-- A call of one of the functions. -/
inductive ClientCall where
  | send (pbuf : Mem) (sendLen : Int)
  | recv (pbuf : Mem)
  | rw (sendLen : Int) (psendBuf precvBuf : Mem)

/-- What the call asks of the system. -/
def ClientCall.log (c : ClientCall) (env : ClientEnv) : List ClientSys :=
  match c with
  | .send pbuf sendLen => sendTcpclient env pbuf sendLen
  | .recv pbuf => (recvTcpclient env pbuf).1
  | .rw sendLen psendBuf precvBuf => (rwTcpclient env sendLen psendBuf precvBuf).1

/-- What a run of calls asks. -/
def clientLog (cs : List (ClientCall × ClientEnv)) : List ClientSys := cs.flatMap fun c => c.1.log c.2

/-- `generate_msg`: the byte behind `data` is padding. -/
def generateMsg (pbuf : Mem) : Mem × Int :=
  let pbuf := pbuf.copy 0 (leBytes 0x0FF0) 2
  let pbuf := pbuf.copy 18 (leBytes 0xE00E) 2
  (pbuf.copy 2 (fun _ => 0x0A) 15, 20)

/-! ## Reconnecting -/

/-- The system reports a failure. -/
def ClientSys.fails : ClientSys → Bool
  | .getsockopt r => r = none ∨ r = some .error
  | .write _ r => r = .fatal
  | .read r => r = .fatal
  | .connect _ => false

/-- Every failure is followed by one `connect`, and nothing else is. -/
inductive Answered : List ClientSys → Prop
  | nil : Answered []
  | quiet {x : ClientSys} {log : List ClientSys} (hx : x.fails = false)
      (hconnect : ∀ new, x ≠ .connect new) (h : Answered log) : Answered (x :: log)
  | failed {x : ClientSys} {new : Bool} {log : List ClientSys} (hx : x.fails = true)
      (h : Answered log) : Answered (x :: .connect new :: log)

theorem Answered.append {a b : List ClientSys} (ha : Answered a) (hb : Answered b) : Answered (a ++ b) := by
  induction ha with
  | nil => exact hb
  | quiet hx hconnect _ ih => exact .quiet hx hconnect ih
  | failed hx _ ih => exact .failed hx ih

section

variable (env : ClientEnv) (pbuf psendBuf : Mem) (sendLen : Int)

theorem answered_write : Answered (writeClient env pbuf sendLen) := by
  unfold writeClient
  split
  · cases hw : env.write with
    | done n => exact .quiet rfl nofun .nil
    | retry => exact .quiet rfl nofun .nil
    | fatal => exact .failed rfl .nil
  · exact .nil

theorem answered_read (r : ReadResult) (new : Bool) : Answered (readClient r new pbuf).1 := by
  cases r with
  | data bytes => exact .quiet rfl nofun .nil
  | retry => exact .quiet rfl nofun .nil
  | fatal => exact .failed rfl .nil

/-- Behind `getsockopt`, which may fail itself. -/
theorem answered_getsockopt {calls : List ClientSys} (h : Answered calls) :
    Answered (.getsockopt env.getsockopt :: match env.getsockopt with
      | some .none => calls
      | some .connecting => []
      | some .error => (tcpconnect env.connect).1
      | none => (tcpconnect env.connect).1) := by
  cases env.getsockopt with
  | none => exact .failed rfl .nil
  | some r =>
    cases r with
    | none => exact .quiet rfl nofun h
    | connecting => exact .quiet rfl nofun .nil
    | error => exact .failed rfl .nil

/-- **Each call.** -/
theorem ClientCall.answered (c : ClientCall) : Answered (c.log env) := by
  cases c with
  | send pbuf sendLen => exact answered_getsockopt env (answered_write env pbuf sendLen)
  | recv pbuf =>
    have h := answered_getsockopt env (answered_read pbuf env.read env.connect)
    unfold ClientCall.log recvTcpclient
    revert h
    cases env.getsockopt with
    | none => exact id
    | some r => cases r <;> exact id
  | rw sendLen psendBuf precvBuf =>
    have h := answered_getsockopt env ((answered_write env psendBuf sendLen).append
      (answered_read precvBuf env.read env.connectAgain))
    unfold ClientCall.log rwTcpclient
    revert h
    cases env.getsockopt with
    | none => exact id
    | some r => cases r <;> exact id

end

/-- **Every run.** -/
theorem answered_clientLog (cs : List (ClientCall × ClientEnv)) : Answered (clientLog cs) := by
  induction cs with
  | nil => exact .nil
  | cons c cs ih => exact (c.1.answered c.2).append ih

/-! ## Frames -/

/-- What is sent of a buffer that `generate_msg` has filled. -/
def IsMsg (frame : List UInt8) : Prop :=
  ∃ pbuf, frame = (generateMsg pbuf).1.slice 0 (generateMsg pbuf).2.toNat

/-- `stframe_send`, with its padding. -/
def stframeSend (pad : UInt8) : List UInt8 :=
  0xF0 :: 0x0F :: List.replicate 15 0x0A ++ [pad, 0x0E, 0xE0]

theorem generateMsg_slice (pbuf : Mem) :
    (generateMsg pbuf).1.slice 0 (generateMsg pbuf).2.toNat = stframeSend (pbuf 17) := rfl

theorem IsMsg.eq {frame : List UInt8} (h : IsMsg frame) : ∃ pad, frame = stframeSend pad := by
  rcases h with ⟨pbuf, rfl⟩
  exact ⟨pbuf 17, generateMsg_slice pbuf⟩

theorem IsMsg.length {frame : List UInt8} (h : IsMsg frame) : frame.length = 20 := by
  obtain ⟨pad, rfl⟩ := h.eq
  rfl

/-- Only the padding can look like the first byte, and the tail is behind it. -/
theorem format_isMsg : FrameFormat IsMsg 0xF0 0x0F where
  length x y hx hy := hx.length.trans hy.length.symm
  head x hx := by
    obtain ⟨pad, rfl⟩ := hx.eq
    exact ⟨_, rfl⟩
  again x hx a b hne heq := by
    obtain ⟨pad, rfl⟩ := hx.eq
    cases a with
    | nil => exact absurd rfl hne
    | cons z a =>
      have htail : (0x0F :: List.replicate 15 0x0A) ++ [pad, 0x0E, 0xE0] = a ++ 0xF0 :: b :=
        (List.cons.inj heq).2
      have hbefore : (0xF0 : UInt8) ∉ 0x0F :: List.replicate 15 0x0A := by decide
      rcases List.append_eq_append_iff.mp htail with ⟨q, -, hend⟩ | ⟨q, hmid, hend⟩
      · -- the padding, or the tail
        match q, hend with
        | [], hend => exact ⟨0x0E, [0xE0], (List.cons.inj hend).2.symm, by decide, by decide⟩
        | [_], hend => exact absurd (List.cons.inj (List.cons.inj hend).2).1 (by decide)
        | [_, _], hend =>
          exact absurd (List.cons.inj (List.cons.inj (List.cons.inj hend).2).2).1 (by decide)
        | _ :: _ :: _ :: q, hend =>
          have hnil := (List.cons.inj (List.cons.inj (List.cons.inj hend).2).2).2
          exact absurd hnil.symm (List.append_ne_nil_of_right_ne_nil q (List.cons_ne_nil _ _))
      · cases q with
        | nil => exact ⟨0x0E, [0xE0], (List.cons.inj hend).2, by decide, by decide⟩
        | cons w q =>
          rw [List.cons_append] at hend
          rw [← (List.cons.inj hend).1] at hmid
          exact absurd (hmid ▸ List.mem_append_right a (List.mem_cons_self ..)) hbefore

/-- What a `write` of a message took. -/
theorem piece_take {buf : List UInt8} (h : IsMsg buf) (n : Nat) : Piece IsMsg (buf.take n) :=
  ⟨buf, h, List.take_prefix ..⟩

/-- It is a message iff it is all of it. -/
theorem take_whole_iff {buf : List UInt8} (h : IsMsg buf) (n : Nat) :
    buf.take n = [] ∨ IsMsg (buf.take n) ↔ n = 0 ∨ 20 ≤ n := by
  have hlen := h.length
  constructor
  · rintro (hnil | hmsg)
    · rcases List.take_eq_nil_iff.mp hnil with hn | hbuf
      · exact Or.inl hn
      · rw [hbuf] at hlen
        cases hlen
    · have hmin := hmsg.length
      rw [List.length_take] at hmin
      omega
  · rintro (rfl | hn)
    · exact Or.inl rfl
    · have hall : buf.take n = buf := List.take_of_length_le (by omega)
      exact Or.inr (hall.symm ▸ h)

/-- A piece of a message, for a call that takes nothing. -/
theorem piece_nil : Piece IsMsg [] := ⟨_, ⟨fun _ => 0, rfl⟩, List.nil_prefix⟩

/-! ## The client's frames -/

/-- What a call is to send. -/
def ClientCall.payload? : ClientCall → Option (Mem × Int)
  | .send pbuf sendLen => some (pbuf, sendLen)
  | .recv _ => none
  | .rw sendLen psendBuf _ => some (psendBuf, sendLen)

/-- The bytes that a `write` took. -/
def ClientSys.taken : ClientSys → List UInt8
  | .write buf (.done n) => buf.take n
  | _ => []

theorem ClientSys.taken_cases (x : ClientSys) : (∃ buf n, x = .write buf (.done n)) ∨ x.taken = [] := by
  cases x with
  | write buf r => cases r with
    | done n => exact Or.inl ⟨buf, n, rfl⟩
    | retry => exact Or.inr rfl
    | fatal => exact Or.inr rfl
  | getsockopt r => exact Or.inr rfl
  | read r => exact Or.inr rfl
  | connect new => exact Or.inr rfl

/-- A new connection begins. -/
def ClientSys.isNew (x : ClientSys) : Bool := x = .connect true

section

variable {env : ClientEnv} {pbuf : Mem} {sendLen : Int} {buf : List UInt8} {r : IoResult}

theorem mem_writeClient (h : .write buf r ∈ writeClient env pbuf sendLen) :
    0 < sendLen ∧ buf = pbuf.slice 0 sendLen.toNat := by
  unfold writeClient at h
  split at h
  · rename_i hlen
    rcases List.mem_cons.mp h with heq | h
    · cases heq
      exact ⟨hlen, rfl⟩
    · split at h
      · cases List.mem_singleton.mp h
      · cases h
  · cases h

theorem not_mem_readClient {result : ReadResult} {new : Bool} :
    ClientSys.write buf r ∉ (readClient result new pbuf).1 := by
  intro h
  cases result with
  | data bytes => cases List.mem_singleton.mp h
  | retry => cases List.mem_singleton.mp h
  | fatal =>
    rcases List.mem_cons.mp h with heq | h
    · cases heq
    · cases List.mem_singleton.mp h

/-- Behind `getsockopt`. -/
theorem mem_of_mem_getsockopt (env : ClientEnv) {calls : List ClientSys}
    (h : .write buf r ∈ .getsockopt env.getsockopt :: match env.getsockopt with
      | some .none => calls
      | some .connecting => []
      | some .error => (tcpconnect env.connect).1
      | none => (tcpconnect env.connect).1) : .write buf r ∈ calls := by
  rcases List.mem_cons.mp h with heq | h
  · cases heq
  · revert h
    cases env.getsockopt with
    | none => exact fun h => nomatch List.mem_singleton.mp h
    | some e =>
      cases e with
      | none => exact id
      | connecting => exact fun h => nomatch h
      | error => exact fun h => nomatch List.mem_singleton.mp h

/-- What is written is what the call is to send. -/
theorem ClientCall.payload_of_write {c : ClientCall} (h : .write buf r ∈ c.log env) :
    ∃ pbuf sendLen, c.payload? = some (pbuf, sendLen) ∧ 0 < sendLen ∧
      buf = pbuf.slice 0 sendLen.toNat := by
  cases c with
  | send pbuf sendLen => exact ⟨pbuf, sendLen, rfl, mem_writeClient (mem_of_mem_getsockopt env h)⟩
  | recv pbuf =>
    have hread : .write buf r ∈ (readClient env.read env.connect pbuf).1 := by
      refine mem_of_mem_getsockopt env ?_
      revert h
      unfold ClientCall.log recvTcpclient
      cases env.getsockopt with
      | none => exact id
      | some e => cases e <;> exact id
    exact absurd hread not_mem_readClient
  | rw sendLen psendBuf precvBuf =>
    have hboth : .write buf r ∈ writeClient env psendBuf sendLen ++
        (readClient env.read env.connectAgain precvBuf).1 := by
      refine mem_of_mem_getsockopt env ?_
      revert h
      unfold ClientCall.log rwTcpclient
      cases env.getsockopt with
      | none => exact id
      | some e => cases e <;> exact id
    rcases List.mem_append.mp hboth with hwrite | hread
    · exact ⟨psendBuf, sendLen, rfl, mem_writeClient hwrite⟩
    · exact absurd hread not_mem_readClient

end

/-- **A client that sends messages**: every failure is answered by one `connect`, and each connection carries
    whole messages iff no `write` takes a part of one. -/
theorem client_frames_iff {cs : List (ClientCall × ClientEnv)}
    (hmsg : ∀ c ∈ cs, ∀ pbuf sendLen, c.1.payload? = some (pbuf, sendLen) → 0 < sendLen →
      IsMsg (pbuf.slice 0 sendLen.toNat)) :
    Answered (clientLog cs) ∧
    ((∀ conn ∈ (clientLog cs).splitOnP ClientSys.isNew, Splits IsMsg (conn.flatMap ClientSys.taken)) ↔
      ∀ buf n, .write buf (.done n) ∈ clientLog cs → n = 0 ∨ 20 ≤ n) := by
  have hwrite : ∀ buf r, .write buf r ∈ clientLog cs → IsMsg buf := by
    intro buf r h
    obtain ⟨c, hc, h⟩ := List.mem_flatMap.mp h
    obtain ⟨pbuf, sendLen, hpayload, hlen, rfl⟩ := ClientCall.payload_of_write h
    exact hmsg c hc pbuf sendLen hpayload hlen
  have hpiece : ∀ x ∈ clientLog cs, Piece IsMsg x.taken := by
    intro x hx
    rcases x.taken_cases with ⟨buf, n, rfl⟩ | hnil
    · exact piece_take (hwrite buf _ hx) n
    · exact hnil ▸ piece_nil
  have hnew : ∀ x, ClientSys.isNew x = true → x.taken = [] := by
    intro x hx
    rw [of_decide_eq_true hx]
    rfl
  have hconns := format_isMsg.splits_connections_iff hpiece hnew
  refine ⟨answered_clientLog cs, hconns.trans ⟨fun h => ?_, fun h => ?_⟩⟩
  · intro buf n hx
    exact (take_whole_iff (hwrite buf _ hx) n).mp (h _ hx)
  · intro x hx
    rcases x.taken_cases with ⟨buf, n, rfl⟩ | hnil
    · exact (take_whole_iff (hwrite buf _ hx) n).mpr (h buf n hx)
    · exact Or.inl hnil

/-- Two messages; of the first `n` bytes are taken. -/
def twoMsgs (n : Nat) : List (ClientCall × ClientEnv) :=
  [(.send (generateMsg fun _ => 0).1 20, ⟨some .none, .done n, .retry, false, false⟩),
    (.send (generateMsg fun _ => 0xF0).1 20, ⟨some .none, .done 20, .retry, false, false⟩)]

/-- When 18 bytes are taken, the second message is read as the rest of the first. -/
theorem client_frames_cut :
    ¬ ∀ conn ∈ (clientLog (twoMsgs 18)).splitOnP ClientSys.isNew,
      Splits IsMsg (conn.flatMap ClientSys.taken) := by
  have hmsg : ∀ c ∈ twoMsgs 18, ∀ pbuf sendLen, c.1.payload? = some (pbuf, sendLen) → 0 < sendLen →
      IsMsg (pbuf.slice 0 sendLen.toNat) := by
    intro c hc pbuf sendLen hpayload _
    rcases List.mem_cons.mp hc with rfl | hc
    · cases hpayload
      exact ⟨_, rfl⟩
    · rw [List.mem_singleton.mp hc] at hpayload
      cases hpayload
      exact ⟨_, rfl⟩
  intro h
  rcases (client_frames_iff hmsg).2.mp h _ 18 (List.mem_cons_of_mem _ (List.mem_cons_self ..)) with h | h
  · cases h
  · exact absurd h (by decide)

/-! ## The server's frames -/

section

variable {c : TcpCall} {env : Env} {i : Fin uartTcpClientMax} {fd connfd : Nat} {buf : List UInt8}
  {r : IoResult} {st st' : TcpState}

theorem mem_writeLog {psendBuf : Mem} {sendLen : Int}
    (h : .write fd buf r ∈ writeLog psendBuf sendLen env i connfd) :
    0 < sendLen ∧ buf = psendBuf.slice 0 sendLen.toNat := by
  rcases mem_ioLog.mp h with ⟨hready, heq | ⟨-, heq⟩⟩
  · cases heq
    exact ⟨of_decide_eq_true (Bool.and_eq_true_iff.mp hready).2, rfl⟩
  · cases heq

theorem not_mem_readLog : .write fd buf r ∉ readLog env i connfd := by
  intro h
  rcases (mem_ioLog.mp h).2 with heq | ⟨-, heq⟩
  · cases heq
  · cases heq

theorem SysCall.taken_cases (x : SysCall) : (∃ fd buf n, x = .write fd buf (.done n)) ∨ x.taken = [] := by
  cases x with
  | write fd buf r => cases r with
    | done n => exact Or.inl ⟨fd, buf, n, rfl⟩
    | retry => exact Or.inr rfl
    | fatal => exact Or.inr rfl
  | read fd r => exact Or.inr rfl
  | close fd => exact Or.inr rfl

/-- What is written is what the call is to send. -/
theorem payload_of_write (h : .write fd buf r ∈ c.log env i connfd) :
    ∃ psendBuf sendLen, c.payload? = some (psendBuf, sendLen) ∧ 0 < sendLen ∧
      buf = psendBuf.slice 0 sendLen.toNat := by
  cases c with
  | accept => cases h
  | send psendBuf sendLen => exact ⟨psendBuf, sendLen, rfl, mem_writeLog h⟩
  | recv => exact absurd h not_mem_readLog
  | rw psendBuf sendLen =>
    rcases List.mem_append.mp h with h | h
    · exact ⟨psendBuf, sendLen, rfl, mem_writeLog h⟩
    · split at h
      · cases h
      · exact absurd h not_mem_readLog

/-- **In a run**: every `write` is one before it, or of one of its calls. -/
theorem payload_of_write_run {cs : List (TcpCall × Env)} (h : Consistent st) (hreal : Realistic st cs)
    (hrun : tcpCalls cs st = some st') (hwrite : .write fd buf r ∈ st'.calls) :
    .write fd buf r ∈ st.calls ∨ ∃ c ∈ cs, ∃ psendBuf sendLen, c.1.payload? = some (psendBuf, sendLen) ∧
      0 < sendLen ∧ buf = psendBuf.slice 0 sendLen.toNat := by
  induction cs generalizing st with
  | nil =>
    cases hrun
    exact Or.inl hwrite
  | cons c cs ih =>
    obtain ⟨hallowed, hrest⟩ := hreal
    rcases exists_of_tcpCalls_cons hrun with ⟨st₁, hst₁, hrun'⟩
    have hcalled := called_of_eq h hallowed hst₁
    rcases ih hcalled.consistent (hrest st₁ hst₁) hrun' with hbefore | ⟨d, hd, hpayload⟩
    · rw [hcalled.calls] at hbefore
      rcases List.mem_append.mp hbefore with hbefore | hlog
      · exact Or.inl hbefore
      · obtain ⟨i, -, hi⟩ := List.mem_flatMap.mp hlog
        exact Or.inr ⟨c, List.mem_cons_self .., payload_of_write hi⟩
    · exact Or.inr ⟨d, List.mem_cons_of_mem c hd, hpayload⟩

end

/-- **A server that sends messages**: each connection of each descriptor carries whole messages iff no `write`
    takes a part of one. -/
theorem server_frames_iff {sockfd : Nat} (hsock : sockfd < fdSetsize) {cs : List (TcpCall × Env)}
    (hreal : Realistic (.start sockfd) cs) {st : TcpState} (hrun : tcpCalls cs (.start sockfd) = some st)
    (hmsg : ∀ c ∈ cs, ∀ psendBuf sendLen, c.1.payload? = some (psendBuf, sendLen) → 0 < sendLen →
      IsMsg (psendBuf.slice 0 sendLen.toNat)) :
    (∀ fd, ∀ conn ∈ (logOf fd st.calls).splitOnP (fun s => decide (s = .close fd)),
        Splits IsMsg (conn.flatMap SysCall.taken)) ↔
      ∀ fd buf n, .write fd buf (.done n) ∈ st.calls → n = 0 ∨ 20 ≤ n := by
  have hwrite : ∀ fd buf r, .write fd buf r ∈ st.calls → IsMsg buf := by
    intro fd buf r h
    rcases payload_of_write_run (consistent_start hsock) hreal hrun h with
      hnone | ⟨c, hc, psendBuf, sendLen, hpayload, hlen, rfl⟩
    · cases hnone
    · exact hmsg c hc psendBuf sendLen hpayload hlen
  have hpiece : ∀ x ∈ st.calls, Piece IsMsg x.taken := by
    intro x hx
    rcases x.taken_cases with ⟨fd, buf, n, rfl⟩ | hnil
    · exact piece_take (hwrite fd buf _ hx) n
    · exact hnil ▸ piece_nil
  have hconn : ∀ fd, (∀ conn ∈ (logOf fd st.calls).splitOnP (fun s => decide (s = .close fd)),
      Splits IsMsg (conn.flatMap SysCall.taken)) ↔
        ∀ x ∈ logOf fd st.calls, x.taken = [] ∨ IsMsg x.taken := by
    intro fd
    refine format_isMsg.splits_connections_iff (fun x hx => hpiece x (List.mem_of_mem_filter hx)) ?_
    intro x hx
    rw [of_decide_eq_true hx]
    rfl
  refine (forall_congr' hconn).trans ⟨fun h => ?_, fun h => ?_⟩
  · intro fd buf n hx
    have hlog : .write fd buf (.done n) ∈ logOf fd st.calls := List.mem_filter.mpr ⟨hx, decide_eq_true rfl⟩
    exact (take_whole_iff (hwrite fd buf _ hx) n).mp (h fd _ hlog)
  · intro fd x hx
    have hcall := List.mem_of_mem_filter hx
    rcases x.taken_cases with ⟨connfd, buf, n, rfl⟩ | hnil
    · exact (take_whole_iff (hwrite connfd buf _ hcall) n).mpr (h connfd buf n hcall)
    · exact Or.inl hnil

/-- A client comes in and is sent a message of which the first `n` bytes are taken, and then a whole one. -/
def sentMsgs (n : Nat) : List (TcpCall × Env) :=
  [(.send (generateMsg fun _ => 0).1 20,
      ⟨some 5, none, some (fun _ => true, fun _ => true), fun _ => .done n, fun _ => .retry⟩),
    (.send (generateMsg fun _ => 0xF0).1 20, .ready (fun _ => .done 20) fun _ => .retry)]

/-- When 18 bytes are taken, the second message is read as the rest of the first. -/
theorem server_frames_cut : ∃ st, tcpCalls (sentMsgs 18) (.start 3) = some st ∧
    ¬ ∀ fd, ∀ conn ∈ (logOf fd st.calls).splitOnP (fun s => decide (s = .close fd)),
      Splits IsMsg (conn.flatMap SysCall.taken) := by
  have hreal : Realistic (.start 3) (sentMsgs 18) := by
    refine ⟨fun fd hfd => ?_, fun st _ => ⟨nofun, fun _ _ => trivial⟩⟩
    cases hfd
    exact ⟨by decide, by decide, Finset.notMem_empty _⟩
  have hmsg : ∀ c ∈ sentMsgs 18, ∀ psendBuf sendLen, c.1.payload? = some (psendBuf, sendLen) →
      0 < sendLen → IsMsg (psendBuf.slice 0 sendLen.toNat) := by
    intro c hc psendBuf sendLen hpayload _
    rcases List.mem_cons.mp hc with rfl | hc
    · cases hpayload
      exact ⟨_, rfl⟩
    · rw [List.mem_singleton.mp hc] at hpayload
      cases hpayload
      exact ⟨_, rfl⟩
  refine ⟨_, rfl, fun h => ?_⟩
  have hcut := (server_frames_iff (by decide) hreal rfl hmsg).mp h 5 _ 18 (List.mem_cons_self ..)
  exact absurd hcut (by decide)

end AdhocNode
