/-
  WHAT THE CLIENTS ARE SENT — the writes of `send_tcpserver` and `rw_tcpserver`.

  1. **One client's calls** — what a scan asks of one connection is what its loop body asks for at
     that connection's slot, and nothing if it has none among the slots that are scanned
     (`Called.logOf_of_slot`, `logOf_of_no_slot`).

  2. **Broadcast** — `Broadcasts` says that a call writes its payload once to every open connection
     that `select` reports, and to nothing else.  The scan covers the first `connfd_alivenum` slots,
     while a connection may be in a later one, behind a slot that was vacated, or in none, when it was
     overwritten.  So (`broadcastsAlways_iff`) a run broadcasts iff no writable connection is missed
     in this way.

  3. **Streams** — a client is one connection: the kernel gives a closed descriptor away again, so what
     is asked of a descriptor is cut at each `close` (`connectionLogs`), and the calls of a run are
     divided in the same way (`connections`).  A call makes one `write` to a client and never looks at
     how much it took.  So what a client gets from a call is a prefix of the payload, and the next call
     begins with the next payload (`stream_pieces`): after a write that took a part of a payload the
     stream of that connection is no longer framed.
-/
import AdhocNode.TcpScan

namespace AdhocNode

open CMem SlotTable

/-! ## One client's calls -/

/-- The connection of a call. -/
def SysCall.connfd : SysCall → Nat
  | .write connfd _ _ => connfd
  | .read connfd _ => connfd
  | .close connfd => connfd

/-- The calls that connection `fd` sees. -/
def logOf (fd : Nat) (log : List SysCall) : List SysCall := log.filter (·.connfd = fd)

theorem logOf_append (fd : Nat) (xs ys : List SysCall) :
    logOf fd (xs ++ ys) = logOf fd xs ++ logOf fd ys := List.filter_append ..

section Logs

variable {c : TcpCall} {env : Env} {i : Fin uartTcpClientMax} {fd : Nat} {s : SysCall}

/-- A loop body asks for calls on its slot's connection only. -/
theorem connfd_of_mem_log (h : s ∈ c.log env i fd) : s.connfd = fd := by
  have hwrite : ∀ p n, s ∈ writeLog p n env i fd → s.connfd = fd := by
    intro p n hs
    rcases (mem_ioLog.mp hs).2 with rfl | ⟨-, rfl⟩ <;> rfl
  have hread : s ∈ readLog env i fd → s.connfd = fd := by
    intro hs
    rcases (mem_ioLog.mp hs).2 with rfl | ⟨-, rfl⟩ <;> rfl
  cases c with
  | accept => cases h
  | send psendBuf sendLen => exact hwrite psendBuf sendLen h
  | recv => exact hread h
  | rw psendBuf sendLen =>
    rcases List.mem_append.mp h with h | h
    · exact hwrite psendBuf sendLen h
    · split at h
      · cases h
      · exact hread h

theorem logOf_log : logOf fd (c.log env i fd) = c.log env i fd :=
  List.filter_eq_self.mpr fun _ hs => decide_eq_true (connfd_of_mem_log hs)

theorem logOf_log_of_ne {fd' : Nat} (hne : fd' ≠ fd) : logOf fd (c.log env i fd') = [] := by
  refine List.filter_eq_nil_iff.mpr fun s hs => ?_
  rw [decide_eq_true_iff, connfd_of_mem_log hs]
  exact hne

/-- Nothing is asked for at a free slot. -/
theorem log_zero : c.log env i 0 = [] := by
  have hwritable : env.writable 0 = false :=
    Bool.eq_false_iff.mpr fun h => Env.ne_zero_of_writable h rfl
  have hreadable : env.readable 0 = false :=
    Bool.eq_false_iff.mpr fun h => Env.ne_zero_of_readable h rfl
  cases c <;> simp [TcpCall.log, writeLog, readLog, ioLog, hwritable, hreadable]

end Logs

section Call

variable {c : TcpCall} {env : Env} {st st' : TcpState}

/-- The slot of a connection is where all its calls are made. -/
theorem Called.logOf_of_slot (h : Called c env st st') {i : Fin uartTcpClientMax}
    (hi : i.val < countAfter st env) (hne : fdAfter st env i ≠ 0) :
    logOf (fdAfter st env i) (scanLog c env (fdAfter st env) (countAfter st env)) =
      c.log env i (fdAfter st env i) := by
  have hnd : ((List.finRange uartTcpClientMax).take (countAfter st env)).Nodup :=
    (List.nodup_finRange _).sublist (List.take_sublist ..)
  refine (filter_flatMap_of_mem hnd (mem_take_finRange.mpr hi) fun j _ hji => ?_).trans logOf_log
  exact logOf_log_of_ne fun heq => hji (h.distinct hne heq.symm).symm

/-- A connection that has none of the slots sees no call. -/
theorem logOf_of_no_slot {slots : Fin uartTcpClientMax → Nat} {n fd : Nat}
    (hno : ∀ i : Fin uartTcpClientMax, i.val < n → slots i ≠ 0 → slots i ≠ fd) :
    logOf fd (scanLog c env slots n) = [] := by
  refine filter_flatMap_of_not fun i hi => ?_
  by_cases hz : slots i = 0
  · rw [hz, log_zero]
    rfl
  · exact logOf_log_of_ne (hno i (mem_take_finRange.mp hi) hz)

/-- Either way, for one connection. -/
theorem Called.logOf_cases (h : Called c env st st') (fd : Nat) :
    (∃ i : Fin uartTcpClientMax, i.val < countAfter st env ∧ fdAfter st env i = fd ∧
      fd ∈ openAfter st env ∧
      logOf fd (scanLog c env (fdAfter st env) (countAfter st env)) = c.log env i fd) ∨
    (∀ i : Fin uartTcpClientMax, i.val < countAfter st env → fdAfter st env i ≠ 0 →
      fdAfter st env i ≠ fd) ∧
      logOf fd (scanLog c env (fdAfter st env) (countAfter st env)) = [] := by
  by_cases hslot : ∃ i : Fin uartTcpClientMax, i.val < countAfter st env ∧ fdAfter st env i ≠ 0 ∧
      fdAfter st env i = fd
  · obtain ⟨i, hi, hne, rfl⟩ := hslot
    exact Or.inl ⟨i, hi, rfl, h.mem hne, h.logOf_of_slot hi hne⟩
  · have hno : ∀ i : Fin uartTcpClientMax, i.val < countAfter st env → fdAfter st env i ≠ 0 →
        fdAfter st env i ≠ fd := fun i hi hne heq => hslot ⟨i, hi, hne, heq⟩
    exact Or.inr ⟨hno, logOf_of_no_slot hno⟩

end Call

/-! ## Broadcast -/

/-- The buffer that a write hands over. -/
def SysCall.written? : SysCall → Option (List UInt8)
  | .write _ buf _ => some buf
  | _ => none

/-- What is written to connection `fd`, call by call. -/
def writesTo (fd : Nat) (log : List SysCall) : List (List UInt8) :=
  (logOf fd log).filterMap SysCall.written?

/-- What a call is to send to everyone. -/
def TcpCall.payload? : TcpCall → Option (Mem × Int)
  | .send psendBuf sendLen => some (psendBuf, sendLen)
  | .rw psendBuf sendLen => some (psendBuf, sendLen)
  | _ => none

/-- A call whose `select` succeeds writes its payload once to every connection that is open after
    its `accept` and reported as writable, and nothing else to anyone. -/
def Broadcasts (c : TcpCall) (env : Env) (st st' : TcpState) : Prop :=
  ∀ psendBuf sendLen, c.payload? = some (psendBuf, sendLen) → 0 < sendLen → env.select ≠ none →
    ∃ log, st'.calls = st.calls ++ log ∧ ∀ fd, writesTo fd log =
      if fd ∈ openAfter st env ∧ env.writable fd = true then [psendBuf.slice 0 sendLen.toNat] else []

/-- The call meets descriptors that fit in an `fd_set`, and if it sends something, every open
    connection that is reported as writable has one of the slots that are counted. -/
def ReachesAll (c : TcpCall) (env : Env) (st : TcpState) : Prop :=
  (∀ fd, env.accepted st = some fd → fd < fdSetsize) ∧
    ∀ psendBuf sendLen, c.payload? = some (psendBuf, sendLen) → 0 < sendLen →
      ∀ fd ∈ openAfter st env, env.writable fd = true →
        ∃ i : Fin uartTcpClientMax, i.val < countAfter st env ∧ fdAfter st env i = fd

section Broadcast

variable {c : TcpCall} {env : Env} {st st' : TcpState} {psendBuf : Mem} {sendLen : Int}

/-- The loop body writes the payload, when the connection is ready. -/
theorem written_log (hc : c.payload? = some (psendBuf, sendLen)) (hlen : 0 < sendLen)
    (i : Fin uartTcpClientMax) (fd : Nat) : (c.log env i fd).filterMap SysCall.written? =
      if env.writable fd = true then [psendBuf.slice 0 sendLen.toNat] else [] := by
  have hwrite : (writeLog psendBuf sendLen env i fd).filterMap SysCall.written? =
      if env.writable fd = true then [psendBuf.slice 0 sendLen.toNat] else [] := by
    rw [writeLog, ioLog]
    rw [decide_eq_true hlen, Bool.and_true]
    split
    · split <;> rfl
    · rfl
  have hread : (readLog env i fd).filterMap SysCall.written? = [] := by
    rw [readLog, ioLog]
    split
    · split <;> rfl
    · rfl
  cases c with
  | accept => cases hc
  | send => cases hc; exact hwrite
  | recv => cases hc
  | rw =>
    cases hc
    have hrest : ((if decide (fd ≠ 0) && writeDies sendLen env i fd then []
        else readLog env i fd) : List SysCall).filterMap SysCall.written? = [] := by
      split
      · rfl
      · exact hread
    show (writeLog psendBuf sendLen env i fd ++ if _ then _ else _).filterMap _ = _
    rw [List.filterMap_append, hwrite, hrest, List.append_nil]

/-- **One call** broadcasts iff it reaches every connection that is reported. -/
theorem Called.broadcasts_iff (h : Called c env st st') :
    Broadcasts c env st st' ↔
      ∀ psendBuf sendLen, c.payload? = some (psendBuf, sendLen) → 0 < sendLen →
        ∀ fd ∈ openAfter st env, env.writable fd = true →
          ∃ i : Fin uartTcpClientMax, i.val < countAfter st env ∧ fdAfter st env i = fd := by
  constructor
  · intro hall psendBuf sendLen hc hlen fd hopen hwritable
    have hsel : env.select ≠ none := by
      intro hsel
      rw [Env.writable] at hwritable
      rw [hsel] at hwritable
      cases hwritable
    obtain ⟨log, hlog, hwrites⟩ := hall psendBuf sendLen hc hlen hsel
    have hlog' : log = scanLog c env (fdAfter st env) (countAfter st env) :=
      List.append_cancel_left (hlog.symm.trans h.calls)
    have hfd := hwrites fd
    rw [if_pos ⟨hopen, hwritable⟩, hlog'] at hfd
    rcases h.logOf_cases fd with ⟨i, hi, hslot, -, -⟩ | ⟨-, hnil⟩
    · exact ⟨i, hi, hslot⟩
    · rw [writesTo] at hfd
      rw [hnil] at hfd
      cases hfd
  · intro hall psendBuf sendLen hc hlen _
    refine ⟨_, h.calls, fun fd => ?_⟩
    rw [writesTo]
    rcases h.logOf_cases fd with ⟨i, -, -, hopen, hlog⟩ | ⟨hno, hlog⟩
    · rw [hlog, written_log hc hlen]
      refine if_congr ?_ rfl rfl
      exact ⟨fun hwritable => ⟨hopen, hwritable⟩, fun hboth => hboth.2⟩
    · rw [hlog, if_neg]
      · rfl
      · rintro ⟨hopen, hwritable⟩
        obtain ⟨i, hi, hslot⟩ := hall psendBuf sendLen hc hlen fd hopen hwritable
        exact hno i hi (hslot ▸ Env.ne_zero_of_writable hwritable) hslot

end Broadcast

/-- Every call of the run is defined and broadcasts. -/
def BroadcastsAlways : TcpState → List (TcpCall × Env) → Prop := EveryCall Broadcasts

theorem broadcastsAlways_iff_of_consistent {st : TcpState} (h : Consistent st)
    {cs : List (TcpCall × Env)} (hreal : Realistic st cs) :
    BroadcastsAlways st cs ↔ EveryStep ReachesAll st cs := by
  refine everyCall_iff (I := Consistent) (fun c env st h hallowed => ?_) h hreal
  exact ⟨tcpCall_iff_of_called h hallowed fun st' hcalled => hcalled.broadcasts_iff,
    fun st' hst' _ => (called_of_eq h hallowed hst').consistent⟩

/-- **Broadcast over a run**: every call sends its payload to all iff in every call the connections
    that are reported as writable have slots that are counted, and all descriptors fit in an
    `fd_set`. -/
theorem broadcastsAlways_iff {sockfd : Nat} (hsock : sockfd < fdSetsize)
    {cs : List (TcpCall × Env)} (hreal : Realistic (.start sockfd) cs) :
    BroadcastsAlways (.start sockfd) cs ↔ EveryStep ReachesAll (.start sockfd) cs :=
  broadcastsAlways_iff_of_consistent (consistent_start hsock) hreal

/-- One connection is accepted and written to. -/
theorem broadcastsAlways_iff_one : BroadcastsAlways (.start 3)
    [acceptOf 5, (.send (.ofList [7]) 1, .ready (fun _ => .done 1) fun _ => .retry)] := by
  have hreal : Realistic (.start 3)
      [acceptOf 5, (.send (.ofList [7]) 1, .ready (fun _ => .done 1) fun _ => .retry)] := by
    refine ⟨fun fd hfd => ?_, fun st _ => ⟨nofun, fun _ _ => trivial⟩⟩
    cases hfd
    exact ⟨by decide, by decide, Finset.notMem_empty _⟩
  refine (broadcastsAlways_iff (by decide) hreal).mpr
    ⟨⟨fun fd hfd => ?_, nofun⟩, fun st hst => ⟨⟨fun fd hfd => ?_, ?_⟩, fun _ _ => trivial⟩⟩
  · cases hfd
    decide
  · cases Env.accepted_eq_some hfd
  · intro psendBuf sendLen _ _ fd hopen _
    cases hst
    rw [Finset.mem_singleton.mp (show fd ∈ ({5} : Finset Nat) from hopen)]
    exact ⟨⟨0, by decide⟩, by decide, by decide⟩

/-- Two connections are accepted, and the write to the first one fails; the second one is then in a
    slot that is not counted. -/
theorem not_broadcastsAlways_displaced :
    Realistic (.start 3) [acceptOf 5, acceptOf 6,
      (.send (.ofList [7]) 1, .ready (fun i => if i.val = 0 then .fatal else .done 1) fun _ => .retry),
      (.send (.ofList [8]) 1, .ready (fun _ => .done 1) fun _ => .retry)] ∧
    ¬ BroadcastsAlways (.start 3) [acceptOf 5, acceptOf 6,
      (.send (.ofList [7]) 1, .ready (fun i => if i.val = 0 then .fatal else .done 1) fun _ => .retry),
      (.send (.ofList [8]) 1, .ready (fun _ => .done 1) fun _ => .retry)] := by
  have hreal : Realistic (.start 3) [acceptOf 5, acceptOf 6,
      (.send (.ofList [7]) 1, .ready (fun i => if i.val = 0 then .fatal else .done 1) fun _ => .retry),
      (.send (.ofList [8]) 1, .ready (fun _ => .done 1) fun _ => .retry)] := by
    refine ⟨fun fd hfd => ?_, fun st₁ h₁ => ⟨fun fd hfd => ?_, fun st₂ _ => ⟨nofun, fun st₃ _ =>
      ⟨nofun, fun _ _ => trivial⟩⟩⟩⟩
    · cases hfd
      exact ⟨by decide, by decide, Finset.notMem_empty _⟩
    · cases hfd
      cases h₁
      exact ⟨by decide, by decide, by decide⟩
  refine ⟨hreal, fun halways => ?_⟩
  obtain ⟨-, hsteps⟩ :=
    (broadcastsAlways_iff_of_consistent (consistent_start (by decide)) hreal).mp halways
  obtain ⟨-, hsteps⟩ := hsteps _ rfl
  obtain ⟨-, hsteps⟩ := hsteps _ rfl
  obtain ⟨⟨-, hreach⟩, -⟩ := hsteps _ rfl
  obtain ⟨i, hi, hslot⟩ := hreach _ _ rfl (by decide) 6 (by decide) rfl
  have hlt : i.val < 1 := hi
  have hi0 : i = ⟨0, by decide⟩ := Fin.ext (Nat.lt_one_iff.mp hlt)
  subst hi0
  exact absurd hslot (by decide)

/-! ## Streams -/

/-- The bytes that a write took. -/
def SysCall.taken : SysCall → List UInt8
  | .write _ buf (.done n) => buf.take n
  | _ => []

/-- The bytes that a call is to send. -/
def TcpCall.payload (c : TcpCall) : List UInt8 :=
  match c.payload? with
  | some (psendBuf, sendLen) => psendBuf.slice 0 sendLen.toNat
  | none => []

/-- What the system calls say of the connections that descriptor `fd` has been given to, one after the
    other: each lasts until its `close`. -/
def connectionLogs (fd : Nat) (calls : List SysCall) : List (List SysCall) :=
  (logOf fd calls).splitOnP fun s => decide (s = .close fd)

/-- The same connections as the calls of a run see them: the calls made while each was the one of `fd`,
    each with what it sent there. -/
def connections (fd : Nat) :
    List (TcpCall × Env) → TcpState → List (List (TcpCall × List UInt8))
  | [], _ => [[]]
  | c :: cs, st => match tcpCall c.1 c.2 st with
    | none => [[]]
    | some st' =>
      let log := (logOf fd st'.calls).drop (logOf fd st.calls).length
      -- a call that closes the connection is its last one
      if .close fd ∈ log then [(c.1, log.flatMap SysCall.taken)] :: connections fd cs st'
      else (connections fd cs st').modifyHead ((c.1, log.flatMap SysCall.taken) :: ·)

/-- What a connection carries. -/
def streamOf (conn : List (TcpCall × List UInt8)) : List UInt8 := conn.flatMap Prod.snd

/-- Whole payloads, and then at most a part of the current one. -/
def Framed (earlier : List (List UInt8)) (current s : List UInt8) : Prop :=
  ∃ whole p, List.Sublist whole earlier ∧ p <+: current ∧ s = whole.flatten ++ p

/-- The loop body sends a prefix of the payload: what its one write takes. -/
theorem taken_log (c : TcpCall) (env : Env) (i : Fin uartTcpClientMax) (fd : Nat) :
    (c.log env i fd).flatMap SysCall.taken <+: c.payload := by
  have hwrite : ∀ psendBuf sendLen, (writeLog psendBuf sendLen env i fd).flatMap SysCall.taken <+:
      psendBuf.slice 0 sendLen.toNat := by
    intro psendBuf sendLen
    rw [writeLog, ioLog]
    split
    · cases env.write i with
      | done n =>
        show ((psendBuf.slice 0 sendLen.toNat).take n ++ []) <+: _
        rw [List.append_nil]
        exact List.take_prefix ..
      | retry => exact List.nil_prefix
      | fatal => exact List.nil_prefix
    · exact List.nil_prefix
  have hread : (readLog env i fd).flatMap SysCall.taken = [] := by
    rw [readLog, ioLog]
    split
    · split <;> rfl
    · rfl
  cases c with
  | accept => exact List.nil_prefix
  | send psendBuf sendLen => exact hwrite psendBuf sendLen
  | recv =>
    show (readLog env i fd).flatMap SysCall.taken <+: _
    rw [hread]
    exact List.nil_prefix
  | rw psendBuf sendLen =>
    have hrest : ((if decide (fd ≠ 0) && writeDies sendLen env i fd then []
        else readLog env i fd) : List SysCall).flatMap SysCall.taken = [] := by
      split
      · rfl
      · exact hread
    show (writeLog psendBuf sendLen env i fd ++ if _ then _ else _).flatMap _ <+: _
    rw [List.flatMap_append, hrest, List.append_nil]
    exact hwrite psendBuf sendLen

/-- The connection is closed at most once, and then nothing more is asked for. -/
def ClosedLast (fd : Nat) (log : List SysCall) : Prop :=
  (∀ s ∈ log, s ≠ .close fd) ∨ ∃ l, log = l ++ [.close fd] ∧ ∀ s ∈ l, s ≠ .close fd

theorem closedLast_nil (fd : Nat) : ClosedLast fd [] := Or.inl nofun

/-- A call is followed by nothing, or by the `close` that its failure brings. -/
theorem closedLast_ioLog {call : SysCall} {fd : Nat} (hcall : call ≠ .close fd) (ready : Bool)
    (r : IoResult) : ClosedLast fd (ioLog ready call r fd) := by
  have hone : ∀ s ∈ [call], s ≠ .close fd := by
    intro s hs
    rw [List.mem_singleton.mp hs]
    exact hcall
  rw [ioLog]
  cases ready with
  | false => exact closedLast_nil fd
  | true =>
    rw [if_pos rfl]
    by_cases hfatal : r = .fatal
    · rw [if_pos hfatal]
      exact Or.inr ⟨[call], rfl, hone⟩
    · rw [if_neg hfatal]
      exact Or.inl hone

theorem closedLast_writeLog (psendBuf : Mem) (sendLen : Int) (env : Env) (i : Fin uartTcpClientMax)
    (fd : Nat) : ClosedLast fd (writeLog psendBuf sendLen env i fd) := by
  unfold writeLog
  exact closedLast_ioLog SysCall.noConfusion _ _

theorem closedLast_readLog (env : Env) (i : Fin uartTcpClientMax) (fd : Nat) :
    ClosedLast fd (readLog env i fd) := by
  unfold readLog
  exact closedLast_ioLog SysCall.noConfusion _ _

/-- A `write` that has closed the connection is not followed by a `read`. -/
theorem closedLast_log (c : TcpCall) (env : Env) (i : Fin uartTcpClientMax) (fd : Nat) :
    ClosedLast fd (c.log env i fd) := by
  cases c with
  | accept => exact closedLast_nil fd
  | send psendBuf sendLen => exact closedLast_writeLog psendBuf sendLen env i fd
  | recv => exact closedLast_readLog env i fd
  | rw psendBuf sendLen =>
    have hwrite := closedLast_writeLog psendBuf sendLen env i fd
    show ClosedLast fd (writeLog psendBuf sendLen env i fd ++
      if decide (fd ≠ 0) && writeDies sendLen env i fd then [] else readLog env i fd)
    by_cases hdies : (decide (fd ≠ 0) && writeDies sendLen env i fd) = true
    · rw [if_pos hdies, List.append_nil]
      exact hwrite
    · rw [if_neg hdies]
      have hopen : ∀ s ∈ writeLog psendBuf sendLen env i fd, s ≠ .close fd := by
        intro s hs
        rcases mem_ioLog.mp hs with ⟨hready, rfl | ⟨hfatal, -⟩⟩
        · exact SysCall.noConfusion
        · refine absurd ?_ hdies
          rw [writeCloses_eq, hready, decide_eq_true hfatal]
          rfl
      rcases closedLast_readLog env i fd with hread | ⟨l, hl, hlast⟩
      · exact Or.inl fun s hs => (List.mem_append.mp hs).elim (hopen s) (hread s)
      · refine Or.inr ⟨writeLog psendBuf sendLen env i fd ++ l, ?_, fun s hs => ?_⟩
        · rw [hl, List.append_assoc]
        · exact (List.mem_append.mp hs).elim (hopen s) (hlast s)

/-- **One call** asks a connection to take a prefix of its payload, and may close it then. -/
theorem Called.sent {c : TcpCall} {env : Env} {st st' : TcpState} (h : Called c env st st')
    (fd : Nat) : ∃ log, logOf fd st'.calls = logOf fd st.calls ++ log ∧
      log.flatMap SysCall.taken <+: c.payload ∧ ClosedLast fd log := by
  refine ⟨_, by rw [h.calls, logOf_append], ?_⟩
  rcases h.logOf_cases fd with ⟨i, -, -, -, hlog⟩ | ⟨-, hlog⟩
  · rw [hlog]
    exact ⟨taken_log c env i fd, closedLast_log c env i fd⟩
  · rw [hlog]
    exact ⟨List.nil_prefix, closedLast_nil fd⟩

section Run

variable {fd : Nat} {c : TcpCall × Env} {cs : List (TcpCall × Env)} {st st' : TcpState}
  {log later : List SysCall}

/-- One call belongs to the connection that is open, and opens the next one if it ends with a
    `close`. -/
theorem connections_cons (hst : tcpCall c.1 c.2 st = some st')
    (hlog : logOf fd st'.calls = logOf fd st.calls ++ log) :
    connections fd (c :: cs) st =
      if .close fd ∈ log then [(c.1, log.flatMap SysCall.taken)] :: connections fd cs st'
      else (connections fd cs st').modifyHead ((c.1, log.flatMap SysCall.taken) :: ·) := by
  simp only [connections, hst, hlog, List.drop_left]

/-- There is a connection at the end, perhaps with no call yet. -/
theorem connections_ne_nil (fd : Nat) (cs : List (TcpCall × Env)) (st : TcpState) :
    connections fd cs st ≠ [] := by
  induction cs generalizing st with
  | nil => exact List.cons_ne_nil _ _
  | cons c cs ih =>
    rw [connections]
    split
    · exact List.cons_ne_nil _ _
    · dsimp only
      split
      · exact List.cons_ne_nil _ _
      · rw [Ne, List.modifyHead_eq_nil_iff]
        exact ih _

/-- What is split behind a first part that has no separator. -/
theorem splitOnP_append_of_forall {α : Type} {p : α → Bool} {l : List α} (hl : ∀ x ∈ l, p x = false)
    (r : List α) : (l ++ r).splitOnP p = (r.splitOnP p).modifyHead (l ++ ·) := by
  induction l with
  | nil =>
    obtain ⟨x, xs, hx⟩ := List.exists_cons_of_ne_nil (List.splitOnP_ne_nil p r)
    rw [List.nil_append, hx]
    rfl
  | cons x l ih =>
    rw [List.forall_mem_cons] at hl
    obtain ⟨y, ys, hy⟩ := List.exists_cons_of_ne_nil (List.splitOnP_ne_nil p r)
    rw [List.cons_append, List.splitOnP_cons_eq_if_modifyHead, hl.1, if_neg Bool.false_ne_true,
      ih hl.2, hy]
    rfl

/-- **The two views agree**: what the connections of a descriptor carry is what the calls sent on them. -/
theorem streams_run (fd : Nat) (h : Consistent st) (hreal : Realistic st cs)
    (hrun : tcpCalls cs st = some st') :
    ∃ later, logOf fd st'.calls = logOf fd st.calls ++ later ∧
      (later.splitOnP fun s => decide (s = .close fd)).map (fun conn => conn.flatMap SysCall.taken) =
        (connections fd cs st).map streamOf ∧
      (connections fd cs st).flatten.map Prod.fst = cs.map Prod.fst ∧
      ∀ conn ∈ connections fd cs st, ∀ x ∈ conn, x.2 <+: x.1.payload := by
  induction cs generalizing st with
  | nil =>
    cases hrun
    refine ⟨[], (List.append_nil _).symm, rfl, rfl, fun conn hconn x hx => ?_⟩
    rw [List.mem_singleton.mp hconn] at hx
    cases hx
  | cons c cs ih =>
    obtain ⟨hallowed, hrest⟩ := hreal
    rcases exists_of_tcpCalls_cons hrun with ⟨st₁, hst₁, hrun'⟩
    have hcalled := called_of_eq h hallowed hst₁
    obtain ⟨log, hlog, hsent, hclosed⟩ := hcalled.sent fd
    obtain ⟨later, hlater, hstreams, hcalls, hpieces⟩ := ih hcalled.consistent (hrest st₁ hst₁) hrun'
    obtain ⟨conn, conns, hconns⟩ := List.exists_cons_of_ne_nil (connections_ne_nil fd cs st₁)
    refine ⟨log ++ later, by rw [hlater, hlog, List.append_assoc], ?_⟩
    rw [connections_cons hst₁ hlog]
    rcases hclosed with hopen | ⟨l, rfl, hl⟩
    · -- the connection goes on
      have hnot : SysCall.close fd ∉ log := fun hmem => hopen _ hmem rfl
      rw [if_neg hnot, splitOnP_append_of_forall fun s hs => decide_eq_false (hopen s hs)]
      rw [hconns] at hstreams hcalls hpieces ⊢
      rw [List.forall_mem_cons] at hpieces
      obtain ⟨x, xs, hx⟩ := List.exists_cons_of_ne_nil
        (List.splitOnP_ne_nil (fun s => decide (s = SysCall.close fd)) later)
      rw [hx] at hstreams ⊢
      rw [List.map_cons, List.map_cons, List.cons.injEq] at hstreams
      refine ⟨?_, ?_, ?_⟩
      · rw [List.modifyHead_cons, List.modifyHead_cons, List.map_cons, List.map_cons, hstreams.2,
          List.flatMap_append, hstreams.1]
        rfl
      · exact congrArg (c.1 :: ·) hcalls
      · rw [List.modifyHead_cons, List.forall_mem_cons, List.forall_mem_cons]
        exact ⟨⟨hsent, hpieces.1⟩, hpieces.2⟩
    · -- it ends here, and the next one begins
      have hmem : SysCall.close fd ∈ l ++ [SysCall.close fd] :=
        List.mem_append_right l (List.mem_singleton_self _)
      have hsplit : (l ++ [SysCall.close fd] ++ later).splitOnP (fun s => decide (s = .close fd)) =
          l :: later.splitOnP fun s => decide (s = .close fd) := by
        rw [List.append_assoc]
        exact List.splitOnP_append_cons_of_forall_mem (fun s hs => decide_eq_false (hl s hs)) _
          (decide_eq_true rfl) later
      have htaken : (l ++ [SysCall.close fd]).flatMap SysCall.taken = l.flatMap SysCall.taken := by
        rw [List.flatMap_append]
        exact List.append_nil _
      rw [if_pos hmem, hsplit]
      rw [htaken] at hsent ⊢
      refine ⟨?_, ?_, ?_⟩
      · rw [List.map_cons, List.map_cons, hstreams]
        exact congrArg (· :: _) (List.append_nil _).symm
      · exact congrArg (c.1 :: ·) hcalls
      · rw [List.forall_mem_cons, List.forall_mem_singleton]
        exact ⟨hsent, hpieces⟩

end Run

/-- Pieces that are all or nothing make up whole payloads. -/
theorem exists_whole {conn : List (TcpCall × List UInt8)}
    (h : ∀ x ∈ conn, x.2 = [] ∨ x.2 = x.1.payload) :
    ∃ whole, List.Sublist whole (conn.map fun x => x.1.payload) ∧ whole.flatten = streamOf conn := by
  induction conn with
  | nil => exact ⟨[], .slnil, rfl⟩
  | cons x conn ih =>
    rw [List.forall_mem_cons] at h
    obtain ⟨whole, hsub, hflat⟩ := ih h.2
    have hstream : streamOf (x :: conn) = x.2 ++ streamOf conn := List.flatMap_cons
    rcases h.1 with hnil | hall
    · exact ⟨whole, hsub.cons _, by rw [hflat, hstream, hnil, List.nil_append]⟩
    · exact ⟨x.1.payload :: whole, hsub.cons_cons _, by rw [List.flatten_cons, hflat, hstream, hall]⟩

/-- **What each client is sent**: the calls of a run are divided among the connections of a descriptor, in
    order, and what a connection carries is one prefix of the payload of each of its calls.  It is
    framed as long as its calls before the last one took all of a payload or nothing. -/
theorem stream_pieces {sockfd : Nat} (hsock : sockfd < fdSetsize) {cs : List (TcpCall × Env)}
    (hreal : Realistic (.start sockfd) cs) {st : TcpState}
    (hrun : tcpCalls cs (.start sockfd) = some st) (fd : Nat) :
    (connectionLogs fd st.calls).map (fun conn => conn.flatMap SysCall.taken) =
        (connections fd cs (.start sockfd)).map streamOf ∧
    (connections fd cs (.start sockfd)).flatten.map Prod.fst = cs.map Prod.fst ∧
    ∀ conn ∈ connections fd cs (.start sockfd), (∀ x ∈ conn, x.2 <+: x.1.payload) ∧
      ∀ earlier x, conn = earlier ++ [x] → (∀ y ∈ earlier, y.2 = [] ∨ y.2 = y.1.payload) →
        Framed (earlier.map fun y => y.1.payload) x.1.payload (streamOf conn) := by
  obtain ⟨later, hlater, hstreams, hcalls, hpieces⟩ :=
    streams_run fd (consistent_start hsock) hreal hrun
  have hlog : logOf fd st.calls = later := hlater
  refine ⟨?_, hcalls, fun conn hconn => ⟨hpieces conn hconn, ?_⟩⟩
  · rw [connectionLogs, hlog]
    exact hstreams
  · rintro earlier x rfl hwhole
    obtain ⟨whole, hsub, hflat⟩ := exists_whole hwhole
    have hlast := hpieces _ hconn x (List.mem_append_right earlier (List.mem_singleton_self x))
    refine ⟨whole, x.2, hsub, hlast, ?_⟩
    rw [streamOf, List.flatMap_append, hflat]
    exact congrArg (streamOf earlier ++ ·) (List.append_nil _)

/-- The environment in which descriptor 5 is accepted and a write takes `n` bytes. -/
def acceptsAndTakes (n : Nat) : Env :=
  ⟨some 5, none, some (fun _ => true, fun _ => true), fun _ => .done n, fun _ => .retry⟩

/-- A client gets one of two bytes and is then lost, and the next one is given its descriptor. -/
def reusedSends : List (TcpCall × Env) :=
  [(.send (.ofList [1, 2]) 2, acceptsAndTakes 1),
    (.send (.ofList [3, 4]) 2, .ready (fun _ => .fatal) fun _ => .retry),
    (.send (.ofList [5, 6]) 2, acceptsAndTakes 2)]

/-- Descriptor 5 may come twice: it is closed before it comes again. -/
theorem realistic_reusedSends : Realistic (.start 3) reusedSends := by
  refine ⟨fun fd hfd => ?_, fun st₁ h₁ => ⟨nofun, fun st₂ h₂ => ⟨fun fd hfd => ?_, fun _ _ => trivial⟩⟩⟩
  · cases hfd
    exact ⟨by decide, by decide, Finset.notMem_empty _⟩
  · cases hfd
    cases h₁
    cases h₂
    exact ⟨by decide, by decide, by decide⟩

/-- The stream of the second client begins with its own payload. -/
theorem stream_pieces_reused : ∃ st, tcpCalls reusedSends (.start 3) = some st ∧
    (connectionLogs 5 st.calls).map (fun conn => conn.flatMap SysCall.taken) = [[1], [5, 6]] ∧
    Framed [] [5, 6] [5, 6] := by
  obtain ⟨hstreams, -, hconns⟩ :=
    stream_pieces (show 3 < fdSetsize by decide) realistic_reusedSends rfl 5
  have htwo : connections 5 reusedSends (.start 3) = [[(.send (.ofList [1, 2]) 2, [1]),
      (.send (.ofList [3, 4]) 2, [])], [(.send (.ofList [5, 6]) 2, [5, 6])]] := rfl
  rw [htwo] at hconns
  obtain ⟨-, hframed⟩ := hconns _ (List.mem_cons_of_mem _ (List.mem_singleton_self _))
  exact ⟨_, rfl, hstreams, hframed [] _ rfl nofun⟩

/-- A client comes in and is sent two bytes of which the first `n` are taken, and then two more. -/
def twoSends (n : Nat) : List (TcpCall × Env) :=
  [(.send (.ofList [1, 2]) 2, acceptsAndTakes n),
    (.send (.ofList [3, 4]) 2, .ready (fun _ => .done 2) fun _ => .retry)]

theorem realistic_twoSends (n : Nat) : Realistic (.start 3) (twoSends n) := by
  refine ⟨fun fd hfd => ?_, fun st _ => ⟨nofun, fun _ _ => trivial⟩⟩
  cases hfd
  exact ⟨by decide, by decide, Finset.notMem_empty _⟩

/-- When the first write takes one byte, the stream goes on with the next payload. -/
theorem not_framed_short : Realistic (.start 3) (twoSends 1) ∧
    ∃ st, tcpCalls (twoSends 1) (.start 3) = some st ∧
      (connectionLogs 5 st.calls).map (fun conn => conn.flatMap SysCall.taken) = [[1, 3, 4]] ∧
      ¬ Framed [[1, 2]] [3, 4] [1, 3, 4] := by
  refine ⟨realistic_twoSends 1, _, rfl, rfl, ?_⟩
  rintro ⟨whole, p, hsub, hp, hstream⟩
  rcases List.sublist_singleton.mp hsub with rfl | rfl
  · rw [List.flatten_nil, List.nil_append] at hstream
    rw [← hstream] at hp
    exact absurd hp (by decide)
  · cases hstream

end AdhocNode
