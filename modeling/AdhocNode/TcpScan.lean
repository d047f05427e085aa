/-
  ONE CALL OF THE SERVER — what it does to the shared structure, from any `Consistent` state.

  1. **A slot** — `TcpCall.log` is what a loop body asks the system for when it comes to a
     connection, `TcpCall.closes` whether it closes it.  A free slot holds 0, which is in no set.

  2. **A scan** over the first `n` slots closes the connections that fail for good (`d`), vacates
     their slots and lowers `connfd_alivenum` by their number, without moving anything (`Scanned`).

  3. **A call** is the `accept` and then a scan (`tcpCall_spec`); `Called` says what it does in
     terms of the state before it and the outcomes of its system calls (`tcpCall_cases`).  The
     second `accept` of `recv_tcpserver` and `rw_tcpserver` is never made: the listening socket is
     in no set (`acceptIfReady_eq`).
-/
import AdhocNode.TcpAccept

namespace AdhocNode

open CMem SlotTable

/-! ## A slot -/

/-- `select` reports the connection as ready to be written; 0, in a free slot, is in no set. -/
def Env.writable (env : Env) (fd : Nat) : Bool :=
  match env.select with
  | none => false
  | some (_, ready) => decide (fd ≠ 0) && ready fd

/-- `select` reports the connection as ready to be read. -/
def Env.readable (env : Env) (fd : Nat) : Bool :=
  match env.select with
  | none => false
  | some (ready, _) => decide (fd ≠ 0) && ready fd

/-- A free slot is never ready. -/
theorem Env.ne_zero_of_writable {env : Env} {fd : Nat} (h : env.writable fd = true) : fd ≠ 0 := by
  rw [Env.writable] at h
  split at h
  · cases h
  · exact of_decide_eq_true (Bool.and_eq_true_iff.mp h).1

theorem Env.ne_zero_of_readable {env : Env} {fd : Nat} (h : env.readable fd = true) : fd ≠ 0 := by
  rw [Env.readable] at h
  split at h
  · cases h
  · exact of_decide_eq_true (Bool.and_eq_true_iff.mp h).1

/-- The write to the connection fails for good. -/
def writeDies (sendLen : Int) (env : Env) (i : Fin uartTcpClientMax) (fd : Nat) : Bool :=
  match env.select with
  | none => false
  | some (_, writable) => writable fd && decide (0 < sendLen) && decide (env.write i = .fatal)

/-- The read from the connection fails for good. -/
def readDies (env : Env) (i : Fin uartTcpClientMax) (fd : Nat) : Bool :=
  match env.select with
  | none => false
  | some (readable, _) => readable fd && decide (env.read i = .fatal)

/-- The call closes connection `fd`, which it finds in slot `i`. -/
def TcpCall.dies : TcpCall → Env → Fin uartTcpClientMax → Nat → Bool
  | .accept, _, _, _ => false
  | .send _ sendLen, env, i, fd => writeDies sendLen env i fd
  | .recv, env, i, fd => readDies env i fd
  | .rw _ sendLen, env, i, fd => writeDies sendLen env i fd || readDies env i fd

/-- The same of whatever slot `i` holds: a free slot has nothing to close. -/
def TcpCall.closes (c : TcpCall) (env : Env) (i : Fin uartTcpClientMax) (fd : Nat) : Bool :=
  decide (fd ≠ 0) && c.dies env i fd

/-- A call that is made when the connection is ready, and the `close` when it fails for good. -/
def ioLog (ready : Bool) (call : SysCall) (r : IoResult) (fd : Nat) : List SysCall :=
  if ready then call :: if r = .fatal then [.close fd] else [] else []

theorem mem_ioLog {ready : Bool} {call s : SysCall} {r : IoResult} {fd : Nat} :
    s ∈ ioLog ready call r fd ↔ ready = true ∧ (s = call ∨ r = .fatal ∧ s = .close fd) := by
  rw [ioLog]
  cases ready with
  | false => exact ⟨fun h => absurd h List.not_mem_nil, fun h => absurd h.1 (by simp)⟩
  | true =>
    rw [if_pos rfl, List.mem_cons]
    by_cases hfatal : r = .fatal
    · rw [if_pos hfatal, List.mem_singleton]
      exact ⟨fun h => ⟨rfl, h.imp_right fun hs => ⟨hfatal, hs⟩⟩, fun h => h.2.imp_right (·.2)⟩
    · rw [if_neg hfatal]
      exact ⟨fun h => ⟨rfl, Or.inl (h.resolve_right List.not_mem_nil)⟩,
        fun h => Or.inl (h.2.resolve_right fun hs => hfatal hs.1)⟩

/-- The calls that the write half of a loop body makes. -/
def writeLog (psendBuf : Mem) (sendLen : Int) (env : Env) (i : Fin uartTcpClientMax) (fd : Nat) :
    List SysCall :=
  ioLog (env.writable fd && decide (0 < sendLen))
    (.write fd (psendBuf.slice 0 sendLen.toNat) (env.write i)) (env.write i) fd

/-- The calls that the read half makes. -/
def readLog (env : Env) (i : Fin uartTcpClientMax) (fd : Nat) : List SysCall :=
  ioLog (env.readable fd) (.read fd (env.read i)) (env.read i) fd

/-- The calls that the loop body makes for the connection in slot `i`. -/
def TcpCall.log : TcpCall → Env → Fin uartTcpClientMax → Nat → List SysCall
  | .accept, _, _, _ => []
  | .send psendBuf sendLen, env, i, fd => writeLog psendBuf sendLen env i fd
  | .recv, env, i, fd => readLog env i fd
  | .rw psendBuf sendLen, env, i, fd =>
    writeLog psendBuf sendLen env i fd ++
      if decide (fd ≠ 0) && writeDies sendLen env i fd then [] else readLog env i fd

/-- The state after the connection in slot `i` is closed. -/
def TcpState.vacate (i : Fin uartTcpClientMax) (st : TcpState) : TcpState where
  crol := { st.crol with
    connfdAlive := Function.update st.crol.connfdAlive i 0
    connfdAlivenum := st.crol.connfdAlivenum - 1
    readSet := st.crol.readSet.erase (st.crol.connfdAlive i)
    writeSet := st.crol.writeSet.erase (st.crol.connfdAlive i) }
  isOpen := st.isOpen.erase (st.crol.connfdAlive i)
  calls := st.calls

/-- The state after some system calls that change nothing else. -/
def TcpState.log (cs : List SysCall) (st : TcpState) : TcpState := { st with calls := st.calls ++ cs }

/-- A slot after the loop body of `c`: vacated or as it was, with the calls logged. -/
def TcpState.served (c : TcpCall) (env : Env) (i : Fin uartTcpClientMax) (st : TcpState) :
    TcpState :=
  (if c.closes env i (st.crol.connfdAlive i) then st.vacate i else st).log
    (c.log env i (st.crol.connfdAlive i))

section Bodies

variable {st : TcpState} {i : Fin uartTcpClientMax} {env : Env} (psendBuf : Mem) (sendLen : Int)

theorem TcpState.log_log (cs ds : List SysCall) : (st.log cs).log ds = st.log (cs ++ ds) := by
  unfold TcpState.log
  rw [List.append_assoc]

theorem TcpState.log_nil : st.log [] = st := by
  rw [TcpState.log]
  rw [List.append_nil]

theorem closeConnfd_of_lt (h : st.crol.connfdAlive i < fdSetsize) (cs : List SysCall) :
    closeConnfd i (st.crol.connfdAlive i) (st.log cs) =
      some ((st.vacate i).log (cs ++ [.close (st.crol.connfdAlive i)])) := by
  rw [← TcpState.log_log]
  unfold closeConnfd fdClr
  simp only [if_pos h]
  rfl

/-- A write closes what it finds writable and cannot write. -/
theorem writeCloses_eq (fd : Nat) :
    (decide (fd ≠ 0) && writeDies sendLen env i fd) =
      (env.writable fd && decide (0 < sendLen) && decide (env.write i = .fatal)) := by
  rw [writeDies, Env.writable]
  cases env.select with
  | none => exact Bool.and_false _
  | some p => simp only [Bool.and_assoc]

theorem readCloses_eq (fd : Nat) :
    (decide (fd ≠ 0) && readDies env i fd) =
      (env.readable fd && decide (env.read i = .fatal)) := by
  rw [readDies, Env.readable]
  cases env.select with
  | none => exact Bool.and_false _
  | some p => simp only [Bool.and_assoc]

/-- The write half of a loop body. -/
theorem writeSlot_spec (h : st.crol.connfdAlive i < fdSetsize)
    (hw : decide (st.crol.connfdAlive i ∈ st.crol.selectWriteSet) =
      env.writable (st.crol.connfdAlive i)) :
    writeSlot psendBuf sendLen env i (st.crol.connfdAlive i) st =
      some ((if decide (st.crol.connfdAlive i ≠ 0) &&
          writeDies sendLen env i (st.crol.connfdAlive i) then st.vacate i else st).log
          (writeLog psendBuf sendLen env i (st.crol.connfdAlive i)),
        decide (st.crol.connfdAlive i ≠ 0) &&
          writeDies sendLen env i (st.crol.connfdAlive i)) := by
  have hisset : fdIsset (st.crol.connfdAlive i) st.crol.selectWriteSet =
      some (env.writable (st.crol.connfdAlive i)) := by
    rw [fdIsset]
    rw [if_pos h, hw]
  rw [writeCloses_eq]
  rw [writeSlot, writeLog, ioLog]
  rw [hisset]
  simp only [Option.bind_eq_bind, Option.bind_some]
  cases hready : env.writable (st.crol.connfdAlive i) && decide (0 < sendLen) with
  | false =>
    rw [if_neg (by simp), if_neg (by simp), Bool.false_and, if_neg (by simp), TcpState.log_nil]
    rfl
  | true =>
    rw [if_pos rfl, if_pos rfl, Bool.true_and]
    by_cases hfatal : env.write i = .fatal
    · rw [if_pos hfatal, if_pos hfatal, decide_eq_true hfatal, if_pos rfl]
      show (closeConnfd i (st.crol.connfdAlive i) (st.log _)).bind _ = _
      rw [closeConnfd_of_lt h, Option.bind_some]
      rfl
    · rw [if_neg hfatal, if_neg hfatal, decide_eq_false hfatal, if_neg (by simp)]
      rfl

/-- The read half of a loop body, after some system calls. -/
theorem readSlot_spec (h : st.crol.connfdAlive i < fdSetsize)
    (hr : decide (st.crol.connfdAlive i ∈ st.crol.selectReadSet) =
      env.readable (st.crol.connfdAlive i)) (cs : List SysCall) :
    readSlot env i (st.crol.connfdAlive i) (st.log cs) =
      some ((if decide (st.crol.connfdAlive i ≠ 0) && readDies env i (st.crol.connfdAlive i)
        then st.vacate i else st).log (cs ++ readLog env i (st.crol.connfdAlive i))) := by
  have hisset : fdIsset (st.crol.connfdAlive i) (st.log cs).crol.selectReadSet =
      some (env.readable (st.crol.connfdAlive i)) := by
    rw [fdIsset]
    rw [if_pos h]
    exact congrArg some hr
  rw [readCloses_eq]
  rw [readSlot, readLog, ioLog]
  rw [hisset]
  simp only [Option.bind_eq_bind, Option.bind_some]
  cases hready : env.readable (st.crol.connfdAlive i) with
  | false =>
    rw [if_neg (by simp), if_neg (by simp), Bool.false_and, if_neg (by simp), List.append_nil]
    rfl
  | true =>
    rw [if_pos rfl, if_pos rfl, Bool.true_and]
    by_cases hfatal : env.read i = .fatal
    · rw [if_pos hfatal, if_pos hfatal, decide_eq_true hfatal, if_pos rfl]
      show closeConnfd i (st.crol.connfdAlive i) ((st.log cs).log _) = _
      rw [TcpState.log_log, closeConnfd_of_lt h, List.append_assoc]
      rfl
    · rw [if_neg hfatal, if_neg hfatal, decide_eq_false hfatal, if_neg (by simp)]
      show some ((st.log cs).log _) = _
      rw [TcpState.log_log]

theorem sendSlot_spec (h : st.crol.connfdAlive i < fdSetsize)
    (hw : decide (st.crol.connfdAlive i ∈ st.crol.selectWriteSet) =
      env.writable (st.crol.connfdAlive i)) :
    sendSlot psendBuf sendLen env i st = some (st.served (.send psendBuf sendLen) env i) := by
  rw [sendSlot]
  rw [writeSlot_spec psendBuf sendLen h hw]
  rfl

theorem recvSlot_spec (h : st.crol.connfdAlive i < fdSetsize)
    (hr : decide (st.crol.connfdAlive i ∈ st.crol.selectReadSet) =
      env.readable (st.crol.connfdAlive i)) : recvSlot env i st = some (st.served .recv env i) := by
  have hread := readSlot_spec h hr []
  rw [TcpState.log_nil] at hread
  exact hread

theorem rwSlot_spec (h : st.crol.connfdAlive i < fdSetsize)
    (hw : decide (st.crol.connfdAlive i ∈ st.crol.selectWriteSet) =
      env.writable (st.crol.connfdAlive i))
    (hr : decide (st.crol.connfdAlive i ∈ st.crol.selectReadSet) =
      env.readable (st.crol.connfdAlive i)) :
    rwSlot psendBuf sendLen env i st = some (st.served (.rw psendBuf sendLen) env i) := by
  rw [rwSlot, TcpState.served, TcpCall.closes, TcpCall.dies, TcpCall.log]
  simp only [writeSlot_spec psendBuf sendLen h hw, Option.bind_eq_bind, Option.bind_some,
    Bool.and_or_distrib_left]
  cases decide (st.crol.connfdAlive i ≠ 0) && writeDies sendLen env i (st.crol.connfdAlive i) with
  | true =>
    rw [if_pos rfl, if_pos rfl, Bool.true_or, if_pos rfl, List.append_nil]
    rfl
  | false =>
    rw [if_neg (by simp), if_neg (by simp), Bool.false_or]
    exact readSlot_spec h hr _

end Bodies

/-! ## A scan -/

/-- A property of slots as one of numbers. -/
def onSlots (d : Fin uartTcpClientMax → Bool) (i : Nat) : Bool :=
  if h : i < uartTcpClientMax then d ⟨i, h⟩ else false

theorem onSlots_val (d : Fin uartTcpClientMax → Bool) (i : Fin uartTcpClientMax) :
    onSlots d i.val = d i := dif_pos i.isLt

/-- After the first `k` of `n` slots: those that fail (`d`) are vacated. -/
structure Scanned (b : TcpState) (d : Nat → Bool) (n k : Nat) (st : TcpState) : Prop where
  count : st.crol.connfdAlivenum = (n : Int) - holes d k
  slots : ∀ i : Fin uartTcpClientMax, st.crol.connfdAlive i =
    if i.val < k ∧ d i.val = true then 0 else b.crol.connfdAlive i
  isOpen : ∀ fd, fd ∈ st.isOpen ↔ fd ∈ b.isOpen ∧
    ∀ i : Fin uartTcpClientMax, i.val < k → d i.val = true → b.crol.connfdAlive i ≠ fd
  readSet : st.crol.readSet = st.isOpen
  writeSet : st.crol.writeSet = st.isOpen
  selectReadSet : st.crol.selectReadSet = b.crol.selectReadSet
  selectWriteSet : st.crol.selectWriteSet = b.crol.selectWriteSet
  maxFd : st.crol.maxFd = b.crol.maxFd
  sockfd : st.crol.sockfd = b.crol.sockfd

section Scan

variable {b st : TcpState} {d : Nat → Bool} {n k : Nat}

theorem Scanned.start (h : Consistent b) (hn : b.crol.connfdAlivenum = n) : Scanned b d n 0 b := by
  refine ⟨?_, fun i => ?_, fun fd => ?_, ?_, ?_, rfl, rfl, rfl, rfl⟩
  · rw [hn, holes_zero]; omega
  · rw [if_neg fun hi => absurd hi.1 (Nat.not_lt_zero _)]
  · exact ⟨fun hfd => ⟨hfd, fun _ hi => absurd hi (Nat.not_lt_zero _)⟩, fun hfd => hfd.1⟩
  · exact h.readSet
  · exact h.writeSet

/-- The slot that comes next is as it was. -/
theorem Scanned.slot_eq (h : Scanned b d n k st) {i : Fin uartTcpClientMax} (hi : i.val = k) :
    st.crol.connfdAlive i = b.crol.connfdAlive i := by
  rw [h.slots, if_neg fun hlt => absurd hlt.1 (by omega)]

/-- A slot that lives is passed. -/
theorem Scanned.pass (h : Scanned b d n k st) (hd : d k = false) (cs : List SysCall) :
    Scanned b d n (k + 1) (st.log cs) := by
  -- slot `k` lives, so "below `k + 1` and vacated" says what "below `k` and vacated" said
  have hsame : ∀ j : Fin uartTcpClientMax, j.val < k + 1 ∧ d j.val = true ↔
      j.val < k ∧ d j.val = true := by
    intro j
    constructor
    · rintro ⟨hj, hdj⟩
      have hne : j.val ≠ k := fun heq => by rw [heq, hd] at hdj; cases hdj
      exact ⟨by omega, hdj⟩
    · rintro ⟨hj, hdj⟩
      exact ⟨by omega, hdj⟩
  refine ⟨?_, fun j => ?_, fun fd => ?_, h.readSet, h.writeSet, h.selectReadSet, h.selectWriteSet,
    h.maxFd, h.sockfd⟩
  · show st.crol.connfdAlivenum = _
    rw [holes_succ, if_neg (by rw [hd]; simp)]
    exact h.count
  · show st.crol.connfdAlive j = _
    rw [h.slots]
    exact if_congr (hsame j).symm rfl rfl
  · show fd ∈ st.isOpen ↔ _
    rw [h.isOpen]
    refine and_congr_right fun _ => forall_congr' fun j => ?_
    exact ⟨fun hrest hj hdj => hrest ((hsame j).mp ⟨hj, hdj⟩).1 hdj,
      fun hrest hj hdj => hrest (by omega) hdj⟩

/-- A slot that fails is vacated. -/
theorem Scanned.fail (h : Scanned b d n k st) {i : Fin uartTcpClientMax} (hi : i.val = k)
    (hd : d k = true) (cs : List SysCall) : Scanned b d n (k + 1) ((st.vacate i).log cs) := by
  have hslot := h.slot_eq hi
  have hcount := h.count
  refine ⟨?_, fun j => ?_, fun fd => ?_, ?_, ?_, h.selectReadSet, h.selectWriteSet, h.maxFd,
    h.sockfd⟩
  · show st.crol.connfdAlivenum - 1 = _
    rw [holes_succ, if_pos hd]
    omega
  · show Function.update st.crol.connfdAlive i 0 j = _
    rw [Function.update_apply, h.slots]
    by_cases hji : j = i
    · rw [if_pos hji, if_pos ⟨by rw [hji]; omega, by rw [hji, hi]; exact hd⟩]
    · have hne : j.val ≠ k := fun heq => hji (Fin.ext (heq.trans hi.symm))
      rw [if_neg hji]
      exact if_congr (and_congr_left fun _ => by omega) rfl rfl
  · show fd ∈ st.isOpen.erase (st.crol.connfdAlive i) ↔ _
    rw [Finset.mem_erase, h.isOpen, hslot]
    constructor
    · rintro ⟨hne, hfd, hrest⟩
      refine ⟨hfd, fun j hj hdj => ?_⟩
      by_cases hjk : j.val = k
      · rw [Fin.ext (hjk.trans hi.symm)]
        exact Ne.symm hne
      · exact hrest j (by omega) hdj
    · rintro ⟨hfd, hrest⟩
      exact ⟨Ne.symm (hrest i (by omega) (by rw [hi]; exact hd)), hfd,
        fun j hj hdj => hrest j (by omega) hdj⟩
  · show st.crol.readSet.erase _ = st.isOpen.erase _
    rw [h.readSet]
  · show st.crol.writeSet.erase _ = st.isOpen.erase _
    rw [h.writeSet]

/-- **The step lemma of a scan.** -/
theorem Scanned.step (h : Scanned b d n k st) {i : Fin uartTcpClientMax} (hi : i.val = k)
    (cs : List SysCall) :
    Scanned b d n (k + 1) ((if d k then st.vacate i else st).log cs) := by
  cases hd : d k with
  | false =>
    rw [if_neg (by simp)]
    exact h.pass hd cs
  | true =>
    rw [if_pos rfl]
    exact h.fail hi hd cs

/-- A scan that closes nothing leaves everything as it is. -/
theorem Scanned.idle (h : Consistent b) (hn : b.crol.connfdAlivenum = n)
    (hd : ∀ i : Fin uartTcpClientMax, i.val < n → d i.val = false) : Scanned b d n n b := by
  have hle : n ≤ uartTcpClientMax := by
    have hcount := h.count
    have hcard := h.le
    omega
  have hno : ∀ i : Fin uartTcpClientMax, ¬ (i.val < n ∧ d i.val = true) := by
    rintro i ⟨hi, hdi⟩
    rw [hd i hi] at hdi
    cases hdi
  have hholes : holes d n = 0 := holes_eq_zero_iff.mpr fun i hi => hd ⟨i, by omega⟩ hi
  refine ⟨?_, fun i => (if_neg (hno i)).symm, fun fd => ?_, h.readSet, h.writeSet, rfl, rfl, rfl, rfl⟩
  · rw [hn, hholes]; omega
  · exact ⟨fun hfd => ⟨hfd, fun i hi hdi => absurd ⟨hi, hdi⟩ (hno i)⟩, fun hfd => hfd.1⟩

theorem Consistent.log (h : Consistent st) (cs : List SysCall) : Consistent (st.log cs) :=
  ⟨h.count, h.le, h.readSet, h.writeSet, h.mem, h.distinct, h.maxFd, h.pos, h.bound, h.sockfd,
    h.sockBound⟩

/-- The invariant survives the end of a connection. -/
theorem Consistent.vacate (h : Consistent st) {i : Fin uartTcpClientMax}
    (hi : st.crol.connfdAlive i ≠ 0) : Consistent (st.vacate i) := by
  have hcount := h.count
  have hle := h.le
  have hmem := h.mem i hi
  have hcard : (st.isOpen.erase (st.crol.connfdAlive i)).card + 1 = st.isOpen.card :=
    Finset.card_erase_add_one hmem
  have hsub : ∀ fd, fd ∈ st.isOpen.erase (st.crol.connfdAlive i) → fd ∈ st.isOpen := fun fd hfd =>
    Finset.mem_of_mem_erase hfd
  have hother : ∀ j, (st.vacate i).crol.connfdAlive j ≠ 0 →
      j ≠ i ∧ (st.vacate i).crol.connfdAlive j = st.crol.connfdAlive j := by
    intro j hj
    by_cases hji : j = i
    · refine absurd ?_ hj
      rw [hji]
      exact Function.update_self ..
    · exact ⟨hji, Function.update_of_ne hji ..⟩
  refine ⟨?_, ?_, ?_, ?_, fun j hj => ?_, fun j k hj hjk => ?_, fun fd hfd => h.maxFd fd (hsub fd hfd),
    fun hfd => h.pos (hsub 0 hfd), fun fd hfd => h.bound fd (hsub fd hfd),
    fun hfd => h.sockfd (hsub _ hfd), h.sockBound⟩
  · show st.crol.connfdAlivenum - 1 = ((st.isOpen.erase (st.crol.connfdAlive i)).card : Int)
    omega
  · show (st.isOpen.erase (st.crol.connfdAlive i)).card ≤ _
    omega
  · show st.crol.readSet.erase _ = st.isOpen.erase _
    rw [h.readSet]
  · show st.crol.writeSet.erase _ = st.isOpen.erase _
    rw [h.writeSet]
  · obtain ⟨hji, heq⟩ := hother j hj
    rw [heq] at hj ⊢
    refine Finset.mem_erase.mpr ⟨fun hij => hji (h.distinct j i hj hij), h.mem j hj⟩
  · obtain ⟨-, hk⟩ := hother k (hjk ▸ hj)
    obtain ⟨-, heq⟩ := hother j hj
    rw [heq] at hj hjk
    exact h.distinct j k hj (hjk.trans hk)

/-- The loop body keeps both invariants, and logs what it asks the system for. -/
theorem Scanned.served (hscan : Scanned b d n k st) (hcons : Consistent st) (c : TcpCall) (env : Env)
    {i : Fin uartTcpClientMax} (hi : i.val = k)
    (hd : d k = c.closes env i (b.crol.connfdAlive i)) :
    Scanned b d n (k + 1) (st.served c env i) ∧ Consistent (st.served c env i) ∧
      (st.served c env i).calls = st.calls ++ c.log env i (b.crol.connfdAlive i) := by
  have hslot := hscan.slot_eq hi
  rw [TcpState.served]
  rw [hslot, ← hd]
  refine ⟨hscan.step hi _, ?_, ?_⟩
  · cases hdk : d k with
    | false => exact hcons.log _
    | true =>
      rw [hdk] at hd
      have hne := of_decide_eq_true (Bool.and_eq_true_iff.mp hd.symm).1
      exact (hcons.vacate (hslot ▸ hne)).log _
  · cases d k <;> rfl

/-- What the loop bodies ask the system for in a scan of the first `n` slots. -/
def scanLog (c : TcpCall) (env : Env) (slots : Fin uartTcpClientMax → Nat) (n : Nat) :
    List SysCall :=
  ((List.finRange uartTcpClientMax).take n).flatMap fun i => c.log env i (slots i)

/-- The slots of a scan are the first `n`. -/
theorem mem_take_finRange {i : Fin uartTcpClientMax} :
    i ∈ (List.finRange uartTcpClientMax).take n ↔ i.val < n := by
  rw [List.mem_take_iff_getElem]
  constructor
  · rintro ⟨j, hj, rfl⟩
    rw [List.getElem_finRange]
    show j < n
    omega
  · intro hi
    have hlt := i.isLt
    refine ⟨i.val, ?_, ?_⟩
    · rw [List.length_finRange]
      omega
    · rw [List.getElem_finRange]
      rfl

theorem mem_scanLog {c : TcpCall} {env : Env} {slots : Fin uartTcpClientMax → Nat} {s : SysCall} :
    s ∈ scanLog c env slots n ↔
      ∃ i : Fin uartTcpClientMax, i.val < n ∧ s ∈ c.log env i (slots i) := by
  rw [scanLog]
  rw [List.mem_flatMap]
  exact exists_congr fun i => and_congr_left fun _ => mem_take_finRange

/-- The run lemma of a scan. -/
theorem scan_spec (c : TcpCall) (env : Env)
    (body : Fin uartTcpClientMax → TcpState → Option TcpState) (h : Consistent b)
    (hn : b.crol.connfdAlivenum = n)
    (hd : ∀ i : Fin uartTcpClientMax, i.val < n →
      d i.val = c.closes env i (b.crol.connfdAlive i))
    (hbody : ∀ (i : Fin uartTcpClientMax) st, Scanned b d n i.val st → Consistent st →
      body i st = some (st.served c env i)) :
    ∃ st', scan body b.crol.connfdAlivenum b = some st' ∧ Scanned b d n n st' ∧ Consistent st' ∧
      st'.calls = b.calls ++ scanLog c env b.crol.connfdAlive n := by
  have hcount := h.count
  have hle := h.le
  have hu32 : toU32 b.crol.connfdAlivenum = n := by
    rw [hn, toU32_of_lt (by omega) (by unfold uartTcpClientMax at hle; omega)]
    omega
  -- by induction on the number of slots scanned, with both invariants and the log so far
  have hprefix : ∀ k, k ≤ n → ∃ st',
      ((List.finRange uartTcpClientMax).take k).foldlM (fun st i => body i st) b = some st' ∧
        Scanned b d n k st' ∧ Consistent st' ∧
        st'.calls = b.calls ++ scanLog c env b.crol.connfdAlive k := by
    intro k
    induction k with
    | zero => exact fun _ => ⟨b, rfl, .start h hn, h, (List.append_nil _).symm⟩
    | succ k ih =>
      intro hk
      obtain ⟨st, hst, hscan, hcons, hcalls⟩ := ih (by omega)
      have hlt : k < (List.finRange uartTcpClientMax).length := by
        rw [List.length_finRange]; omega
      obtain ⟨i, hget⟩ : ∃ i, (List.finRange uartTcpClientMax)[k] = i := ⟨_, rfl⟩
      have hval : i.val = k := by
        rw [← hget, List.getElem_finRange]; rfl
      have htake : (List.finRange uartTcpClientMax).take (k + 1) =
          (List.finRange uartTcpClientMax).take k ++ [i] := by
        rw [List.take_add_one, List.getElem?_eq_getElem hlt, hget, Option.toList_some]
      obtain ⟨hscan', hcons', hcalls'⟩ := hscan.served hcons c env hval (by
        rw [← hval]; exact hd i (by omega))
      refine ⟨_, ?_, hscan', hcons', ?_⟩
      · rw [htake, List.foldlM_append, hst]
        simp only [Option.bind_eq_bind, Option.bind_some, List.foldlM_cons, List.foldlM_nil,
          hbody i st (by rw [hval]; exact hscan) hcons]
        rfl
      · rw [hcalls', hcalls, List.append_assoc]
        unfold scanLog
        rw [htake, List.flatMap_append, List.flatMap_singleton]
  rw [scan]
  rw [hu32, if_pos (by omega)]
  exact hprefix n (Nat.le_refl n)

end Scan

/-! ## A call -/

/-- The state with other `select` sets. -/
def TcpState.select (r w : FdSet) (st : TcpState) : TcpState :=
  { st with crol := { st.crol with selectReadSet := r, selectWriteSet := w } }

section Call

variable {st b : TcpState} {n : Nat} {env : Env} {d : Nat → Bool}

theorem Consistent.select (h : Consistent b) (r w : FdSet) : Consistent (b.select r w) :=
  ⟨h.count, h.le, h.readSet, h.writeSet, h.mem, h.distinct, h.maxFd, h.pos, h.bound, h.sockfd,
    h.sockBound⟩

/-- Of the connections in the table, `select` reports those that are ready. -/
theorem Consistent.mem_selected (h : Consistent b) (i : Fin uartTcpClientMax) (ready : Nat → Bool) :
    decide (b.crol.connfdAlive i ∈ selected (b.crol.maxFd + 1) ready b.isOpen) =
      (decide (b.crol.connfdAlive i ≠ 0) && ready (b.crol.connfdAlive i)) := by
  rw [selected]
  rw [Bool.eq_iff_iff, decide_eq_true_iff, Finset.mem_filter, Bool.and_eq_true, decide_eq_true_iff]
  constructor
  · rintro ⟨hmem, -, hready⟩
    exact ⟨fun hz => h.pos (hz ▸ hmem), hready⟩
  · rintro ⟨hne, hready⟩
    have hmem := h.mem i hne
    have hmax := h.maxFd _ hmem
    exact ⟨hmem, by omega, hready⟩

/-- The listening socket is in no set, so it is never reported. -/
theorem acceptIfReady_eq (h : Consistent b) (ready : Nat → Bool) (w : FdSet) :
    acceptIfReady env (b.select (selected (b.crol.maxFd + 1) ready b.crol.readSet) w) =
      some (b.select (selected (b.crol.maxFd + 1) ready b.crol.readSet) w) := by
  have hno : b.crol.sockfd ∉ selected (b.crol.maxFd + 1) ready b.crol.readSet := by
    intro hmem
    rw [h.readSet] at hmem
    exact h.sockfd (Finset.mem_filter.mp hmem).1
  have hisset : fdIsset b.crol.sockfd (selected (b.crol.maxFd + 1) ready b.crol.readSet) =
      some false := by
    rw [fdIsset]
    rw [if_pos h.sockBound, decide_eq_false hno]
  rw [acceptIfReady]
  show (fdIsset b.crol.sockfd (selected (b.crol.maxFd + 1) ready b.crol.readSet)).bind _ = _
  rw [hisset]
  rfl

/-- The slots are within the sets' range. -/
theorem Consistent.slot_lt (h : Consistent b) (i : Fin uartTcpClientMax) :
    b.crol.connfdAlive i < fdSetsize := by
  by_cases hz : b.crol.connfdAlive i = 0
  · rw [hz]
    decide
  · exact h.bound _ (h.mem i hz)

/-- What a call leaves, when it scans the state `b` with some `select` sets. -/
def ScansFrom (c : TcpCall) (env : Env) (b : TcpState) (d : Nat → Bool) (n : Nat)
    (r : Option TcpState) : Prop :=
  ∃ rs ws st', r = some st' ∧ Scanned (b.select rs ws) d n n st' ∧ Consistent st' ∧
    st'.calls = b.calls ++ scanLog c env b.crol.connfdAlive n

/-- Without a scan nothing is closed and nothing is asked for. -/
theorem ScansFrom.idle {c : TcpCall} (h : Consistent b) (hn : b.crol.connfdAlivenum = n)
    (hd : ∀ i : Fin uartTcpClientMax, i.val < n → d i.val = c.closes env i (b.crol.connfdAlive i))
    (hcloses : ∀ i fd, c.closes env i fd = false) (hlog : ∀ i fd, c.log env i fd = [])
    (rs ws : FdSet) : ScansFrom c env b d n (some (b.select rs ws)) := by
  refine ⟨rs, ws, _, rfl, .idle (h.select rs ws) hn fun i hi => ?_, h.select rs ws, ?_⟩
  · rw [hd i hi, hcloses]
  · rw [scanLog]
    simp only [hlog]
    rw [List.flatMap_eq_nil_iff.mpr fun _ _ => rfl, List.append_nil]
    rfl

/-- `select` reports nothing. -/
theorem closes_of_none (c : TcpCall) (hsel : env.select = none) (i : Fin uartTcpClientMax)
    (fd : Nat) : c.closes env i fd = false := by
  cases c <;> simp [TcpCall.closes, TcpCall.dies, writeDies, readDies, hsel]

theorem log_of_none (c : TcpCall) (hsel : env.select = none) (i : Fin uartTcpClientMax)
    (fd : Nat) : c.log env i fd = [] := by
  cases c <;> simp [TcpCall.log, writeLog, readLog, ioLog, writeDies, Env.writable, Env.readable, hsel]

/-- Along a scan the sets say of a slot what `select` said of its connection. -/
theorem Scanned.mem_selectWriteSet (h : Consistent b) {readable writable : Nat → Bool}
    (hsel : env.select = some (readable, writable)) {rs : FdSet} {i : Fin uartTcpClientMax}
    (hscan : Scanned (b.select rs (selected (b.crol.maxFd + 1) writable b.crol.writeSet)) d n i.val
      st) :
    decide (st.crol.connfdAlive i ∈ st.crol.selectWriteSet) =
      env.writable (st.crol.connfdAlive i) := by
  rw [hscan.slot_eq rfl, hscan.selectWriteSet]
  rw [Env.writable]
  rw [hsel]
  show decide (b.crol.connfdAlive i ∈ selected _ _ b.crol.writeSet) = _
  rw [h.writeSet]
  exact h.mem_selected i writable

theorem Scanned.mem_selectReadSet (h : Consistent b) {readable writable : Nat → Bool}
    (hsel : env.select = some (readable, writable)) {ws : FdSet} {i : Fin uartTcpClientMax}
    (hscan : Scanned (b.select (selected (b.crol.maxFd + 1) readable b.crol.readSet) ws) d n i.val
      st) :
    decide (st.crol.connfdAlive i ∈ st.crol.selectReadSet) =
      env.readable (st.crol.connfdAlive i) := by
  rw [hscan.slot_eq rfl, hscan.selectReadSet]
  rw [Env.readable]
  rw [hsel]
  show decide (b.crol.connfdAlive i ∈ selected _ _ b.crol.readSet) = _
  rw [h.readSet]
  exact h.mem_selected i readable

/-- `send_tcpserver` behind its `accept`. -/
theorem sendTcpserver_spec (psendBuf : Mem) (sendLen : Int) (h : Consistent b)
    (hacc : acceptTcpConnet env.accept st = some b) (hn : b.crol.connfdAlivenum = n)
    (hd : ∀ i : Fin uartTcpClientMax, i.val < n →
      d i.val = (TcpCall.send psendBuf sendLen).closes env i (b.crol.connfdAlive i)) :
    ScansFrom (.send psendBuf sendLen) env b d n (sendTcpserver psendBuf sendLen env st) := by
  rw [sendTcpserver]
  rw [hacc, Option.bind_eq_bind, Option.bind_some]
  cases hsel : env.select with
  | none => exact .idle h hn hd (closes_of_none _ hsel) (log_of_none _ hsel) b.crol.selectReadSet _
  | some p =>
    obtain ⟨readable, writable⟩ := p
    obtain ⟨st', hst', hrest⟩ := scan_spec (.send psendBuf sendLen) env
      (sendSlot psendBuf sendLen env) (d := d) (h.select b.crol.selectReadSet
        (selected (b.crol.maxFd + 1) writable b.crol.writeSet)) hn hd fun i s hs hcons =>
      sendSlot_spec psendBuf sendLen (hcons.slot_lt i) (hs.mem_selectWriteSet h hsel)
    exact ⟨_, _, st', hst', hrest⟩

/-- `recv_tcpserver` behind its `accept`. -/
theorem recvTcpserver_spec (h : Consistent b) (hacc : acceptTcpConnet env.accept st = some b)
    (hn : b.crol.connfdAlivenum = n)
    (hd : ∀ i : Fin uartTcpClientMax, i.val < n →
      d i.val = TcpCall.recv.closes env i (b.crol.connfdAlive i)) :
    ScansFrom .recv env b d n (recvTcpserver env st) := by
  rw [recvTcpserver]
  rw [hacc, Option.bind_eq_bind, Option.bind_some]
  cases hsel : env.select with
  | none => exact .idle h hn hd (closes_of_none _ hsel) (log_of_none _ hsel) _ b.crol.selectWriteSet
  | some p =>
    obtain ⟨readable, writable⟩ := p
    obtain ⟨st', hst', hrest⟩ := scan_spec .recv env (recvSlot env) (d := d)
      (h.select (selected (b.crol.maxFd + 1) readable b.crol.readSet) b.crol.selectWriteSet) hn hd
      fun i s hs hcons => recvSlot_spec (hcons.slot_lt i) (hs.mem_selectReadSet h hsel)
    refine ⟨_, _, st', ?_, hrest⟩
    show (acceptIfReady env (b.select (selected (b.crol.maxFd + 1) readable b.crol.readSet)
      b.crol.selectWriteSet)).bind _ = _
    rw [acceptIfReady_eq h]
    exact hst'

/-- `rw_tcpserver` behind its `accept`. -/
theorem rwTcpserver_spec (psendBuf : Mem) (sendLen : Int) (h : Consistent b)
    (hacc : acceptTcpConnet env.accept st = some b) (hn : b.crol.connfdAlivenum = n)
    (hd : ∀ i : Fin uartTcpClientMax, i.val < n →
      d i.val = (TcpCall.rw psendBuf sendLen).closes env i (b.crol.connfdAlive i)) :
    ScansFrom (.rw psendBuf sendLen) env b d n (rwTcpserver psendBuf sendLen env st) := by
  rw [rwTcpserver]
  rw [hacc, Option.bind_eq_bind, Option.bind_some]
  cases hsel : env.select with
  | none => exact .idle h hn hd (closes_of_none _ hsel) (log_of_none _ hsel) _ _
  | some p =>
    obtain ⟨readable, writable⟩ := p
    obtain ⟨st', hst', hrest⟩ := scan_spec (.rw psendBuf sendLen) env
      (rwSlot psendBuf sendLen env) (d := d)
      (h.select (selected (b.crol.maxFd + 1) readable b.crol.readSet)
        (selected (b.crol.maxFd + 1) writable b.crol.writeSet)) hn hd fun i s hs hcons =>
      rwSlot_spec psendBuf sendLen (hcons.slot_lt i) (hs.mem_selectWriteSet h hsel)
        (hs.mem_selectReadSet h hsel)
    refine ⟨_, _, st', ?_, hrest⟩
    show (acceptIfReady env (b.select (selected (b.crol.maxFd + 1) readable b.crol.readSet)
      (selected (b.crol.maxFd + 1) writable b.crol.writeSet))).bind _ = _
    rw [acceptIfReady_eq h]
    exact hst'

/-- **Any of the calls**: the `accept`, then a scan. -/
theorem tcpCall_spec (c : TcpCall) (h : Consistent b) (hacc : acceptTcpConnet env.accept st = some b)
    (hn : b.crol.connfdAlivenum = n)
    (hd : ∀ i : Fin uartTcpClientMax, i.val < n →
      d i.val = c.closes env i (b.crol.connfdAlive i)) :
    ScansFrom c env b d n (tcpCall c env st) := by
  cases c with
  | accept =>
    have hidle := ScansFrom.idle (c := .accept) h hn hd (fun _ _ => Bool.and_false _)
      (fun _ _ => rfl) b.crol.selectReadSet b.crol.selectWriteSet
    show ScansFrom .accept env b d n (acceptTcpConnet env.accept st)
    rw [hacc]
    exact hidle
  | send psendBuf sendLen => exact sendTcpserver_spec psendBuf sendLen h hacc hn hd
  | recv => exact recvTcpserver_spec h hacc hn hd
  | rw psendBuf sendLen => exact rwTcpserver_spec psendBuf sendLen h hacc hn hd

/-- An `accept` that is undefined makes the call undefined. -/
theorem tcpCall_of_accept_none (c : TcpCall) (hacc : acceptTcpConnet env.accept st = none) :
    tcpCall c env st = none := by
  cases c with
  | accept => exact hacc
  | send => simp only [tcpCall, sendTcpserver, hacc]; rfl
  | recv => simp only [tcpCall, recvTcpserver, hacc]; rfl
  | rw => simp only [tcpCall, rwTcpserver, hacc]; rfl

/-- What a call does, said of the state before it and the outcomes of its system calls. -/
structure Called (c : TcpCall) (env : Env) (st st' : TcpState) : Prop where
  accepted : ∃ b, Accepted st env b
  consistent : Consistent st'
  slots : ∀ i : Fin uartTcpClientMax, st'.crol.connfdAlive i =
    if i.val < countAfter st env ∧ c.closes env i (fdAfter st env i) = true then 0
    else fdAfter st env i
  isOpen : ∀ fd, fd ∈ st'.isOpen ↔ fd ∈ openAfter st env ∧ ∀ i : Fin uartTcpClientMax,
    i.val < countAfter st env → c.closes env i (fdAfter st env i) = true → fdAfter st env i ≠ fd
  calls : st'.calls = st.calls ++ scanLog c env (fdAfter st env) (countAfter st env)

/-- After the `accept` what is in a slot is open, and in no other slot. -/
theorem Called.mem {c : TcpCall} {st' : TcpState} (h : Called c env st st')
    {i : Fin uartTcpClientMax} (hne : fdAfter st env i ≠ 0) :
    fdAfter st env i ∈ openAfter st env := by
  obtain ⟨b, hb⟩ := h.accepted
  rw [← hb.slots] at hne ⊢
  rw [← hb.isOpen]
  exact hb.consistent.mem i hne

theorem Called.distinct {c : TcpCall} {st' : TcpState} (h : Called c env st st')
    {i j : Fin uartTcpClientMax} (hne : fdAfter st env i ≠ 0)
    (heq : fdAfter st env i = fdAfter st env j) : i = j := by
  obtain ⟨b, hb⟩ := h.accepted
  rw [← hb.slots] at hne heq
  exact hb.consistent.distinct i j hne heq

/-- **One call from a consistent state**: it is undefined when it accepts a descriptor too large for
    the sets, and otherwise as `Called` says. -/
theorem tcpCall_cases (c : TcpCall) (h : Consistent st) (hallowed : env.Allowed st) :
    (∃ fd, env.accepted st = some fd ∧ ¬ fd < fdSetsize ∧ tcpCall c env st = none) ∨
    (∀ fd, env.accepted st = some fd → fd < fdSetsize) ∧
      ∃ st', tcpCall c env st = some st' ∧ Called c env st st' := by
  rcases accept_spec h hallowed with ⟨fd, hacc, hfd, hnone⟩ | ⟨hfds, b, hsome, hb⟩
  · exact Or.inl ⟨fd, hacc, hfd, tcpCall_of_accept_none c hnone⟩
  · obtain ⟨rs, ws, st', hcall, hscan, hcons, hcalls⟩ := tcpCall_spec c
      (d := onSlots fun i => c.closes env i (b.crol.connfdAlive i)) hb.consistent hsome hb.count
      fun i _ => onSlots_val _ i
    refine Or.inr ⟨hfds, st', hcall, ⟨b, hb⟩, hcons, fun i => ?_, fun fd => ?_, ?_⟩
    · rw [hscan.slots, onSlots_val, ← hb.slots]
      rfl
    · rw [hscan.isOpen, ← hb.isOpen, ← hb.slots]
      simp only [onSlots_val]
      exact Iff.rfl
    · rw [hcalls, hb.calls, hb.slots]

end Call

/-! ## Runs -/

/-- The calls one after the other. -/
def tcpCalls (cs : List (TcpCall × Env)) (st : TcpState) : Option TcpState :=
  cs.foldlM (fun st c => tcpCall c.1 c.2 st) st

theorem tcpCalls_cons {c : TcpCall × Env} {cs : List (TcpCall × Env)} {st st' : TcpState}
    (h : tcpCall c.1 c.2 st = some st') : tcpCalls (c :: cs) st = tcpCalls cs st' := by
  rw [tcpCalls]
  rw [List.foldlM_cons, h]
  rfl

/-- A run that is defined begins with a call that is. -/
theorem exists_of_tcpCalls_cons {c : TcpCall × Env} {cs : List (TcpCall × Env)} {st st' : TcpState}
    (h : tcpCalls (c :: cs) st = some st') :
    ∃ st₁, tcpCall c.1 c.2 st = some st₁ ∧ tcpCalls cs st₁ = some st' :=
  Option.bind_eq_some_iff.mp h

/-- In every call of the run `accept` behaves as it does. -/
def Realistic : TcpState → List (TcpCall × Env) → Prop
  | _, [] => True
  | st, c :: cs => c.2.Allowed st ∧ ∀ st', tcpCall c.1 c.2 st = some st' → Realistic st' cs

/-- Every call of the run is defined, and `P` holds of it and the states around it. -/
def EveryCall (P : TcpCall → Env → TcpState → TcpState → Prop) :
    TcpState → List (TcpCall × Env) → Prop
  | _, [] => True
  | st, c :: cs => ∃ st', tcpCall c.1 c.2 st = some st' ∧ P c.1 c.2 st st' ∧ EveryCall P st' cs

/-- `Q` holds of every call of the run and the state in which it is made. -/
def EveryStep (Q : TcpCall → Env → TcpState → Prop) : TcpState → List (TcpCall × Env) → Prop
  | _, [] => True
  | st, c :: cs => Q c.1 c.2 st ∧ ∀ st', tcpCall c.1 c.2 st = some st' → EveryStep Q st' cs

/-- **From calls to runs**: what holds of a call iff its input is right holds of a run iff all its
    inputs are, if it keeps what the equivalence rests on. -/
theorem everyCall_iff {P : TcpCall → Env → TcpState → TcpState → Prop}
    {Q : TcpCall → Env → TcpState → Prop} {I : TcpState → Prop}
    (hcall : ∀ c env st, I st → env.Allowed st →
      ((∃ st', tcpCall c env st = some st' ∧ P c env st st') ↔ Q c env st) ∧
        ∀ st', tcpCall c env st = some st' → P c env st st' → I st')
    {st : TcpState} (h : I st) {cs : List (TcpCall × Env)} (hreal : Realistic st cs) :
    EveryCall P st cs ↔ EveryStep Q st cs := by
  induction cs generalizing st with
  | nil => exact Iff.rfl
  | cons c cs ih =>
    obtain ⟨hallowed, hrest⟩ := hreal
    obtain ⟨hiff, hkeep⟩ := hcall c.1 c.2 st h hallowed
    constructor
    · rintro ⟨st', hst', hp, hevery⟩
      refine ⟨hiff.mp ⟨st', hst', hp⟩, fun s hs => ?_⟩
      rw [hst'] at hs
      cases hs
      exact (ih (hkeep st' hst' hp) (hrest st' hst')).mp hevery
    · rintro ⟨hq, hsteps⟩
      obtain ⟨st', hst', hp⟩ := hiff.mpr hq
      exact ⟨st', hst', hp, (ih (hkeep st' hst' hp) (hrest st' hst')).mpr (hsteps st' hst')⟩

/-- The calls of a consistent state: what holds of a defined call iff its input is right. -/
theorem tcpCall_iff_of_called {c : TcpCall} {env : Env} {st : TcpState} {p : TcpState → Prop}
    {q : Prop} (h : Consistent st) (hallowed : env.Allowed st)
    (hiff : ∀ st', Called c env st st' → (p st' ↔ q)) :
    (∃ st', tcpCall c env st = some st' ∧ p st') ↔
      (∀ fd, env.accepted st = some fd → fd < fdSetsize) ∧ q := by
  rcases tcpCall_cases c h hallowed with ⟨fd, hacc, hfd, hnone⟩ | ⟨hfds, st₁, hst₁, hcalled⟩
  · refine ⟨?_, fun hok => absurd (hok.1 fd hacc) hfd⟩
    rintro ⟨st₁, hst₁, -⟩
    rw [hnone] at hst₁
    cases hst₁
  · constructor
    · rintro ⟨st₂, hst₂, hp⟩
      obtain rfl : st₁ = st₂ := Option.some.inj (hst₁.symm.trans hst₂)
      exact ⟨hfds, (hiff st₁ hcalled).mp hp⟩
    · rintro ⟨-, hq⟩
      exact ⟨st₁, hst₁, (hiff st₁ hcalled).mpr hq⟩

theorem called_of_eq {c : TcpCall} {env : Env} {st st' : TcpState} (h : Consistent st)
    (hallowed : env.Allowed st) (hst' : tcpCall c env st = some st') : Called c env st st' := by
  rcases tcpCall_cases c h hallowed with ⟨_, _, _, hnone⟩ | ⟨_, st₁, hst₁, hcalled⟩
  · rw [hnone] at hst'
    cases hst'
  · obtain rfl : st₁ = st' := Option.some.inj (hst₁.symm.trans hst')
    exact hcalled

/-- A call of `accept` alone that returns `fd`. -/
def acceptOf (fd : Nat) : TcpCall × Env :=
  (.accept, ⟨some fd, none, none, fun _ => .retry, fun _ => .retry⟩)

/-- No connection comes in, and all are ready. -/
def Env.ready (write read : Fin uartTcpClientMax → IoResult) : Env :=
  ⟨none, none, some (fun _ => true, fun _ => true), write, read⟩

end AdhocNode
