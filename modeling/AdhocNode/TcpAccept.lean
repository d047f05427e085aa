/-
  ACCEPTING CONNECTIONS — the server's invariant, and the `accept` at the start of every call.

  1. **The invariant** — `Consistent`: `connfd_alivenum` counts the open connections, `read_set` and
     `write_set` hold exactly these, and what is not 0 in `connfd_alive` is one of them, no
     descriptor twice.  It does not say which slots are in use, nor that every connection has one:
     `acceptTcpConnet` stores at `connfd_alivenum`, over whatever is there.

  2. **The `accept`** (`accept_cases`, `accept_spec`) — while `connfd_alivenum` is below the maximum,
     a slot is free, since the entries are distinct and no more than the connections
     (`Consistent.exists_free`).  So a connection that is accepted is stored.
-/
import AdhocNode.TcpServer
import AdhocNode.Lib.SlotTable

namespace AdhocNode

open SlotTable

/-! ## The invariant -/

/-- The counter, the sets and the table agree with the open connections. -/
structure Consistent (st : TcpState) : Prop where
  count : st.crol.connfdAlivenum = st.isOpen.card
  le : st.isOpen.card ≤ uartTcpClientMax
  readSet : st.crol.readSet = st.isOpen
  writeSet : st.crol.writeSet = st.isOpen
  mem : ∀ i, st.crol.connfdAlive i ≠ 0 → st.crol.connfdAlive i ∈ st.isOpen
  distinct : ∀ i j, st.crol.connfdAlive i ≠ 0 → st.crol.connfdAlive i = st.crol.connfdAlive j → i = j
  maxFd : ∀ fd ∈ st.isOpen, (fd : Int) ≤ st.crol.maxFd
  pos : 0 ∉ st.isOpen
  bound : ∀ fd ∈ st.isOpen, fd < fdSetsize
  sockfd : st.crol.sockfd ∉ st.isOpen
  sockBound : st.crol.sockfd < fdSetsize

theorem consistent_start {sockfd : Nat} (h : sockfd < fdSetsize) : Consistent (.start sockfd) := by
  have hempty : ∀ fd, fd ∉ (TcpState.start sockfd).isOpen := Finset.notMem_empty
  exact ⟨rfl, Nat.zero_le _, rfl, rfl, fun _ hne => absurd rfl hne, fun _ _ hne => absurd rfl hne,
    fun fd hfd => absurd hfd (hempty fd), hempty 0, fun fd hfd => absurd hfd (hempty fd), hempty _, h⟩

/-- **A free slot**: distinct entries cannot fill the table while fewer connections are open. -/
theorem Consistent.exists_free {st : TcpState} (h : Consistent st)
    (hlt : st.isOpen.card < uartTcpClientMax) : ∃ i, st.crol.connfdAlive i = 0 :=
  SlotTable.exists_free h.mem h.distinct hlt

/-! ## Accepting -/

/-- The descriptor that the call's `accept` returns, if the call comes to it. -/
def Env.accepted (env : Env) (st : TcpState) : Option Nat :=
  if st.crol.connfdAlivenum < uartTcpClientMax then env.accept else none

theorem Env.accepted_eq_some {env : Env} {st : TcpState} {fd : Nat} (h : env.accepted st = some fd) :
    env.accept = some fd := by
  rw [Env.accepted] at h
  split at h
  · exact h
  · cases h

/-- The table after the `accept`. -/
def fdAfter (st : TcpState) (env : Env) (i : Fin uartTcpClientMax) : Nat :=
  match env.accepted st with
  | some fd => if (i : Int) = st.crol.connfdAlivenum then fd else st.crol.connfdAlive i
  | none => st.crol.connfdAlive i

/-- The number of slots in use after the `accept`. -/
def countAfter (st : TcpState) (env : Env) : Nat :=
  st.crol.connfdAlivenum.toNat + if (env.accepted st).isSome then 1 else 0

/-- The open connections after the `accept`. -/
def openAfter (st : TcpState) (env : Env) : Finset Nat :=
  match env.accepted st with
  | some fd => insert fd st.isOpen
  | none => st.isOpen

/-- The state after a connection is stored. -/
def TcpState.push (connfd : Nat) (i : Fin uartTcpClientMax) (st : TcpState) : TcpState where
  crol := { st.crol with
    connfdAlive := Function.update st.crol.connfdAlive i connfd
    connfdAlivenum := st.crol.connfdAlivenum + 1
    readSet := insert connfd st.crol.readSet
    writeSet := insert connfd st.crol.writeSet
    maxFd := if (connfd : Int) > st.crol.maxFd then connfd else st.crol.maxFd }
  isOpen := insert connfd st.isOpen
  calls := st.calls

section Accept

variable {st : TcpState} {env : Env}

theorem slotIndex_of_lt {i : Fin uartTcpClientMax} {k : Int} (h : k = i.val) :
    slotIndex k = some i := by
  subst h
  rw [slotIndex]
  rw [dif_pos ⟨by omega, by have := i.isLt; omega⟩]
  exact congrArg some (Fin.ext (Int.toNat_natCast _))

/-- `accept` with a connection: it is stored at `connfd_alivenum`, if the sets can hold it. -/
theorem accept_some (h : Consistent st) {i : Fin uartTcpClientMax}
    (hi : st.crol.connfdAlivenum = i.val) (connfd : Nat) :
    acceptTcpConnet (some connfd) st =
      if connfd < fdSetsize then some (st.push connfd i) else none := by
  have hcount := h.count
  have hlt := i.isLt
  have hfree := h.exists_free (by omega)
  rw [acceptTcpConnet]
  rw [if_neg (by omega)]
  simp only [if_pos hfree]
  rw [storeConnfd]
  by_cases hfd : connfd < fdSetsize
  · simp only [slotIndex_of_lt hi, fdSet, if_pos hfd]
    rfl
  · simp only [slotIndex_of_lt hi, fdSet, if_neg hfd]
    rfl

/-- What the `accept` at the start of a call does: nothing, or it stores a new connection. -/
theorem accept_cases (h : Consistent st) (hallowed : env.Allowed st) :
    (env.accepted st = none ∧ acceptTcpConnet env.accept st = some st) ∨
    ∃ fd i, env.accepted st = some fd ∧ st.crol.connfdAlivenum = (i : Fin uartTcpClientMax).val ∧
      (0 < fd ∧ fd ≠ st.crol.sockfd ∧ fd ∉ st.isOpen) ∧
      acceptTcpConnet env.accept st = if fd < fdSetsize then some (st.push fd i) else none := by
  have hcount := h.count
  rw [Env.accepted]
  by_cases hlt : st.crol.connfdAlivenum < uartTcpClientMax
  · rw [if_pos hlt]
    cases hacc : env.accept with
    | none =>
      refine Or.inl ⟨rfl, ?_⟩
      rw [acceptTcpConnet]
      rw [if_neg (by omega)]
    | some fd =>
      have hi : st.crol.connfdAlivenum =
          (⟨st.isOpen.card, by omega⟩ : Fin uartTcpClientMax).val := hcount
      exact Or.inr ⟨fd, _, rfl, hi, hallowed fd hacc, accept_some h hi fd⟩
  · rw [if_neg hlt]
    refine Or.inl ⟨rfl, ?_⟩
    unfold acceptTcpConnet
    rw [if_pos (by omega)]

section Push

variable (connfd : Nat) (i : Fin uartTcpClientMax)

theorem push_slot_self : (st.push connfd i).crol.connfdAlive i = connfd := Function.update_self ..

theorem push_slot_of_ne {j : Fin uartTcpClientMax} (h : j ≠ i) :
    (st.push connfd i).crol.connfdAlive j = st.crol.connfdAlive j := Function.update_of_ne h ..

variable {connfd i}

/-- The maximum covers the new connection and the old ones. -/
theorem le_maxFd_push (h : ∀ fd ∈ st.isOpen, (fd : Int) ≤ st.crol.maxFd) :
    ∀ fd ∈ (st.push connfd i).isOpen, (fd : Int) ≤ (st.push connfd i).crol.maxFd := by
  intro fd hfd
  show (fd : Int) ≤ if (connfd : Int) > st.crol.maxFd then (connfd : Int) else st.crol.maxFd
  rcases Finset.mem_insert.mp hfd with rfl | hfd
  · split <;> omega
  · have := h fd hfd
    split <;> omega

/-- The invariant survives a new connection, wherever it is stored. -/
theorem Consistent.push (h : Consistent st) (hi : st.crol.connfdAlivenum = i.val)
    (h0 : 0 < connfd) (hsock : connfd ≠ st.crol.sockfd) (hopen : connfd ∉ st.isOpen)
    (hfd : connfd < fdSetsize) : Consistent (st.push connfd i) := by
  have hcount := h.count
  have hlt := i.isLt
  have hcard : (insert connfd st.isOpen).card = st.isOpen.card + 1 :=
    Finset.card_insert_of_notMem hopen
  refine ⟨?_, ?_, ?_, ?_, fun j hj => ?_, fun j k hj hjk => ?_, le_maxFd_push h.maxFd, ?_,
    fun fd hmem => ?_, ?_, h.sockBound⟩
  · show st.crol.connfdAlivenum + 1 = ((insert connfd st.isOpen).card : Int)
    omega
  · show (insert connfd st.isOpen).card ≤ _
    omega
  · show insert connfd st.crol.readSet = insert connfd st.isOpen
    rw [h.readSet]
  · show insert connfd st.crol.writeSet = insert connfd st.isOpen
    rw [h.writeSet]
  · by_cases hji : j = i
    · rw [hji, push_slot_self]
      exact Finset.mem_insert_self ..
    · rw [push_slot_of_ne _ _ hji] at hj ⊢
      exact Finset.mem_insert_of_mem (h.mem j hj)
  -- the new descriptor was not open, so it was in no slot
  · by_cases hji : j = i <;> by_cases hki : k = i
    · rw [hji, hki]
    · rw [hji, push_slot_self, push_slot_of_ne _ _ hki] at hjk
      refine absurd (h.mem k ?_) (hjk ▸ hopen)
      omega
    · rw [push_slot_of_ne _ _ hji] at hj hjk
      rw [hki, push_slot_self] at hjk
      exact absurd (h.mem j hj) (hjk ▸ hopen)
    · rw [push_slot_of_ne _ _ hji] at hj hjk
      rw [push_slot_of_ne _ _ hki] at hjk
      exact h.distinct j k hj hjk
  · intro hmem
    rcases Finset.mem_insert.mp hmem with heq | hmem
    · omega
    · exact h.pos hmem
  · rcases Finset.mem_insert.mp hmem with rfl | hmem
    · exact hfd
    · exact h.bound fd hmem
  · show st.crol.sockfd ∉ insert connfd st.isOpen
    rw [Finset.mem_insert]
    rintro (heq | hmem)
    · exact hsock heq.symm
    · exact h.sockfd hmem

end Push

/-- The state after the `accept`. -/
structure Accepted (st : TcpState) (env : Env) (b : TcpState) : Prop where
  consistent : Consistent b
  slots : b.crol.connfdAlive = fdAfter st env
  count : b.crol.connfdAlivenum = countAfter st env
  isOpen : b.isOpen = openAfter st env
  calls : b.calls = st.calls

theorem fdAfter_push {fd : Nat} {i : Fin uartTcpClientMax} (hacc : env.accepted st = some fd)
    (hi : st.crol.connfdAlivenum = i.val) : (st.push fd i).crol.connfdAlive = fdAfter st env := by
  funext j
  show Function.update st.crol.connfdAlive i fd j = _
  rw [fdAfter]
  rw [hacc, Function.update_apply, hi]
  refine if_congr ?_ rfl rfl
  rw [Fin.ext_iff]
  exact Int.natCast_inj.symm

/-- **The accept step**: a descriptor too large for the sets is undefined; otherwise the new
    connection is stored and counted. -/
theorem accept_spec (h : Consistent st) (hallowed : env.Allowed st) :
    (∃ fd, env.accepted st = some fd ∧ ¬ fd < fdSetsize ∧ acceptTcpConnet env.accept st = none) ∨
    (∀ fd, env.accepted st = some fd → fd < fdSetsize) ∧
      ∃ b, acceptTcpConnet env.accept st = some b ∧ Accepted st env b := by
  have hcount := h.count
  rcases accept_cases h hallowed with ⟨hacc, hst⟩ | ⟨fd, i, hacc, hi, ⟨h0, hsock, hopen⟩, hst⟩
  · refine Or.inr ⟨fun fd hfd => ?_, st, hst, h, ?_, ?_, ?_, rfl⟩
    · rw [hacc] at hfd
      cases hfd
    · unfold fdAfter
      rw [hacc]
    · rw [countAfter]
      rw [hacc, if_neg (by simp)]
      omega
    · rw [openAfter]
      rw [hacc]
  · rw [hst]
    by_cases hfd : fd < fdSetsize
    · refine Or.inr ⟨fun fd' hfd' => ?_, _, if_pos hfd, h.push hi h0 hsock hopen hfd,
        fdAfter_push hacc hi, ?_, ?_, rfl⟩
      · rw [hacc] at hfd'
        cases hfd'
        exact hfd
      · show st.crol.connfdAlivenum + 1 = _
        rw [countAfter]
        rw [hacc, if_pos (show (some fd).isSome = true from rfl)]
        omega
      · show insert fd st.isOpen = _
        rw [openAfter]
        rw [hacc]
    · exact Or.inl ⟨fd, hacc, hfd, if_neg hfd⟩

end Accept

end AdhocNode
