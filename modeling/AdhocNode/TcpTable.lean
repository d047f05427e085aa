/-
  THE CONNECTION TABLE — what `connfd_alive` says about the open connections.

  `TableOk` is the purpose of the table: slots `0 .. connfd_alivenum - 1` hold the open connections,
  each once, and nothing else.  The code keeps it as long as the slots from `connfd_alivenum` on are
  free as well (`Dense`): a new connection is stored at `connfd_alivenum`, whichever free slot the
  search has found.

  A scan over the table vacates the slots of the connections that fail for good and lowers
  `connfd_alivenum` by their number, without moving anything (`Scanned`).  By `Lib.SlotTable` the
  table is dense again iff the vacated slots were the last ones in use, and only then is it right.
  So (`tableAlways_iff`) over any run from a zeroed structure the table is right after every call iff
  in every call the connections that fail are the last ones of the table (and no descriptor is too
  large for an `fd_set`).
-/
import AdhocNode.TcpScan

namespace AdhocNode

open CMem SlotTable

/-! ## The table and its invariant -/

/-- The slots below `connfd_alivenum` are the open connections, and these are the members of
    `read_set`. -/
structure TableOk (st : TcpState) : Prop where
  nonneg : 0 ≤ st.crol.connfdAlivenum
  le : st.crol.connfdAlivenum ≤ uartTcpClientMax
  nonzero : ∀ i : Fin uartTcpClientMax, (i : Int) < st.crol.connfdAlivenum →
    st.crol.connfdAlive i ≠ 0
  distinct : ∀ i j : Fin uartTcpClientMax, (i : Int) < st.crol.connfdAlivenum →
    (j : Int) < st.crol.connfdAlivenum → st.crol.connfdAlive i = st.crol.connfdAlive j → i = j
  exact : ∀ fd, fd ∈ st.isOpen ↔
    ∃ i : Fin uartTcpClientMax, (i : Int) < st.crol.connfdAlivenum ∧ st.crol.connfdAlive i = fd
  readSet : st.crol.readSet = st.isOpen

/-- The first `n` slots hold the open connections, the others are free, and the sets agree. -/
structure Dense (st : TcpState) (n : Nat) : Prop where
  le : n ≤ uartTcpClientMax
  count : st.crol.connfdAlivenum = n
  used : ∀ i : Fin uartTcpClientMax, i.val < n → st.crol.connfdAlive i ≠ 0
  free : ∀ i : Fin uartTcpClientMax, n ≤ i.val → st.crol.connfdAlive i = 0
  distinct : ∀ i j : Fin uartTcpClientMax, i.val < n → j.val < n →
    st.crol.connfdAlive i = st.crol.connfdAlive j → i = j
  exact : ∀ fd, fd ∈ st.isOpen ↔ ∃ i : Fin uartTcpClientMax, i.val < n ∧ st.crol.connfdAlive i = fd
  readSet : st.crol.readSet = st.isOpen
  writeSet : st.crol.writeSet = st.isOpen
  maxFd : ∀ fd ∈ st.isOpen, (fd : Int) ≤ st.crol.maxFd
  bound : ∀ fd ∈ st.isOpen, fd < fdSetsize
  sockfd : st.crol.sockfd ∉ st.isOpen
  sockBound : st.crol.sockfd < fdSetsize

theorem Dense.tableOk {st : TcpState} {n : Nat} (h : Dense st n) : TableOk st := by
  have hcount := h.count
  have hlt : ∀ i : Fin uartTcpClientMax, (i : Int) < st.crol.connfdAlivenum ↔ i.val < n := by
    intro i; omega
  have hle := h.le
  refine ⟨by omega, by omega, fun i hi => h.used i ((hlt i).mp hi),
    fun i j hi hj => h.distinct i j ((hlt i).mp hi) ((hlt j).mp hj), fun fd => ?_, h.readSet⟩
  rw [h.exact fd]
  exact exists_congr fun i => and_congr_left fun _ => (hlt i).symm

theorem dense_start {sockfd : Nat} (h : sockfd < fdSetsize) : Dense (.start sockfd) 0 := by
  refine ⟨Nat.zero_le _, rfl, fun _ hi => absurd hi (Nat.not_lt_zero _), fun _ _ => rfl,
    fun _ _ hi => absurd hi (Nat.not_lt_zero _), fun fd => ?_, rfl, rfl, ?_, ?_, ?_, h⟩
  · exact ⟨fun hfd => absurd hfd (Finset.notMem_empty _),
      fun ⟨_, hi, _⟩ => absurd hi (Nat.not_lt_zero _)⟩
  · intro fd hfd; exact absurd hfd (Finset.notMem_empty _)
  · intro fd hfd; exact absurd hfd (Finset.notMem_empty _)
  · exact Finset.notMem_empty _

theorem Dense.select {st : TcpState} {n : Nat} (h : Dense st n) (r w : FdSet) :
    Dense (st.select r w) n :=
  ⟨h.le, h.count, h.used, h.free, h.distinct, h.exact, h.readSet, h.writeSet, h.maxFd, h.bound,
    h.sockfd, h.sockBound⟩

/-- In a consistent state the rest is which slots are in use, and by what. -/
theorem Consistent.dense {st : TcpState} {n : Nat} (h : Consistent st)
    (hcount : st.crol.connfdAlivenum = n)
    (hused : ∀ i : Fin uartTcpClientMax, i.val < n → st.crol.connfdAlive i ≠ 0)
    (hfree : ∀ i : Fin uartTcpClientMax, n ≤ i.val → st.crol.connfdAlive i = 0)
    (hexact : ∀ fd ∈ st.isOpen, ∃ i : Fin uartTcpClientMax,
      i.val < n ∧ st.crol.connfdAlive i = fd) : Dense st n := by
  have hcard := h.count
  have hle := h.le
  refine ⟨by omega, hcount, hused, hfree, fun i j hi _ => h.distinct i j (hused i hi),
    fun fd => ⟨hexact fd, ?_⟩, h.readSet, h.writeSet, h.maxFd, h.bound, h.sockfd, h.sockBound⟩
  rintro ⟨i, hi, rfl⟩
  exact h.mem i (hused i hi)

/-! ## Accepting -/

section Accept

variable {st b : TcpState} {n : Nat} {env : Env}

/-- A new connection goes behind the others. -/
theorem Dense.push (h : Dense st n) {i : Fin uartTcpClientMax} (hi : i.val = n) {connfd : Nat}
    (h0 : 0 < connfd) (hcons : Consistent (st.push connfd i)) :
    Dense (st.push connfd i) (n + 1) := by
  have hold : ∀ j : Fin uartTcpClientMax, j.val ≠ n →
      (st.push connfd i).crol.connfdAlive j = st.crol.connfdAlive j := fun j hj =>
    push_slot_of_ne _ _ fun hji => hj (by rw [hji, hi])
  refine hcons.dense ?_ (fun j hj => ?_) (fun j hj => ?_) fun fd hfd => ?_
  · show st.crol.connfdAlivenum + 1 = _
    rw [h.count]; rfl
  · by_cases hjn : j.val = n
    · rw [Fin.ext (hjn.trans hi.symm), push_slot_self]
      omega
    · rw [hold j hjn]; exact h.used j (by omega)
  · rw [hold j (by omega)]; exact h.free j (by omega)
  · rcases Finset.mem_insert.mp hfd with rfl | hfd
    · exact ⟨i, by omega, push_slot_self ..⟩
    · obtain ⟨j, hj, hslot⟩ := (h.exact fd).mp hfd
      exact ⟨j, by omega, by rw [hold j (by omega)]; exact hslot⟩

/-- The table is dense after the `accept`, with one more slot in use if there was a connection. -/
theorem Dense.accept (h : Dense st n) (hcons : Consistent st) (hallowed : env.Allowed st)
    (hb : acceptTcpConnet env.accept st = some b) (hacc : Accepted st env b) :
    Dense b (countAfter st env) := by
  have hcount := h.count
  rw [countAfter]
  rcases accept_cases hcons hallowed with ⟨hnone, hst⟩ | ⟨fd, i, hsome, hi, ⟨h0, -, -⟩, hst⟩
  · rw [hst] at hb
    cases hb
    rw [hnone, if_neg (by simp), Nat.add_zero, show st.crol.connfdAlivenum.toNat = n by omega]
    exact h
  · rw [hst] at hb
    have hfd : fd < fdSetsize := by
      by_contra hno
      rw [if_neg hno] at hb
      cases hb
    rw [if_pos hfd] at hb
    cases hb
    rw [hsome, if_pos (show (some fd).isSome = true from rfl),
      show st.crol.connfdAlivenum.toNat = n by omega]
    exact h.push (by omega) h0 hacc.consistent

end Accept

/-! ## A scan -/

section Scan

variable {b st : TcpState} {d : Nat → Bool} {n : Nat}

/-- After a scan that vacated the last slots in use, the table is dense. -/
theorem Scanned.dense (h : Dense b n) (hscan : Scanned b d n n st) (hcons : Consistent st)
    (hupper : Upper d n) : Dense st (n - holes d n) := by
  have hle := holes_le d n
  have hslot : ∀ i : Fin uartTcpClientMax, i.val < n - holes d n →
      st.crol.connfdAlive i = b.crol.connfdAlive i := by
    intro i hi
    rw [hscan.slots, if_neg]
    rintro ⟨-, hdi⟩
    rw [filled_iff_upper.mpr hupper i.val hi] at hdi
    cases hdi
  refine hcons.dense ?_ (fun i hi => ?_) (fun i hi => ?_) fun fd hfd => ?_
  · rw [hscan.count]; omega
  · rw [hslot i hi]; exact h.used i (by omega)
  · rw [hscan.slots]
    by_cases hin : i.val < n
    · rw [if_pos ⟨hin, (hupper.vacated_iff hin).mpr hi⟩]
    · rw [if_neg fun hlt => hin hlt.1]
      exact h.free i (by omega)
  · obtain ⟨hfd, hrest⟩ := (hscan.isOpen fd).mp hfd
    obtain ⟨i, hi, hslot'⟩ := (h.exact fd).mp hfd
    have hlt : i.val < n - holes d n := by
      refine Nat.lt_of_not_le fun hge => ?_
      exact hrest i hi ((hupper.vacated_iff hi).mpr hge) hslot'
    exact ⟨i, hlt, by rw [hslot i hlt]; exact hslot'⟩

/-- **A scan leaves the table right iff the connections that failed were its last ones.** -/
theorem Scanned.tableOk_iff (h : Dense b n) (hscan : Scanned b d n n st)
    (hcons : Consistent st) : TableOk st ↔ Upper d n := by
  refine ⟨fun hok => ?_, fun hupper => (hscan.dense h hcons hupper).tableOk⟩
  refine filled_iff_upper.mp fun i hi => ?_
  have hle := h.le
  have hcount := hscan.count
  have hslot := hscan.slots ⟨i, by omega⟩
  have hne := hok.nonzero ⟨i, by omega⟩ (by rw [hcount]; show (i : Int) < _; omega)
  -- a vacated slot below the new count would be a free one among those in use
  rw [← Bool.not_eq_true]
  intro hdi
  rw [if_pos ⟨by show i < n; omega, hdi⟩] at hslot
  exact hne hslot

end Scan

/-! ## A call -/

/-- The slots whose connections the call closes, when it finds them in the table `slots`. -/
def failingIn (c : TcpCall) (env : Env) (slots : Fin uartTcpClientMax → Nat) : Nat → Bool :=
  onSlots fun i => c.dies env i (slots i)

/-- The call meets descriptors that fit in an `fd_set`, and the connections that fail are the last
    ones of the table that it finds after its `accept`. -/
def CallOk (c : TcpCall) (env : Env) (st : TcpState) : Prop :=
  (∀ fd, env.accepted st = some fd → fd < fdSetsize) ∧
    Upper (failingIn c env (fdAfter st env)) (countAfter st env)

section Call

variable {st b : TcpState} {n : Nat} {env : Env}

/-- No slot in use is free, so the call closes what fails. -/
theorem failingIn_eq_closes (h : Dense b n) (c : TcpCall) (i : Fin uartTcpClientMax)
    (hi : i.val < n) :
    failingIn c env b.crol.connfdAlive i.val = c.closes env i (b.crol.connfdAlive i) := by
  rw [failingIn, TcpCall.closes]
  rw [onSlots_val, decide_eq_true (h.used i hi), Bool.true_and]

/-- **One call**: from a dense table it is defined and leaves the table right iff it is `CallOk`, and
    then the table is dense again. -/
theorem tcpCall_iff (c : TcpCall) (h : Dense st n) (hcons : Consistent st)
    (hallowed : env.Allowed st) :
    ((∃ st', tcpCall c env st = some st' ∧ TableOk st') ↔ CallOk c env st) ∧
      ∀ st', tcpCall c env st = some st' → TableOk st' → Consistent st' ∧ ∃ n', Dense st' n' := by
  rcases accept_spec hcons hallowed with ⟨fd, hacc, hfd, hnone⟩ | ⟨hfds, b, hsome, hb⟩
  · have hcall := tcpCall_of_accept_none c hnone
    rw [hcall]
    refine ⟨⟨?_, fun hok => absurd (hok.1 fd hacc) hfd⟩, nofun⟩
    rintro ⟨_, hst, -⟩
    cases hst
  · have hdense := h.accept hcons hallowed hsome hb
    obtain ⟨rs, ws, st', hcall, hscan, hcons', -⟩ := tcpCall_spec c hb.consistent hsome hb.count
      (failingIn_eq_closes hdense c)
    rw [hb.slots] at hscan
    have hiff := hscan.tableOk_iff (hdense.select rs ws) hcons'
    rw [hcall]
    constructor
    · constructor
      · rintro ⟨st, hst, hok⟩
        cases hst
        exact ⟨hfds, hiff.mp hok⟩
      · intro hok
        exact ⟨st', rfl, hiff.mpr hok.2⟩
    · intro st hst hok
      cases hst
      exact ⟨hcons', _, hscan.dense (hdense.select rs ws) hcons' (hiff.mp hok)⟩

end Call

/-! ## Runs -/

/-- Every call of the run is defined, and the table is right after it. -/
def TableAlways : TcpState → List (TcpCall × Env) → Prop
  | _, [] => True
  | st, c :: cs => ∃ st', tcpCall c.1 c.2 st = some st' ∧ TableOk st' ∧ TableAlways st' cs

/-- Every call of the run is `CallOk`. -/
def CallsOk : TcpState → List (TcpCall × Env) → Prop
  | _, [] => True
  | st, c :: cs => CallOk c.1 c.2 st ∧ ∀ st', tcpCall c.1 c.2 st = some st' → CallsOk st' cs

theorem tableAlways_iff_of_dense {st : TcpState} {n : Nat} (h : Dense st n) (hcons : Consistent st)
    {cs : List (TcpCall × Env)} (hreal : Realistic st cs) : TableAlways st cs ↔ CallsOk st cs := by
  induction cs generalizing st n with
  | nil => exact Iff.rfl
  | cons c cs ih =>
    obtain ⟨hallowed, hrest⟩ := hreal
    obtain ⟨hiff, hdense⟩ := tcpCall_iff c.1 h hcons hallowed
    constructor
    · rintro ⟨st', hst', hok, halways⟩
      obtain ⟨hcons', n', h'⟩ := hdense st' hst' hok
      refine ⟨hiff.mp ⟨st', hst', hok⟩, fun s hs => ?_⟩
      rw [hst'] at hs
      cases hs
      exact (ih h' hcons' (hrest st' hst')).mp halways
    · rintro ⟨hcall, hcalls⟩
      obtain ⟨st', hst', hok⟩ := hiff.mpr hcall
      obtain ⟨hcons', n', h'⟩ := hdense st' hst' hok
      exact ⟨st', hst', hok, (ih h' hcons' (hrest st' hst')).mpr (hcalls st' hst')⟩

/-- **The table over a run** from a zeroed structure: it is right after every call iff in every call
    the connections that fail are the last ones of the table, and all descriptors fit in an
    `fd_set`. -/
theorem tableAlways_iff {sockfd : Nat} (hsock : sockfd < fdSetsize) {cs : List (TcpCall × Env)}
    (hreal : Realistic (.start sockfd) cs) :
    TableAlways (.start sockfd) cs ↔ CallsOk (.start sockfd) cs :=
  tableAlways_iff_of_dense (dense_start hsock) (consistent_start hsock) hreal

/-- One connection is accepted and then fails. -/
theorem tableAlways_iff_one :
    TableAlways (.start 3)
      [(.accept, ⟨some 5, none, none, fun _ => .retry, fun _ => .retry⟩),
        (.recv, ⟨none, none, some (fun _ => true, fun _ => true), fun _ => .retry,
          fun _ => .fatal⟩)] := by
  have hupper : ∀ d, Upper d 1 := fun _ i j hij hj => absurd hij (by omega)
  have hreal : Realistic (.start 3)
      [(.accept, ⟨some 5, none, none, fun _ => .retry, fun _ => .retry⟩),
        (.recv, ⟨none, none, some (fun _ => true, fun _ => true), fun _ => .retry,
          fun _ => .fatal⟩)] := by
    refine ⟨fun fd hfd => ?_, fun st _ => ⟨nofun, fun _ _ => trivial⟩⟩
    cases hfd
    exact ⟨by decide, by decide, Finset.notMem_empty _⟩
  refine (tableAlways_iff (by decide) hreal).mpr ⟨⟨fun fd hfd => ?_, hupper _⟩, fun st hst => ?_⟩
  · cases hfd
    decide
  · cases hst
    exact ⟨⟨nofun, hupper _⟩, fun _ _ => trivial⟩

/-- Two connections are accepted; the write to the first one fails.  The table then counts one
    connection, and its slot 0 is free. -/
theorem not_tableAlways_first :
    Realistic (.start 3)
      [(.accept, ⟨some 5, none, none, fun _ => .retry, fun _ => .retry⟩),
        (.accept, ⟨some 6, none, none, fun _ => .retry, fun _ => .retry⟩),
        (.send (.ofList [7]) 1, ⟨none, none, some (fun _ => true, fun _ => true),
          fun i => if i.val = 0 then .fatal else .done 1, fun _ => .retry⟩)] ∧
    ¬ TableAlways (.start 3)
      [(.accept, ⟨some 5, none, none, fun _ => .retry, fun _ => .retry⟩),
        (.accept, ⟨some 6, none, none, fun _ => .retry, fun _ => .retry⟩),
        (.send (.ofList [7]) 1, ⟨none, none, some (fun _ => true, fun _ => true),
          fun i => if i.val = 0 then .fatal else .done 1, fun _ => .retry⟩)] := by
  have hreal : Realistic (.start 3)
      [(.accept, ⟨some 5, none, none, fun _ => .retry, fun _ => .retry⟩),
        (.accept, ⟨some 6, none, none, fun _ => .retry, fun _ => .retry⟩),
        (.send (.ofList [7]) 1, ⟨none, none, some (fun _ => true, fun _ => true),
          fun i => if i.val = 0 then .fatal else .done 1, fun _ => .retry⟩)] := by
    refine ⟨fun fd hfd => ?_, fun st₁ h₁ => ⟨fun fd hfd => ?_, fun st₂ _ =>
      ⟨nofun, fun _ _ => trivial⟩⟩⟩
    · cases hfd
      exact ⟨by decide, by decide, Finset.notMem_empty _⟩
    · cases hfd
      cases h₁
      exact ⟨by decide, by decide, by decide⟩
  refine ⟨hreal, fun halways => ?_⟩
  obtain ⟨-, hcalls⟩ := (tableAlways_iff_of_dense (dense_start (by decide))
    (consistent_start (by decide)) hreal).mp halways
  obtain ⟨-, hcalls⟩ := hcalls _ rfl
  obtain ⟨⟨-, hupper⟩, -⟩ := hcalls _ rfl
  exact absurd (hupper 0 1 (by decide) (by decide) rfl) (by decide)

end AdhocNode
