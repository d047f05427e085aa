/-
  THE LIFE OF A CONNECTION — which connections the server counts, and when it lets one go.

  1. **The counter and the sets** (`reachable_consistent`) — whatever the system calls return, every
     state that a run reaches is `Consistent`, and a connection that is accepted finds a free slot
     and is stored.

  2. **Connections that end** — a connection is over when `read` returns 0 or fails for good, or when
     `write` does.  `Releases` says that a call lets such a connection go, and that the server is
     full of connections whose peers have not hung up.  The code closes what fails, but a `read` that
     returns 0 falls between its two branches.  So (`releasesAlways_iff`) over any run connections
     are released iff no `read` that a call comes to returns 0.
-/
import AdhocNode.TcpScan

namespace AdhocNode

open CMem SlotTable

/-! ## The counter and the sets -/

/-- `accept` returns a descriptor that the sets can hold. -/
def Env.Small (env : Env) : Prop := ∀ fd, env.accept = some fd → fd < fdSetsize

/-- A new connection found a free slot, and is in the table and the sets afterwards. -/
structure Recorded (connfd : Nat) (st b : TcpState) : Prop where
  found : ∃ i, st.crol.connfdAlive i = 0
  stored : ∃ i, b.crol.connfdAlive i = connfd
  readSet : connfd ∈ b.crol.readSet
  writeSet : connfd ∈ b.crol.writeSet

theorem Consistent.records {st : TcpState} {env : Env} (h : Consistent st) (hallowed : env.Allowed st)
    (hsmall : env.Small) {fd : Nat} (hacc : env.accepted st = some fd) :
    ∃ b, acceptTcpConnet env.accept st = some b ∧ Recorded fd st b := by
  have hcount := h.count
  rcases accept_cases h hallowed with ⟨hnone, -⟩ | ⟨fd', i, hsome, hi, -, hst⟩
  · rw [hnone] at hacc
    cases hacc
  · have heq : fd' = fd := Option.some.inj (hsome.symm.trans hacc)
    subst heq
    have hlt := i.isLt
    rw [hst, if_pos (hsmall fd' (Env.accepted_eq_some hacc))]
    exact ⟨_, rfl, h.exists_free (by omega), ⟨i, push_slot_self ..⟩, Finset.mem_insert_self ..,
      Finset.mem_insert_self ..⟩

/-- A run from a consistent state. -/
theorem Consistent.calls {st : TcpState} (h : Consistent st) {cs : List (TcpCall × Env)}
    (hreal : Realistic st cs) (hsmall : ∀ c ∈ cs, c.2.Small) :
    ∃ st', tcpCalls cs st = some st' ∧ Consistent st' := by
  induction cs generalizing st with
  | nil => exact ⟨st, rfl, h⟩
  | cons c cs ih =>
    obtain ⟨hallowed, hrest⟩ := hreal
    rcases tcpCall_cases c.1 h hallowed with ⟨fd, hacc, hfd, -⟩ | ⟨-, st₁, hst₁, hcalled⟩
    · exact absurd (hsmall c (List.mem_cons_self ..) fd (Env.accepted_eq_some hacc)) hfd
    · obtain ⟨st', hst', hcons⟩ := ih hcalled.consistent (hrest st₁ hst₁) fun c' hc' =>
        hsmall c' (List.mem_cons_of_mem _ hc')
      exact ⟨st', (tcpCalls_cons hst₁).trans hst', hcons⟩

/-- **Every reachable state is consistent**, and stores the next connection that it accepts. -/
theorem reachable_consistent {sockfd : Nat} (hsock : sockfd < fdSetsize)
    {cs : List (TcpCall × Env)} (hreal : Realistic (.start sockfd) cs)
    (hsmall : ∀ c ∈ cs, c.2.Small) :
    ∃ st, tcpCalls cs (.start sockfd) = some st ∧ Consistent st ∧
      ∀ env : Env, env.Allowed st → env.Small → ∀ fd, env.accepted st = some fd →
        ∃ b, acceptTcpConnet env.accept st = some b ∧ Recorded fd st b := by
  obtain ⟨st, hst, hcons⟩ := (consistent_start hsock).calls hreal hsmall
  exact ⟨st, hst, hcons, fun env hallowed hsmall fd hacc => hcons.records hallowed hsmall hacc⟩

/-- Two connections are accepted, the write to the first one fails, and a third is stored over the
    second. -/
theorem reachable_consistent_displaced :
    ∃ st, tcpCalls [acceptOf 5, acceptOf 6,
        (.send (.ofList [7]) 1, .ready (fun i => if i.val = 0 then .fatal else .done 1) fun _ => .retry),
        acceptOf 7] (.start 3) = some st ∧ Consistent st ∧
      ∀ env : Env, env.Allowed st → env.Small → ∀ fd, env.accepted st = some fd →
        ∃ b, acceptTcpConnet env.accept st = some b ∧ Recorded fd st b := by
  refine reachable_consistent (by decide) ?_ fun c hc => ?_
  · refine ⟨fun fd hfd => ?_, fun st₁ h₁ => ⟨fun fd hfd => ?_, fun st₂ h₂ => ⟨nofun, fun st₃ h₃ =>
      ⟨fun fd hfd => ?_, fun _ _ => trivial⟩⟩⟩⟩
    · cases hfd
      exact ⟨by decide, by decide, Finset.notMem_empty _⟩
    · cases hfd
      cases h₁
      exact ⟨by decide, by decide, by decide⟩
    · cases hfd
      cases h₁
      cases h₂
      cases h₃
      exact ⟨by decide, by decide, by decide⟩
  · intro fd hfd
    rcases List.mem_cons.mp hc with rfl | hc
    · cases hfd; decide
    · rcases List.mem_cons.mp hc with rfl | hc
      · cases hfd; decide
      · rcases List.mem_cons.mp hc with rfl | hc
        · cases hfd
        · rw [List.mem_singleton.mp hc] at hfd
          cases hfd; decide

/-! ## Connections that end -/

/-- The call tells that connection `fd` is over: the peer has shut it down, or it failed for good. -/
def SysCall.ends (fd : Nat) : SysCall → Bool
  | .write connfd _ r => decide (connfd = fd ∧ r = .fatal)
  | .read connfd r => decide (connfd = fd ∧ (r = .done 0 ∨ r = .fatal))
  | .close _ => false

/-- Nothing of a connection is left, and the counter does not count it. -/
structure Gone (fd : Nat) (st : TcpState) : Prop where
  isOpen : fd ∉ st.isOpen
  slots : ∀ i, st.crol.connfdAlive i ≠ fd
  readSet : fd ∉ st.crol.readSet
  writeSet : fd ∉ st.crol.writeSet
  count : st.crol.connfdAlivenum = st.isOpen.card

/-- Whether the peer of `fd` has shut the connection down, after one more call. -/
def SysCall.marks (fd : Nat) (hung : Bool) : SysCall → Bool
  | .write _ _ _ => hung
  | .read connfd r => hung || decide (connfd = fd ∧ r = .done 0)
  | .close connfd => hung && decide (connfd ≠ fd)

/-- The peer of `fd` has shut the connection down, and the server has not closed it since. -/
def hungUp (fd : Nat) (calls : List SysCall) : Bool :=
  calls.foldl (fun hung s => s.marks fd hung) false

/-- A call lets go of what is over; and when the server takes no more connections, it has as many as
    it can whose peers are still there.  The server hears of a peer that is gone by a `read` of 0 and in no
    other way: an open connection that is no longer in the table, and so is never read again, counts as
    one whose peer is there. -/
structure Releases (st st' : TcpState) : Prop where
  gone : ∃ log, st'.calls = st.calls ++ log ∧
    ∀ fd, (∃ s ∈ log, s.ends fd = true) → SysCall.close fd ∈ log ∧ Gone fd st'
  full : uartTcpClientMax ≤ st'.crol.connfdAlivenum →
    uartTcpClientMax ≤ (st'.isOpen.filter fun fd => hungUp fd st'.calls = false).card

/-- The call reads from connection `fd`, which it finds in slot `i`. -/
def TcpCall.reads : TcpCall → Env → Fin uartTcpClientMax → Nat → Bool
  | .accept, _, _, _ => false
  | .send _ _, _, _, _ => false
  | .recv, env, _, fd => env.readable fd
  | .rw _ sendLen, env, i, fd => env.readable fd && !writeDies sendLen env i fd

/-- The call meets descriptors that fit in an `fd_set`, and no `read` that it comes to returns 0. -/
def EofFree (c : TcpCall) (env : Env) (st : TcpState) : Prop :=
  (∀ fd, env.accepted st = some fd → fd < fdSetsize) ∧
    ∀ i : Fin uartTcpClientMax, i.val < countAfter st env →
      c.reads env i (fdAfter st env i) = true → env.read i ≠ .done 0

/-- No `read` has returned 0. -/
def NoEof (calls : List SysCall) : Prop := ∀ fd, SysCall.read fd (.done 0) ∉ calls

theorem hungUp_of_noEof {calls : List SysCall} (h : NoEof calls) (fd : Nat) :
    hungUp fd calls = false := by
  have hstep : ∀ s ∈ calls, s.marks fd false = false := by
    intro s hs
    cases s with
    | write => rfl
    | close => rfl
    | read connfd r =>
      refine decide_eq_false ?_
      rintro ⟨-, rfl⟩
      exact h connfd hs
  clear h
  rw [hungUp]
  induction calls with
  | nil => rfl
  | cons s calls ih =>
    rw [List.foldl_cons, hstep s (List.mem_cons_self ..)]
    exact ih fun s' hs' => hstep s' (List.mem_cons_of_mem _ hs')

section Logs

variable {env : Env} {i : Fin uartTcpClientMax} {fd fd₀ : Nat} {s : SysCall}

/-- A write that tells the end of a connection is followed by its `close`. -/
theorem ends_of_mem_writeLog {psendBuf : Mem} {sendLen : Int}
    (h : s ∈ writeLog psendBuf sendLen env i fd₀) (hends : s.ends fd = true) :
    fd₀ = fd ∧ (decide (fd₀ ≠ 0) && writeDies sendLen env i fd₀) = true ∧
      SysCall.close fd₀ ∈ writeLog psendBuf sendLen env i fd₀ := by
  obtain ⟨hready, rfl | ⟨-, rfl⟩⟩ := mem_ioLog.mp h
  · obtain ⟨hfd, hfatal⟩ := of_decide_eq_true hends
    refine ⟨hfd, ?_, mem_ioLog.mpr ⟨hready, Or.inr ⟨hfatal, rfl⟩⟩⟩
    rw [writeCloses_eq, hready, decide_eq_true hfatal]
    rfl
  · cases hends

/-- So is a read that fails for good. -/
theorem ends_of_mem_readLog (h : s ∈ readLog env i fd₀) (hends : s.ends fd = true)
    (heof : env.readable fd₀ = true → env.read i ≠ .done 0) :
    fd₀ = fd ∧ (decide (fd₀ ≠ 0) && readDies env i fd₀) = true ∧
      SysCall.close fd₀ ∈ readLog env i fd₀ := by
  obtain ⟨hready, rfl | ⟨-, rfl⟩⟩ := mem_ioLog.mp h
  · obtain ⟨hfd, hr⟩ := of_decide_eq_true hends
    have hfatal := hr.resolve_left (heof hready)
    refine ⟨hfd, ?_, mem_ioLog.mpr ⟨hready, Or.inr ⟨hfatal, rfl⟩⟩⟩
    rw [readCloses_eq, hready, decide_eq_true hfatal]
    rfl
  · cases hends

/-- A call makes the reads that it comes to. -/
theorem read_mem_log (c : TcpCall) {r : IoResult} :
    SysCall.read fd r ∈ c.log env i fd₀ ↔
      c.reads env i fd₀ = true ∧ fd = fd₀ ∧ r = env.read i := by
  have hread : SysCall.read fd r ∈ readLog env i fd₀ ↔
      env.readable fd₀ = true ∧ fd = fd₀ ∧ r = env.read i := by
    rw [show readLog env i fd₀ = ioLog .. from rfl, mem_ioLog]
    simp
  have hwrite : ∀ psendBuf sendLen, SysCall.read fd r ∉ writeLog psendBuf sendLen env i fd₀ := by
    intro psendBuf sendLen
    rw [show writeLog psendBuf sendLen env i fd₀ = ioLog .. from rfl, mem_ioLog]
    simp
  cases c with
  | accept => exact ⟨fun h => absurd h List.not_mem_nil, fun h => absurd h.1 nofun⟩
  | send psendBuf sendLen =>
    exact ⟨fun h => absurd h (hwrite psendBuf sendLen), fun h => absurd h.1 nofun⟩
  | recv => exact hread
  | rw psendBuf sendLen =>
    show SysCall.read fd r ∈ writeLog psendBuf sendLen env i fd₀ ++ (if _ then _ else _) ↔
      (env.readable fd₀ && !writeDies sendLen env i fd₀) = true ∧ _
    rw [List.mem_append, or_iff_right (hwrite psendBuf sendLen)]
    by_cases hready : env.readable fd₀ = true
    · rw [decide_eq_true (Env.ne_zero_of_readable hready), hready, Bool.true_and, Bool.true_and]
      cases writeDies sendLen env i fd₀ with
      | true => exact ⟨fun h => absurd h List.not_mem_nil, fun h => absurd h.1 (by simp)⟩
      | false =>
        rw [if_neg (by simp), hread, hready]
        exact and_congr_left fun _ => ⟨fun _ => rfl, fun _ => rfl⟩
    · refine ⟨fun h => ?_, fun h => absurd (Bool.and_eq_true_iff.mp h.1).1 hready⟩
      split at h
      · cases h
      · exact absurd (hread.mp h).1 hready

/-- **A connection that is over is closed**, unless it is over because a `read` returned 0. -/
theorem ends_of_mem_log (c : TcpCall) (h : s ∈ c.log env i fd₀) (hends : s.ends fd = true)
    (heof : c.reads env i fd₀ = true → env.read i ≠ .done 0) :
    fd₀ = fd ∧ c.closes env i fd₀ = true ∧ SysCall.close fd₀ ∈ c.log env i fd₀ := by
  cases c with
  | accept => cases h
  | send psendBuf sendLen => exact ends_of_mem_writeLog h hends
  | recv => exact ends_of_mem_readLog h hends heof
  | rw psendBuf sendLen =>
    rw [TcpCall.log, TcpCall.closes, TcpCall.dies] at *
    rw [Bool.and_or_distrib_left]
    rcases List.mem_append.mp h with h | h
    · obtain ⟨hfd, hdies, hclose⟩ := ends_of_mem_writeLog h hends
      exact ⟨hfd, by rw [hdies, Bool.true_or], List.mem_append_left _ hclose⟩
    · split at h
      · cases h
      · rename_i hno
        obtain ⟨hfd, hdies, hclose⟩ := ends_of_mem_readLog h hends fun hready => heof (by
          rw [decide_eq_true (Env.ne_zero_of_readable hready), Bool.true_and,
            Bool.not_eq_true] at hno
          show (env.readable fd₀ && !writeDies sendLen env i fd₀) = true
          rw [hready, hno]
          rfl)
        refine ⟨hfd, by rw [hdies, Bool.or_true], List.mem_append_right _ ?_⟩
        rw [if_neg hno]
        exact hclose

/-- A `read` that returns 0 closes nothing. -/
theorem closes_of_eof {c : TcpCall} (hreads : c.reads env i fd = true) (heof : env.read i = .done 0) :
    fd ≠ 0 ∧ c.closes env i fd = false := by
  have hdies : readDies env i fd = false := by
    rw [readDies]
    split
    · rfl
    · rw [heof]
      exact Bool.and_false _
  cases c with
  | accept => cases hreads
  | send => cases hreads
  | recv =>
    refine ⟨Env.ne_zero_of_readable hreads, ?_⟩
    show (decide (fd ≠ 0) && readDies env i fd) = false
    rw [hdies, Bool.and_false]
  | rw psendBuf sendLen =>
    obtain ⟨hready, hno⟩ := Bool.and_eq_true_iff.mp hreads
    refine ⟨Env.ne_zero_of_readable hready, ?_⟩
    show (decide (fd ≠ 0) && (writeDies sendLen env i fd || readDies env i fd)) = false
    rw [hdies, (Bool.not_eq_true' _).mp hno, Bool.or_false, Bool.and_false]

end Logs

section Call

variable {c : TcpCall} {env : Env} {st st' : TcpState}

/-- What a call closes is gone. -/
theorem Called.gone (h : Called c env st st') {i : Fin uartTcpClientMax}
    (hi : i.val < countAfter st env) (hcloses : c.closes env i (fdAfter st env i) = true) :
    Gone (fdAfter st env i) st' := by
  have hopen : fdAfter st env i ∉ st'.isOpen := fun hmem =>
    ((h.isOpen _).mp hmem).2 i hi hcloses rfl
  have hne := of_decide_eq_true (Bool.and_eq_true_iff.mp hcloses).1
  refine ⟨hopen, fun j hj => ?_, ?_, ?_, h.consistent.count⟩
  · exact hopen (hj ▸ h.consistent.mem j (hj ▸ hne))
  · rw [h.consistent.readSet]
    exact hopen
  · rw [h.consistent.writeSet]
    exact hopen

/-- A connection whose `read` returns 0 stays open. -/
theorem Called.open_of_eof (h : Called c env st st') {i : Fin uartTcpClientMax}
    (hreads : c.reads env i (fdAfter st env i) = true) (heof : env.read i = .done 0) :
    fdAfter st env i ∈ st'.isOpen := by
  obtain ⟨hne, hcloses⟩ := closes_of_eof hreads heof
  refine (h.isOpen _).mpr ⟨h.mem hne, fun j _ hclosesj heq => ?_⟩
  have hij := h.distinct hne heq.symm
  subst hij
  rw [hcloses] at hclosesj
  cases hclosesj

theorem Called.noEof (h : Called c env st st') (hno : NoEof st.calls)
    (heof : ∀ i : Fin uartTcpClientMax, i.val < countAfter st env →
      c.reads env i (fdAfter st env i) = true → env.read i ≠ .done 0) : NoEof st'.calls := by
  intro fd hmem
  rw [h.calls] at hmem
  rcases List.mem_append.mp hmem with hmem | hmem
  · exact hno fd hmem
  · obtain ⟨i, hi, hmem⟩ := mem_scanLog.mp hmem
    obtain ⟨hreads, -, hr⟩ := (read_mem_log c).mp hmem
    exact heof i hi hreads hr.symm

/-- **One call** releases what is over iff no `read` that it comes to returns 0. -/
theorem Called.releases_iff (h : Called c env st st') (hno : NoEof st.calls) :
    Releases st st' ↔ ∀ i : Fin uartTcpClientMax, i.val < countAfter st env →
      c.reads env i (fdAfter st env i) = true → env.read i ≠ .done 0 := by
  constructor
  · rintro ⟨⟨log, hlog, hgone⟩, -⟩ i hi hreads heof
    have hlog' : log = scanLog c env (fdAfter st env) (countAfter st env) :=
      List.append_cancel_left (hlog.symm.trans h.calls)
    have hmem : SysCall.read (fdAfter st env i) (.done 0) ∈ log := by
      rw [hlog', mem_scanLog]
      exact ⟨i, hi, (read_mem_log c).mpr ⟨hreads, rfl, heof.symm⟩⟩
    obtain ⟨-, hfd⟩ := hgone (fdAfter st env i) ⟨_, hmem, decide_eq_true ⟨rfl, Or.inl rfl⟩⟩
    exact hfd.isOpen (h.open_of_eof hreads heof)
  · intro heof
    have hno' := h.noEof hno heof
    refine ⟨⟨_, h.calls, fun fd hfd => ?_⟩, fun hfull => ?_⟩
    · obtain ⟨s, hs, hends⟩ := hfd
      obtain ⟨i, hi, hs⟩ := mem_scanLog.mp hs
      obtain ⟨rfl, hcloses, hclose⟩ := ends_of_mem_log c hs hends (heof i hi)
      exact ⟨mem_scanLog.mpr ⟨i, hi, hclose⟩, h.gone hi hcloses⟩
    · have hcount := h.consistent.count
      rw [Finset.filter_true_of_mem fun fd _ => hungUp_of_noEof hno' fd]
      omega

end Call

/-- Every call of the run is defined, and lets go of what is over. -/
def ReleasesAlways : TcpState → List (TcpCall × Env) → Prop := EveryCall fun _ _ => Releases

theorem releasesAlways_iff_of_consistent {st : TcpState} (h : Consistent st) (hno : NoEof st.calls)
    {cs : List (TcpCall × Env)} (hreal : Realistic st cs) :
    ReleasesAlways st cs ↔ EveryStep EofFree st cs := by
  refine everyCall_iff (I := fun st => Consistent st ∧ NoEof st.calls) ?_ ⟨h, hno⟩ hreal
  rintro c env st ⟨h, hno⟩ hallowed
  refine ⟨tcpCall_iff_of_called h hallowed fun st' hcalled => hcalled.releases_iff hno, ?_⟩
  intro st' hst' hreleases
  have hcalled := called_of_eq h hallowed hst'
  exact ⟨hcalled.consistent, hcalled.noEof hno ((hcalled.releases_iff hno).mp hreleases)⟩

/-- **Dead connections over a run**: every call lets go of what is over iff no `read` that a call
    comes to returns 0, and all descriptors fit in an `fd_set`. -/
theorem releasesAlways_iff {sockfd : Nat} (hsock : sockfd < fdSetsize)
    {cs : List (TcpCall × Env)} (hreal : Realistic (.start sockfd) cs) :
    ReleasesAlways (.start sockfd) cs ↔ EveryStep EofFree (.start sockfd) cs :=
  releasesAlways_iff_of_consistent (consistent_start hsock) (fun _ => List.not_mem_nil) hreal

/-- One connection is accepted, and the next read from it ends so. -/
theorem realistic_accept_recv (r : IoResult) : Realistic (.start 3)
    [acceptOf 5, (.recv, .ready (fun _ => .retry) fun _ => r)] := by
  refine ⟨fun fd hfd => ?_, fun st _ => ⟨nofun, fun _ _ => trivial⟩⟩
  cases hfd
  exact ⟨by decide, by decide, Finset.notMem_empty _⟩

/-- A connection that fails is released. -/
theorem releasesAlways_iff_fatal : ReleasesAlways (.start 3)
    [acceptOf 5, (.recv, .ready (fun _ => .retry) fun _ => .fatal)] := by
  refine (releasesAlways_iff (by decide) (realistic_accept_recv .fatal)).mpr
    ⟨⟨fun fd hfd => ?_, fun i _ => nofun⟩, fun st _ => ⟨⟨fun fd hfd => ?_, fun i _ _ => ?_⟩,
      fun _ _ => trivial⟩⟩
  · cases hfd
    decide
  · cases Env.accepted_eq_some hfd
  · show IoResult.fatal ≠ .done 0
    decide

/-- The peer shuts the connection down: it stays open, in the table and in the sets. -/
theorem not_releasesAlways_eof :
    Realistic (.start 3) [acceptOf 5, (.recv, .ready (fun _ => .retry) fun _ => .done 0)] ∧
    ¬ ReleasesAlways (.start 3)
      [acceptOf 5, (.recv, .ready (fun _ => .retry) fun _ => .done 0)] := by
  refine ⟨realistic_accept_recv (.done 0), ?_⟩
  rintro ⟨st₁, h₁, -, st₂, h₂, ⟨⟨log, hlog, hgone⟩, -⟩, -⟩
  cases h₁
  cases h₂
  have hread : SysCall.read 5 (.done 0) ∈ log := by
    rw [show log = [SysCall.read 5 (.done 0)] from hlog.symm]
    exact List.mem_singleton_self _
  obtain ⟨-, hfd⟩ := hgone 5 ⟨_, hread, rfl⟩
  exact hfd.isOpen (by decide)

end AdhocNode
