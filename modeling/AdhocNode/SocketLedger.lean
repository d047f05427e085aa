/-
  WHO HAS WHICH SOCKET — any calls of the functions of `Sockets`, of `dist_init`, and of `close` by those
  who called them.

  1. **The ledger** — `Owns`: what is open is what was open before and what has been opened and not
     closed since, each socket prepared as its call is meant to, and no two that are exclusive at
     overlapping addresses.  Every call keeps it (`socket_ledger`): none loses a socket on its way out.

  2. **`g_multi_fd`** — `dist_init` is the exception: its descriptor is nobody's but `g_multi_fd`'s, and
     the next call overwrites it.  That call cannot succeed, as the first socket is still at the address;
     so the node has no multicast socket from then on, and cannot get one (`dist_init_once`).
-/
import AdhocNode.Lib.Runs
import AdhocNode.Sockets

namespace AdhocNode

open Descriptors Runs

/-! ## The process -/

/-- The sockets, `g_multi_fd`, and who has been given a descriptor by which call. -/
structure NetState where
  sockets : Sockets
  gMultiFd : Int
  held : List (Nat × NetCall)

/-- A call of one of the functions, of `dist_init`, or of `close`. -/
inductive NetOp where
  | call (call : NetCall) (env : SockEnv)
  | distInit (env : SockEnv)
  | close (fd : Nat)

/-- The kernel hands out descriptors that are not in use. -/
def SockEnv.fresh (env : SockEnv) (t : Sockets) : Bool := env.socket.all fun fd => fd ∉ t.fds

/-- One of them. -/
def netStep : NetOp → NetState → Option NetState
  | .call call env, s =>
    if env.fresh s.sockets then
      let (sockets, ret) := call.exec env s.sockets
      let held := if ret = invalid then s.held else (ret.toNat, call) :: s.held
      some { s with sockets := sockets, held := held }
    else none
  | .distInit env, s =>
    if env.fresh s.sockets then
      let (sockets, ret) := initUdpmulti env multiPort multiAddr s.sockets
      some { s with sockets := sockets, gMultiFd := ret }
    else none
  | .close fd, s =>
    if fd ∈ s.held.map Prod.fst then
      some { s with sockets := s.sockets.close fd, held := s.held.filter fun x => x.1 ≠ fd }
    else none

/-- Before the first call, with what else the process has open. -/
def netStart (t : Sockets) : NetState := ⟨t, invalid, []⟩

/-! ## The ledger -/

/-- Besides `t`, these sockets are open, each prepared by its call. -/
structure Owns (t : Sockets) (owned : List (Nat × NetCall)) (sockets : Sockets) : Prop where
  mem_iff : ∀ fd, fd ∈ sockets.fds ↔ fd ∈ t.fds ∨ fd ∈ owned.map Prod.fst
  nodup : (owned.map Prod.fst).Nodup
  before : ∀ fd ∈ t.fds, sockets.val fd = t.val fd
  prepared : ∀ x ∈ owned, x.1 ∉ t.fds ∧ x.2.Prepared (sockets.val x.1)
  apart : ∀ x ∈ owned, ∀ y ∈ owned, x.1 ≠ y.1 → (sockets.val x.1).exclusive = true →
    (sockets.val y.1).exclusive = true → (sockets.val x.1).overlaps (sockets.val y.1) = false

/-- The sockets of the callers, and that of `dist_init` if it has succeeded. -/
def NetState.owned (multi : Option Nat) (s : NetState) : List (Nat × NetCall) :=
  multi.toList.map (fun fd => (fd, distInitCall)) ++ s.held

/-- They are what is open, and `g_multi_fd` is the descriptor of `dist_init`'s socket, or INVALID. -/
structure NetLedger (t : Sockets) (multi : Option Nat) (s : NetState) : Prop where
  owns : Owns t (s.owned multi) s.sockets
  gMultiFd : s.gMultiFd = invalid ∨ ∃ fd, multi = some fd ∧ s.gMultiFd = fd

section

variable {t sockets sockets' : Sockets} {owned owned' : List (Nat × NetCall)} {s s' : NetState}
  {call : NetCall} {env : SockEnv} {fd : Nat} {k : Sock} {multi : Option Nat}

theorem owns_start (t : Sockets) : Owns t [] t :=
  ⟨fun fd => by simp, List.nodup_nil, fun _ _ => rfl, nofun, nofun⟩

theorem Owns.perm (h : Owns t owned sockets) (hperm : owned.Perm owned') : Owns t owned' sockets where
  mem_iff fd := by rw [h.mem_iff, (hperm.map Prod.fst).mem_iff]
  nodup := (hperm.map Prod.fst).nodup h.nodup
  before := h.before
  prepared x hx := h.prepared x (hperm.mem_iff.mpr hx)
  apart x hx y hy := h.apart x (hperm.mem_iff.mpr hx) y (hperm.mem_iff.mpr hy)

/-- Of two tables in which the same sockets are open, and the same in each. -/
theorem Owns.congr (h : Owns t owned sockets) (hfds : sockets'.fds = sockets.fds)
    (hval : ∀ fd ∈ sockets.fds, sockets'.val fd = sockets.val fd) : Owns t owned sockets' := by
  have hmem : ∀ x ∈ owned, x.1 ∈ sockets.fds := fun x hx =>
    (h.mem_iff x.1).mpr (Or.inr (List.mem_map_of_mem hx))
  refine ⟨fun fd => ?_, h.nodup, fun fd hfd => ?_, fun x hx => ?_, fun x hx y hy => ?_⟩
  · rw [hfds]
    exact h.mem_iff fd
  · rw [hval fd ((h.mem_iff fd).mpr (Or.inl hfd))]
    exact h.before fd hfd
  · rw [hval x.1 (hmem x hx)]
    exact h.prepared x hx
  · rw [hval x.1 (hmem x hx), hval y.1 (hmem y hy)]
    exact h.apart x hx y hy

/-- A call has opened a socket. -/
theorem Owns.added (h : Owns t owned sockets) (hadded : Added fd k sockets sockets')
    (hprepared : call.Prepared k)
    (hapart : k.exclusive = true → ∀ x ∈ sockets.fds, (sockets.val x).exclusive = true →
      (sockets.val x).overlaps k = false) : Owns t ((fd, call) :: owned) sockets' := by
  have hmem : ∀ x ∈ owned, x.1 ∈ sockets.fds := fun x hx =>
    (h.mem_iff x.1).mpr (Or.inr (List.mem_map_of_mem hx))
  have hval : ∀ x ∈ owned, sockets'.val x.1 = sockets.val x.1 := fun x hx => hadded.val x.1 (hmem x hx)
  refine ⟨fun x => ?_, ?_, fun x hx => ?_, ?_, ?_⟩
  · rw [hadded.fds, Finset.mem_insert, h.mem_iff, List.map_cons, List.mem_cons, or_left_comm]
  · rw [List.map_cons, List.nodup_cons]
    refine ⟨fun hfd => hadded.new ((h.mem_iff fd).mpr (Or.inr hfd)), h.nodup⟩
  · rw [hadded.val x ((h.mem_iff x).mpr (Or.inl hx))]
    exact h.before x hx
  · rw [List.forall_mem_cons]
    constructor
    · rw [hadded.self]
      exact ⟨fun hfd => hadded.new ((h.mem_iff fd).mpr (Or.inl hfd)), hprepared⟩
    · intro x hx
      rw [hval x hx]
      exact h.prepared x hx
  · rw [List.forall_mem_cons]
    constructor
    · rw [List.forall_mem_cons]
      refine ⟨fun hne => absurd rfl hne, fun y hy _ hk hy' => ?_⟩
      rw [hadded.self] at hk ⊢
      rw [hval y hy] at hy' ⊢
      rw [Sock.overlaps_comm]
      exact hapart hk y.1 (hmem y hy) hy'
    · intro x hx
      rw [List.forall_mem_cons]
      constructor
      · intro _ hx' hk
        rw [hadded.self] at hk ⊢
        rw [hval x hx] at hx' ⊢
        exact hapart hk x.1 (hmem x hx) hx'
      · intro y hy
        rw [hval x hx, hval y hy]
        exact h.apart x hx y hy

/-- One of the sockets is closed. -/
theorem Owns.close (h : Owns t owned sockets) (hfd : fd ∈ owned.map Prod.fst) :
    Owns t (owned.filter fun x => x.1 ≠ fd) (sockets.close fd) := by
  have hnew : fd ∉ t.fds := by
    rcases List.mem_map.mp hfd with ⟨x, hx, rfl⟩
    exact (h.prepared x hx).1
  have hmap : ∀ x, x ∈ (owned.filter fun x => x.1 ≠ fd).map Prod.fst ↔
      x ≠ fd ∧ x ∈ owned.map Prod.fst := by
    intro x
    simp only [List.mem_map, List.mem_filter, decide_eq_true_eq]
    constructor
    · rintro ⟨y, ⟨hy, hne⟩, rfl⟩
      exact ⟨hne, y, hy, rfl⟩
    · rintro ⟨hne, y, hy, rfl⟩
      exact ⟨y, ⟨hy, hne⟩, rfl⟩
  refine ⟨fun x => ?_, ?_, h.before, fun x hx => h.prepared x (List.mem_of_mem_filter hx),
    fun x hx y hy => h.apart x (List.mem_of_mem_filter hx) y (List.mem_of_mem_filter hy)⟩
  · show x ∈ sockets.fds.erase fd ↔ _
    rw [Finset.mem_erase, h.mem_iff, hmap]
    constructor
    · rintro ⟨hne, hx | hx⟩
      · exact Or.inl hx
      · exact Or.inr ⟨hne, hx⟩
    · rintro (hx | ⟨hne, hx⟩)
      · exact ⟨fun heq => hnew (heq ▸ hx), Or.inl hx⟩
      · exact ⟨hne, Or.inr hx⟩
  · exact h.nodup.sublist (List.filter_sublist.map _)

/-! ## Steps -/

theorem SockEnv.not_mem_of_fresh (hfresh : env.fresh sockets = true) :
    ∀ sockfd ∈ env.socket, sockfd ∉ sockets.fds := by
  intro sockfd hsocket
  unfold SockEnv.fresh at hfresh
  rw [Option.mem_def.mp hsocket] at hfresh
  simpa using hfresh

theorem natCast_ne_invalid (fd : Nat) : (fd : Int) ≠ invalid := by
  unfold invalid
  omega

/-- One of the functions is called. -/
theorem NetLedger.called (h : NetLedger t multi s) (hstep : netStep (.call call env) s = some s') :
    NetLedger t multi s' ∧ s'.gMultiFd = s.gMultiFd := by
  rw [netStep] at hstep
  split at hstep
  · rename_i hfresh
    have hopening := exec_opening call (SockEnv.not_mem_of_fresh hfresh)
    generalize hexec : call.exec env s.sockets = r at hopening hstep
    cases hopening with
    | failed same =>
      cases hstep
      refine ⟨⟨?_, h.gMultiFd⟩, rfl⟩
      exact h.owns.congr same.fds same.val
    | @opened t' sockfd k new added prepared apart =>
      dsimp only at hstep
      rw [if_neg (natCast_ne_invalid sockfd), Int.toNat_natCast] at hstep
      cases hstep
      refine ⟨⟨?_, h.gMultiFd⟩, rfl⟩
      exact (h.owns.added added prepared apart).perm List.perm_middle.symm
  · cases hstep

/-- One of the callers closes its socket. -/
theorem NetLedger.closed (h : NetLedger t multi s) (hstep : netStep (.close fd) s = some s') :
    NetLedger t multi s' ∧ s'.gMultiFd = s.gMultiFd := by
  rw [netStep] at hstep
  split at hstep
  · rename_i hfd
    cases hstep
    refine ⟨⟨?_, h.gMultiFd⟩, rfl⟩
    have hnodup := h.owns.nodup
    unfold NetState.owned at hnodup
    rw [List.map_append, List.nodup_append] at hnodup
    have howned : (s.owned multi).filter (fun x => x.1 ≠ fd) =
        multi.toList.map (fun fd => (fd, distInitCall)) ++ s.held.filter fun x => x.1 ≠ fd := by
      unfold NetState.owned
      rw [List.filter_append]
      congr 1
      refine List.filter_eq_self.mpr fun x hx => decide_eq_true fun heq => ?_
      exact hnodup.2.2 x.1 (List.mem_map_of_mem hx) fd hfd heq
    have hmem : fd ∈ (s.owned multi).map Prod.fst := by
      unfold NetState.owned
      rw [List.map_append]
      exact List.mem_append_right _ hfd
    have hclose := h.owns.close hmem
    rw [howned] at hclose
    exact hclose
  · cases hstep

/-- **`dist_init`**, while there is no multicast socket. -/
theorem NetLedger.distInit_first (h : NetLedger t none s)
    (hstep : netStep (.distInit env) s = some s') : ∃ multi, NetLedger t multi s' := by
  rw [netStep] at hstep
  split at hstep
  · rename_i hfresh
    have hopening := exec_opening distInitCall (SockEnv.not_mem_of_fresh hfresh)
    change Opening _ _ _ (initUdpmulti env multiPort multiAddr s.sockets) at hopening
    generalize hexec : initUdpmulti env multiPort multiAddr s.sockets = r at hopening hstep
    cases hopening with
    | failed same =>
      cases hstep
      exact ⟨none, h.owns.congr same.fds same.val, Or.inl rfl⟩
    | @opened t' sockfd k new added prepared apart =>
      cases hstep
      exact ⟨some sockfd, h.owns.added added prepared apart, Or.inr ⟨sockfd, rfl, rfl⟩⟩
  · cases hstep

/-- Two sockets that `dist_init` has prepared are at the same address. -/
theorem distInit_overlaps {k k' : Sock} (h : distInitCall.Prepared k) (h' : distInitCall.Prepared k') :
    k.overlaps k' = true := by
  rcases h with ⟨htype, ⟨p, hname, hp⟩, -⟩
  rcases h' with ⟨htype', ⟨p', hname', hp'⟩, -⟩
  have hport : htons multiPort ≠ 0 := by decide
  unfold Sock.overlaps
  rw [hname, hname', htype, htype', hp hport, hp' hport]
  rfl

theorem distInit_exclusive {k : Sock} (h : distInitCall.Prepared k) : k.exclusive = true := by
  unfold Sock.exclusive
  rw [h.2.2.1]
  rfl

/-- **`dist_init` again**: the first socket is in the way. -/
theorem NetLedger.distInit_again (h : NetLedger t (some fd) s)
    (hstep : netStep (.distInit env) s = some s') :
    NetLedger t (some fd) s' ∧ s'.gMultiFd = invalid := by
  rw [netStep] at hstep
  split at hstep
  · rename_i hfresh
    have hopening := exec_opening distInitCall (SockEnv.not_mem_of_fresh hfresh)
    change Opening _ _ _ (initUdpmulti env multiPort multiAddr s.sockets) at hopening
    generalize hexec : initUdpmulti env multiPort multiAddr s.sockets = r at hopening hstep
    cases hopening with
    | failed same =>
      cases hstep
      exact ⟨⟨h.owns.congr same.fds same.val, Or.inl rfl⟩, rfl⟩
    | @opened t' sockfd k new added prepared apart =>
      have hmem : (fd, distInitCall) ∈ s.owned (some fd) := List.mem_cons_self ..
      have hfirst := (h.owns.prepared _ hmem).2
      have hopen : fd ∈ s.sockets.fds := (h.owns.mem_iff fd).mpr (Or.inr (List.mem_map_of_mem hmem))
      have hfree := apart (distInit_exclusive prepared) fd hopen (distInit_exclusive hfirst)
      rw [distInit_overlaps hfirst prepared] at hfree
      cases hfree
  · cases hstep

/-! ## Runs -/

/-- The calls of `dist_init`. -/
def NetOp.isDistInit : NetOp → Bool
  | .distInit _ => true
  | _ => false

theorem netLedger_start (t : Sockets) : NetLedger t none (netStart t) := ⟨owns_start t, Or.inl rfl⟩

/-- With a multicast socket, it stays. -/
theorem NetLedger.run_some (h : NetLedger t (some fd) s) {ops : List NetOp}
    (hrun : run netStep s ops = some s') : NetLedger t (some fd) s' ∧
      s'.gMultiFd = if ops.any NetOp.isDistInit then invalid else s.gMultiFd := by
  induction ops generalizing s with
  | nil =>
    cases hrun
    exact ⟨h, rfl⟩
  | cons op ops ih =>
    rcases exists_of_run_cons hrun with ⟨s₁, hstep, hrest⟩
    have hkeep : NetLedger t (some fd) s₁ ∧
        s₁.gMultiFd = if op.isDistInit then invalid else s.gMultiFd := by
      cases op with
      | call call env => exact h.called hstep
      | distInit env => exact h.distInit_again hstep
      | close fd => exact h.closed hstep
    rcases ih hkeep.1 hrest with ⟨hledger, hfd⟩
    refine ⟨hledger, ?_⟩
    rw [hfd, hkeep.2, List.any_cons]
    cases op.isDistInit <;> cases ops.any NetOp.isDistInit <;> rfl

/-- A step, with or without it. -/
theorem NetLedger.step (h : NetLedger t multi s) {op : NetOp} (hstep : netStep op s = some s') :
    ∃ multi', NetLedger t multi' s' := by
  cases op with
  | call call env => exact ⟨multi, (h.called hstep).1⟩
  | distInit env =>
    cases multi with
    | none => exact h.distInit_first hstep
    | some fd => exact ⟨some fd, (h.distInit_again hstep).1⟩
  | close fd => exact ⟨multi, (h.closed hstep).1⟩

end

/-- In every reachable state. -/
theorem exists_netLedger (t : Sockets) {ops : List NetOp} {s : NetState}
    (hrun : run netStep (netStart t) ops = some s) : ∃ multi, NetLedger t multi s :=
  inv_of_run (I := fun s => ∃ multi, NetLedger t multi s) (fun _ _ _ ⟨_, h⟩ => h.step)
    ⟨none, netLedger_start t⟩ hrun

/-- **Every call keeps the ledger**: in every reachable state, what is open is what was open before the first
    call, the sockets that the callers hold, and the one of a `dist_init` that has succeeded; each is
    prepared as its call is meant to, and no two exclusive ones are at overlapping addresses. -/
theorem socket_ledger (t : Sockets) {ops : List NetOp} {s : NetState}
    (hrun : run netStep (netStart t) ops = some s) : ∃ multi, Owns t (s.owned multi) s.sockets ∧
      (s.gMultiFd = invalid ∨ ∃ fd, multi = some fd ∧ s.gMultiFd = fd) := by
  rcases exists_netLedger t hrun with ⟨multi, hledger⟩
  exact ⟨multi, hledger.owns, hledger.gMultiFd⟩

/-- Nothing is open. -/
def noSockets : Sockets := ⟨∅, fun _ => { type := .dgram }⟩

/-- Every call succeeds, on this descriptor. -/
def okEnv (sockfd : Nat) : SockEnv := ⟨some sockfd, 1, ⟨0, 40000⟩, true, true, true, true⟩

/-- A server, a second one at its port, and `dist_init`. -/
theorem socket_ledger_three : ∃ s, run netStep (netStart noSockets)
    [.call (.initTcpserver 10000) (okEnv 3), .call (.initTcpserver 10000) (okEnv 4), .distInit (okEnv 4)] =
      some s ∧ s.sockets.fds = {3, 4} ∧ ∃ multi, Owns noSockets (s.owned multi) s.sockets ∧
        (s.gMultiFd = invalid ∨ ∃ fd, multi = some fd ∧ s.gMultiFd = fd) := by
  have hrun : (run netStep (netStart noSockets) [.call (.initTcpserver 10000) (okEnv 3),
      .call (.initTcpserver 10000) (okEnv 4), .distInit (okEnv 4)]).map (fun s => s.sockets.fds) =
        some {3, 4} := by decide
  rcases Option.map_eq_some_iff.mp hrun with ⟨s, hs, hfds⟩
  exact ⟨s, hs, hfds, socket_ledger noSockets hs⟩

/-- **`dist_init` works once**: from its first success on, its socket stays open, nobody but `g_multi_fd` has
    the descriptor, and the next `dist_init` loses that. -/
theorem dist_init_once (t : Sockets) {ops later : List NetOp} {s s' : NetState}
    (hrun : run netStep (netStart t) ops = some s) (hfd : s.gMultiFd ≠ invalid)
    (hlater : run netStep s later = some s') : ∃ fd : Nat, s.gMultiFd = fd ∧ fd ∈ s'.sockets.fds ∧
      distInitCall.Prepared (s'.sockets.val fd) ∧ (∀ call, (fd, call) ∉ s'.held) ∧
      s'.gMultiFd = if later.any NetOp.isDistInit then invalid else fd := by
  rcases exists_netLedger t hrun with ⟨multi, hledger⟩
  rcases hledger.gMultiFd with hinvalid | ⟨fd, rfl, hmulti⟩
  · exact absurd hinvalid hfd
  · rcases hledger.run_some hlater with ⟨hledger', hfd'⟩
    have hmem : (fd, distInitCall) ∈ s'.owned (some fd) := List.mem_cons_self ..
    have hnodup : fd ∉ s'.held.map Prod.fst := (List.nodup_cons.mp hledger'.owns.nodup).1
    refine ⟨fd, hmulti, ?_, (hledger'.owns.prepared _ hmem).2, fun call hcall => ?_, ?_⟩
    · exact (hledger'.owns.mem_iff fd).mpr (Or.inr (List.mem_map_of_mem hmem))
    · exact hnodup (List.mem_map_of_mem hcall)
    · rw [hfd', hmulti]

/-- Twice. -/
theorem dist_init_once_twice : ∃ s s', run netStep (netStart noSockets) [.distInit (okEnv 3)] = some s ∧
    run netStep s [.distInit (okEnv 4)] = some s' ∧ s.gMultiFd = 3 ∧ 3 ∈ s'.sockets.fds ∧
      s'.gMultiFd = invalid := by
  have hrun : (run netStep (netStart noSockets) [.distInit (okEnv 3)]).map NetState.gMultiFd = some 3 := by
    decide
  rcases Option.map_eq_some_iff.mp hrun with ⟨s, hs, hfd⟩
  have hlater : ((run netStep (netStart noSockets) [.distInit (okEnv 3)]).bind fun s =>
      run netStep s [.distInit (okEnv 4)]).isSome = true := by decide
  rw [hs, Option.bind_some] at hlater
  rcases Option.isSome_iff_exists.mp hlater with ⟨s', hs'⟩
  rcases dist_init_once noSockets hs (by rw [hfd]; decide) hs' with ⟨fd, heq, hopen, -, -, hlost⟩
  have hthree : fd = 3 := Int.ofNat_inj.mp (heq.symm.trans hfd)
  rw [hthree] at hopen
  exact ⟨s, s', hs, hs', hfd, hopen, hlost⟩

end AdhocNode
