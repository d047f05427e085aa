/-
  THE RECEIVE LOOP — progress, reads and writes of `rx_cmd` over a whole frame.

  1. **One iteration** — `rxBody` leaves the loop, faults, stays at its cursor (`continue`) or goes
     past a sub-packet (`rxBody_advance`, `rxBody_stay`, `rxBody_fault`).  It goes past a sub-packet
     exactly when that one completes a message: the `continue` skips `rxlen += sublen`.

  2. **The walk** — `Visits m a p b`: the loop, entered with the buffers `a`, comes to cursor `p`
     with the buffers `b`, by sub-packets that each complete a message.  Every iteration happens at a
     visited cursor (`reaches_visits`), for a loop that stays never leaves (`Stuck`).

  3. **Whole messages** — when no buffer holds an unfinished message (`Settled`), as from `cmd_buf_init`
     on whenever the loop comes to a new sub-packet, the walk depends on the bytes of the frame alone
     (`Cursor`): it goes on behind the sub-packets that are a message each (`Whole`).

  4. **Progress** (`progress_iff`) — every iteration moves the cursor, and the function returns, iff
     every visited sub-packet is in range and completes a message.

  5. **Reads** (`readsInside_iff`) — all reads of `macrx_buf` are below `len` iff the MAC header is,
     and every visited sub-packet has a `sublen` that covers its header and ends below `len`.

  6. **Writes** (`safeRun_iff`) — all accesses to the receive buffers are in bounds iff every
     sub-packet that the walk meets has a known type and a `sublen` between `CMD_HDR_LEN` and
     `CMD_HDR_LEN + HELLO_LEN`.
-/
import AdhocNode.RxReassembly

namespace AdhocNode

open CMem WhileLoop

/-! ## One iteration -/

section Iteration

variable {m : Mem} {s : RxState} {t : CmdType}

/-- The buffers after one iteration at a sub-packet of type `t`. -/
def rxAfter (m : Mem) (s : RxState) (t : CmdType) : AllCmdBuf :=
  s.rxCmdBuf.set t (combined (pduAt m s.rxlen) (dataAt m s.rxlen) (s.rxCmdBuf.cmdBuf t))

/-- The sub-packet at the cursor, of type `t`, is one that the buffers can take. -/
def Takes (m : Mem) (p : Nat) (a : AllCmdBuf) (t : CmdType) : Prop :=
  (pduAt m p).cmdPduType.toNat = t.toNat ∧ InRange (a.cmdBuf t) (pduAt m p)

instance (p : Nat) (a : AllCmdBuf) : Decidable (Takes m p a t) :=
  inferInstanceAs (Decidable (_ ∧ _))

theorem rxBody_exit (h : frameLen m ≤ s.rxlen) : rxBody m s = .exit := if_neg (by omega)

theorem rxBody_of_takes (hlt : s.rxlen < frameLen m) (h : Takes m s.rxlen s.rxCmdBuf t) :
    rxBody m s =
      if Completes (s.rxCmdBuf.cmdBuf t) (pduAt m s.rxlen) then
        .next ⟨s.rxlen + (pduAt m s.rxlen).sublen.toNat, rxAfter m s t,
          s.handled ++ [(handlerOf t, rxAfter m s t)]⟩
      else .next { s with rxCmdBuf := rxAfter m s t } := by
  obtain ⟨hty, hr⟩ := h
  have hcomb : rxCmdFragCombine (pduAt m s.rxlen) (dataAt m s.rxlen) s.rxCmdBuf =
      some (rxAfter m s t) := rxCmdFragCombine_of_inRange (p := (_, _)) hty hr
  have hbuf : (rxAfter m s t).cmdBuf t =
      combined (pduAt m s.rxlen) (dataAt m s.rxlen) (s.rxCmdBuf.cmdBuf t) :=
    AllCmdBuf.cmdBuf_set_self ..
  unfold rxBody
  rw [if_pos hlt]
  simp only [hcomb, rxCheckCmddataComplete_of_type hty, hbuf, dispatch_of_type hty]
  by_cases hc : Completes (s.rxCmdBuf.cmdBuf t) (pduAt m s.rxlen)
  · rw [if_pos hc, complete_combined_iff.mpr hc]
  · have hfalse : (combined (pduAt m s.rxlen) (dataAt m s.rxlen) (s.rxCmdBuf.cmdBuf t)).complete
        = false := by
      rw [← Bool.not_eq_true, complete_combined_iff]; exact hc
    rw [if_neg hc, hfalse]

/-- A sub-packet that completes a message is left behind. -/
theorem rxBody_advance (hlt : s.rxlen < frameLen m) (h : Takes m s.rxlen s.rxCmdBuf t)
    (hc : Completes (s.rxCmdBuf.cmdBuf t) (pduAt m s.rxlen)) :
    rxBody m s = .next ⟨s.rxlen + (pduAt m s.rxlen).sublen.toNat, rxAfter m s t,
      s.handled ++ [(handlerOf t, rxAfter m s t)]⟩ := by
  rw [rxBody_of_takes hlt h, if_pos hc]

/-- Any other sub-packet is processed again by the next iteration. -/
theorem rxBody_stay (hlt : s.rxlen < frameLen m) (h : Takes m s.rxlen s.rxCmdBuf t)
    (hc : ¬ Completes (s.rxCmdBuf.cmdBuf t) (pduAt m s.rxlen)) :
    rxBody m s = .next { s with rxCmdBuf := rxAfter m s t } := by
  rw [rxBody_of_takes hlt h, if_neg hc]

theorem rxBody_fault (hlt : s.rxlen < frameLen m) (h : ∀ t, ¬ Takes m s.rxlen s.rxCmdBuf t) :
    rxBody m s = .fault := by
  have hcomb : rxCmdFragCombine (pduAt m s.rxlen) (dataAt m s.rxlen) s.rxCmdBuf = none := by
    unfold rxCmdFragCombine
    cases hty : CmdType.ofNat? (pduAt m s.rxlen).cmdPduType.toNat with
    | none => rfl
    | some t =>
      have hr : ¬ InRange (s.rxCmdBuf.cmdBuf t) (pduAt m s.rxlen) := fun hr =>
        h t ⟨CmdType.ofNat?_eq_some.mp hty, hr⟩
      simp only [combineBuf_eq_none hr, Option.map_none]
  unfold rxBody
  rw [if_pos hlt]
  simp only [hcomb]

theorem rxBody_ne_exit (hlt : s.rxlen < frameLen m) : rxBody m s ≠ .exit := by
  by_cases htake : ∃ t, Takes m s.rxlen s.rxCmdBuf t
  · obtain ⟨t, ht⟩ := htake
    rw [rxBody_of_takes hlt ht]
    split <;> exact nofun
  · rw [rxBody_fault hlt fun t ht => htake ⟨t, ht⟩]
    exact nofun

/-- What an iteration that ends in a new state has done. -/
theorem rxBody_cases {s' : RxState} (h : rxBody m s = .next s') :
    s.rxlen < frameLen m ∧ ∃ t, Takes m s.rxlen s.rxCmdBuf t ∧
      (Completes (s.rxCmdBuf.cmdBuf t) (pduAt m s.rxlen) ∧
          s' = ⟨s.rxlen + (pduAt m s.rxlen).sublen.toNat, rxAfter m s t,
            s.handled ++ [(handlerOf t, rxAfter m s t)]⟩ ∨
        ¬ Completes (s.rxCmdBuf.cmdBuf t) (pduAt m s.rxlen) ∧
          s' = { s with rxCmdBuf := rxAfter m s t }) := by
  by_cases hlt : s.rxlen < frameLen m
  · by_cases htake : ∃ t, Takes m s.rxlen s.rxCmdBuf t
    · obtain ⟨t, ht⟩ := htake
      refine ⟨hlt, t, ht, ?_⟩
      by_cases hc : Completes (s.rxCmdBuf.cmdBuf t) (pduAt m s.rxlen)
      · rw [rxBody_advance hlt ht hc] at h
        cases h
        exact Or.inl ⟨hc, rfl⟩
      · rw [rxBody_stay hlt ht hc] at h
        cases h
        exact Or.inr ⟨hc, rfl⟩
    · rw [rxBody_fault hlt fun t ht => htake ⟨t, ht⟩] at h
      cases h
  · rw [rxBody_exit (by omega)] at h
    cases h

theorem Takes.type_unique {p : Nat} {a b : AllCmdBuf} {u : CmdType} (ht : Takes m p a t)
    (hu : Takes m p b u) : t = u := CmdType.toNat_inj (ht.1.symm.trans hu.1)

/-- A sub-packet that completes nothing completes nothing the next time either. -/
theorem not_completes_again {b : CmdBuf} {h : CmdPdu} {d : Mem} (hc : ¬ Completes b h) :
    ¬ Completes (combined h d b) h := by
  rintro ⟨hfrag, hor⟩
  by_cases hj : joins b h
  · exact hc ⟨hfrag, Or.inl hj⟩
  -- a header that covered the buffer with `fragment = 0` cannot be joined
  · have hhdr : (combined h d b).cmdHdr = h := if_neg hj
    rcases hor with hj' | hwhole
    · have h1 := hj'.2.2.1
      rw [hhdr, hfrag] at h1
      cases h1
    · exact hc ⟨hfrag, Or.inr hwhole⟩

end Iteration

/-! ## The walk -/

/-- The loop comes to cursor `p` with the buffers `b`. -/
inductive Visits (m : Mem) (a : AllCmdBuf) : Nat → AllCmdBuf → Prop where
  | start : Visits m a 0 a
  | next {p : Nat} {b : AllCmdBuf} {t : CmdType} (hv : Visits m a p b) (hlt : p < frameLen m)
      (ht : Takes m p b t) (hc : Completes (b.cmdBuf t) (pduAt m p)) :
      Visits m a (p + (pduAt m p).sublen.toNat)
        (b.set t (combined (pduAt m p) (dataAt m p) (b.cmdBuf t)))

/-- The loop stays at its cursor for ever, or until it faults. -/
def Stuck (m : Mem) (s : RxState) : Prop :=
  ∃ t, (pduAt m s.rxlen).cmdPduType.toNat = t.toNat ∧
    ¬ Completes (s.rxCmdBuf.cmdBuf t) (pduAt m s.rxlen)

section Walk

variable {m : Mem} {len : UInt32} {a : AllCmdBuf}

/-- An iteration that does not advance leaves the loop stuck. -/
theorem stuck_of_stay {s : RxState} {t : CmdType} (ht : Takes m s.rxlen s.rxCmdBuf t)
    (hc : ¬ Completes (s.rxCmdBuf.cmdBuf t) (pduAt m s.rxlen)) :
    Stuck m { s with rxCmdBuf := rxAfter m s t } := by
  refine ⟨t, ht.1, ?_⟩
  show ¬ Completes ((rxAfter m s t).cmdBuf t) (pduAt m s.rxlen)
  rw [rxAfter, AllCmdBuf.cmdBuf_set_self]
  exact not_completes_again hc

/-- A stuck loop stays stuck. -/
theorem Stuck.step {s s' : RxState} (h : Stuck m s) (hbody : rxBody m s = .next s') :
    s'.rxlen = s.rxlen ∧ Stuck m s' := by
  obtain ⟨u, hu, hstuck⟩ := h
  obtain ⟨-, t, ht, hcase⟩ := rxBody_cases hbody
  obtain rfl : t = u := CmdType.toNat_inj (ht.1.symm.trans hu)
  rcases hcase with ⟨hc, -⟩ | ⟨hc, rfl⟩
  · exact absurd hc hstuck
  · exact ⟨rfl, stuck_of_stay ht hc⟩

/-- A stuck loop is never left. -/
theorem Stuck.not_returns {s u : RxState} (h : Stuck m s) (hlt : s.rxlen < frameLen m) :
    ¬ Returns (rxBody m) s u := by
  rintro ⟨hrun, hexit⟩
  obtain ⟨hpos, hstuck⟩ := Run.invariant (I := fun x => x.rxlen = s.rxlen ∧ Stuck m x)
    (fun x y hx hxy => by
      obtain ⟨h1, h2⟩ := hx.2.step hxy
      exact ⟨h1.trans hx.1, h2⟩) hrun ⟨rfl, h⟩
  have hne : rxBody m u ≠ .exit := rxBody_ne_exit (by rw [hpos]; exact hlt)
  exact hne hexit

/-- Every cursor of the walk is reached by the loop. -/
theorem visits_reaches (hacc : rxAccepts m len = true) {p : Nat} {b : AllCmdBuf}
    (hv : Visits m a p b) : ∃ handled, RxReaches m len a ⟨p, b, handled⟩ := by
  induction hv with
  | start => exact ⟨[], hacc, Run.refl _⟩
  | next _ hlt ht hc ih =>
    obtain ⟨handled, -, hrun⟩ := ih
    exact ⟨_, hacc, hrun.step (rxBody_advance (s := ⟨_, _, handled⟩) hlt ht hc)⟩

/-- Every iteration happens at a cursor of the walk: on arrival, or stuck. -/
theorem reaches_visits {s : RxState} (h : RxReaches m len a s) :
    ∃ b, Visits m a s.rxlen b ∧ (s.rxCmdBuf = b ∨ Stuck m s) := by
  refine Run.invariant (I := fun s => ∃ b, Visits m a s.rxlen b ∧ (s.rxCmdBuf = b ∨ Stuck m s))
    ?_ h.2 ⟨a, .start, Or.inl rfl⟩
  rintro s s' ⟨b, hv, hb⟩ hbody
  obtain ⟨hlt, t, ht, ⟨hc, rfl⟩ | ⟨hc, rfl⟩⟩ := rxBody_cases hbody
  · rcases hb with hb | ⟨u, hu, hstuck⟩
    · rw [hb] at ht hc
      refine ⟨_, hv.next hlt ht hc, Or.inl ?_⟩
      rw [← hb]; rfl
    · obtain rfl : t = u := CmdType.toNat_inj (ht.1.symm.trans hu)
      exact absurd hc hstuck
  · exact ⟨b, hv, Or.inr (stuck_of_stay ht hc)⟩

end Walk

/-! ## Whole messages -/

section Whole

variable {m : Mem} {len : UInt32} {a : AllCmdBuf}

/-- No buffer holds an unfinished message. -/
def Settled (a : AllCmdBuf) : Prop :=
  ∀ t, ¬ ((a.cmdBuf t).len ≠ 0 ∧ (a.cmdBuf t).cmdHdr.firstpkg = true ∧
    (a.cmdBuf t).cmdHdr.fragment = true)

/-- A sub-packet that an empty buffer can take: a known type, and a `sublen` that covers the header
    and at most `HELLO_LEN` bytes of payload. -/
def Acceptable (h : CmdPdu) : Prop :=
  h.cmdPduType.toNat < maxCmdType ∧ cmdHdrLen ≤ h.sublen.toNat ∧
    h.sublen.toNat ≤ cmdHdrLen + helloLen

/-- A message in one sub-packet. -/
def Whole (h : CmdPdu) : Prop :=
  Acceptable h ∧ h.firstpkg = true ∧ h.fragment = false ∧ cmdHdrLen < h.sublen.toNat

instance (h : CmdPdu) : Decidable (Acceptable h) := inferInstanceAs (Decidable (_ ∧ _ ∧ _))

instance (h : CmdPdu) : Decidable (Whole h) := inferInstanceAs (Decidable (_ ∧ _ ∧ _ ∧ _))

/-- The cursors of the loop when nothing unfinished is buffered: it goes past whole messages. -/
inductive Cursor (m : Mem) : Nat → Prop where
  | start : Cursor m 0
  | next {p : Nat} (hc : Cursor m p) (hlt : p < frameLen m) (hw : Whole (pduAt m p)) :
      Cursor m (p + (pduAt m p).sublen.toNat)

theorem Settled.not_joins {h : CmdPdu} (hs : Settled a) (t : CmdType) : ¬ joins (a.cmdBuf t) h :=
  fun hj => hs t ⟨hj.1, hj.2.1, hj.2.2.1⟩

/-- The sub-packet at `p` continues nothing that is buffered. -/
def Fresh (m : Mem) (p : Nat) (a : AllCmdBuf) : Prop :=
  ∀ t, (pduAt m p).cmdPduType.toNat = t.toNat → ¬ joins (a.cmdBuf t) (pduAt m p)

theorem Settled.fresh {p : Nat} (hs : Settled a) : Fresh m p a := fun t _ => hs.not_joins t

/-- For a buffer that the sub-packet does not continue, in range means acceptable. -/
theorem exists_takes_iff {p : Nat} (hfresh : Fresh m p a) :
    (∃ t, Takes m p a t) ↔ Acceptable (pduAt m p) := by
  unfold Acceptable
  constructor
  · rintro ⟨t, hty, hsub, hfit⟩
    rw [base_of_not_joins (hfresh t hty), CmdPdu.paylen] at hfit
    exact ⟨by rw [hty]; exact t.toNat_lt, hsub, by omega⟩
  · rintro ⟨hty, hsub, hfit⟩
    obtain ⟨t, ht⟩ := CmdType.exists_of_lt hty
    refine ⟨t, ht, hsub, ?_⟩
    rw [base_of_not_joins (hfresh t ht), CmdPdu.paylen]
    omega

/-- There, a sub-packet completes a message iff it is a whole one. -/
theorem completes_iff_whole {p : Nat} {t : CmdType} (hfresh : Fresh m p a) (ht : Takes m p a t) :
    Completes (a.cmdBuf t) (pduAt m p) ↔ Whole (pduAt m p) := by
  have hacc : Acceptable (pduAt m p) := (exists_takes_iff hfresh).mp ⟨t, ht⟩
  unfold Completes Whole CmdPdu.paylen
  constructor
  · rintro ⟨hfrag, hj | ⟨hfirst, hpos⟩⟩
    · exact absurd hj (hfresh t ht.1)
    · exact ⟨hacc, hfirst, hfrag, by omega⟩
  · rintro ⟨-, hfirst, hfrag, hpos⟩
    exact ⟨hfrag, Or.inr ⟨hfirst, by omega⟩⟩

theorem settled_of_whole {s : RxState} {t : CmdType} (hfresh : Fresh m s.rxlen s.rxCmdBuf)
    (hs : Settled s.rxCmdBuf) (ht : Takes m s.rxlen s.rxCmdBuf t) (hw : Whole (pduAt m s.rxlen)) :
    Settled (rxAfter m s t) := by
  have hhdr : (combined (pduAt m s.rxlen) (dataAt m s.rxlen) (s.rxCmdBuf.cmdBuf t)).cmdHdr =
      pduAt m s.rxlen := if_neg (hfresh t ht.1)
  rintro u ⟨hlen, hfirst, hfrag⟩
  unfold rxAfter at hlen hfirst hfrag
  by_cases hu : u = t
  · subst hu
    rw [AllCmdBuf.cmdBuf_set_self, hhdr, hw.2.2.1] at hfrag
    cases hfrag
  · rw [AllCmdBuf.cmdBuf_set_of_ne hu] at hlen hfirst hfrag
    exact hs u ⟨hlen, hfirst, hfrag⟩

/-- The loop comes to every cursor, with nothing unfinished in the buffers. -/
theorem Cursor.visits {p : Nat} (hcur : Cursor m p) (hs : Settled a) :
    ∃ b, Visits m a p b ∧ Settled b := by
  induction hcur with
  | start => exact ⟨a, .start, hs⟩
  | next _ hlt hw ih =>
    obtain ⟨b, hv, hsb⟩ := ih
    obtain ⟨t, ht⟩ := (exists_takes_iff hsb.fresh).mpr hw.1
    exact ⟨_, hv.next hlt ht ((completes_iff_whole hsb.fresh ht).mpr hw),
      settled_of_whole (s := ⟨_, b, []⟩) hsb.fresh hsb ht hw⟩

/-- With nothing unfinished in the buffers the bytes alone decide where the loop comes to. -/
theorem Visits.cursor {p : Nat} {b : AllCmdBuf} (hv : Visits m a p b) (hs : Settled a) :
    Cursor m p ∧ Settled b := by
  induction hv with
  | start => exact ⟨.start, hs⟩
  | next _ hlt ht hc ih =>
    have hw := (completes_iff_whole ih.2.fresh ht).mp hc
    exact ⟨ih.1.next hlt hw, settled_of_whole (s := ⟨_, _, []⟩) ih.2.fresh ih.2 ht hw⟩

/-- The frame is rejected or consists of whole messages. -/
def FrameWhole (m : Mem) (len : UInt32) : Prop :=
  rxAccepts m len = true → ∀ p, Cursor m p → p < frameLen m → Whole (pduAt m p)

end Whole

/-! ## Progress -/

section Progress

variable {m : Mem} {len : UInt32} {a : AllCmdBuf}

/-- Every iteration moves the cursor, and the function returns. -/
def Progresses (m : Mem) (len : UInt32) (a : AllCmdBuf) : Prop :=
  (∀ s, RxReaches m len a s → s.rxlen < frameLen m →
    ∃ s', rxBody m s = .next s' ∧ s.rxlen < s'.rxlen) ∧
  ∃ fuel r, rxCmd fuel m len a = some r

/-- Every sub-packet of the walk is in range and completes a message. -/
def AllComplete (m : Mem) (a : AllCmdBuf) : Prop :=
  ∀ p b, Visits m a p b → p < frameLen m →
    ∃ t, Takes m p b t ∧ Completes (b.cmdBuf t) (pduAt m p)

/-- A loop that returns is a call that returns. -/
theorem rxCmd_of_returns (hacc : rxAccepts m len = true) {s : RxState}
    (h : Returns (rxBody m) (rxStart a) s) :
    ∃ fuel, rxCmd fuel m len a = some (s.rxCmdBuf, s.handled) := by
  obtain ⟨fuel, hfuel⟩ := exists_exec_iff.mpr h
  exact ⟨fuel, by rw [rxCmd, if_pos hacc, hfuel]; rfl⟩

theorem rxCmd_of_reject (hrej : rxAccepts m len = false) (fuel : Nat) :
    rxCmd fuel m len a = some (a, []) := by
  rw [rxCmd, hrej]; rfl

/-- Along a walk of sub-packets that complete messages the loop is never stuck. -/
theorem visits_of_allComplete (hall : AllComplete m a) {s : RxState} (h : RxReaches m len a s) :
    Visits m a s.rxlen s.rxCmdBuf := by
  refine Run.invariant (I := fun s => Visits m a s.rxlen s.rxCmdBuf) ?_ h.2 .start
  intro s s' hv hbody
  obtain ⟨hlt, t, ht, hcase⟩ := rxBody_cases hbody
  obtain ⟨u, hu, hc⟩ := hall _ _ hv hlt
  obtain rfl : t = u := ht.type_unique hu
  rcases hcase with ⟨-, rfl⟩ | ⟨hno, -⟩
  · exact hv.next hlt ht hc
  · exact absurd hc hno

/-- In such a walk every iteration advances. -/
theorem rxBody_of_allComplete (hall : AllComplete m a) {s : RxState}
    (hv : Visits m a s.rxlen s.rxCmdBuf) (hlt : s.rxlen < frameLen m) :
    ∃ s', rxBody m s = .next s' ∧ Visits m a s'.rxlen s'.rxCmdBuf ∧ s.rxlen < s'.rxlen := by
  obtain ⟨t, ht, hc⟩ := hall _ _ hv hlt
  have hsub : cmdHdrLen ≤ (pduAt m s.rxlen).sublen.toNat := ht.2.1
  refine ⟨_, rxBody_advance hlt ht hc, hv.next hlt ht hc, ?_⟩
  show s.rxlen < s.rxlen + (pduAt m s.rxlen).sublen.toNat
  unfold cmdHdrLen at hsub
  omega

/-- **Termination**: the function returns iff the frame is rejected or every sub-packet it comes to
    completes a message (and is in range). -/
theorem exists_rxCmd_iff :
    (∃ fuel r, rxCmd fuel m len a = some r) ↔ (rxAccepts m len = true → AllComplete m a) := by
  constructor
  · rintro ⟨fuel, r, hr⟩ hacc p b hv hlt
    rw [rxCmd, if_pos hacc] at hr
    obtain ⟨u, hu, -⟩ := Option.map_eq_some_iff.mp hr
    have hret : Returns (rxBody m) (rxStart a) u := exists_exec_iff.mp ⟨fuel, hu⟩
    obtain ⟨handled, -, hrun⟩ := visits_reaches hacc hv
    have hrest : Returns (rxBody m) ⟨p, b, handled⟩ u := hret.of_run hrun
    obtain ⟨s', hbody, hrest'⟩ := hrest.of_ne_exit (rxBody_ne_exit hlt)
    obtain ⟨-, t, ht, ⟨hc, -⟩ | ⟨hc, rfl⟩⟩ := rxBody_cases hbody
    · exact ⟨t, ht, hc⟩
    · exact absurd hrest' ((stuck_of_stay ht hc).not_returns hlt)
  · intro hall
    cases hacc : rxAccepts m len with
    | false => exact ⟨0, _, rxCmd_of_reject hacc 0⟩
    | true =>
      have hround : ∀ s, Visits m a s.rxlen s.rxCmdBuf → rxBody m s = .exit ∨
          ∃ s', rxBody m s = .next s' ∧ Visits m a s'.rxlen s'.rxCmdBuf ∧
            frameLen m - s'.rxlen < frameLen m - s.rxlen := by
        intro s hv
        by_cases hlt : s.rxlen < frameLen m
        · obtain ⟨s', hbody, hv', hmove⟩ := rxBody_of_allComplete (hall hacc) hv hlt
          exact Or.inr ⟨s', hbody, hv', by omega⟩
        · exact Or.inl (rxBody_exit (by omega))
      obtain ⟨s, hret, -⟩ := exists_returns (s := rxStart a) _ hround .start
      obtain ⟨fuel, hfuel⟩ := rxCmd_of_returns hacc hret
      exact ⟨fuel, _, hfuel⟩

/-- When nothing unfinished is buffered, that is said of the bytes of the frame. -/
theorem allComplete_iff_whole (hs : Settled a) :
    (rxAccepts m len = true → AllComplete m a) ↔ FrameWhole m len := by
  refine forall_congr' fun hacc => ?_
  constructor
  · intro hall p hcur hlt
    obtain ⟨b, hv, hsb⟩ := hcur.visits hs
    obtain ⟨t, ht, hc⟩ := hall p b hv hlt
    exact (completes_iff_whole hsb.fresh ht).mp hc
  · intro hall p b hv hlt
    obtain ⟨hcur, hsb⟩ := hv.cursor hs
    have hw := hall p hcur hlt
    obtain ⟨t, ht⟩ := (exists_takes_iff hsb.fresh).mpr hw.1
    exact ⟨t, ht, (completes_iff_whole hsb.fresh ht).mpr hw⟩

/-- The call returns iff the frame is rejected or consists of whole messages. -/
theorem exists_rxCmd_iff_whole (hs : Settled a) :
    (∃ fuel r, rxCmd fuel m len a = some r) ↔ FrameWhole m len :=
  exists_rxCmd_iff.trans (allComplete_iff_whole hs)

theorem progresses_iff_allComplete :
    Progresses m len a ↔ (rxAccepts m len = true → AllComplete m a) := by
  constructor
  · rintro ⟨-, hret⟩
    exact exists_rxCmd_iff.mp hret
  · intro hall
    refine ⟨fun s h hlt => ?_, exists_rxCmd_iff.mpr hall⟩
    obtain ⟨s', hbody, -, hmove⟩ :=
      rxBody_of_allComplete (hall h.1) (visits_of_allComplete (hall h.1) h) hlt
    exact ⟨s', hbody, hmove⟩

/-- **Progress**: the loop of `rx_cmd` moves its cursor in every iteration, and returns, iff the
    frame is rejected or every sub-packet it comes to completes a message (and is in range).  With
    nothing unfinished in the buffers these are the frames of whole messages. -/
theorem progress_iff : (Progresses m len a ↔ (rxAccepts m len = true → AllComplete m a)) ∧
    (Settled a → (Progresses m len a ↔ FrameWhole m len)) :=
  ⟨progresses_iff_allComplete, fun hs => progresses_iff_allComplete.trans (allComplete_iff_whole hs)⟩

/-- The first fragment of a message, alone in a frame of 13 bytes, is processed again and again. -/
theorem not_progresses_fragment :
    ¬ Progresses (.ofList [0xAA, 0x0A, 0, 0, 13, 0, 1, 0, 0, 3, 5, 0, 7]) 13
      (cmdBufInitRx .zero) := by
  rintro ⟨hprog, -⟩
  obtain ⟨s', hbody, hmove⟩ :=
    hprog (rxStart (cmdBufInitRx .zero)) ⟨by decide, Run.refl _⟩ (by decide)
  rw [rxBody_stay (t := .macNodeHello) (by decide) (by decide) (by decide)] at hbody
  cases hbody
  exact absurd hmove (Nat.lt_irrefl _)

end Progress

/-! ## Reads -/

section Reads

variable {m : Mem} {len : UInt32} {a : AllCmdBuf}

/-- Every byte of `macrx_buf` that `rx_cmd` reads is one of the first `len`. -/
def ReadsInside (m : Mem) (len : UInt32) (a : AllCmdBuf) : Prop :=
  (∀ r ∈ macReads m, r.1 + r.2 ≤ len.toNat) ∧
  ∀ s, RxReaches m len a s → ∀ r ∈ iterReads m s, r.1 + r.2 ≤ len.toNat

/-- `len` covers the MAC header and, in an accepted frame, the sub-packets that are visited; each of
    them announces at least its own header. -/
def FrameFits (m : Mem) (len : UInt32) (visited : Nat → Prop) : Prop :=
  sizeofMacPdu ≤ len.toNat ∧
  (rxAccepts m len = true → ∀ p, visited p → p < frameLen m →
    cmdHdrLen ≤ (pduAt m p).sublen.toNat ∧
      sizeofMacPdu + p + (pduAt m p).sublen.toNat ≤ len.toNat)

theorem macReads_inside_iff :
    (∀ r ∈ macReads m, r.1 + r.2 ≤ len.toNat) ↔ sizeofMacPdu ≤ len.toNat := by
  unfold macReads sizeofMacPdu
  split
  · simp
  · simp; omega

/-- The reads of one iteration, in terms of the sub-packet at the cursor. -/
theorem iterReads_inside_iff {s : RxState} (hmac : sizeofMacPdu ≤ len.toNat)
    (hlt : s.rxlen < frameLen m) :
    (∀ r ∈ iterReads m s, r.1 + r.2 ≤ len.toNat) ↔
      cmdHdrLen ≤ (pduAt m s.rxlen).sublen.toNat ∧
        sizeofMacPdu + s.rxlen + (pduAt m s.rxlen).sublen.toNat ≤ len.toNat := by
  have hlen := len.toNat_lt
  have hsub := (pduAt m s.rxlen).sublen.toNat_lt
  unfold iterReads
  rw [if_pos hlt]
  simp only [List.forall_mem_cons, List.not_mem_nil, false_imp_iff, implies_true, and_true]
  unfold sizeofMacPdu cmdHdrLen at *
  constructor
  · rintro ⟨-, -, hpay⟩
    -- a `sublen` below the header's size makes the copy length wrap around
    by_cases hneg : (pduAt m s.rxlen).sublen.toNat < 4
    · unfold toSize at hpay
      omega
    · rw [toSize_of_nonneg (by omega) (by omega)] at hpay
      omega
  · rintro ⟨hhdr, hend⟩
    rw [toSize_of_nonneg (by omega) (by omega)]
    omega

theorem readsInside_iff_visits : ReadsInside m len a ↔ FrameFits m len fun p => ∃ b, Visits m a p b := by
  unfold ReadsInside FrameFits
  rw [macReads_inside_iff]
  refine and_congr_right fun hmac => ?_
  constructor
  · rintro hreads hacc p ⟨b, hv⟩ hlt
    obtain ⟨handled, hreach⟩ := visits_reaches hacc hv
    exact (iterReads_inside_iff (s := ⟨p, b, handled⟩) hmac hlt).mp (hreads _ hreach)
  · intro hfits s h
    by_cases hlt : s.rxlen < frameLen m
    · obtain ⟨b, hv, -⟩ := reaches_visits h
      exact (iterReads_inside_iff hmac hlt).mpr (hfits h.1 _ ⟨b, hv⟩ hlt)
    · unfold iterReads
      rw [if_neg hlt]
      unfold sizeofMacPdu at hmac
      simp only [List.forall_mem_cons, List.not_mem_nil, false_imp_iff, implies_true, and_true]
      omega

/-- **Reads**: `rx_cmd` reads only below `len` iff `len` covers the MAC header and every sub-packet
    that the loop comes to.  With nothing unfinished in the buffers the loop comes to those that
    whole messages lead to. -/
theorem readsInside_iff : (ReadsInside m len a ↔ FrameFits m len fun p => ∃ b, Visits m a p b) ∧
    (Settled a → (ReadsInside m len a ↔ FrameFits m len (Cursor m))) := by
  refine ⟨readsInside_iff_visits, fun hs => readsInside_iff_visits.trans ?_⟩
  have hcursor : (fun p => ∃ b, Visits m a p b) = Cursor m := by
    funext p
    refine propext ⟨?_, fun hcur => ?_⟩
    · rintro ⟨b, hv⟩
      exact (hv.cursor hs).1
    · obtain ⟨b, hv, -⟩ := hcur.visits hs
      exact ⟨b, hv⟩
  rw [hcursor]

/-- One whole message in a frame of 13 bytes whose header is as `tx_cmd` writes it: after the message
    the loop goes on to read behind the frame, since `mac_frame_len` counts the MAC header. -/
theorem not_readsInside_tx :
    ¬ ReadsInside (.ofList [0x41, 0x10, 4, 0, 13, 0, 1, 0, 0, 1, 5, 0, 7]) 13
      (cmdBufInitRx .zero) := by
  rintro ⟨-, hreads⟩
  have hbody := rxBody_advance (s := rxStart (cmdBufInitRx .zero)) (t := .macNodeHello)
    (m := .ofList [0x41, 0x10, 4, 0, 13, 0, 1, 0, 0, 1, 5, 0, 7]) (by decide) (by decide) (by decide)
  have hreach := hreads _ ⟨by decide, (Run.refl _).step hbody⟩ (13, cmdHdrLen) (by decide)
  exact absurd hreach (by decide)

end Reads

/-! ## Writes -/

section Writes

variable {m : Mem} {len : UInt32} {a : AllCmdBuf}

/-- After a sub-packet that covered the buffer, the same sub-packet covers it again. -/
theorem fresh_after {s : RxState} {t : CmdType} (hfresh : Fresh m s.rxlen s.rxCmdBuf)
    (ht : Takes m s.rxlen s.rxCmdBuf t) : Fresh m s.rxlen (rxAfter m s t) := by
  rintro u hu ⟨-, hfirst, -, -, hno⟩
  obtain rfl : t = u := CmdType.toNat_inj (ht.1.symm.trans hu)
  have hhdr : (combined (pduAt m s.rxlen) (dataAt m s.rxlen) (s.rxCmdBuf.cmdBuf t)).cmdHdr =
      pduAt m s.rxlen := if_neg (hfresh t ht.1)
  rw [rxAfter, AllCmdBuf.cmdBuf_set_self, hhdr, hno] at hfirst
  cases hfirst

theorem lensOk_after {s : RxState} {t : CmdType} (hl : LensOk s.rxCmdBuf)
    (ht : Takes m s.rxlen s.rxCmdBuf t) : LensOk (rxAfter m s t) := hl.set ht.2.2

/-- What holds of the loop when it was entered with nothing unfinished in the buffers. -/
structure WriteInv (m : Mem) (s : RxState) : Prop where
  cursor : Cursor m s.rxlen
  lensOk : LensOk s.rxCmdBuf
  fresh : Fresh m s.rxlen s.rxCmdBuf
  settled : Settled s.rxCmdBuf ∨ s.rxlen < frameLen m ∧ ¬ Whole (pduAt m s.rxlen)

theorem WriteInv.start (hl : LensOk a) (hs : Settled a) : WriteInv m (rxStart a) :=
  ⟨.start, hl, hs.fresh, Or.inl hs⟩

/-- The step lemma of the writes. -/
theorem WriteInv.step {s s' : RxState} (h : WriteInv m s) (hbody : rxBody m s = .next s') :
    WriteInv m s' := by
  obtain ⟨hlt, t, ht, ⟨hc, rfl⟩ | ⟨hc, rfl⟩⟩ := rxBody_cases hbody
  -- the cursor goes past a whole message, which leaves its buffer settled
  · have hw : Whole (pduAt m s.rxlen) := (completes_iff_whole h.fresh ht).mp hc
    have hs : Settled s.rxCmdBuf := by
      rcases h.settled with hs | ⟨-, hno⟩
      · exact hs
      · exact absurd hw hno
    have hs' : Settled (rxAfter m s t) := settled_of_whole h.fresh hs ht hw
    exact ⟨h.cursor.next hlt hw, lensOk_after h.lensOk ht, hs'.fresh, Or.inl hs'⟩
  -- the cursor stays: the sub-packet has covered its buffer, and will cover it again
  · have hno : ¬ Whole (pduAt m s.rxlen) := fun hw => hc ((completes_iff_whole h.fresh ht).mpr hw)
    exact ⟨h.cursor, lensOk_after h.lensOk ht, fresh_after h.fresh ht, Or.inr ⟨hlt, hno⟩⟩

theorem WriteInv.of_reaches (hl : LensOk a) (hs : Settled a) {s : RxState}
    (h : RxReaches m len a s) : WriteInv m s :=
  Run.invariant (fun _ _ hinv hbody => hinv.step hbody) h.2 (.start hl hs)

/-- A call on one frame writes inside the buffers: in every state of the loop no buffer claims more
    than `HELLO_LEN` bytes, and the sub-packet at the cursor has a known type and a copy length that
    is not negative and ends inside `data` (`Takes`). -/
def SafeFrame (m : Mem) (len : UInt32) (a : AllCmdBuf) : Prop :=
  ∀ s, RxReaches m len a s →
    LensOk s.rxCmdBuf ∧ (s.rxlen < frameLen m → ∃ t, Takes m s.rxlen s.rxCmdBuf t)

/-- The sub-packets that the loop comes to are acceptable. -/
def FrameAcceptable (m : Mem) (len : UInt32) : Prop :=
  rxAccepts m len = true → ∀ p, Cursor m p → p < frameLen m → Acceptable (pduAt m p)

theorem safeFrame_iff (hl : LensOk a) (hs : Settled a) :
    SafeFrame m len a ↔ FrameAcceptable m len := by
  constructor
  · intro hsafe hacc p hcur hlt
    obtain ⟨b, hv, hsb⟩ := hcur.visits hs
    obtain ⟨handled, hreach⟩ := visits_reaches hacc hv
    exact (exists_takes_iff hsb.fresh).mp ((hsafe _ hreach).2 hlt)
  · intro hall s h
    have hinv := WriteInv.of_reaches hl hs h
    exact ⟨hinv.lensOk, fun hlt =>
      (exists_takes_iff hinv.fresh).mpr (hall h.1 _ hinv.cursor hlt)⟩

/-- A call that returns leaves nothing unfinished in the buffers. -/
theorem settled_of_rxCmd (hl : LensOk a) (hs : Settled a) {fuel : Nat} {a' : AllCmdBuf}
    {hds : List (Handler × AllCmdBuf)} (h : rxCmd fuel m len a = some (a', hds)) :
    LensOk a' ∧ Settled a' := by
  cases hacc : rxAccepts m len with
  | false =>
    rw [rxCmd_of_reject hacc] at h
    cases h
    exact ⟨hl, hs⟩
  | true =>
    rw [rxCmd, if_pos hacc] at h
    obtain ⟨s, hexec, hs'⟩ := Option.map_eq_some_iff.mp h
    cases hs'
    obtain ⟨hrun, hexit⟩ := exists_exec_iff.mp ⟨fuel, hexec⟩
    have hinv := WriteInv.of_reaches hl hs ⟨hacc, hrun⟩
    rcases hinv.settled with hset | ⟨hlt, -⟩
    · exact ⟨hinv.lensOk, hset⟩
    · exact absurd hexit (rxBody_ne_exit hlt)

/-- A sequence of frames given to `rx_cmd`, each with its `len`, writes inside the buffers.  A frame
    is received after the call on the frame before it has returned. -/
def SafeRun : AllCmdBuf → List (Mem × UInt32) → Prop
  | _, [] => True
  | a, f :: fs => SafeFrame f.1 f.2 a ∧
      ∀ fuel a' hds, rxCmd fuel f.1 f.2 a = some (a', hds) → SafeRun a' fs

/-- Every frame, up to the first that is not made of whole messages, has acceptable sub-packets
    where the loop comes to them. -/
def FramesOk : List (Mem × UInt32) → Prop
  | [] => True
  | f :: fs => FrameAcceptable f.1 f.2 ∧ (FrameWhole f.1 f.2 → FramesOk fs)

theorem safeRun_iff_of_settled (fs : List (Mem × UInt32)) (hl : LensOk a) (hs : Settled a) :
    SafeRun a fs ↔ FramesOk fs := by
  induction fs generalizing a with
  | nil => exact Iff.rfl
  | cons f fs ih =>
    unfold SafeRun FramesOk
    refine and_congr (safeFrame_iff hl hs) ?_
    rw [← exists_rxCmd_iff_whole hs]
    constructor
    · rintro hrest ⟨fuel, ⟨a', hds⟩, hr⟩
      obtain ⟨hl', hs'⟩ := settled_of_rxCmd hl hs hr
      exact (ih hl' hs').mp (hrest fuel a' hds hr)
    · intro hrest fuel a' hds hr
      obtain ⟨hl', hs'⟩ := settled_of_rxCmd hl hs hr
      exact (ih hl' hs').mpr (hrest ⟨fuel, _, hr⟩)

/-- **Writes**: a sequence of frames, received from `cmd_buf_init` on, writes inside the receive
    buffers iff the sub-packets that the loop comes to are acceptable. -/
theorem safeRun_iff (a : AllCmdBuf) (fs : List (Mem × UInt32)) :
    SafeRun (cmdBufInitRx a) fs ↔ FramesOk fs :=
  safeRun_iff_of_settled fs (fun _ => Nat.zero_le _) fun _ h => h.1 rfl

/-- The first sub-packet as `tx_cmd` sends it, with `sublen` 0: the copy length is negative. -/
theorem not_safeRun_sublen :
    ¬ SafeRun (cmdBufInitRx .zero)
      [(.ofList [0x41, 0x10, 4, 0, 13, 0, 1, 0, 0, 1, 0, 0, 7], 13)] := by
  rintro ⟨hsafe, -⟩
  obtain ⟨t, -, hsub, -⟩ := (hsafe (rxStart (cmdBufInitRx .zero)) ⟨by decide, Run.refl _⟩).2
    (by decide)
  exact absurd hsub (by decide)

end Writes

end AdhocNode
