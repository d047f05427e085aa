/-
  THE LINK — sender and receiver together, over a channel that loses and reorders nothing.

  1. **The system** — `LinkOp` is a message loaded into a send buffer, or a call of `tx_cmd` whose
     frame, if it produces one, is handed to `rx_cmd`.  A message is loaded as `tx_cmd_indata` does
     it, only into a buffer that has nothing left to send.  A `Link` is the state of both parties,
     with the messages fully sent and the messages reported so far, by type.

  2. **The round trip** (`RoundTrip`) — every `rx_cmd` call returns, and after it the messages
     reported are the messages fully sent.

  3. **What the code does** (`roundTrip_iff`) — the header of a sub-packet is copied before `sublen`
     is set, so the first frame after a load announces a sub-packet of 0 bytes.  The receiver
     computes a negative copy length from it.  The round trip holds as long as no `tx_cmd` call
     follows a load, that is, as long as nothing is sent.
-/
import AdhocNode.CmdTx
import AdhocNode.RxFrame

namespace AdhocNode

open CMem WhileLoop Packing

/-! ## The system -/

/-- A step of the system. -/
inductive LinkOp where
  | load (t : CmdType) (msg : Message)
  | tx (maxMaclen : UInt32) (mactxBuf : Mem)
      (limit : sizeofMacPdu + cmdHdrLen + 1 ≤ maxMaclen.toNat)

/-- The step loads a message. -/
def LinkOp.isLoad : LinkOp → Bool
  | .load .. => true
  | .tx .. => false

/-- The state of both parties: their buffers, the message last loaded for each type, and the
    messages fully sent and reported. -/
structure Link where
  txBuf : AllCmdBuf
  rxBuf : AllCmdBuf
  loaded : CmdType → List UInt8
  sent : CmdType → List (List UInt8)
  got : CmdType → List (List UInt8)

namespace Link

/-- Both parties after `cmd_buf_init`. -/
def start (a b : AllCmdBuf) : Link where
  txBuf := cmdBufInitTx a
  rxBuf := cmdBufInitRx b
  loaded _ := []
  sent _ := []
  got _ := []

/-- Load a message, if the buffer has sent all it had. -/
def load (t : CmdType) (msg : Message) (l : Link) : Link :=
  if txCheckIsgetCmd (l.txBuf.cmdBuf t) then
    { l with
      txBuf := l.txBuf.set t ((l.txBuf.cmdBuf t).load msg)
      loaded := Function.update l.loaded t msg.bytes }
  else l

/-- The messages of type `t` that a list of handler calls reports. -/
def reported (t : CmdType) (hds : List (Handler × AllCmdBuf)) : List (List UInt8) :=
  (hds.filter (·.1 = handlerOf t)).map fun h => (h.2.cmdBuf t).content

/-- After a frame was sent and received. -/
def deliver (txBuf rxBuf : AllCmdBuf) (hds : List (Handler × AllCmdBuf)) (l : Link) : Link where
  txBuf := txBuf
  rxBuf := rxBuf
  loaded := l.loaded
  sent t :=
    if (l.txBuf.cmdBuf t).len ≠ 0 ∧ (txBuf.cmdBuf t).len = 0 then l.sent t ++ [l.loaded t]
    else l.sent t
  got t := l.got t ++ reported t hds

end Link

/-- Every frame that is produced is received: `rx_cmd` returns, and has then reported exactly the
    messages fully sent, in their order. -/
def RoundTrip : Link → List LinkOp → Prop
  | _, [] => True
  | l, .load t msg :: ops => RoundTrip (l.load t msg) ops
  | l, .tx maxMaclen mactxBuf _ :: ops =>
    ∃ s ret, txCmd maxMaclen l.txBuf mactxBuf = some (s, ret) ∧
      if s.wlen = sizeofMacPdu then RoundTrip { l with txBuf := s.allCmd } ops
      else ∃ fuel rxBuf hds,
        rxCmd fuel s.mactxBuf (UInt32.ofNat (frameLen s.mactxBuf)) l.rxBuf = some (rxBuf, hds) ∧
        (∀ t, (l.deliver s.allCmd rxBuf hds).got t = (l.deliver s.allCmd rxBuf hds).sent t) ∧
        RoundTrip (l.deliver s.allCmd rxBuf hds) ops

/-! ## The first frame -/

section FirstFrame

variable {maxMaclen : UInt32} {a : AllCmdBuf} {m : Mem} {s : TxState}

/-- A frame that `tx_cmd` wrote passes the checks of `rx_cmd`. -/
theorem TxSpec.accepted (h : TxSpec maxMaclen a m s) (hne : s.sent ≠ []) (len : UInt32) :
    rxAccepts s.mactxBuf len = true := by
  unfold rxAccepts
  rw [h.macPdu hne]
  simp [txMacPdu]

/-- Its first sub-packet follows the MAC header, and begins with a buffer's header. -/
theorem TxSpec.exists_pduAt_zero (h : TxSpec maxMaclen a m s) (hne : s.sent ≠ []) :
    ∃ t, pduAt s.mactxBuf 0 = (a.cmdBuf t).cmdHdr := by
  have hpacked := h.packed
  cases hsent : s.sent with
  | nil => exact absurd hsent hne
  | cons p ps =>
    rw [hsent] at hpacked
    have hmem : p ∈ s.sent := hsent ▸ List.mem_cons_self ..
    have hsize : cmdHdrLen < p.size := lt_size_of_mem_plan (h.sent ▸ hmem)
    refine ⟨p.key, (CmdPdu.read_congr fun i hi => ?_).trans (a.cmdBuf p.key).read_image⟩
    show s.mactxBuf (sizeofMacPdu + 0 + i) = _
    rw [Nat.add_zero, ← hpacked.1]
    exact h.items p hmem i (by omega)

/-- **A sub-packet that announces 0 bytes is undefined for the receiver.** -/
theorem rxCmd_of_sublen_zero {len : UInt32} (hacc : rxAccepts m len = true) (hlt : 0 < frameLen m)
    (hsub : (pduAt m 0).sublen = 0) (fuel : Nat) (b : AllCmdBuf) : rxCmd fuel m len b = none := by
  have hbody : rxBody m (rxStart b) = .fault := by
    refine rxBody_fault hlt ?_
    rintro t ⟨-, hle, -⟩
    rw [show (pduAt m (rxStart b).rxlen).sublen = 0 from hsub] at hle
    exact absurd hle (by decide)
  rw [rxCmd, if_pos hacc]
  cases fuel with
  | zero => rfl
  | succ fuel => rw [exec, hbody]; rfl

end FirstFrame

/-! ## Runs -/

section Runs

variable {l : Link} {ops : List LinkOp}

/-- The send buffers have nothing to send. -/
def Link.Idle (l : Link) : Prop := ∀ t, (l.txBuf.cmdBuf t).len = 0

/-- No sub-packet of what is in the send buffers has been sent. -/
structure Link.Unsent (l : Link) : Prop where
  lensOk : LensOk l.txBuf
  sublen : ∀ t, (l.txBuf.cmdBuf t).cmdHdr.sublen = 0

theorem Link.Unsent.load (h : l.Unsent) (t : CmdType) (msg : Message) : (l.load t msg).Unsent := by
  unfold Link.load
  split
  · refine ⟨h.lensOk.set msg.fits, fun u => ?_⟩
    rw [AllCmdBuf.cmdBuf_set]
    split
    · rfl
    · exact h.sublen u
  · exact h

/-- After a load something is to be sent. -/
theorem Link.not_idle_load (t : CmdType) (msg : Message) (l : Link) : ¬ (l.load t msg).Idle := by
  intro h
  have hlen := h t
  unfold Link.load txCheckIsgetCmd at hlen
  split at hlen
  · rw [AllCmdBuf.cmdBuf_set_self] at hlen
    exact msg.length_ne_zero hlen
  · rename_i hno
    exact hno (decide_eq_true hlen)

/-- A first frame is not received. -/
theorem not_roundTrip_tx (hidle : ¬ l.Idle) (h : l.Unsent) {maxMaclen : UInt32} (m : Mem)
    (limit : sizeofMacPdu + cmdHdrLen + 1 ≤ maxMaclen.toNat) :
    ¬ RoundTrip l (.tx maxMaclen m limit :: ops) := by
  have hmax : sizeofMacPdu ≤ maxMaclen.toNat := by omega
  obtain ⟨s, ret, hs, hspec⟩ := txCmd_spec h.lensOk hmax m
  have hsent : s.sent ≠ [] := by
    obtain ⟨t, ht⟩ := not_forall.mp hidle
    rw [hspec.sent]
    exact plan_ne_nil (by omega) ⟨t, t.mem_all, ht⟩
  have hframe : frameLen s.mactxBuf = s.wlen := hspec.macFrameLen_eq h.lensOk hsent
  have hwlen : s.wlen ≠ sizeofMacPdu := fun heq => hsent (hspec.wlen_eq_iff.mp heq)
  have hpos : 0 < frameLen s.mactxBuf := by
    rw [hframe, hspec.wlen]; unfold sizeofMacPdu; omega
  have hsub : (pduAt s.mactxBuf 0).sublen = 0 := by
    obtain ⟨t, ht⟩ := hspec.exists_pduAt_zero hsent
    rw [ht]; exact h.sublen t
  -- the frame is accepted, and its first sub-packet makes the receiver copy -4 bytes
  rintro ⟨s', ret', hs', hrest⟩
  rw [hs] at hs'
  cases hs'
  rw [if_neg hwlen] at hrest
  obtain ⟨fuel, rxBuf, hds, hrx, -⟩ := hrest
  rw [rxCmd_of_sublen_zero (hspec.accepted hsent _) hpos hsub] at hrx
  cases hrx

/-- With something loaded, the round trip holds only if nothing more than loads follows. -/
theorem roundTrip_iff_of_loaded (hidle : ¬ l.Idle) (h : l.Unsent) :
    RoundTrip l ops ↔ ∀ op ∈ ops, op.isLoad = true := by
  induction ops generalizing l with
  | nil => exact ⟨fun _ => nofun, fun _ => trivial⟩
  | cons op ops ih =>
    rw [List.forall_mem_cons]
    cases op with
    | load t msg =>
      rw [RoundTrip, ih (l.not_idle_load t msg) (h.load t msg)]
      exact (and_iff_right rfl).symm
    | tx maxMaclen m limit =>
      exact ⟨fun hrt => absurd hrt (not_roundTrip_tx hidle h m limit), fun hall => nomatch hall.1⟩

theorem roundTrip_iff_of_idle (hidle : l.Idle) (h : l.Unsent) :
    RoundTrip l ops ↔ ops.Pairwise fun x y => x.isLoad = true → y.isLoad = true := by
  induction ops generalizing l with
  | nil => exact ⟨fun _ => .nil, fun _ => trivial⟩
  | cons op ops ih =>
    rw [List.pairwise_cons]
    cases op with
    | load t msg =>
      rw [RoundTrip, roundTrip_iff_of_loaded (l.not_idle_load t msg) (h.load t msg)]
      constructor
      · intro hall
        exact ⟨fun y hy _ => hall y hy,
          List.pairwise_of_forall_mem_list fun x _ y hy _ => hall y hy⟩
      · rintro ⟨hall, -⟩ y hy
        exact hall y hy rfl
    | tx maxMaclen m limit =>
      have hmax : sizeofMacPdu ≤ maxMaclen.toNat := by omega
      have hs := txCmd_of_idle hidle maxMaclen m
      have hrt : RoundTrip l (.tx maxMaclen m limit :: ops) ↔ RoundTrip l ops := by
        constructor
        · rintro ⟨s', ret', hs', hrest⟩
          rw [hs] at hs'
          cases hs'
          rw [if_pos rfl] at hrest
          exact hrest
        · intro hrest
          refine ⟨_, _, hs, ?_⟩
          rw [if_pos rfl]
          exact hrest
      rw [hrt, ih hidle h]
      exact (and_iff_right fun _ _ hload => nomatch hload).symm

theorem Link.idle_start (a b : AllCmdBuf) : (Link.start a b).Idle := fun _ => rfl

theorem Link.unsent_start (a b : AllCmdBuf) : (Link.start a b).Unsent :=
  ⟨fun _ => Nat.zero_le _, fun _ => rfl⟩

end Runs

/-- **The round trip** from `cmd_buf_init` on holds iff no `tx_cmd` call comes after a load. -/
theorem roundTrip_iff (a b : AllCmdBuf) (ops : List LinkOp) :
    RoundTrip (.start a b) ops ↔
      ops.Pairwise fun x y => x.isLoad = true → y.isLoad = true :=
  roundTrip_iff_of_idle (Link.idle_start a b) (Link.unsent_start a b)

/-- One byte, loaded and sent in a frame that has room for all of it, never arrives. -/
theorem not_roundTrip_byte :
    ¬ RoundTrip (.start .zero .zero)
      [.load .macNodeHello ⟨[7], by decide, by decide⟩, .tx 100 (.ofList []) (by decide)] := by
  intro h
  rw [RoundTrip] at h
  exact not_roundTrip_tx (Link.not_idle_load _ _ _) ((Link.unsent_start _ _).load _ _) _ _ h

end AdhocNode
