/-
  MERGED PACKETS — frames of whole messages, received by `rx_cmd` into one set of receive buffers.

  1. **The format** — a merged packet (type 0xAAB) whose `mac_frame_len` counts its sub-packets and
     not the MAC header, and whose sub-packets each hold a whole message (`mergedFrame`).

  2. **The round trip** (`rxCmd_merged`) — `rx_cmd` takes the messages out again, one handler call for
     each, whatever its buffers held before, and whatever lies behind the frame.

  3. **Runs** (`frames_receive`) — any number of frames, one after the other, into the same buffers:
     the handlers see all the messages in their order, and the last one of each type stays in its
     buffer.
-/
import AdhocNode.RxTypes
import AdhocNode.Link

namespace AdhocNode

open CMem WhileLoop Runs

/-! ## The format -/

/-- A message that is sent in one piece, with its type and number. -/
structure WholeMsg where
  type : CmdType
  index : Fin 64
  msg : Message

namespace WholeMsg

/-- Its sub-packet header: a first fragment that is also the last. -/
def header (w : WholeMsg) : CmdPdu where
  cmdPduType := UInt8.ofNat w.type.toNat
  firstpkg := true
  fragment := false
  index := w.index
  sublen := UInt16.ofNat (cmdHdrLen + w.msg.bytes.length)

/-- The bytes of its sub-packet. -/
def subPacket (w : WholeMsg) : List UInt8 := w.header.image.slice 0 cmdHdrLen ++ w.msg.bytes

/-- The buffer of its type when it has been received. -/
def received (w : WholeMsg) (b : CmdBuf) : CmdBuf := combined w.header (.ofList w.msg.bytes) b

/-- The 16 bits hold the length of every message. -/
theorem sublen_header (w : WholeMsg) : w.header.sublen.toNat = cmdHdrLen + w.msg.bytes.length := by
  have hfits := w.msg.fits
  show (UInt16.ofNat _).toNat = _
  rw [UInt16.toNat_ofNat']
  apply Nat.mod_eq_of_lt
  unfold helloLen at hfits
  unfold cmdHdrLen
  omega

theorem paylen_header (w : WholeMsg) : w.header.paylen = w.msg.bytes.length := by
  rw [CmdPdu.paylen, sublen_header, Nat.add_sub_cancel_left]

/-- The sub-packet has as many bytes as its header announces. -/
theorem length_subPacket (w : WholeMsg) : w.subPacket.length = cmdHdrLen + w.msg.bytes.length := by
  rw [subPacket, List.length_append, Mem.length_slice]

theorem type_header (w : WholeMsg) : w.header.cmdPduType.toNat = w.type.toNat := by
  have hlt := w.type.toNat_lt
  show (UInt8.ofNat _).toNat = _
  rw [UInt8.toNat_ofNat']
  apply Nat.mod_eq_of_lt
  unfold maxCmdType at hlt
  omega

/-- A first fragment is never joined to what a buffer holds, -/
theorem not_joins (w : WholeMsg) (b : CmdBuf) : ¬ joins b w.header := fun hj => by
  exact Bool.noConfusion hj.2.2.2.2

/-- so every buffer has room for it, -/
theorem inRange (w : WholeMsg) (b : CmdBuf) : InRange b w.header := by
  refine ⟨?_, ?_⟩
  · rw [sublen_header]
    exact Nat.le_add_right ..
  · rw [base_of_not_joins (w.not_joins b), paylen_header, Nat.zero_add]
    exact w.msg.fits

/-- and it completes a message at once, -/
theorem completes (w : WholeMsg) (b : CmdBuf) : Completes b w.header := by
  refine ⟨rfl, Or.inr ⟨rfl, ?_⟩⟩
  rw [paylen_header]
  exact Nat.pos_of_ne_zero w.msg.length_ne_zero

/-- which is the content of the buffer then. -/
theorem content_received (w : WholeMsg) (b : CmdBuf) : (w.received b).content = w.msg.bytes := by
  rw [received, content_combined, base_of_not_joins (w.not_joins b), paylen_header]
  exact Mem.slice_ofList _

end WholeMsg

/-- The sub-packets of some messages, one behind the other. -/
def subPacketBytes (ws : List WholeMsg) : List UInt8 := ws.flatMap WholeMsg.subPacket

/-- The MAC header of a merged packet. -/
def mergedHeader (ws : List WholeMsg) : MacPdu :=
  ⟨0xAAB, UInt16.ofNat (subPacketBytes ws).length, 1⟩

/-- The bytes of the packet. -/
def mergedFrame (ws : List WholeMsg) : List UInt8 :=
  (mergedHeader ws).image.slice 0 sizeofMacPdu ++ subPacketBytes ws

theorem subPacketBytes_append (ws us : List WholeMsg) :
    subPacketBytes (ws ++ us) = subPacketBytes ws ++ subPacketBytes us := List.flatMap_append

theorem subPacketBytes_cons (w : WholeMsg) (ws : List WholeMsg) :
    subPacketBytes (w :: ws) = w.subPacket ++ subPacketBytes ws := List.flatMap_cons

/-- Every sub-packet has bytes. -/
theorem length_le_subPacketBytes (ws : List WholeMsg) : ws.length ≤ (subPacketBytes ws).length := by
  induction ws with
  | nil => exact Nat.le_refl _
  | cons w ws ih =>
    have hpos : 0 < w.subPacket.length := by
      rw [w.length_subPacket]
      exact Nat.lt_of_lt_of_le (by decide) (Nat.le_add_right cmdHdrLen _)
    rw [subPacketBytes_cons, List.length_append, List.length_cons]
    omega

/-! ## The round trip -/

section Frame

variable {m : Mem} {ws us : List WholeMsg} {w : WholeMsg} {off : Nat} {x y : List UInt8}

/-- Two parts of what is read are read one behind the other. -/
theorem slice_split (h : m.slice off (x ++ y).length = x ++ y) :
    m.slice off x.length = x ∧ m.slice (off + x.length) y.length = y := by
  rw [List.length_append, Mem.slice_add] at h
  exact List.append_inj h (Mem.length_slice ..)

/-- Bytes that are read as a list are those of the list's memory. -/
theorem eq_of_slice_eq {m' : Mem} {off' n : Nat} (h : m.slice off n = m'.slice off' n) {i : Nat}
    (hi : i < n) : m (off + i) = m' (off' + i) := by
  have hbyte := Mem.getD_slice m off hi
  rw [h, Mem.getD_slice m' off' hi] at hbyte
  exact hbyte.symm

/-- The memory begins with a merged packet of these messages. -/
def HoldsMsgs (m : Mem) (ws : List WholeMsg) : Prop :=
  m.slice 0 (mergedFrame ws).length = mergedFrame ws

/-- The MAC header is the one of the packet, -/
theorem HoldsMsgs.macPdu (h : HoldsMsgs m ws) : MacPdu.read m = mergedHeader ws := by
  have hslice := (slice_split h).1
  rw [Mem.length_slice] at hslice
  rw [← MacPdu.read_image (mergedHeader ws)]
  apply MacPdu.read_congr
  intro i hi
  have hbyte := eq_of_slice_eq hslice hi
  rwa [Nat.zero_add] at hbyte

/-- and the loop runs over all of its sub-packets. -/
theorem HoldsMsgs.frameLen_eq (h : HoldsMsgs m ws) (hlen : (subPacketBytes ws).length < 2 ^ 16) :
    frameLen m = (subPacketBytes ws).length := by
  rw [frameLen, h.macPdu]
  show (UInt16.ofNat _).toNat = _
  rw [UInt16.toNat_ofNat']
  exact Nat.mod_eq_of_lt hlen

/-- The sub-packet behind the first ones. -/
theorem HoldsMsgs.subPacket (h : HoldsMsgs m (ws ++ w :: us)) :
    pduAt m (subPacketBytes ws).length = w.header ∧
      (dataAt m (subPacketBytes ws).length).slice 0 w.header.paylen = w.msg.bytes := by
  have hbytes := (slice_split h).2
  rw [Mem.length_slice, subPacketBytes_append, subPacketBytes_cons] at hbytes
  have hrest := (slice_split (slice_split hbytes).2).1
  have hhdr := slice_split hrest
  rw [Mem.length_slice, Nat.zero_add] at hhdr
  constructor
  · rw [← CmdPdu.read_image w.header]
    apply CmdPdu.read_congr
    intro i hi
    have hbyte := eq_of_slice_eq hhdr.1 hi
    rw [Nat.zero_add] at hbyte
    exact hbyte
  · rw [w.paylen_header]
    refine (Mem.slice_congr fun i _ => ?_).trans hhdr.2
    show m (sizeofMacPdu + (subPacketBytes ws).length + cmdHdrLen + (0 + i)) = _
    rw [Nat.zero_add]

/-- What `rx_cmd` does with the messages: the buffers, and the handler calls. -/
def receiveAll : List WholeMsg → AllCmdBuf → AllCmdBuf × List (Handler × AllCmdBuf)
  | [], a => (a, [])
  | w :: ws, a =>
    let a' := a.set w.type (w.received (a.cmdBuf w.type))
    ((receiveAll ws a').1, (handlerOf w.type, a') :: (receiveAll ws a').2)

/-- One iteration takes one message. -/
theorem HoldsMsgs.step (h : HoldsMsgs m (ws ++ w :: us))
    (hlen : (subPacketBytes (ws ++ w :: us)).length < 2 ^ 16) (a : AllCmdBuf)
    (hds : List (Handler × AllCmdBuf)) :
    rxBody m ⟨(subPacketBytes ws).length, a, hds⟩ =
      .next ⟨(subPacketBytes (ws ++ [w])).length, a.set w.type (w.received (a.cmdBuf w.type)),
        hds ++ [(handlerOf w.type, a.set w.type (w.received (a.cmdBuf w.type)))]⟩ := by
  rcases h.subPacket with ⟨hpdu, hpay⟩
  have hlt : (subPacketBytes ws).length < frameLen m := by
    have hsub := w.length_subPacket
    rw [h.frameLen_eq hlen, subPacketBytes_append, subPacketBytes_cons, List.length_append, List.length_append]
    unfold cmdHdrLen at hsub
    omega
  have htakes : Takes m (subPacketBytes ws).length a w.type := by
    unfold Takes
    rw [hpdu]
    exact ⟨w.type_header, w.inRange _⟩
  have hcompletes : Completes (a.cmdBuf w.type) (pduAt m (subPacketBytes ws).length) := by
    rw [hpdu]
    exact w.completes _
  have hafter : rxAfter m ⟨(subPacketBytes ws).length, a, hds⟩ w.type =
      a.set w.type (w.received (a.cmdBuf w.type)) := by
    have hpay' : (dataAt m (subPacketBytes ws).length).slice 0 w.header.paylen =
        (Mem.ofList w.msg.bytes).slice 0 w.header.paylen := by
      rw [hpay, w.paylen_header]
      exact (Mem.slice_ofList _).symm
    have hcomb := combineBuf_congr hpay' (a.cmdBuf w.type)
    rw [combineBuf_of_inRange _ (w.inRange _), combineBuf_of_inRange _ (w.inRange _)] at hcomb
    show a.set w.type (combined (pduAt m (subPacketBytes ws).length) _ _) = _
    rw [hpdu]
    exact congrArg (a.set w.type) (Option.some.inj hcomb)
  have hbody := rxBody_advance (s := ⟨(subPacketBytes ws).length, a, hds⟩) hlt htakes hcompletes
  rw [hbody, hafter]
  show Step.next (RxState.mk ((subPacketBytes ws).length +
    (pduAt m (subPacketBytes ws).length).sublen.toNat) _ _) = _
  rw [hpdu, w.sublen_header, ← w.length_subPacket, ← List.length_append, subPacketBytes_append]
  simp [subPacketBytes]

/-- The loop from one of the messages on. -/
theorem HoldsMsgs.loop (h : HoldsMsgs m (ws ++ us))
    (hlen : (subPacketBytes (ws ++ us)).length < 2 ^ 16) (a : AllCmdBuf)
    (hds : List (Handler × AllCmdBuf)) {fuel : Nat} (hfuel : us.length < fuel) :
    exec (rxBody m) fuel ⟨(subPacketBytes ws).length, a, hds⟩ =
      some ⟨(subPacketBytes (ws ++ us)).length, (receiveAll us a).1, hds ++ (receiveAll us a).2⟩ := by
  induction us generalizing ws a hds fuel with
  | nil =>
    cases fuel with
    | zero => cases hfuel
    | succ fuel =>
      rw [List.append_nil] at h hlen ⊢
      have hexit : rxBody m ⟨(subPacketBytes ws).length, a, hds⟩ = .exit :=
        rxBody_exit (Nat.le_of_eq (h.frameLen_eq hlen))
      rw [exec, hexit]
      simp [receiveAll]
  | cons w us ih =>
    cases fuel with
    | zero => cases hfuel
    | succ fuel =>
      have hbody := h.step hlen a hds
      have happend : ws ++ [w] ++ us = ws ++ w :: us := by simp
      rw [← happend] at h hlen ⊢
      rw [exec, hbody]
      show exec (rxBody m) fuel _ = _
      rw [ih h hlen _ _ (Nat.lt_of_succ_lt_succ hfuel), List.append_assoc hds]
      rfl

/-- **The round trip of a merged packet**: each message is handed to the handler of its type, in order,
    as its buffer's content; nothing that was in the buffers and nothing behind the frame counts. -/
theorem rxCmd_merged (h : HoldsMsgs m ws) (hlen : (subPacketBytes ws).length < 2 ^ 16) (a : AllCmdBuf)
    {fuel : Nat} (hfuel : ws.length < fuel) :
    rxCmd fuel m (UInt32.ofNat (mergedFrame ws).length) a = some (receiveAll ws a) := by
  have hacc : rxAccepts m (UInt32.ofNat (mergedFrame ws).length) = true := by
    have hframe : (mergedFrame ws).length = 8 + (subPacketBytes ws).length := by
      rw [mergedFrame, List.length_append, Mem.length_slice]
      rfl
    unfold rxAccepts
    rw [h.macPdu]
    simp only [mergedHeader, hframe]
    rw [UInt16.toNat_ofNat', UInt32.toNat_ofNat', Nat.mod_eq_of_lt hlen, Nat.mod_eq_of_lt (by omega)]
    simp
  have hstart : HoldsMsgs m ([] ++ ws) := h
  have hexec := hstart.loop hlen a [] hfuel
  rw [rxCmd, if_pos hacc]
  exact congrArg (Option.map _) hexec

end Frame

/-! ## Runs -/

/-- The messages of one type among some messages. -/
def messagesOf (t : CmdType) (ws : List WholeMsg) : List (List UInt8) :=
  (ws.filter fun w => decide (w.type = t)).map fun w => w.msg.bytes

theorem messagesOf_cons (t : CmdType) (w : WholeMsg) (ws : List WholeMsg) :
    messagesOf t (w :: ws) = if w.type = t then w.msg.bytes :: messagesOf t ws else messagesOf t ws := by
  unfold messagesOf
  rw [List.filter_cons]
  by_cases ht : w.type = t
  · simp [ht]
  · simp [ht]

/-- Every type has a handler of its own. -/
theorem handlerOf_inj {t u : CmdType} (h : handlerOf t = handlerOf u) : t = u := by
  cases t <;> cases u <;> first | rfl | cases h

/-- The handlers see the messages, and the last one of each type stays in its buffer. -/
theorem reported_receiveAll (ws : List WholeMsg) (a : AllCmdBuf) (t : CmdType) :
    Link.reported t (receiveAll ws a).2 = messagesOf t ws ∧
      ((receiveAll ws a).1.cmdBuf t).content = (messagesOf t ws).getLastD (a.cmdBuf t).content := by
  induction ws generalizing a with
  | nil => exact ⟨rfl, rfl⟩
  | cons w ws ih =>
    rcases ih (a.set w.type (w.received (a.cmdBuf w.type))) with ⟨hrep, hbuf⟩
    rw [messagesOf_cons]
    by_cases ht : w.type = t
    · subst ht
      rw [AllCmdBuf.cmdBuf_set_self, w.content_received] at hbuf
      rw [if_pos rfl]
      refine ⟨?_, hbuf.trans ?_⟩
      · rw [← hrep]
        simp [Link.reported, receiveAll, w.content_received]
      · rw [List.getLastD_cons]
    · rw [AllCmdBuf.cmdBuf_set_of_ne (Ne.symm ht)] at hbuf
      rw [if_neg ht]
      refine ⟨?_, hbuf⟩
      rw [← hrep]
      have hne : handlerOf w.type ≠ handlerOf t := fun heq => ht (handlerOf_inj heq)
      simp [Link.reported, receiveAll, hne]

/-- The handlers are called in the order of the messages. -/
theorem map_fst_receiveAll (ws : List WholeMsg) (a : AllCmdBuf) :
    (receiveAll ws a).2.map Prod.fst = ws.map fun w => handlerOf w.type := by
  induction ws generalizing a with
  | nil => rfl
  | cons w ws ih => exact congrArg (handlerOf w.type :: ·) (ih _)

/-- What comes in two parts is received in the same way. -/
theorem receiveAll_append (ws us : List WholeMsg) (a : AllCmdBuf) :
    receiveAll (ws ++ us) a = ((receiveAll us (receiveAll ws a).1).1,
      (receiveAll ws a).2 ++ (receiveAll us (receiveAll ws a).1).2) := by
  induction ws generalizing a with
  | nil => rfl
  | cons w ws ih => simp only [List.cons_append, receiveAll, ih]

/-- A memory that begins with a merged packet. -/
structure MergedPacket where
  msgs : List WholeMsg
  macrxBuf : Mem
  carries : HoldsMsgs macrxBuf msgs
  fits : (subPacketBytes msgs).length < 2 ^ 16

/-- A call of `rx_cmd` with a packet, together with the handler calls of those before; it has enough
    iterations for every frame that ends. -/
def rxPacket (f : MergedPacket) (s : AllCmdBuf × List (Handler × AllCmdBuf)) :
    Option (AllCmdBuf × List (Handler × AllCmdBuf)) :=
  (rxCmd (frameLen f.macrxBuf + 1) f.macrxBuf (UInt32.ofNat (mergedFrame f.msgs).length) s.1).map
    fun r => (r.1, s.2 ++ r.2)

/-- **Packet after packet** is what all their messages would be in one. -/
theorem run_rxPacket (fs : List MergedPacket) (a : AllCmdBuf) (hds : List (Handler × AllCmdBuf)) :
    run rxPacket (a, hds) fs =
      some ((receiveAll (fs.flatMap MergedPacket.msgs) a).1,
        hds ++ (receiveAll (fs.flatMap MergedPacket.msgs) a).2) := by
  induction fs generalizing a hds with
  | nil => exact congrArg (fun l => some (a, l)) (List.append_nil hds).symm
  | cons f fs ih =>
    have hfuel : f.msgs.length < frameLen f.macrxBuf + 1 := by
      rw [f.carries.frameLen_eq f.fits]
      exact Nat.lt_succ_of_le (length_le_subPacketBytes _)
    have hstep : rxPacket f (a, hds) = some ((receiveAll f.msgs a).1, hds ++ (receiveAll f.msgs a).2) := by
      rw [rxPacket, rxCmd_merged f.carries f.fits a hfuel]
      rfl
    rw [run_cons hstep, ih, List.flatMap_cons, receiveAll_append, List.append_assoc]

/-- **Any number of frames**, whatever the buffers held before: all of them are received, the handlers
    are called in the order of the messages, each is given its messages completely and in their order,
    and the last one of each type stays in its buffer. -/
theorem frames_receive (fs : List MergedPacket) (a : AllCmdBuf) :
    ∃ a' hds, run rxPacket (a, []) fs = some (a', hds) ∧
      hds.map Prod.fst = (fs.flatMap MergedPacket.msgs).map (fun w => handlerOf w.type) ∧
      ∀ t, Link.reported t hds = messagesOf t (fs.flatMap MergedPacket.msgs) ∧
        (a'.cmdBuf t).content =
          (messagesOf t (fs.flatMap MergedPacket.msgs)).getLastD (a.cmdBuf t).content :=
  ⟨_, _, run_rxPacket fs a [], map_fst_receiveAll _ _, fun t => reported_receiveAll _ a t⟩

end AdhocNode
