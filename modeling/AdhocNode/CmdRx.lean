/-
  THE RECEIVE PATH — `rx_cmd_frag_combine`, `rx_check_cmddata_complete` and `rx_cmd` of
  `src/cmd_handle.c`.

  1. **One buffer** — `combineBuf` is the body of `rx_cmd_frag_combine` on the buffer that the
     header selects.  A sub-packet either continues the message in the buffer (`joins`) and is
     appended, or covers the buffer.  The result is `none` where the code is undefined: a negative
     copy length, or a copy past `data[HELLO_LEN)`.  `InRange` says exactly when it is defined
     (`combineBuf_isSome_iff`) and `combined` is then the new buffer (`combineBuf_of_inRange`).

  2. **All buffers** — `rxCmdFragCombine` adds the selection `cmd_buf[cmd_pdu_type]`; a type from
     `MAX_CMD_TYPE` on indexes outside the array, which is undefined too.

  3. **The frame** — `rxBody` is one evaluation of the `while` loop of `rx_cmd`, `rxCmd` the
     function.  `handled` is not in the source: it lists the calls of the handler functions, each
     with the buffers it was given.  `macReads` and `iterReads` are the byte ranges of `macrx_buf`
     that the checks and one iteration read.

  `macrx_buf` is a `Mem` without an end: what lies past the received bytes is whatever the memory
  holds there.  `rxlen` never exceeds `2 * 65535`, so the `int` does not overflow.
-/
import AdhocNode.CmdTypes
import AdhocNode.Lib.WhileLoop

namespace AdhocNode

open CMem WhileLoop

/-! ## One buffer -/

/-- Cover the buffer with a sub-packet (`coverflg`). -/
def coverBuf (cmdPdu : CmdPdu) (data : Mem) (cmdBuf : CmdBuf) : Option CmdBuf :=
  let datalen : Int := (cmdPdu.sublen.toNat : Int) - cmdHdrLen
  (Mem.copyIn? helloLen cmdBuf.data 0 data datalen).map fun d =>
    { len := toU32 datalen, cmdHdr := cmdPdu, data := d }

/-- Append a sub-packet to the buffer. -/
def appendBuf (cmdPdu : CmdPdu) (data : Mem) (cmdBuf : CmdBuf) : Option CmdBuf :=
  let datalen : Int := (cmdPdu.sublen.toNat : Int) - cmdHdrLen
  (Mem.copyIn? helloLen cmdBuf.data cmdBuf.len data datalen).map fun d =>
    { len := toU32 (cmdBuf.len + datalen)
      cmdHdr := { cmdBuf.cmdHdr with fragment := cmdPdu.fragment }
      data := d }

/-- The body of `rx_cmd_frag_combine`, on the selected buffer. -/
def combineBuf (cmdPdu : CmdPdu) (data : Mem) (cmdBuf : CmdBuf) : Option CmdBuf :=
  if cmdBuf.len = 0 then
    coverBuf cmdPdu data cmdBuf
  else if cmdBuf.cmdHdr.firstpkg ∧ cmdBuf.cmdHdr.fragment
      ∧ cmdBuf.cmdHdr.index = cmdPdu.index ∧ ¬ cmdPdu.firstpkg then
    -- an unfinished message is buffered, and the sub-packet counts as its continuation
    appendBuf cmdPdu data cmdBuf
  else
    coverBuf cmdPdu data cmdBuf

/-- The test of `rx_check_cmddata_complete`, on the selected buffer. -/
def CmdBuf.complete (b : CmdBuf) : Bool :=
  decide (b.len ≠ 0) && b.cmdHdr.firstpkg && !b.cmdHdr.fragment

/-- The buffer holds an unfinished message that the sub-packet continues. -/
def joins (b : CmdBuf) (h : CmdPdu) : Prop :=
  b.len ≠ 0 ∧ b.cmdHdr.firstpkg = true ∧ b.cmdHdr.fragment = true ∧ b.cmdHdr.index = h.index ∧
    h.firstpkg = false

instance (b : CmdBuf) (h : CmdPdu) : Decidable (joins b h) :=
  inferInstanceAs (Decidable (_ ∧ _ ∧ _ ∧ _ ∧ _))

/-- Where the sub-packet's payload goes in `data`. -/
def base (b : CmdBuf) (h : CmdPdu) : Nat := if joins b h then b.len else 0

/-- The payload length that `sublen` announces. -/
def CmdPdu.paylen (h : CmdPdu) : Nat := h.sublen.toNat - cmdHdrLen

/-- The sub-packet's copy has a length that is not negative and ends inside `data`. -/
def InRange (b : CmdBuf) (h : CmdPdu) : Prop :=
  cmdHdrLen ≤ h.sublen.toNat ∧ base b h + h.paylen ≤ helloLen

instance (b : CmdBuf) (h : CmdPdu) : Decidable (InRange b h) :=
  inferInstanceAs (Decidable (_ ∧ _))

/-- The buffer after a sub-packet that is in range. -/
def combined (h : CmdPdu) (data : Mem) (b : CmdBuf) : CmdBuf where
  len := base b h + h.paylen
  cmdHdr := if joins b h then { b.cmdHdr with fragment := h.fragment } else h
  data := b.data.copy (base b h) data h.paylen

theorem base_of_joins {b : CmdBuf} {h : CmdPdu} (hj : joins b h) : base b h = b.len := if_pos hj

theorem base_of_not_joins {b : CmdBuf} {h : CmdPdu} (hj : ¬ joins b h) : base b h = 0 := if_neg hj

/-- The two branches of the code are told apart by `joins`. -/
theorem combineBuf_eq (h : CmdPdu) (data : Mem) (b : CmdBuf) :
    combineBuf h data b = if joins b h then appendBuf h data b else coverBuf h data b := by
  unfold combineBuf
  by_cases hlen : b.len = 0
  · have hj : ¬ joins b h := fun hj => hj.1 hlen
    rw [if_pos hlen, if_neg hj]
  · rw [if_neg hlen]
    refine if_congr ?_ rfl rfl
    simp [joins, hlen]

/-- **A sub-packet in range is combined into the buffer.** -/
theorem combineBuf_of_inRange {b : CmdBuf} {h : CmdPdu} (data : Mem) (hr : InRange b h) :
    combineBuf h data b = some (combined h data b) := by
  obtain ⟨hsub, hfit⟩ := hr
  have hlt := h.sublen.toNat_lt
  have hnat : ((h.sublen.toNat : Int) - cmdHdrLen).toNat = h.paylen := by unfold CmdPdu.paylen; omega
  have hpos : (0 : Int) ≤ (h.sublen.toNat : Int) - cmdHdrLen := by omega
  rw [combineBuf_eq]
  unfold combined
  by_cases hj : joins b h
  · rw [base_of_joins hj] at hfit ⊢
    have hu32 : toU32 (b.len + ((h.sublen.toNat : Int) - cmdHdrLen)) = b.len + h.paylen := by
      rw [toU32_of_lt (by omega) (by unfold helloLen at hfit; omega)]; omega
    rw [if_pos hj, if_pos hj, appendBuf, Mem.copyIn?_of_fits hpos (by omega), hu32, hnat]
    rfl
  · rw [base_of_not_joins hj] at hfit ⊢
    have hu32 : toU32 ((h.sublen.toNat : Int) - cmdHdrLen) = 0 + h.paylen := by
      rw [toU32_of_lt hpos (by omega)]; omega
    rw [if_neg hj, if_neg hj, coverBuf, Mem.copyIn?_of_fits hpos (by omega), hu32, hnat]
    rfl

/-- The code is defined on the sub-packets in range and on no others. -/
theorem combineBuf_isSome_iff {b : CmdBuf} {h : CmdPdu} {data : Mem} :
    (combineBuf h data b).isSome ↔ InRange b h := by
  constructor
  · intro hsome
    rw [combineBuf_eq] at hsome
    by_cases hj : joins b h
    · rw [if_pos hj, appendBuf, Option.isSome_map, Option.isSome_iff_exists] at hsome
      obtain ⟨d, hd⟩ := hsome
      obtain ⟨hpos, hfit, -⟩ := Mem.copyIn?_eq_some.mp hd
      refine ⟨by omega, ?_⟩
      rw [base_of_joins hj]; unfold CmdPdu.paylen; omega
    · rw [if_neg hj, coverBuf, Option.isSome_map, Option.isSome_iff_exists] at hsome
      obtain ⟨d, hd⟩ := hsome
      obtain ⟨hpos, hfit, -⟩ := Mem.copyIn?_eq_some.mp hd
      refine ⟨by omega, ?_⟩
      rw [base_of_not_joins hj]; unfold CmdPdu.paylen; omega
  · intro hr
    rw [combineBuf_of_inRange data hr]; rfl

theorem combineBuf_eq_none {b : CmdBuf} {h : CmdPdu} {data : Mem} (hr : ¬ InRange b h) :
    combineBuf h data b = none := by
  rw [← Option.not_isSome_iff_eq_none, combineBuf_isSome_iff]; exact hr

theorem combineBuf_eq_some {b b' : CmdBuf} {h : CmdPdu} {data : Mem} :
    combineBuf h data b = some b' ↔ InRange b h ∧ b' = combined h data b := by
  constructor
  · intro hb
    have hr : InRange b h := combineBuf_isSome_iff.mp (by rw [hb]; rfl)
    rw [combineBuf_of_inRange data hr] at hb
    exact ⟨hr, (Option.some.inj hb).symm⟩
  · rintro ⟨hr, rfl⟩; exact combineBuf_of_inRange data hr

/-- The new content: what the buffer keeps, then the payload. -/
theorem content_combined (h : CmdPdu) (data : Mem) (b : CmdBuf) :
    (combined h data b).content = b.data.slice 0 (base b h) ++ data.slice 0 h.paylen :=
  Mem.slice_copy_append ..

/-- The sub-packet leaves a complete message: it is the last one of the message it continues, or a
    whole message with a payload. -/
def Completes (b : CmdBuf) (h : CmdPdu) : Prop :=
  h.fragment = false ∧ (joins b h ∨ h.firstpkg = true ∧ 0 < h.paylen)

instance (b : CmdBuf) (h : CmdPdu) : Decidable (Completes b h) :=
  inferInstanceAs (Decidable (_ ∧ _))

theorem complete_iff {b : CmdBuf} :
    b.complete = true ↔ b.len ≠ 0 ∧ b.cmdHdr.firstpkg = true ∧ b.cmdHdr.fragment = false := by
  simp [CmdBuf.complete, and_assoc]

theorem complete_combined_iff {b : CmdBuf} {h : CmdPdu} {data : Mem} :
    (combined h data b).complete = true ↔ Completes b h := by
  rw [complete_iff]
  unfold Completes combined
  by_cases hj : joins b h
  · simp only [if_pos hj, base_of_joins hj]
    constructor
    · rintro ⟨-, -, hfrag⟩; exact ⟨hfrag, Or.inl hj⟩
    · rintro ⟨hfrag, -⟩
      have := hj.1
      exact ⟨by omega, hj.2.1, hfrag⟩
  · simp only [if_neg hj, base_of_not_joins hj]
    constructor
    · rintro ⟨hlen, hfirst, hfrag⟩; exact ⟨hfrag, Or.inr ⟨hfirst, by omega⟩⟩
    · rintro ⟨hfrag, hj' | ⟨hfirst, hlen⟩⟩
      · exact absurd hj' hj
      · exact ⟨by omega, hfirst, hfrag⟩

/-! ## All buffers -/

/-- `rx_cmd_frag_combine`. -/
def rxCmdFragCombine (cmdPdu : CmdPdu) (data : Mem) (rxCmdBuf : AllCmdBuf) : Option AllCmdBuf :=
  match CmdType.ofNat? cmdPdu.cmdPduType.toNat with
  | none => none
  | some t => (combineBuf cmdPdu data (rxCmdBuf.cmdBuf t)).map (rxCmdBuf.set t)

/-- `rx_check_cmddata_complete`; `none` when the type indexes outside the array. -/
def rxCheckCmddataComplete (cmdPduType : UInt8) (rxCmdBuf : AllCmdBuf) : Option Bool :=
  (CmdType.ofNat? cmdPduType.toNat).map fun t => (rxCmdBuf.cmdBuf t).complete

theorem rxCmdFragCombine_of_type {h : CmdPdu} {t : CmdType} (ht : h.cmdPduType.toNat = t.toNat)
    (data : Mem) (a : AllCmdBuf) :
    rxCmdFragCombine h data a = (combineBuf h data (a.cmdBuf t)).map (a.set t) := by
  unfold rxCmdFragCombine
  rw [ht, CmdType.ofNat?_toNat]

theorem rxCheckCmddataComplete_of_type {ty : UInt8} {t : CmdType} (ht : ty.toNat = t.toNat)
    (a : AllCmdBuf) : rxCheckCmddataComplete ty a = some (a.cmdBuf t).complete := by
  unfold rxCheckCmddataComplete
  rw [ht, CmdType.ofNat?_toNat]
  rfl

/-! ## The frame -/

/-- The functions that the `switch` of `rx_cmd` calls. -/
inductive Handler where
  | rxHello
  | rxDistBase
  | rxDistRpt
  | cmdTypeErr
  deriving DecidableEq, Repr

/-- The `switch` on `cmd_pdu_type`; its `default` branch prints an error. -/
def dispatch (cmdPduType : UInt8) : Handler :=
  match CmdType.ofNat? cmdPduType.toNat with
  | some .macNodeHello => .rxHello
  | some .distBaseData => .rxDistBase
  | some .distReport => .rxDistRpt
  | none => .cmdTypeErr

/-- The handler of a type. -/
def handlerOf : CmdType → Handler
  | .macNodeHello => .rxHello
  | .distBaseData => .rxDistBase
  | .distReport => .rxDistRpt

theorem dispatch_of_type {ty : UInt8} {t : CmdType} (ht : ty.toNat = t.toNat) :
    dispatch ty = handlerOf t := by
  unfold dispatch
  rw [ht, CmdType.ofNat?_toNat]
  cases t <;> rfl

/-- The locals of `rx_cmd` that its loop changes, and the handler calls made so far. -/
structure RxState where
  rxlen : Nat
  rxCmdBuf : AllCmdBuf
  handled : List (Handler × AllCmdBuf)

/-- The sub-packet header at cursor `rxlen`. -/
def pduAt (macrxBuf : Mem) (rxlen : Nat) : CmdPdu :=
  CmdPdu.read (macrxBuf.shift (sizeofMacPdu + rxlen))

/-- The payload at cursor `rxlen`. -/
def dataAt (macrxBuf : Mem) (rxlen : Nat) : Mem :=
  macrxBuf.shift (sizeofMacPdu + rxlen + cmdHdrLen)

/-- `mac_pdu->mac_frame_len`. -/
def frameLen (macrxBuf : Mem) : Nat := (MacPdu.read macrxBuf).macFrameLen.toNat

/-- One evaluation of the `while` loop. -/
def rxBody (macrxBuf : Mem) (s : RxState) : Step RxState :=
  if s.rxlen < frameLen macrxBuf then
    let cmdPdu := pduAt macrxBuf s.rxlen
    match rxCmdFragCombine cmdPdu (dataAt macrxBuf s.rxlen) s.rxCmdBuf with
    | none => .fault   -- a copy out of bounds, or an unknown type
    | some bufs =>
      match rxCheckCmddataComplete cmdPdu.cmdPduType bufs with
      | none => .fault
      | some false => .next { s with rxCmdBuf := bufs }   -- `continue`: `rxlen` stays
      | some true => .next
          { rxlen := s.rxlen + cmdPdu.sublen.toNat
            rxCmdBuf := bufs
            handled := s.handled ++ [(dispatch cmdPdu.cmdPduType, bufs)] }
  else .exit

/-- The checks of the MAC header before the loop. -/
def rxAccepts (macrxBuf : Mem) (len : UInt32) : Bool :=
  let macPdu := MacPdu.read macrxBuf
  if macPdu.crc ≠ 1 then false
  else if (macPdu.macPduType = 0xAAA ∨ macPdu.macPduType = 0xBBB)
      ∧ macPdu.macFrameLen.toNat ≠ len.toNat then false
  -- no other type has its length checked, the one that `tx_cmd` writes included
  else if macPdu.macPduType = 0xAAB ∧ macPdu.macFrameLen.toNat ≥ len.toNat then false
  else true

/-- The state in which the loop is entered. -/
def rxStart (rxCmdBuf : AllCmdBuf) : RxState := ⟨0, rxCmdBuf, []⟩

/-- `rx_cmd`, with fuel for its loop: the buffers and the handler calls, or `none` when it has not
    returned (more fuel is needed, or the code is undefined). -/
def rxCmd (fuel : Nat) (macrxBuf : Mem) (len : UInt32) (rxCmdBuf : AllCmdBuf) :
    Option (AllCmdBuf × List (Handler × AllCmdBuf)) :=
  if rxAccepts macrxBuf len then
    (exec (rxBody macrxBuf) fuel (rxStart rxCmdBuf)).map fun s => (s.rxCmdBuf, s.handled)
  else some (rxCmdBuf, [])

/-- The states in which an iteration of `rx_cmd`'s loop begins. -/
def RxReaches (macrxBuf : Mem) (len : UInt32) (rxCmdBuf : AllCmdBuf) (s : RxState) : Prop :=
  rxAccepts macrxBuf len = true ∧ Run (rxBody macrxBuf) (rxStart rxCmdBuf) s

/-- The byte ranges (offset, length) of `macrx_buf` that the checks read.  `crc` is read first, and
    alone when it is wrong. -/
def macReads (macrxBuf : Mem) : List (Nat × Nat) :=
  if (MacPdu.read macrxBuf).crc ≠ 1 then [(6, 2)] else [(6, 2), (0, 4), (4, 2)]

/-- The byte ranges of `macrx_buf` that one evaluation of the loop reads: the frame length and, in
    the body, the sub-packet header and the payload that `memcpy` takes (its length is a `size_t`). -/
def iterReads (macrxBuf : Mem) (s : RxState) : List (Nat × Nat) :=
  if s.rxlen < frameLen macrxBuf then
    [(4, 2), (sizeofMacPdu + s.rxlen, cmdHdrLen),
      (sizeofMacPdu + s.rxlen + cmdHdrLen,
        toSize (((pduAt macrxBuf s.rxlen).sublen.toNat : Int) - cmdHdrLen))]
  else [(4, 2)]

end AdhocNode
