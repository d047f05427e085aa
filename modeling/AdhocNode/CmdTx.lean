/-
  THE SEND PATH — `tx_cmd` of `src/cmd_handle.c` and the functions that load a send buffer.

  1. **The program** — `txLoop` is the `for` loop over the types, `txSub` the copy of one sub-packet
     and the update of its buffer, `txCmd` the function.  `memcpy` starts at `&cmd_hdr`, so it takes
     the header and then `data` from byte 0 on, as they are before the update.  The integer
     conversions are C's: `max_maclen - wlen` is computed in `unsigned int`, stored in an `int`, and
     compared as a `size_t`.  A copy longer than a header and `HELLO_LEN` bytes reads past the
     buffer, which is undefined (`none`).  `sent` is not in the source: it lists the sub-packets
     that were copied.

  2. **One call** (`txCmd_spec`) — for a frame with room for a MAC header and buffers that claim no
     more than they have, `tx_cmd` is greedy packing (`Lib.Packing`): the conversions never bite,
     the sub-packets are those of `plan`, each one lies in the frame as header and data of its
     buffer, and a buffer that sent `n` bytes is `CmdBuf.after n`.  Whatever the limit, a round of the
     loop is a share of the room that the code computes (`codeRoom`, `txLoop_round`), so the call is
     defined (`txCmd_total`).
-/
import AdhocNode.CmdTypes
import AdhocNode.Lib.Packing

namespace AdhocNode

open CMem Packing

/-! ## The program -/

/-- The memory from `&cmd_buf->cmd_hdr` on. -/
def CmdBuf.image (b : CmdBuf) : Mem := fun i =>
  if i < cmdHdrLen then b.cmdHdr.image i else b.data (i - cmdHdrLen)

/-- The locals of `tx_cmd` that its loop changes, and the sub-packets copied so far. -/
structure TxState where
  wlen : Nat
  allCmd : AllCmdBuf
  mactxBuf : Mem
  sent : List (Item CmdType)

/-- The update of a buffer of which a sub-packet was copied. -/
def txUpdate (sublen : Int) (b : CmdBuf) : CmdBuf :=
  let len := toU32 (b.len - (sublen - cmdHdrLen))
  { b with
    len := len
    cmdHdr := { b.cmdHdr with
      firstpkg := false, fragment := decide (len ≠ 0), sublen := UInt16.ofNat (toU16 sublen) } }

/-- Copy `sublen` bytes from `&cmd_hdr` into the frame, and update the buffer. -/
def txSub (t : CmdType) (sublen : Int) (s : TxState) : Option TxState :=
  if cmdHdrLen + helloLen < toSize sublen then none
  else some
    { wlen := s.wlen + toSize sublen
      allCmd := s.allCmd.set t (txUpdate sublen (s.allCmd.cmdBuf t))
      mactxBuf := s.mactxBuf.copy s.wlen (s.allCmd.cmdBuf t).image (toSize sublen)
      sent := s.sent ++ [⟨t, s.wlen, toSize sublen⟩] }

/-- The `for` loop of `tx_cmd`. -/
def txLoop (maxMaclen : UInt32) : List CmdType → TxState → Option TxState
  | [], s => some s
  | t :: ts, s =>
    let macRemainlen := toInt32 (toU32 (maxMaclen.toNat - s.wlen))
    let len := (s.allCmd.cmdBuf t).len
    if len = 0 then txLoop maxMaclen ts s
    else if toSize macRemainlen > cmdHdrLen then
      -- all the buffer has, or as much of it as there is room for
      let sublen :=
        if len + cmdHdrLen ≤ toSize macRemainlen then toInt32 (len + cmdHdrLen) else macRemainlen
      (txSub t sublen s).bind (txLoop maxMaclen ts)
    else some s   -- `break`

/-- The MAC header that `tx_cmd` writes; its type is an octal literal, `01010101`. -/
def txMacPdu (wlen : Nat) : MacPdu := ⟨0o1010101, UInt16.ofNat (toU16 wlen), 1⟩

/-- `tx_cmd`: the state after the call, and the value returned. -/
def txCmd (maxMaclen : UInt32) (allCmd : AllCmdBuf) (mactxBuf : Mem) : Option (TxState × Int) :=
  (txLoop maxMaclen CmdType.all ⟨sizeofMacPdu, allCmd, mactxBuf, []⟩).map fun s =>
    if s.wlen = sizeofMacPdu then (s, toInt32 maxMaclen.toNat)
    else
      ({ s with mactxBuf := s.mactxBuf.copy 0 (txMacPdu s.wlen).image sizeofMacPdu },
        toInt32 (toU32 (maxMaclen.toNat - (txMacPdu s.wlen).macFrameLen.toNat)))

/-- `tx_add_cmd`: it counts 100 bytes as loaded. -/
def txAddCmd (b : CmdBuf) : CmdBuf := { b with len := 100 }

/-- `tx_check_isget_cmd`. -/
def txCheckIsgetCmd (b : CmdBuf) : Bool := decide (b.len = 0)

/-- `tx_new_cmd_reset`: the 6-bit index counts modulo 64. -/
def txNewCmdReset (b : CmdBuf) : CmdBuf :=
  { b with
    len := 0
    cmdHdr := { b.cmdHdr with
      firstpkg := true, fragment := false, index := b.cmdHdr.index + 1, sublen := 0 } }

/-- `tx_cmd_indata`. -/
def txCmdIndata (b : CmdBuf) : CmdBuf :=
  if txCheckIsgetCmd b then txAddCmd (txNewCmdReset b) else b

/-! ## Messages -/

/-- A signalling message that fits in a buffer. -/
structure Message where
  bytes : List UInt8
  nonempty : bytes ≠ []
  fits : bytes.length ≤ helloLen

/-- A reset buffer that holds a message, which `tx_add_cmd` stands for. -/
def CmdBuf.load (msg : Message) (b : CmdBuf) : CmdBuf :=
  { txNewCmdReset b with
    len := msg.bytes.length, data := b.data.copy 0 (.ofList msg.bytes) msg.bytes.length }

theorem Message.length_ne_zero (msg : Message) : msg.bytes.length ≠ 0 := fun h =>
  msg.nonempty (List.length_eq_zero_iff.mp h)

theorem CmdBuf.content_load (msg : Message) (b : CmdBuf) : (b.load msg).content = msg.bytes :=
  (Mem.slice_copy_self ..).trans (Mem.slice_ofList _)

/-! ## One call -/

/-- A buffer after a sub-packet with `n` bytes of payload, or after none. -/
def CmdBuf.after (n : Nat) (b : CmdBuf) : CmdBuf :=
  if n = 0 then b
  else { b with
    len := b.len - n
    cmdHdr := { b.cmdHdr with
      firstpkg := false, fragment := decide (b.len - n ≠ 0),
      sublen := UInt16.ofNat (n + cmdHdrLen) } }

/-- How much each buffer has to send. -/
def lens (a : AllCmdBuf) (t : CmdType) : Nat := (a.cmdBuf t).len

@[simp] theorem CmdBuf.after_zero (b : CmdBuf) : b.after 0 = b := if_pos rfl

theorem CmdBuf.len_after (n : Nat) (b : CmdBuf) : (b.after n).len = b.len - n := by
  unfold CmdBuf.after
  split
  · omega
  · rfl

theorem CmdBuf.read_image (b : CmdBuf) : CmdPdu.read b.image = b.cmdHdr := by
  refine (CmdPdu.read_congr fun i hi => ?_).trans b.cmdHdr.read_image
  exact if_pos hi

theorem CmdBuf.image_data (b : CmdBuf) (i : Nat) : b.image (cmdHdrLen + i) = b.data i := by
  unfold CmdBuf.image
  rw [if_neg (by omega), Nat.add_sub_cancel_left]

/-- The room that the code computes, as its comparisons see it. -/
def codeRoom (maxMaclen : UInt32) (wlen : Nat) : Nat :=
  toSize (toInt32 (toU32 (maxMaclen.toNat - wlen)))

/-- It is the number of bytes left, or, from `2 ^ 31` bytes on, a number beyond every sub-packet's
    size. -/
theorem codeRoom_cases {maxMaclen : UInt32} {wlen : Nat} (h : wlen ≤ maxMaclen.toNat) :
    codeRoom maxMaclen wlen = maxMaclen.toNat - wlen ∨
    2 ^ 31 ≤ maxMaclen.toNat - wlen ∧ 2 ^ 63 ≤ codeRoom maxMaclen wlen := by
  have hmax := maxMaclen.toNat_lt
  have hu32 : (toU32 (maxMaclen.toNat - wlen) : Int) = (maxMaclen.toNat - wlen : Nat) := by
    rw [toU32_of_lt (by omega) (by omega)]; omega
  rw [codeRoom, hu32]
  by_cases hbig : maxMaclen.toNat - wlen < 2 ^ 31
  · have hint : toInt32 (maxMaclen.toNat - wlen : Nat) = (maxMaclen.toNat - wlen : Nat) :=
      toInt32_of_lt (by omega) (by omega)
    refine Or.inl ?_
    rw [hint, toSize_of_nonneg (by omega) (by omega)]
    omega
  · exact Or.inr ⟨by omega, toSize_toInt32_of_ge (by omega) (by omega)⟩

/-- The state after a sub-packet with `n` bytes of payload. -/
def TxState.put (t : CmdType) (n : Nat) (s : TxState) : TxState where
  wlen := s.wlen + (n + cmdHdrLen)
  allCmd := s.allCmd.set t ((s.allCmd.cmdBuf t).after n)
  mactxBuf := s.mactxBuf.copy s.wlen (s.allCmd.cmdBuf t).image (n + cmdHdrLen)
  sent := s.sent ++ [⟨t, s.wlen, n + cmdHdrLen⟩]

section Put

variable (t : CmdType) (n : Nat) (s : TxState)

@[simp] theorem TxState.put_wlen : (s.put t n).wlen = s.wlen + (n + cmdHdrLen) := rfl

@[simp] theorem TxState.put_sent : (s.put t n).sent = s.sent ++ [⟨t, s.wlen, n + cmdHdrLen⟩] := rfl

@[simp] theorem TxState.put_cmdBuf_self :
    (s.put t n).allCmd.cmdBuf t = (s.allCmd.cmdBuf t).after n := AllCmdBuf.cmdBuf_set_self ..

@[simp] theorem TxState.put_cmdBuf_of_ne {u : CmdType} (h : u ≠ t) :
    (s.put t n).allCmd.cmdBuf u = s.allCmd.cmdBuf u := AllCmdBuf.cmdBuf_set_of_ne h

theorem TxState.put_frame {i : Nat} (h : i < s.wlen ∨ s.wlen + (n + cmdHdrLen) ≤ i) :
    (s.put t n).mactxBuf i = s.mactxBuf i := by
  rcases h with h | h
  · exact Mem.copy_apply_of_lt h
  · exact Mem.copy_apply_of_ge h

theorem TxState.put_image {i : Nat} (h : i < n + cmdHdrLen) :
    (s.put t n).mactxBuf (s.wlen + i) = (s.allCmd.cmdBuf t).image i := by
  show s.mactxBuf.copy s.wlen (s.allCmd.cmdBuf t).image (n + cmdHdrLen) (s.wlen + i) = _
  rw [Mem.copy_apply_of_mem (by omega) (by omega), Nat.add_sub_cancel_left]

end Put

/-- The copy of a share, and the update after it. -/
theorem txSub_eq_put {t : CmdType} {s : TxState} {n : Nat} (h0 : n ≠ 0)
    (hle : n ≤ (s.allCmd.cmdBuf t).len) (hfit : (s.allCmd.cmdBuf t).len ≤ helloLen) :
    txSub t ((n + cmdHdrLen : Nat) : Int) s = some (s.put t n) := by
  unfold helloLen at hfit
  have hsize : toSize ((n + cmdHdrLen : Nat) : Int) = n + cmdHdrLen := by
    rw [toSize_of_nonneg (by omega) (by unfold cmdHdrLen; omega)]; omega
  have hlen : toU32 ((s.allCmd.cmdBuf t).len - (((n + cmdHdrLen : Nat) : Int) - cmdHdrLen)) =
      (s.allCmd.cmdBuf t).len - n := by
    rw [toU32_of_lt (by omega) (by omega)]; omega
  have hsub : toU16 ((n + cmdHdrLen : Nat) : Int) = n + cmdHdrLen := by
    rw [toU16_of_lt (by omega) (by unfold cmdHdrLen; omega)]; omega
  have hupd : txUpdate ((n + cmdHdrLen : Nat) : Int) (s.allCmd.cmdBuf t) =
      (s.allCmd.cmdBuf t).after n := by
    unfold txUpdate CmdBuf.after
    simp only [hlen, hsub, if_neg h0]
  unfold txSub TxState.put
  rw [hsize, hupd, if_neg (by unfold helloLen cmdHdrLen; omega)]

/-- The size of the sub-packet that the code computes: a header, and a share of that room. -/
theorem sublen_eq {maxMaclen : UInt32} {wlen len : Nat} (hlen : len ≤ helloLen)
    (hroom : cmdHdrLen < codeRoom maxMaclen wlen) :
    (if len + cmdHdrLen ≤ codeRoom maxMaclen wlen
      then toInt32 (len + cmdHdrLen) else toInt32 (toU32 (maxMaclen.toNat - wlen))) =
    ((share cmdHdrLen (codeRoom maxMaclen wlen) len + cmdHdrLen : Nat) : Int) := by
  unfold helloLen at hlen
  by_cases hfit : len + cmdHdrLen ≤ codeRoom maxMaclen wlen
  · rw [if_pos hfit, share_of_fits hfit]
    unfold cmdHdrLen
    rw [toInt32_of_lt (by omega) (by omega)]
    omega
  · rw [if_neg hfit, share_of_not_fits (by omega)]
    -- so small a `size_t` comes from an `int` that is not negative
    unfold cmdHdrLen at *
    unfold codeRoom toSize at *
    have hint : -2 ^ 31 ≤ toInt32 (toU32 (maxMaclen.toNat - wlen)) ∧
        toInt32 (toU32 (maxMaclen.toNat - wlen)) < 2 ^ 31 := by
      unfold toInt32
      split <;> omega
    omega

/-- One round of the loop: nothing to send, no room (`break`), or a share of the room. -/
theorem txLoop_round {maxMaclen : UInt32} {t : CmdType} {ts : List CmdType} {s : TxState}
    (hlen : lens s.allCmd t ≤ helloLen) :
    txLoop maxMaclen (t :: ts) s =
      if lens s.allCmd t = 0 then txLoop maxMaclen ts s
      else if codeRoom maxMaclen s.wlen ≤ cmdHdrLen then some s
      else txLoop maxMaclen ts
        (s.put t (share cmdHdrLen (codeRoom maxMaclen s.wlen) (lens s.allCmd t))) := by
  unfold lens at *
  rw [txLoop]
  by_cases hz : (s.allCmd.cmdBuf t).len = 0
  · rw [if_pos hz, if_pos hz]
  · rw [if_neg hz, if_neg hz]
    have hfold : toSize (toInt32 (toU32 (maxMaclen.toNat - s.wlen))) = codeRoom maxMaclen s.wlen :=
      rfl
    by_cases hroom : codeRoom maxMaclen s.wlen ≤ cmdHdrLen
    · rw [if_pos hroom, hfold, if_neg (by omega)]
    · have hne : share cmdHdrLen (codeRoom maxMaclen s.wlen) (s.allCmd.cmdBuf t).len ≠ 0 := by
        rw [Ne, share_eq_zero_iff]; omega
      rw [if_neg hroom, hfold, if_pos (by omega)]
      simp only [sublen_eq hlen (Nat.lt_of_not_le hroom), txSub_eq_put hne (share_le ..) hlen,
        Option.bind_some]

/-- While the frame has room for what is written, the computed room is as good as the real one. -/
theorem txLoop_cons {maxMaclen : UInt32} {t : CmdType} {ts : List CmdType} {s : TxState}
    (hlen : lens s.allCmd t ≤ helloLen) (hw : s.wlen ≤ maxMaclen.toNat) :
    txLoop maxMaclen (t :: ts) s =
      if lens s.allCmd t = 0 then txLoop maxMaclen ts s
      else if maxMaclen.toNat - s.wlen ≤ cmdHdrLen then some s
      else txLoop maxMaclen ts
        (s.put t (share cmdHdrLen (maxMaclen.toNat - s.wlen) (lens s.allCmd t))) := by
  rw [txLoop_round hlen]
  unfold helloLen at hlen
  rcases codeRoom_cases hw with heq | ⟨hbig, hcode⟩
  · rw [heq]
  · have hshare : share cmdHdrLen (codeRoom maxMaclen s.wlen) (lens s.allCmd t) =
        share cmdHdrLen (maxMaclen.toNat - s.wlen) (lens s.allCmd t) := by
      rw [share_of_fits (by unfold cmdHdrLen; omega), share_of_fits (by unfold cmdHdrLen; omega)]
    have hroom : ¬ codeRoom maxMaclen s.wlen ≤ cmdHdrLen := by unfold cmdHdrLen; omega
    have hroom' : ¬ maxMaclen.toNat - s.wlen ≤ cmdHdrLen := by unfold cmdHdrLen; omega
    rw [hshare, if_neg hroom, if_neg hroom']

/-- What the loop does to the buffers, the frame and the list of sub-packets. -/
structure LoopSpec (room : Nat) (ts : List CmdType) (s s' : TxState) : Prop where
  sent : s'.sent = s.sent ++ plan cmdHdrLen (lens s.allCmd) ts s.wlen room
  wlen : s'.wlen = s.wlen + total (plan cmdHdrLen (lens s.allCmd) ts s.wlen room)
  bufs : ∀ t, s'.allCmd.cmdBuf t =
    (s.allCmd.cmdBuf t).after (sentBy cmdHdrLen (lens s.allCmd) ts room t)
  before : ∀ i, i < s.wlen → s'.mactxBuf i = s.mactxBuf i
  items : ∀ p ∈ plan cmdHdrLen (lens s.allCmd) ts s.wlen room, ∀ i, i < p.size →
    s'.mactxBuf (p.off + i) = (s.allCmd.cmdBuf p.key).image i
  behind : ∀ i, s'.wlen ≤ i → s'.mactxBuf i = s.mactxBuf i

theorem LoopSpec.idle {room : Nat} {ts : List CmdType} {s : TxState}
    (hplan : plan cmdHdrLen (lens s.allCmd) ts s.wlen room = [])
    (hsent : ∀ t, sentBy cmdHdrLen (lens s.allCmd) ts room t = 0) : LoopSpec room ts s s := by
  refine ⟨?_, ?_, fun t => ?_, fun _ _ => rfl, ?_, fun _ _ => rfl⟩
  · rw [hplan, List.append_nil]
  · rw [hplan]; rfl
  · rw [hsent, CmdBuf.after_zero]
  · rw [hplan]; exact nofun

/-- A type that sends nothing changes nothing. -/
theorem LoopSpec.skip {room : Nat} {t : CmdType} {ts : List CmdType} {s s' : TxState}
    (hmem : t ∉ ts) (hz : share cmdHdrLen room (lens s.allCmd t) = 0) (h : LoopSpec room ts s s') :
    LoopSpec room (t :: ts) s s' := by
  refine ⟨?_, ?_, fun u => ?_, h.before, ?_, h.behind⟩
  · rw [plan_cons_of_eq hz]; exact h.sent
  · rw [plan_cons_of_eq hz]; exact h.wlen
  · rw [h.bufs u]
    by_cases hu : t = u
    · subst hu
      rw [sentBy_self, hz, sentBy_of_not_mem hmem]
    · rw [sentBy_of_ne hu, roomAfter_of_eq hz]
  · rw [plan_cons_of_eq hz]; exact h.items

/-- A type that sends puts its sub-packet before those of the types behind it. -/
theorem LoopSpec.put {room n : Nat} {t : CmdType} {ts : List CmdType} {s s' : TxState}
    (hmem : t ∉ ts) (hn : share cmdHdrLen room (lens s.allCmd t) = n) (h0 : n ≠ 0)
    (h : LoopSpec (room - (n + cmdHdrLen)) ts (s.put t n) s') : LoopSpec room (t :: ts) s s' := by
  have hother : ∀ u ∈ ts, (s.put t n).allCmd.cmdBuf u = s.allCmd.cmdBuf u := fun u hu =>
    s.put_cmdBuf_of_ne t n fun hut => hmem (hut ▸ hu)
  have hlens : ∀ u ∈ ts, lens (s.put t n).allCmd u = lens s.allCmd u := fun u hu =>
    congrArg CmdBuf.len (hother u hu)
  have hplan : plan cmdHdrLen (lens s.allCmd) (t :: ts) s.wlen room = ⟨t, s.wlen, n + cmdHdrLen⟩ ::
      plan cmdHdrLen (lens s.allCmd) ts (s.wlen + (n + cmdHdrLen)) (room - (n + cmdHdrLen)) := by
    subst hn
    rw [plan_cons_of_ne h0, roomAfter_of_ne h0]
  obtain ⟨hsent, hwlen, hbufs, hbefore, hitems, hbehind⟩ := h
  rw [plan_congr hlens, s.put_wlen] at hsent hwlen hitems
  rw [s.put_wlen] at hbefore
  refine ⟨?_, ?_, fun u => ?_, fun i hi => ?_, ?_, fun i hi => ?_⟩
  · rw [hplan, hsent, s.put_sent, List.append_assoc]; rfl
  · rw [hplan, hwlen, total_cons, Nat.add_assoc]
  · rw [hbufs u, sentBy_congr hlens]
    by_cases hu : t = u
    · subst hu
      rw [sentBy_self, hn, sentBy_of_not_mem hmem, CmdBuf.after_zero, s.put_cmdBuf_self]
    · rw [sentBy_of_ne hu, s.put_cmdBuf_of_ne t n (Ne.symm hu), roomAfter_of_ne (by rw [hn]; exact h0),
        hn]
  · rw [hbefore i (by omega), s.put_frame t n (Or.inl hi)]
  · rw [hplan]
    intro p hp i hi
    rcases List.mem_cons.mp hp with rfl | hp
    · have hi' : i < n + cmdHdrLen := hi
      rw [hbefore _ (show s.wlen + i < _ by omega)]
      exact s.put_image t n hi'
    · rw [hitems p hp i hi, hother _ (key_mem_of_mem_plan hp)]
  · rw [hbehind i hi]
    exact s.put_frame t n (Or.inr (by omega))

/-- A buffer after a sub-packet is not longer than before. -/
theorem lensOk_put {s : TxState} (h : LensOk s.allCmd) (t : CmdType) (n : Nat) :
    LensOk (s.put t n).allCmd := by
  intro u
  by_cases hu : u = t
  · subst hu
    rw [s.put_cmdBuf_self, CmdBuf.len_after]
    exact Nat.le_trans (Nat.sub_le ..) (h u)
  · rw [s.put_cmdBuf_of_ne t n hu]
    exact h u

/-- Whatever the limit, the loop is defined, and it only adds sub-packets. -/
theorem txLoop_total (maxMaclen : UInt32) (ts : List CmdType) {s : TxState} (hlens : LensOk s.allCmd) :
    ∃ s', txLoop maxMaclen ts s = some s' ∧ LensOk s'.allCmd ∧ s.sent <+: s'.sent := by
  induction ts generalizing s with
  | nil => exact ⟨s, rfl, hlens, List.prefix_refl _⟩
  | cons t ts ih =>
    rw [txLoop_round (hlens t)]
    by_cases hz : lens s.allCmd t = 0
    · rw [if_pos hz]
      exact ih hlens
    · rw [if_neg hz]
      by_cases hroom : codeRoom maxMaclen s.wlen ≤ cmdHdrLen
      · rw [if_pos hroom]
        exact ⟨s, rfl, hlens, List.prefix_refl _⟩
      · rw [if_neg hroom]
        rcases ih (lensOk_put hlens t (share cmdHdrLen (codeRoom maxMaclen s.wlen) (lens s.allCmd t)))
          with ⟨s', hs', hlens', hsent⟩
        exact ⟨s', hs', hlens', (List.prefix_append _ _).trans hsent⟩

/-- Where the code sees room, the first type with something to send puts its sub-packet there. -/
theorem txLoop_first {maxMaclen : UInt32} {ts : List CmdType} {s s' : TxState}
    (hlens : LensOk s.allCmd) (hroom : cmdHdrLen < codeRoom maxMaclen s.wlen)
    (hpending : ∃ t ∈ ts, lens s.allCmd t ≠ 0) (h : txLoop maxMaclen ts s = some s') :
    ∃ p ∈ s'.sent, p.off = s.wlen ∧ cmdHdrLen < p.size := by
  induction ts with
  | nil =>
    rcases hpending with ⟨t, ht, -⟩
    exact absurd ht List.not_mem_nil
  | cons t ts ih =>
    rw [txLoop_round (hlens t)] at h
    by_cases hz : lens s.allCmd t = 0
    · rw [if_pos hz] at h
      rcases hpending with ⟨u, hu, hne⟩
      have hmem : u ∈ ts := by
        rcases List.mem_cons.mp hu with rfl | hu
        · exact absurd hz hne
        · exact hu
      exact ih ⟨u, hmem, hne⟩ h
    · rw [if_neg hz, if_neg (Nat.not_le_of_lt hroom)] at h
      have hne : share cmdHdrLen (codeRoom maxMaclen s.wlen) (lens s.allCmd t) ≠ 0 := by
        rw [Ne, share_eq_zero_iff]
        omega
      rcases txLoop_total maxMaclen ts
        (lensOk_put hlens t (share cmdHdrLen (codeRoom maxMaclen s.wlen) (lens s.allCmd t)))
        with ⟨s'', hs'', -, hsent⟩
      rw [h] at hs''
      cases hs''
      refine ⟨_, hsent.subset (List.mem_append_right _ (List.mem_singleton_self _)), rfl, ?_⟩
      show cmdHdrLen < share cmdHdrLen (codeRoom maxMaclen s.wlen) (lens s.allCmd t) + cmdHdrLen
      omega

/-- **The loop is greedy packing.** -/
theorem txLoop_spec (maxMaclen : UInt32) {ts : List CmdType} (hnd : ts.Nodup) {s : TxState}
    (hlens : LensOk s.allCmd) (hw : s.wlen ≤ maxMaclen.toNat) :
    ∃ s', txLoop maxMaclen ts s = some s' ∧ LoopSpec (maxMaclen.toNat - s.wlen) ts s s' := by
  induction ts generalizing s with
  | nil => exact ⟨s, rfl, .idle rfl fun t => sentBy_of_not_mem List.not_mem_nil⟩
  | cons t ts ih =>
    obtain ⟨hmem, hnd'⟩ := List.nodup_cons.mp hnd
    rw [txLoop_cons (hlens t) hw]
    by_cases hz : lens s.allCmd t = 0
    · obtain ⟨s', hs', hspec⟩ := ih hnd' hlens hw
      exact ⟨s', by rw [if_pos hz]; exact hs', hspec.skip hmem (share_eq_zero_iff.mpr (Or.inl hz))⟩
    · by_cases hroom : maxMaclen.toNat - s.wlen ≤ cmdHdrLen
      · -- the `break` leaves types behind that would find no room either
        exact ⟨s, by rw [if_neg hz, if_pos hroom],
          .idle (plan_of_small hroom) fun u => sentBy_of_small hroom⟩
      · have hne : share cmdHdrLen (maxMaclen.toNat - s.wlen) (lens s.allCmd t) ≠ 0 := by
          rw [Ne, share_eq_zero_iff]; omega
        have hle := share_add_le hne
        obtain ⟨s', hs', hspec⟩ := ih hnd'
          (lensOk_put hlens t (share cmdHdrLen (maxMaclen.toNat - s.wlen) (lens s.allCmd t)))
          (by rw [s.put_wlen]; omega)
        refine ⟨s', by rw [if_neg hz, if_neg hroom]; exact hs', .put hmem rfl hne ?_⟩
        rw [s.put_wlen, ← Nat.sub_sub] at hspec
        exact hspec

/-- How many payload bytes of type `t` a call sends. -/
def txSent (maxMaclen : UInt32) (a : AllCmdBuf) (t : CmdType) : Nat :=
  sentBy cmdHdrLen (lens a) CmdType.all (maxMaclen.toNat - sizeofMacPdu) t

/-- What a call does to the buffers `a` and the frame memory `m`. -/
structure TxSpec (maxMaclen : UInt32) (a : AllCmdBuf) (m : Mem) (s : TxState) : Prop where
  sent : s.sent =
    plan cmdHdrLen (lens a) CmdType.all sizeofMacPdu (maxMaclen.toNat - sizeofMacPdu)
  wlen : s.wlen = sizeofMacPdu + total s.sent
  bufs : ∀ t, s.allCmd.cmdBuf t = (a.cmdBuf t).after (txSent maxMaclen a t)
  items : ∀ p ∈ s.sent, ∀ i, i < p.size → s.mactxBuf (p.off + i) = (a.cmdBuf p.key).image i
  macPdu : s.sent ≠ [] → MacPdu.read s.mactxBuf = txMacPdu s.wlen
  behind : ∀ i, s.wlen ≤ i → s.mactxBuf i = m i

section Call

variable {maxMaclen : UInt32} {a : AllCmdBuf} {m : Mem} {s : TxState}

/-- **`tx_cmd` on buffers in order**, with room for the MAC header. -/
theorem txCmd_spec (hlens : LensOk a) (hmax : sizeofMacPdu ≤ maxMaclen.toNat) (m : Mem) :
    ∃ s ret, txCmd maxMaclen a m = some (s, ret) ∧ TxSpec maxMaclen a m s := by
  obtain ⟨s, hs, hspec⟩ := txLoop_spec maxMaclen CmdType.nodup_all
    (s := ⟨sizeofMacPdu, a, m, []⟩) hlens hmax
  obtain ⟨hsent, hwlen, hbufs, -, hitems, hbehind⟩ := hspec
  rw [List.nil_append] at hsent
  simp only [← hsent] at hwlen hitems
  unfold txCmd
  rw [hs, Option.map_some]
  by_cases hz : s.wlen = sizeofMacPdu
  · have hnil : s.sent = [] := by
      rw [hsent, ← total_plan_eq_zero_iff, ← hsent]; omega
    rw [if_pos hz]
    exact ⟨_, _, rfl, hsent, hwlen, hbufs, hitems, fun hne => absurd hnil hne, hbehind⟩
  · rw [if_neg hz]
    refine ⟨_, _, rfl, hsent, hwlen, hbufs, fun p hp i hi => ?_, fun _ => ?_, fun i hi => ?_⟩
    · have hoff : sizeofMacPdu ≤ p.off := off_le_of_mem_plan (hsent ▸ hp)
      rw [← hitems p hp i hi]
      exact Mem.copy_apply_of_ge (by omega)
    · refine (MacPdu.read_congr fun i hi => ?_).trans (txMacPdu s.wlen).read_image
      exact (Mem.copy_apply_of_mem (Nat.zero_le _) (by omega)).trans rfl
    · have hi' : s.wlen ≤ i := hi
      exact (Mem.copy_apply_of_ge (by omega)).trans (hbehind i hi')

theorem txSpec_of_txCmd {ret : Int} (hlens : LensOk a) (hmax : sizeofMacPdu ≤ maxMaclen.toNat)
    (h : txCmd maxMaclen a m = some (s, ret)) : TxSpec maxMaclen a m s := by
  rcases txCmd_spec hlens hmax m with ⟨s', ret', hcall, hspec⟩
  rw [h] at hcall
  cases hcall
  exact hspec

/-- Without anything to send the call does nothing. -/
theorem txCmd_of_idle (hnone : ∀ t, lens a t = 0) (maxMaclen : UInt32) (m : Mem) :
    txCmd maxMaclen a m = some (⟨sizeofMacPdu, a, m, []⟩, toInt32 maxMaclen.toNat) := by
  have hloop : ∀ ts, txLoop maxMaclen ts ⟨sizeofMacPdu, a, m, []⟩ =
      some ⟨sizeofMacPdu, a, m, []⟩ := by
    intro ts
    induction ts with
    | nil => rfl
    | cons t ts ih =>
      rw [txLoop]
      exact (if_pos (hnone t)).trans ih
  rw [txCmd, hloop]
  rfl

/-- What the loop leaves, and what the function returns. -/
theorem exists_of_txCmd {ret : Int} (h : txCmd maxMaclen a m = some (s, ret)) :
    ∃ s₀, txLoop maxMaclen CmdType.all ⟨sizeofMacPdu, a, m, []⟩ = some s₀ ∧ s.sent = s₀.sent ∧
      s.allCmd = s₀.allCmd ∧ ret = if s.wlen = sizeofMacPdu then toInt32 maxMaclen.toNat
        else toInt32 (toU32 (maxMaclen.toNat - (txMacPdu s.wlen).macFrameLen.toNat)) := by
  rcases Option.map_eq_some_iff.mp h with ⟨s₀, hs₀, heq⟩
  refine ⟨s₀, hs₀, ?_⟩
  by_cases hz : s₀.wlen = sizeofMacPdu
  · rw [if_pos hz] at heq
    cases heq
    exact ⟨rfl, rfl, (if_pos hz).symm⟩
  · rw [if_neg hz] at heq
    cases heq
    exact ⟨rfl, rfl, (if_neg hz).symm⟩

/-- **`tx_cmd` on buffers in order**, whatever the limit: it is defined and leaves them in order. -/
theorem txCmd_total (hlens : LensOk a) (maxMaclen : UInt32) (m : Mem) :
    ∃ s ret, txCmd maxMaclen a m = some (s, ret) ∧ LensOk s.allCmd := by
  rcases txLoop_total maxMaclen CmdType.all (s := ⟨sizeofMacPdu, a, m, []⟩) hlens
    with ⟨s₀, hs₀, hlens', -⟩
  unfold txCmd
  rw [hs₀, Option.map_some]
  by_cases hz : s₀.wlen = sizeofMacPdu
  · rw [if_pos hz]
    exact ⟨_, _, rfl, hlens'⟩
  · rw [if_neg hz]
    exact ⟨_, _, rfl, hlens'⟩

/-- A buffer keeps what its type has not sent. -/
theorem TxSpec.lens_eq (h : TxSpec maxMaclen a m s) (t : CmdType) :
    lens s.allCmd t = lens a t - txSent maxMaclen a t := by
  rw [lens, h.bufs t, CmdBuf.len_after]
  rfl

/-- The sub-packets lie one behind the other, from the MAC header to the end. -/
theorem TxSpec.packed (h : TxSpec maxMaclen a m s) : Packed s.sent sizeofMacPdu s.wlen := by
  rw [h.wlen, h.sent]
  exact packed_plan

/-- Nothing was sent iff the length counts no more than the MAC header. -/
theorem TxSpec.wlen_eq_iff (h : TxSpec maxMaclen a m s) : s.wlen = sizeofMacPdu ↔ s.sent = [] := by
  have hnil : total s.sent = 0 ↔ s.sent = [] := by
    rw [h.sent]
    exact total_plan_eq_zero_iff
  rw [h.wlen, ← hnil]
  omega

/-- A frame has at most 12308 bytes: its length fits in `mac_frame_len`. -/
theorem TxSpec.wlen_lt (h : TxSpec maxMaclen a m s) (hlens : LensOk a) : s.wlen < 2 ^ 16 := by
  have htotal : total s.sent ≤ 3 * (helloLen + cmdHdrLen) := by
    rw [h.sent]
    exact total_plan_le_mul fun t _ => hlens t
  rw [h.wlen]
  unfold sizeofMacPdu
  unfold helloLen cmdHdrLen at htotal
  omega

/-- A frame carries its length. -/
theorem TxSpec.macFrameLen_eq (h : TxSpec maxMaclen a m s) (hlens : LensOk a) (hne : s.sent ≠ []) :
    (MacPdu.read s.mactxBuf).macFrameLen.toNat = s.wlen := by
  have hlt := h.wlen_lt hlens
  rw [h.macPdu hne]
  show (UInt16.ofNat (toU16 s.wlen)).toNat = s.wlen
  rw [UInt16.toNat_ofNat', toU16_of_lt (by omega) (by omega)]
  omega

/-- The sub-packets of type `t` that a call has put into the frame: what the memory holds there as
    header, and the payload. -/
def written (t : CmdType) (s : TxState) : List (CmdPdu × List UInt8) :=
  (s.sent.filter (·.key = t)).map fun p =>
    (CmdPdu.read (s.mactxBuf.shift p.off), s.mactxBuf.slice (p.off + cmdHdrLen) (p.size - cmdHdrLen))

/-- A type has at most one sub-packet in the frame. -/
theorem TxSpec.filter_sent (h : TxSpec maxMaclen a m s) (t : CmdType) :
    (txSent maxMaclen a t = 0 ∧ s.sent.filter (·.key = t) = []) ∨
    txSent maxMaclen a t ≠ 0 ∧
      ∃ o, s.sent.filter (·.key = t) = [⟨t, o, txSent maxMaclen a t + cmdHdrLen⟩] := by
  rw [h.sent]
  exact filter_plan CmdType.nodup_all

theorem TxSpec.written_of_eq (h : TxSpec maxMaclen a m s) {t : CmdType}
    (hz : txSent maxMaclen a t = 0) : written t s = [] := by
  rcases h.filter_sent t with ⟨-, hnil⟩ | ⟨hne, -⟩
  · unfold written
    rw [hnil]; rfl
  · exact absurd hz hne

/-- **The sub-packet that a type sends**: its header as it was before the call, and the first bytes
    of `data`. -/
theorem TxSpec.written_of_ne (h : TxSpec maxMaclen a m s) {t : CmdType}
    (hne : txSent maxMaclen a t ≠ 0) :
    written t s = [((a.cmdBuf t).cmdHdr, (a.cmdBuf t).data.slice 0 (txSent maxMaclen a t))] := by
  rcases h.filter_sent t with ⟨hz, -⟩ | ⟨-, o, hitem⟩
  · exact absurd hz hne
  · have hmem : ⟨t, o, txSent maxMaclen a t + cmdHdrLen⟩ ∈ s.sent :=
      List.mem_of_mem_filter (hitem ▸ List.mem_cons_self ..)
    have himage := h.items _ hmem
    unfold written
    rw [hitem, List.map_singleton, Nat.add_sub_cancel]
    refine congrArg (fun x => [x]) (Prod.ext ?_ ?_)
    · refine (CmdPdu.read_congr fun i hi => ?_).trans (a.cmdBuf t).read_image
      exact himage i (Nat.lt_of_lt_of_le hi (Nat.le_add_left ..))
    · refine Mem.slice_congr fun i hi => ?_
      have hi' : i < txSent maxMaclen a t := hi
      rw [Nat.zero_add, ← CmdBuf.image_data, Nat.add_assoc]
      exact himage _ (show cmdHdrLen + i < txSent maxMaclen a t + cmdHdrLen by omega)

end Call

end AdhocNode
