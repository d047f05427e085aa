/-
  ONE FRAME — what a call of `tx_cmd` writes where, and what it returns.

  1. **Inside the frame** — `StaysInside`: all writes lie below `max_maclen`, `mac_frame_len` is the
     number of bytes written, and the number returned lies between 0 and `max_maclen`.

  2. **Greedy** — `PacksGreedily`: the accounting of a call.  What a type's `len` loses is in the
     frame, in the order of the types; the number returned is what is left of `max_maclen`; only one
     type is cut, and it blocks the types behind it.

  The room is an unsigned difference that is stored in an `int` and compared as a `size_t`.  Below the
  size of a MAC header the difference is negative, and compares as more than any room: the
  first sub-packet is written behind the end of the frame.  And what is left of `2 ^ 31` bytes or
  more is no `int`.  These are the only exceptions to 1 (`staysInside_iff`), and the latter is the
  only one to 2 (`packsGreedily_iff`).
-/
import AdhocNode.CmdTx

namespace AdhocNode

open CMem Packing

/-! ## What is returned -/

/-- The length of a frame with room for everything; 0 when there is nothing to send. -/
def wholeLen (a : AllCmdBuf) : Nat :=
  if ∀ t ∈ CmdType.all, lens a t = 0 then 0
  else sizeofMacPdu + needed cmdHdrLen (lens a) CmdType.all

/-- How much of `max_maclen` a call leaves. -/
def TxState.left (maxMaclen : UInt32) (s : TxState) : Nat :=
  if s.sent = [] then maxMaclen.toNat else maxMaclen.toNat - s.wlen

theorem TxState.left_le (maxMaclen : UInt32) (s : TxState) :
    s.left maxMaclen ≤ maxMaclen.toNat := by
  unfold TxState.left
  split <;> omega

section Left

variable {maxMaclen : UInt32} {a : AllCmdBuf} {m : Mem} {s : TxState} {ret : Int}

theorem TxSpec.wlen_le (h : TxSpec maxMaclen a m s) (hmax : sizeofMacPdu ≤ maxMaclen.toNat) :
    s.wlen ≤ maxMaclen.toNat := by
  have htotal : total s.sent ≤ maxMaclen.toNat - sizeofMacPdu := by
    rw [h.sent]
    exact total_plan_le
  rw [h.wlen]
  omega

/-- The number returned is what is left, as an `int`. -/
theorem TxSpec.ret_eq (h : TxSpec maxMaclen a m s) (hlens : LensOk a)
    (hmax : sizeofMacPdu ≤ maxMaclen.toNat) (hcall : txCmd maxMaclen a m = some (s, ret)) :
    ret = toInt32 (s.left maxMaclen) := by
  have hle := h.wlen_le hmax
  have hlt := h.wlen_lt hlens
  have hlt32 := maxMaclen.toNat_lt
  rcases exists_of_txCmd hcall with ⟨-, -, -, -, hret⟩
  rw [hret, TxState.left]
  by_cases hnil : s.sent = []
  · rw [if_pos (h.wlen_eq_iff.mpr hnil), if_pos hnil]
  · have hlen : (txMacPdu s.wlen).macFrameLen.toNat = s.wlen := by
      rw [← h.macPdu hnil]
      exact h.macFrameLen_eq hlens hnil
    rw [if_neg fun hw => hnil (h.wlen_eq_iff.mp hw), if_neg hnil, hlen,
      toU32_of_lt (by omega) (by omega)]
    congr 1
    omega

/-- An `int` is the number it was converted from iff that is below `2 ^ 31`, and negative otherwise. -/
theorem toInt32_natCast {n : Nat} (h : n < 2 ^ 32) :
    n < 2 ^ 31 ∧ toInt32 n = n ∨ 2 ^ 31 ≤ n ∧ toInt32 n < 0 := by
  unfold toInt32
  split <;> omega

/-- Whether `2 ^ 31` bytes are left is seen from what there is to send. -/
theorem TxSpec.left_lt_iff (h : TxSpec maxMaclen a m s) (hlens : LensOk a) :
    s.left maxMaclen < 2 ^ 31 ↔ maxMaclen.toNat - wholeLen a < 2 ^ 31 := by
  by_cases hsmall : maxMaclen.toNat < 2 ^ 31
  · have hleft := s.left_le maxMaclen
    omega
  -- so large a frame has room for everything
  · have hneeded : needed cmdHdrLen (lens a) CmdType.all ≤ 3 * (helloLen + cmdHdrLen) :=
      needed_le fun t _ => hlens t
    have htotal : total s.sent = needed cmdHdrLen (lens a) CmdType.all := by
      rw [h.sent]
      apply total_plan_of_room
      have hbound : 3 * (helloLen + cmdHdrLen) + sizeofMacPdu < 2 ^ 31 := by decide
      omega
    have hnil : s.sent = [] ↔ ∀ t ∈ CmdType.all, lens a t = 0 := by
      constructor
      · intro hnil
        by_contra hsome
        push Not at hsome
        rw [h.sent] at hnil
        refine plan_ne_nil ?_ hsome hnil
        unfold cmdHdrLen sizeofMacPdu
        omega
      · intro hnone
        rw [h.sent]
        exact plan_of_no_need hnone
    rw [TxState.left, wholeLen, h.wlen, htotal]
    by_cases hs : s.sent = []
    · rw [if_pos hs, if_pos (hnil.mp hs), Nat.sub_zero]
    · rw [if_neg hs, if_neg fun hnone => hs (hnil.mpr hnone)]

end Left

/-! ## Inside the frame -/

/-- **Inside the frame**: where the call has written, the length in the MAC header, and the number
    returned. -/
structure StaysInside (maxMaclen : UInt32) (m : Mem) (s : TxState) (ret : Int) : Prop where
  subPackets : ∀ p ∈ s.sent, p.off + p.size ≤ maxMaclen.toNat
  macPdu : s.sent ≠ [] → sizeofMacPdu ≤ maxMaclen.toNat
  rest : ∀ i, maxMaclen.toNat ≤ i → s.mactxBuf i = m i
  macFrameLen : s.sent ≠ [] →
    (MacPdu.read s.mactxBuf).macFrameLen.toNat = sizeofMacPdu + total s.sent
  nonneg : 0 ≤ ret
  le : ret ≤ maxMaclen.toNat

/-- The frame has room for a MAC header, unless nothing is to be written, and less than `2 ^ 31` bytes
    of it are left. -/
def FrameOk (maxMaclen : UInt32) (a : AllCmdBuf) : Prop :=
  (sizeofMacPdu ≤ maxMaclen.toNat ∨ ∀ t, lens a t = 0) ∧ maxMaclen.toNat - wholeLen a < 2 ^ 31

section Inside

variable {maxMaclen : UInt32} {a : AllCmdBuf} {m : Mem} {s : TxState} {ret : Int}

/-- With room for a MAC header, only the number returned may be wrong. -/
theorem TxSpec.inside_iff_left (h : TxSpec maxMaclen a m s) (hlens : LensOk a)
    (hmax : sizeofMacPdu ≤ maxMaclen.toNat) (hcall : txCmd maxMaclen a m = some (s, ret)) :
    StaysInside maxMaclen m s ret ↔ maxMaclen.toNat - wholeLen a < 2 ^ 31 := by
  have hle := h.wlen_le hmax
  have hleft := s.left_le maxMaclen
  have hlt32 := maxMaclen.toNat_lt
  rw [← h.left_lt_iff hlens]
  rcases toInt32_natCast (n := s.left maxMaclen) (by omega) with ⟨hlt, hint⟩ | ⟨hge, hneg⟩
  · refine ⟨fun _ => hlt, fun _ => ?_⟩
    refine ⟨fun p hp => ?_, fun _ => hmax, fun i hi => h.behind i (by omega), fun hne => ?_, ?_, ?_⟩
    · exact Nat.le_trans (h.packed.bounds hp).2 hle
    · rw [h.macFrameLen_eq hlens hne, h.wlen]
    · rw [h.ret_eq hlens hmax hcall, hint]
      omega
    · rw [h.ret_eq hlens hmax hcall, hint]
      omega
  · refine ⟨fun hin => ?_, fun hlt => absurd hlt (Nat.not_lt_of_le hge)⟩
    have hnonneg := hin.nonneg
    rw [h.ret_eq hlens hmax hcall] at hnonneg
    omega

/-- Below the size of a MAC header, the computed room is beyond every sub-packet's size. -/
theorem codeRoom_of_small (hsmall : maxMaclen.toNat < sizeofMacPdu) :
    cmdHdrLen < codeRoom maxMaclen sizeofMacPdu := by
  unfold codeRoom toSize toInt32 toU32 cmdHdrLen
  unfold sizeofMacPdu at *
  split <;> omega

/-- A sub-packet begins where the MAC header ends. -/
theorem not_staysInside_of_small (hlens : LensOk a) (hsmall : maxMaclen.toNat < sizeofMacPdu)
    (hpending : ∃ t ∈ CmdType.all, lens a t ≠ 0) (hcall : txCmd maxMaclen a m = some (s, ret)) :
    ¬ StaysInside maxMaclen m s ret := by
  intro hin
  rcases exists_of_txCmd hcall with ⟨s₀, hloop, hsent, -⟩
  rcases txLoop_first (s := ⟨sizeofMacPdu, a, m, []⟩) hlens (codeRoom_of_small hsmall) hpending hloop
    with ⟨p, hp, hoff, -⟩
  rw [← hsent] at hp
  have hend := hin.subPackets p hp
  have hoff' : p.off = sizeofMacPdu := hoff
  omega

/-- A call that is defined has one result. -/
theorem exists_txCmd_iff {P : TxState → Int → Prop} (hcall : txCmd maxMaclen a m = some (s, ret)) :
    (∃ s ret, txCmd maxMaclen a m = some (s, ret) ∧ P s ret) ↔ P s ret := by
  constructor
  · rintro ⟨s', ret', hcall', h⟩
    rw [hcall] at hcall'
    cases hcall'
    exact h
  · exact fun h => ⟨s, ret, hcall, h⟩

/-- **No overrun**: for every limit and all buffers in order, a call stays inside the frame iff there is
    room for a MAC header, or nothing to send, and less than `2 ^ 31` bytes are left. -/
theorem staysInside_iff (hlens : LensOk a) (maxMaclen : UInt32) (m : Mem) :
    (∃ s ret, txCmd maxMaclen a m = some (s, ret) ∧ StaysInside maxMaclen m s ret) ↔
      FrameOk maxMaclen a := by
  rw [FrameOk]
  by_cases hmax : sizeofMacPdu ≤ maxMaclen.toNat
  · rcases txCmd_spec hlens hmax m with ⟨s, ret, hcall, hspec⟩
    rw [exists_txCmd_iff hcall, hspec.inside_iff_left hlens hmax hcall]
    exact ⟨fun h => ⟨Or.inl hmax, h⟩, And.right⟩
  · have hsmall : maxMaclen.toNat < sizeofMacPdu := Nat.lt_of_not_le hmax
    by_cases hnone : ∀ t, lens a t = 0
    · have hbound : sizeofMacPdu ≤ 2 ^ 31 := by decide
      have hint : toInt32 maxMaclen.toNat = maxMaclen.toNat := toInt32_of_lt (by omega) (by omega)
      rw [exists_txCmd_iff (txCmd_of_idle hnone maxMaclen m), hint]
      refine ⟨fun _ => ⟨Or.inr hnone, by omega⟩, fun _ => ?_⟩
      exact ⟨nofun, fun hne => absurd rfl hne, fun _ _ => rfl, fun hne => absurd rfl hne,
        Int.natCast_nonneg _, Int.le_refl _⟩
    · have hpending : ∃ t ∈ CmdType.all, lens a t ≠ 0 := by
        rcases not_forall.mp hnone with ⟨t, ht⟩
        exact ⟨t, t.mem_all, ht⟩
      constructor
      · rintro ⟨s, ret, hcall, hin⟩
        exact absurd hin (not_staysInside_of_small hlens hsmall hpending hcall)
      · rintro ⟨hmax' | hnone', -⟩
        · exact absurd hmax' hmax
        · exact absurd hnone' hnone

end Inside

/-- The buffers with one byte to send. -/
def oneByte : AllCmdBuf :=
  AllCmdBuf.zero.set .macNodeHello ⟨1, ⟨0, true, false, 1, 0⟩, .ofList [7]⟩

theorem lensOk_oneByte : LensOk oneByte :=
  .set (fun _ => Nat.zero_le _) (show 1 ≤ helloLen by decide)

/-- One byte in a frame of 13 bytes. -/
theorem staysInside_iff_oneByte :
    ∃ s ret, txCmd 13 oneByte (fun _ => 0) = some (s, ret) ∧ StaysInside 13 (fun _ => 0) s ret := by
  have hmax : (13 : UInt32).toNat = 13 := rfl
  rw [staysInside_iff lensOk_oneByte]
  refine ⟨Or.inl (by decide), ?_⟩
  omega

/-- A frame of 4 bytes has no room for a MAC header; the sub-packet is written at offset 8. -/
theorem not_staysInside_four : ¬ ∃ s ret, txCmd 4 oneByte (fun _ => 0) = some (s, ret) ∧
    StaysInside 4 (fun _ => 0) s ret := by
  rintro ⟨s, ret, hcall, hin⟩
  refine not_staysInside_of_small lensOk_oneByte (by decide) ?_ hcall hin
  exact ⟨.macNodeHello, CmdType.mem_all _, by decide⟩

/-! ## Greedy -/

/-- How many bytes of type `t` the call has taken from its buffer. -/
def moved (a : AllCmdBuf) (s : TxState) (t : CmdType) : Nat := lens a t - lens s.allCmd t

/-- **The accounting of a call** on the buffers `a` and the frame memory `m`. -/
structure PacksGreedily (maxMaclen : UInt32) (a : AllCmdBuf) (m : Mem) (s : TxState) (ret : Int) :
    Prop where
  -- the bytes written, and where they lie
  wlen : s.wlen = sizeofMacPdu +
    ((CmdType.all.filter fun t => moved a s t ≠ 0).map fun t => cmdHdrLen + moved a s t).sum
  layout : Packed s.sent sizeofMacPdu s.wlen
  order : s.sent.map (fun p => (p.key, p.size)) =
    (CmdType.all.filter fun t => moved a s t ≠ 0).map fun t => (t, moved a s t + cmdHdrLen)
  copied : ∀ p ∈ s.sent, ∀ i, i < p.size → s.mactxBuf (p.off + i) = (a.cmdBuf p.key).image i
  rest : ∀ i, s.wlen ≤ i → s.mactxBuf i = m i
  -- what is returned
  returned : (∃ t, moved a s t ≠ 0) → ret = maxMaclen.toNat - s.wlen
  idle : (∀ t, moved a s t = 0) → ret = maxMaclen.toNat ∧ s.allCmd = a
  -- the buffers
  le : ∀ t, lens s.allCmd t ≤ lens a t
  onePart : ∀ t u, moved a s t ≠ 0 → lens s.allCmd t ≠ 0 → moved a s u ≠ 0 → lens s.allCmd u ≠ 0 →
    t = u
  blocks : ∀ t, lens s.allCmd t ≠ 0 → (∀ u, u.toNat < t.toNat → lens s.allCmd u = 0) →
    (∀ u, t.toNat < u.toNat → moved a s u = 0) ∧ maxMaclen.toNat - s.wlen ≤ cmdHdrLen

section Greedy

variable {maxMaclen : UInt32} {a : AllCmdBuf} {m : Mem} {s : TxState} {ret : Int}

theorem txSent_le (maxMaclen : UInt32) (a : AllCmdBuf) (t : CmdType) :
    txSent maxMaclen a t ≤ lens a t := share_le ..

/-- What a buffer has less is what its type has sent. -/
theorem TxSpec.moved_eq (h : TxSpec maxMaclen a m s) (t : CmdType) :
    moved a s t = txSent maxMaclen a t := by
  have hle := txSent_le maxMaclen a t
  rw [moved, h.lens_eq]
  omega

theorem TxSpec.left_iff (h : TxSpec maxMaclen a m s) {t : CmdType} :
    lens s.allCmd t ≠ 0 ↔ txSent maxMaclen a t < lens a t := by
  rw [h.lens_eq]
  omega

/-- The types before `t`, and those behind. -/
theorem CmdType.exists_split (t : CmdType) :
    ∃ pre post, all = pre ++ t :: post ∧ ∀ u, t.toNat < u.toNat → u ∈ post := by
  cases t with
  | macNodeHello => exact ⟨[], [distBaseData, distReport], rfl, by intro u; cases u <;> decide⟩
  | distBaseData => exact ⟨[macNodeHello], [distReport], rfl, by intro u; cases u <;> decide⟩
  | distReport => exact ⟨[macNodeHello, distBaseData], [], rfl, by intro u; cases u <;> decide⟩

/-- **Blocking**: a type that keeps some of its bytes lets no type behind it send. -/
theorem TxSpec.moved_behind (h : TxSpec maxMaclen a m s) {t u : CmdType}
    (hleft : lens s.allCmd t ≠ 0) (hlt : t.toNat < u.toNat) : moved a s u = 0 := by
  rcases t.exists_split with ⟨pre, post, hall, hbehind⟩
  have hnd := CmdType.nodup_all
  have hsent := h.left_iff.mp hleft
  rw [h.moved_eq]
  unfold txSent at hsent ⊢
  rw [hall] at hnd hsent ⊢
  exact sentBy_behind hnd hsent (hbehind u hlt)

/-- It leaves no more room than a header. -/
theorem TxSpec.room_le (h : TxSpec maxMaclen a m s) {t : CmdType} (hleft : lens s.allCmd t ≠ 0) :
    maxMaclen.toNat - s.wlen ≤ cmdHdrLen := by
  have hroom : maxMaclen.toNat - sizeofMacPdu ≤ total (plan cmdHdrLen (lens a) CmdType.all
      sizeofMacPdu (maxMaclen.toNat - sizeofMacPdu)) + cmdHdrLen :=
    room_le_of_left t.mem_all (h.left_iff.mp hleft)
  rw [← h.sent] at hroom
  rw [h.wlen]
  omega

/-- **One part at most**: of two types that send a part of their bytes, one would be behind the other. -/
theorem TxSpec.onePart (h : TxSpec maxMaclen a m s) {t u : CmdType} (ht : moved a s t ≠ 0)
    (htleft : lens s.allCmd t ≠ 0) (hu : moved a s u ≠ 0) (huleft : lens s.allCmd u ≠ 0) : t = u := by
  apply CmdType.toNat_inj
  by_contra hne
  rcases Nat.lt_or_gt_of_ne hne with hlt | hlt
  · exact hu (h.moved_behind htleft hlt)
  · exact ht (h.moved_behind huleft hlt)

/-- The sub-packets, in the order of the types. -/
theorem TxSpec.order (h : TxSpec maxMaclen a m s) :
    s.sent.map (fun p => (p.key, p.size)) =
      (CmdType.all.filter fun t => moved a s t ≠ 0).map fun t => (t, moved a s t + cmdHdrLen) := by
  simp only [h.moved_eq]
  rw [h.sent]
  exact map_plan CmdType.nodup_all

/-- The bytes written, from the buffers' point of view. -/
theorem TxSpec.wlen_eq (h : TxSpec maxMaclen a m s) : s.wlen = sizeofMacPdu +
    ((CmdType.all.filter fun t => moved a s t ≠ 0).map fun t => cmdHdrLen + moved a s t).sum := by
  have hsizes : s.sent.map Item.size = (CmdType.all.filter fun t => moved a s t ≠ 0).map
      fun t => cmdHdrLen + moved a s t := by
    have horder := congrArg (List.map Prod.snd) h.order
    rw [List.map_map, List.map_map] at horder
    refine horder.trans (List.map_congr_left fun t _ => ?_)
    exact Nat.add_comm ..
  rw [h.wlen, total, hsizes]

/-- A call that sends nothing leaves the buffers alone. -/
theorem TxSpec.sent_eq_nil_iff (h : TxSpec maxMaclen a m s) :
    s.sent = [] ↔ ∀ t, moved a s t = 0 := by
  rw [← List.map_eq_nil_iff (f := fun p : Item CmdType => (p.key, p.size)), h.order,
    List.map_eq_nil_iff, List.filter_eq_nil_iff]
  constructor
  · intro hall t
    simpa using hall t t.mem_all
  · intro hall t _
    simp [hall t]

theorem TxSpec.allCmd_eq (h : TxSpec maxMaclen a m s) (hidle : ∀ t, moved a s t = 0) :
    s.allCmd = a := by
  have hbufs : s.allCmd.cmdBuf = a.cmdBuf := by
    funext t
    rw [h.bufs t, ← h.moved_eq, hidle t, CmdBuf.after_zero]
  cases hs : s.allCmd
  rw [hs] at hbufs
  cases hbufs
  rfl

/-- **Greedy packing**: for every limit with room for a MAC header and all buffers in order, a call
    meets the accounting iff less than `2 ^ 31` bytes are left. -/
theorem packsGreedily_iff (hlens : LensOk a) (hmax : sizeofMacPdu ≤ maxMaclen.toNat) (m : Mem) :
    ∃ s ret, txCmd maxMaclen a m = some (s, ret) ∧
      (PacksGreedily maxMaclen a m s ret ↔ maxMaclen.toNat - wholeLen a < 2 ^ 31) := by
  rcases txCmd_spec hlens hmax m with ⟨s, ret, hcall, hspec⟩
  have hlt32 := maxMaclen.toNat_lt
  have hle := hspec.wlen_le hmax
  have hleft := s.left_le maxMaclen
  refine ⟨s, ret, hcall, ?_⟩
  rw [← hspec.left_lt_iff hlens]
  constructor
  · intro h
    have hret : ret = s.left maxMaclen := by
      by_cases hnil : s.sent = []
      · rw [TxState.left, if_pos hnil]
        exact (h.idle (hspec.sent_eq_nil_iff.mp hnil)).1
      · rw [TxState.left, if_neg hnil]
        rw [hspec.sent_eq_nil_iff, not_forall] at hnil
        rw [h.returned hnil]
        omega
    rw [hspec.ret_eq hlens hmax hcall] at hret
    rcases toInt32_natCast (n := s.left maxMaclen) (by omega) with ⟨hlt, -⟩ | ⟨-, hneg⟩
    · exact hlt
    · omega
  · intro hlt
    have hret : ret = s.left maxMaclen := by
      rw [hspec.ret_eq hlens hmax hcall]
      exact toInt32_of_lt (Int.natCast_nonneg _) (by omega)
    refine ⟨hspec.wlen_eq, hspec.packed, hspec.order, hspec.items, hspec.behind, fun hsent => ?_,
      fun hidle => ⟨?_, hspec.allCmd_eq hidle⟩, fun t => ?_, fun _ _ => hspec.onePart,
      fun t hne _ => ⟨fun _ => hspec.moved_behind hne, hspec.room_le hne⟩⟩
    · have hne : s.sent ≠ [] := by
        rw [Ne, hspec.sent_eq_nil_iff, not_forall]
        exact hsent
      rw [hret, TxState.left, if_neg hne]
      omega
    · rw [hret, TxState.left, if_pos (hspec.sent_eq_nil_iff.mpr hidle)]
    · rw [hspec.lens_eq]
      exact Nat.sub_le ..

end Greedy

/-- One byte in a frame of 13 bytes. -/
theorem packsGreedily_iff_oneByte : ∃ s ret, txCmd 13 oneByte (fun _ => 0) = some (s, ret) ∧
    PacksGreedily 13 oneByte (fun _ => 0) s ret := by
  have hmax : (13 : UInt32).toNat = 13 := rfl
  rcases packsGreedily_iff lensOk_oneByte
      (show sizeofMacPdu ≤ (13 : UInt32).toNat by decide) (fun _ => 0)
    with ⟨s, ret, hcall, hiff⟩
  exact ⟨s, ret, hcall, hiff.mpr (by omega)⟩

/-- With nothing to send, of a frame of `2 ^ 31` bytes `-2 ^ 31` are left. -/
theorem not_packsGreedily_idle : ¬ ∃ s ret, txCmd 0x80000000 .zero (fun _ => 0) = some (s, ret) ∧
    PacksGreedily 0x80000000 .zero (fun _ => 0) s ret := by
  rw [exists_txCmd_iff (txCmd_of_idle (fun _ => rfl) _ _)]
  intro h
  have hret := (h.idle fun _ => rfl).1
  exact absurd hret (by decide)

end AdhocNode
