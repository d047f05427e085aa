/-
  REASSEMBLY OF SEVERAL TYPES — sub-packets of different types do not disturb each other.

  1. **What is seen** — `rxSeenStep` combines a sub-packet and asks `rx_check_cmddata_complete` for its
     type.  For each type `RxSeen` lists the answers, each with the buffer at that point.

  2. **Independence** (`run_rxSeenStep_congr`) — combining and asking use the buffer of the
     sub-packet's type only, so the receiver is a system of independent parts.  Two streams in which
     every type has the same sub-packets in the same order, however these are interleaved, leave the
     same buffers and the same lists; a stream is in range iff the other one is.
-/
import AdhocNode.CmdRx
import AdhocNode.Lib.CStr
import AdhocNode.Lib.Runs

namespace AdhocNode

open CMem Runs

/-! ## What is seen -/

/-- The buffers, and for each type the answers of `rx_check_cmddata_complete` behind its sub-packets,
    with the buffer at that point. -/
@[ext] structure RxSeen where
  bufs : AllCmdBuf
  completions : CmdType → List (Bool × CmdBuf)

/-- A sub-packet arrives: `rx_cmd_frag_combine`, then `rx_check_cmddata_complete`. -/
def rxSeenStep (p : CmdPdu × Mem) (s : RxSeen) : Option RxSeen := do
  let bufs ← rxCmdFragCombine p.1 p.2 s.bufs
  let complete ← rxCheckCmddataComplete p.1.cmdPduType bufs
  let t ← CmdType.ofNat? p.1.cmdPduType.toNat
  return ⟨bufs, Function.update s.completions t (s.completions t ++ [(complete, bufs.cmdBuf t)])⟩

/-- The sub-packet has a type below `MAX_CMD_TYPE`, and its copy ends inside that type's `data`. -/
def RxInRange (p : CmdPdu × Mem) (s : RxSeen) : Prop :=
  ∃ t : CmdType, p.1.cmdPduType.toNat = t.toNat ∧ InRange (s.bufs.cmdBuf t) p.1

/-- The sub-packets of a stream whose `cmd_pdu_type` is `ty`: header and payload of each. -/
def subPackets (ty : UInt8) (ps : List (CmdPdu × Mem)) : List (CmdPdu × List UInt8) :=
  (ps.filter fun p => p.1.cmdPduType = ty).map fun p => (p.1, p.2.slice 0 p.1.paylen)

/-! ## One type -/

/-- The type of a sub-packet, if there is a buffer for it. -/
def partOf (p : CmdPdu × Mem) : Option CmdType := CmdType.ofNat? p.1.cmdPduType.toNat

/-- What a sub-packet does to the buffer of its type, and to the list. -/
def seenStep (p : CmdPdu × Mem) (s : CmdBuf × List (Bool × CmdBuf)) :
    Option (CmdBuf × List (Bool × CmdBuf)) :=
  (combineBuf p.1 p.2 s.1).map fun b => (b, s.2 ++ [(b.complete, b)])

/-- Buffer and list of each type. -/
def RxSeen.parts (s : RxSeen) (t : CmdType) : CmdBuf × List (Bool × CmdBuf) :=
  (s.bufs.cmdBuf t, s.completions t)

theorem RxSeen.parts_injective : Function.Injective RxSeen.parts := by
  intro s s' h
  have hbufs : s.bufs.cmdBuf = s'.bufs.cmdBuf := funext fun t => congrArg Prod.fst (congrFun h t)
  have hseen : s.completions = s'.completions := funext fun t => congrArg Prod.snd (congrFun h t)
  exact RxSeen.ext (congrArg AllCmdBuf.mk hbufs) hseen

/-- **A sub-packet is a step of its type.** -/
theorem map_rxSeenStep (p : CmdPdu × Mem) (s : RxSeen) :
    (rxSeenStep p s).map RxSeen.parts = partStep partOf seenStep p s.parts := by
  cases ht : CmdType.ofNat? p.1.cmdPduType.toNat with
  | none =>
    rw [rxSeenStep, rxCmdFragCombine, partStep, partOf, ht]
    rfl
  | some t =>
    have htype := CmdType.ofNat?_eq_some.mp ht
    rw [rxSeenStep, rxCmdFragCombine_of_type htype, partStep, partOf, ht, Option.bind_some, seenStep]
    show _ = Option.map (Function.update s.parts t)
      ((combineBuf p.1 p.2 (s.bufs.cmdBuf t)).map _)
    cases hb : combineBuf p.1 p.2 (s.bufs.cmdBuf t) with
    | none => rfl
    | some b =>
      rw [Option.map_some, Option.bind_eq_bind, Option.bind_some,
        rxCheckCmddataComplete_of_type htype]
      refine congrArg some (funext fun u => ?_)
      show ((s.bufs.set t b).cmdBuf u, Function.update s.completions t _ u) = _
      by_cases hu : u = t
      · subst hu
        rw [Function.update_self, Function.update_self, AllCmdBuf.cmdBuf_set_self]
        rfl
      · rw [Function.update_of_ne hu, Function.update_of_ne hu, AllCmdBuf.cmdBuf_set_of_ne hu]
        rfl

/-- A sub-packet's memory counts up to the end of its payload. -/
theorem combineBuf_congr {h : CmdPdu} {data data' : Mem}
    (hpay : data.slice 0 h.paylen = data'.slice 0 h.paylen) (b : CmdBuf) :
    combineBuf h data b = combineBuf h data' b := by
  by_cases hr : InRange b h
  · have hcopy : b.data.copy (base b h) data h.paylen = b.data.copy (base b h) data' h.paylen := by
      funext i
      by_cases hi : base b h ≤ i ∧ i < base b h + h.paylen
      · have hlt : i - base b h < h.paylen := by omega
        have hbyte := Mem.getD_slice data 0 hlt
        rw [hpay, Mem.getD_slice data' 0 hlt, Nat.zero_add] at hbyte
        rw [Mem.copy_apply_of_mem hi.1 hi.2, Mem.copy_apply_of_mem hi.1 hi.2, hbyte]
      · exact (if_neg hi).trans (if_neg hi).symm
    rw [combineBuf_of_inRange data hr, combineBuf_of_inRange data' hr, combined, combined, hcopy]
  · rw [combineBuf_eq_none hr, combineBuf_eq_none hr]

/-- The same headers and payloads lead one type from the same state to the same state. -/
theorem run_seenStep_congr {ps : List (CmdPdu × Mem)} : ∀ {qs : List (CmdPdu × Mem)},
    (ps.map fun p => (p.1, p.2.slice 0 p.1.paylen)) =
      (qs.map fun q => (q.1, q.2.slice 0 q.1.paylen)) →
    ∀ s, run seenStep s ps = run seenStep s qs := by
  induction ps with
  | nil =>
    intro qs h s
    rw [List.map_eq_nil_iff.mp h.symm]
  | cons p ps ih =>
    intro qs h s
    cases qs with
    | nil => cases h
    | cons q qs =>
      rcases List.cons.inj h with ⟨hhead, hrest⟩
      rcases Prod.mk.inj hhead with ⟨hhdr, hpay⟩
      have hstep : seenStep p s = seenStep q s := by
        rw [← hhdr] at hpay
        rw [seenStep, seenStep, ← hhdr, combineBuf_congr hpay]
      rw [run, run, hstep]
      exact congrArg _ (funext fun s' => ih hrest s')

/-! ## All types -/

section

variable {xs ys : List (CmdPdu × Mem)}

/-- The sub-packets of a part are those with its type. -/
theorem map_actionsOf (t : CmdType) (ps : List (CmdPdu × Mem)) :
    (actionsOf partOf t ps).map (fun p => (p.1, p.2.slice 0 p.1.paylen)) =
      subPackets (UInt8.ofNat t.toNat) ps := by
  rw [actionsOf, subPackets]
  refine congrArg _ (List.filter_congr fun p _ => decide_eq_decide.mpr ?_)
  rw [partOf, CmdType.ofNat?_eq_some, ← UInt8.toNat_inj]
  cases t with
  | macNodeHello => rfl
  | distBaseData => rfl
  | distReport => rfl

/-- A type without a buffer is in both streams or in neither. -/
theorem partOf_ne_none (h : ∀ ty, subPackets ty xs = subPackets ty ys)
    (hxs : ∀ p ∈ xs, partOf p ≠ none) : ∀ q ∈ ys, partOf q ≠ none := by
  intro q hq
  have hmem : (q.1, q.2.slice 0 q.1.paylen) ∈ subPackets q.1.cmdPduType ys :=
    List.mem_map.mpr ⟨q, List.mem_filter.mpr ⟨hq, decide_eq_true rfl⟩, rfl⟩
  rw [← h] at hmem
  rcases List.mem_map.mp hmem with ⟨p, hp, hpq⟩
  have hhdr : p.1 = q.1 := (Prod.mk.inj hpq).1
  have hnone := hxs p (List.mem_filter.mp hp).1
  rw [partOf, hhdr] at hnone
  exact hnone

/-- A run of one stream is a run of the other. -/
theorem run_parts_congr (h : ∀ ty, subPackets ty xs = subPackets ty ys)
    {u v : CmdType → CmdBuf × List (Bool × CmdBuf)}
    (hrun : run (partStep partOf seenStep) u xs = some v) :
    run (partStep partOf seenStep) u ys = some v := by
  rcases run_partStep_iff.mp hrun with ⟨hparts, hruns⟩
  refine run_partStep_iff.mpr ⟨partOf_ne_none h hparts, fun t => ?_⟩
  have hsame : run seenStep (u t) (actionsOf partOf t ys) =
      run seenStep (u t) (actionsOf partOf t xs) := by
    refine run_seenStep_congr ?_ (u t)
    rw [map_actionsOf, map_actionsOf, h]
  rw [hsame]
  exact hruns t

/-- Sub-packets in range are combined. -/
theorem exists_rxSeenStep {p : CmdPdu × Mem} {s : RxSeen} (h : RxInRange p s) :
    ∃ s', rxSeenStep p s = some s' := by
  rcases h with ⟨t, htype, hr⟩
  let bufs := s.bufs.set t (combined p.1 p.2 (s.bufs.cmdBuf t))
  refine ⟨⟨bufs, Function.update s.completions t
    (s.completions t ++ [((bufs.cmdBuf t).complete, bufs.cmdBuf t)])⟩, ?_⟩
  rw [rxSeenStep, rxCmdFragCombine_of_type htype, combineBuf_of_inRange p.2 hr, Option.map_some,
    Option.bind_eq_bind, Option.bind_some, rxCheckCmddataComplete_of_type htype, htype,
    CmdType.ofNat?_toNat]
  rfl

/-- A stream in range is defined. -/
theorem exists_run_rxSeen (s : RxSeen) (h : Meets rxSeenStep RxInRange s xs) :
    ∃ s', run rxSeenStep s xs = some s' := by
  have halways : Always rxSeenStep (fun _ => True) s xs :=
    always_of_meets (I := fun _ => True) (fun _ _ => trivial) (fun s p _ hok => by
      rcases exists_rxSeenStep hok with ⟨s', hs'⟩
      exact ⟨s', hs', trivial⟩) trivial h
  rcases halways.last with ⟨s', hrun, -⟩
  exact ⟨s', hrun⟩

/-- **The types are independent**: two streams with the same sub-packets of each type, in the same
    order, leave the same buffers and, for each type, the same answers and buffers behind each of its
    sub-packets.  If one of them leaves its range, so does the other. -/
theorem run_rxSeenStep_congr (s : RxSeen) (h : ∀ ty, subPackets ty xs = subPackets ty ys) :
    run rxSeenStep s xs = run rxSeenStep s ys ∧
      (Meets rxSeenStep RxInRange s xs →
        ∃ s', run rxSeenStep s xs = some s' ∧ run rxSeenStep s ys = some s') := by
  have heq : run rxSeenStep s xs = run rxSeenStep s ys := by
    refine Option.map_injective RxSeen.parts_injective ?_
    rw [map_run map_rxSeenStep, map_run map_rxSeenStep]
    exact Option.ext fun v => ⟨run_parts_congr h, run_parts_congr fun ty => (h ty).symm⟩
  refine ⟨heq, fun hrange => ?_⟩
  rcases exists_run_rxSeen s hrange with ⟨s', hrun⟩
  exact ⟨s', hrun, heq.symm.trans hrun⟩

end

/-- A message of one byte. -/
def byteMessage (ty : UInt8) : CmdPdu × Mem := (⟨ty, true, false, 0, 5⟩, fun _ => ty)

/-- Messages of two types, in both orders. -/
theorem run_rxSeenStep_congr_swap : ∃ s',
    run rxSeenStep ⟨.zero, fun _ => []⟩ [byteMessage 0, byteMessage 1] = some s' ∧
      run rxSeenStep ⟨.zero, fun _ => []⟩ [byteMessage 1, byteMessage 0] = some s' := by
  have hrange : ∀ ty b, InRange b (byteMessage ty).1 := by
    intro ty b
    have hfirst : ¬ joins b (byteMessage ty).1 := fun hj => nomatch hj.2.2.2.2
    refine ⟨show cmdHdrLen ≤ (5 : UInt16).toNat by decide, ?_⟩
    rw [base_of_not_joins hfirst]
    exact show 0 + ((5 : UInt16).toNat - cmdHdrLen) ≤ helloLen by decide
  refine (run_rxSeenStep_congr _ fun ty => ?_).2
    ⟨⟨.macNodeHello, rfl, hrange 0 _⟩, fun s' _ => ⟨⟨.distBaseData, rfl, hrange 1 _⟩,
      fun _ _ => trivial⟩⟩
  by_cases h0 : ty = 0
  · subst h0
    rfl
  · by_cases h1 : ty = 1
    · subst h1
      rfl
    · have hnot0 : decide ((byteMessage 0).1.cmdPduType = ty) = false :=
        decide_eq_false fun heq => h0 heq.symm
      have hnot1 : decide ((byteMessage 1).1.cmdPduType = ty) = false :=
        decide_eq_false fun heq => h1 heq.symm
      simp only [subPackets, List.filter, hnot0, hnot1]

end AdhocNode
