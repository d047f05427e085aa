/-
  REASSEMBLY — `rx_cmd_frag_combine` as an instance of the fragment receiver of `Lib.Reassembly`.

  The receive buffer keeps of all the fragments it combined only the header of the covering one,
  with its `fragment` bit replaced by that of the last one.  `Represents b held` says which list of
  fragments a buffer stands for; `represents_combined` is the refinement: one sub-packet combined is
  one fragment absorbed.  From it follow, for sub-packets of one type,

  * `feed_fragments`: in any earlier state, the fragments of a message are complete after the last
    one and not before, and the buffer then holds the message;
  * `complete_suffix`: whatever is complete is the payload of a run of sub-packets that is exactly
    one message;
  * `complete_of_inSequence`: fragments may be lost, but as long as every fragment that is appended
    is the successor of the one before it, whatever is complete was sent.  Without that the buffer
    can hold a message with a hole (`lost_middle_fragment`): the test for continuity compares
    nothing but the 6-bit message index.
-/
import AdhocNode.CmdRx
import AdhocNode.Lib.Reassembly

namespace AdhocNode

open CMem Reassembly

/-! ## The refinement -/

/-- A sub-packet as a fragment. -/
def fragOf (p : CmdPdu × Mem) : Frag (Fin 64) UInt8 :=
  ⟨p.1.firstpkg, p.1.fragment, p.1.index, p.2.slice 0 p.1.paylen⟩

/-- The fragments that a receive buffer stands for. -/
structure Represents (b : CmdBuf) (held : List (Frag (Fin 64) UInt8)) : Prop where
  content : b.content = payloads held
  opened : ∀ f, held.head? = some f → b.cmdHdr.firstpkg = f.first ∧ b.cmdHdr.index = f.idx
  closed : ∀ l, held.getLast? = some l → b.cmdHdr.fragment = l.more

@[simp] theorem length_payload_fragOf (p : CmdPdu × Mem) :
    (fragOf p).payload.length = p.1.paylen := Mem.length_slice ..

theorem Represents.len_eq {b : CmdBuf} {held : List (Frag (Fin 64) UInt8)} (h : Represents b held) :
    b.len = (payloads held).length := by
  rw [← h.content, CmdBuf.length_content]

/-- The test of the code is the test of the abstract receiver. -/
theorem Represents.joins_iff {b : CmdBuf} {held : List (Frag (Fin 64) UInt8)}
    (h : Represents b held) (p : CmdPdu × Mem) :
    joins b p.1 ↔ Reassembly.joins held (fragOf p) = true := by
  rw [Reassembly.joins_iff]
  have hlen : b.len ≠ 0 ↔ payloads held ≠ [] := by
    rw [h.len_eq, Ne, List.length_eq_zero_iff]
  constructor
  · rintro ⟨hb, hfirst, hfrag, hidx, hpkt⟩
    have hpay := hlen.mp hb
    cases held with
    | nil => exact absurd rfl hpay
    | cons f rest =>
      obtain ⟨l, hl⟩ : ∃ l, (f :: rest).getLast? = some l := ⟨_, List.getLast?_cons⟩
      obtain ⟨h1, h2⟩ := h.opened f rfl
      exact ⟨hpay, ⟨f, rfl, by rw [← h1]; exact hfirst, by rw [← h2]; exact hidx⟩,
        ⟨l, hl, by rw [← h.closed l hl]; exact hfrag⟩, hpkt⟩
  · rintro ⟨hpay, ⟨f, hf, hfirst, hidx⟩, ⟨l, hl, hmore⟩, hpkt⟩
    obtain ⟨h1, h2⟩ := h.opened f hf
    exact ⟨hlen.mpr hpay, by rw [h1]; exact hfirst, by rw [h.closed l hl]; exact hmore,
      by rw [h2]; exact hidx, hpkt⟩

theorem Represents.complete_eq {b : CmdBuf} {held : List (Frag (Fin 64) UInt8)}
    (h : Represents b held) : b.complete = Reassembly.complete held := by
  rw [Bool.eq_iff_iff, complete_iff, Reassembly.complete_iff, h.len_eq, Ne, List.length_eq_zero_iff]
  refine and_congr_right fun hpay => ?_
  cases held with
  | nil => exact absurd rfl hpay
  | cons f rest =>
    obtain ⟨l, hl⟩ : ∃ l, (f :: rest).getLast? = some l := ⟨_, List.getLast?_cons⟩
    rw [(h.opened f rfl).1, h.closed l hl]
    constructor
    · rintro ⟨hfirst, hmore⟩
      refine ⟨⟨f, rfl, hfirst⟩, fun l' hl' => ?_⟩
      rw [hl] at hl'; cases hl'; exact hmore
    · rintro ⟨⟨f', hf', hfirst⟩, hall⟩
      cases hf'
      exact ⟨hfirst, hall l hl⟩

/-- A sub-packet that covers the buffer is what the buffer then stands for. -/
theorem represents_cover {b : CmdBuf} {p : CmdPdu × Mem} (hj : ¬ joins b p.1) :
    Represents (combined p.1 p.2 b) [fragOf p] := by
  have hhdr : (combined p.1 p.2 b).cmdHdr = p.1 := if_neg hj
  refine ⟨?_, ?_, ?_⟩
  · rw [content_combined, base_of_not_joins hj]; simp [fragOf]
  · intro f hf
    cases hf
    rw [hhdr]
    exact ⟨rfl, rfl⟩
  · intro l hl
    cases hl
    rw [hhdr]; rfl

/-- **The refinement**: combining a sub-packet is absorbing its fragment. -/
theorem represents_combined {b : CmdBuf} {held : List (Frag (Fin 64) UInt8)} (h : Represents b held)
    (p : CmdPdu × Mem) : Represents (combined p.1 p.2 b) (absorb held (fragOf p)) := by
  by_cases hj : joins b p.1
  · have hj' := (h.joins_iff p).mp hj
    have hhdr : (combined p.1 p.2 b).cmdHdr = { b.cmdHdr with fragment := p.1.fragment } :=
      if_pos hj
    rw [absorb_of_joins hj']
    refine ⟨?_, ?_, ?_⟩
    · have hold : b.data.slice 0 b.len = payloads held := h.content
      rw [content_combined, base_of_joins hj, hold, payloads_append]
      simp [fragOf]
    · obtain ⟨-, ⟨f₀, hf₀, -, -⟩, -, -⟩ := Reassembly.joins_iff.mp hj'
      intro f hf
      rw [List.head?_append, hf₀] at hf
      obtain rfl : f₀ = f := Option.some.inj hf
      rw [hhdr]
      exact h.opened _ hf₀
    · intro l hl
      rw [List.getLast?_concat] at hl
      cases hl
      rw [hhdr]; rfl
  · have hj' : Reassembly.joins held (fragOf p) = false := by
      rw [← Bool.not_eq_true, ← h.joins_iff p]; exact hj
    rw [absorb_of_not_joins hj']
    exact represents_cover hj

/-- The sub-packet is in range when what is then held fits in the buffer. -/
theorem Represents.inRange {b : CmdBuf} {held : List (Frag (Fin 64) UInt8)} (h : Represents b held)
    {p : CmdPdu × Mem} (hsub : cmdHdrLen ≤ p.1.sublen.toNat)
    (hfit : (payloads (absorb held (fragOf p))).length ≤ helloLen) : InRange b p.1 := by
  rw [← (represents_combined h p).len_eq] at hfit
  exact ⟨hsub, hfit⟩

/-! ## Streams of sub-packets of one type -/

/-- Feed sub-packets to `rx_cmd_frag_combine`, one after the other. -/
def rxFeed : List (CmdPdu × Mem) → AllCmdBuf → Option AllCmdBuf
  | [], a => some a
  | p :: ps, a => (rxCmdFragCombine p.1 p.2 a).bind (rxFeed ps)

/-- All sub-packets carry the type `t`. -/
def OfType (t : CmdType) (ps : List (CmdPdu × Mem)) : Prop :=
  ∀ p ∈ ps, p.1.cmdPduType.toNat = t.toNat

/-- The value of `cmd_pdu_type` on the wire. -/
def typeByte (t : CmdType) : UInt8 := UInt8.ofNat t.toNat

theorem typeByte_toNat (t : CmdType) : (typeByte t).toNat = t.toNat := by cases t <;> rfl

theorem rxCheckCmddataComplete_typeByte (t : CmdType) (a : AllCmdBuf) :
    rxCheckCmddataComplete (typeByte t) a = some (a.cmdBuf t).complete :=
  rxCheckCmddataComplete_of_type (typeByte_toNat t) a

theorem rxFeed_append (ps qs : List (CmdPdu × Mem)) (a : AllCmdBuf) :
    rxFeed (ps ++ qs) a = (rxFeed ps a).bind (rxFeed qs) := by
  induction ps generalizing a with
  | nil => rfl
  | cons p ps ih =>
    rw [List.cons_append, rxFeed, rxFeed]
    cases rxCmdFragCombine p.1 p.2 a with
    | none => rfl
    | some a' => exact ih a'

theorem rxFeed_concat {ps : List (CmdPdu × Mem)} {p : CmdPdu × Mem} {a a' : AllCmdBuf}
    (h : rxFeed ps a = some a') : rxFeed (ps ++ [p]) a = rxCmdFragCombine p.1 p.2 a' := by
  rw [rxFeed_append, h]
  show (rxCmdFragCombine p.1 p.2 a').bind some = _
  cases rxCmdFragCombine p.1 p.2 a' <;> rfl

/-- A sub-packet in range changes the buffer of its type as `combined` says. -/
theorem rxCmdFragCombine_of_inRange {p : CmdPdu × Mem} {t : CmdType} {a : AllCmdBuf}
    (ht : p.1.cmdPduType.toNat = t.toNat) (hr : InRange (a.cmdBuf t) p.1) :
    rxCmdFragCombine p.1 p.2 a = some (a.set t (combined p.1 p.2 (a.cmdBuf t))) := by
  rw [rxCmdFragCombine_of_type ht, combineBuf_of_inRange p.2 hr]; rfl

/-- `cmd_buf_init` leaves a buffer that stands for nothing. -/
theorem represents_init (a : AllCmdBuf) (t : CmdType) :
    Represents ((cmdBufInitRx a).cmdBuf t) [] :=
  ⟨rfl, nofun, nofun⟩

/-- The run lemma of the refinement. -/
theorem represents_rxFeed {t : CmdType} {ps : List (CmdPdu × Mem)} (hty : OfType t ps)
    {a a' : AllCmdBuf} {held : List (Frag (Fin 64) UInt8)} (h : Represents (a.cmdBuf t) held)
    (hfeed : rxFeed ps a = some a') :
    Represents (a'.cmdBuf t) ((ps.map fragOf).foldl absorb held) := by
  induction ps generalizing a held with
  | nil => cases hfeed; exact h
  | cons p ps ih =>
    have hp : p.1.cmdPduType.toNat = t.toNat := hty p (List.mem_cons_self ..)
    rw [rxFeed, rxCmdFragCombine_of_type hp] at hfeed
    cases hcomb : combineBuf p.1 p.2 (a.cmdBuf t) with
    | none => rw [hcomb] at hfeed; cases hfeed
    | some b =>
      rw [hcomb] at hfeed
      obtain ⟨-, hb⟩ := combineBuf_eq_some.mp hcomb
      refine ih (fun q hq => hty q (List.mem_cons_of_mem _ hq)) ?_ hfeed
      rw [AllCmdBuf.cmdBuf_set_self, hb]
      exact represents_combined h p

/-- The sub-packet of type `t` that carries a fragment. -/
def subPkt (t : CmdType) (f : Frag (Fin 64) UInt8) : CmdPdu × Mem :=
  (⟨typeByte t, f.first, f.more, f.idx, UInt16.ofNat (cmdHdrLen + f.payload.length)⟩,
    Mem.ofList f.payload)

theorem fragOf_subPkt {t : CmdType} {f : Frag (Fin 64) UInt8} (h : f.payload.length ≤ helloLen) :
    fragOf (subPkt t f) = f := by
  have hsub : (UInt16.ofNat (cmdHdrLen + f.payload.length)).toNat =
      cmdHdrLen + f.payload.length := by
    rw [UInt16.toNat_ofNat']
    refine Nat.mod_eq_of_lt ?_
    unfold helloLen at h; unfold cmdHdrLen; omega
  have hpay : (subPkt t f).1.paylen = f.payload.length := by
    show (UInt16.ofNat (cmdHdrLen + f.payload.length)).toNat - cmdHdrLen = _
    rw [hsub]; omega
  unfold fragOf
  rw [hpay, show (subPkt t f).2 = Mem.ofList f.payload from rfl, Mem.slice_ofList]
  rfl

theorem map_fragOf_subPkt {t : CmdType} {fs : List (Frag (Fin 64) UInt8)}
    (h : ∀ f ∈ fs, f.payload.length ≤ helloLen) : (fs.map (subPkt t)).map fragOf = fs := by
  rw [List.map_map]
  exact (List.map_congr_left fun f hf => fragOf_subPkt (h f hf)).trans (List.map_id _)

theorem ofType_subPkt (t : CmdType) (fs : List (Frag (Fin 64) UInt8)) :
    OfType t (fs.map (subPkt t)) := by
  intro p hp
  obtain ⟨f, -, rfl⟩ := List.mem_map.mp hp
  exact typeByte_toNat t

/-- A sub-packet with a payload has `sublen` at least `CMD_HDR_LEN`. -/
theorem hdrLen_le_sublen {p : CmdPdu × Mem} (h : (fragOf p).payload ≠ []) :
    cmdHdrLen ≤ p.1.sublen.toNat := by
  have hlen : (fragOf p).payload.length ≠ 0 := fun h0 => h (List.length_eq_zero_iff.mp h0)
  rw [length_payload_fragOf, CmdPdu.paylen] at hlen
  omega

/-- A sub-packet that what is held has room for is combined. -/
theorem combine_next {p : CmdPdu × Mem} {t : CmdType} (hty : p.1.cmdPduType.toNat = t.toNat)
    (hpay : (fragOf p).payload ≠ []) {a : AllCmdBuf} {held : List (Frag (Fin 64) UInt8)}
    (h : Represents (a.cmdBuf t) held)
    (hfit : (payloads (absorb held (fragOf p))).length ≤ helloLen) :
    ∃ a', rxCmdFragCombine p.1 p.2 a = some a' ∧
      Represents (a'.cmdBuf t) (absorb held (fragOf p)) := by
  refine ⟨_, rxCmdFragCombine_of_inRange hty (h.inRange (hdrLen_le_sublen hpay) hfit), ?_⟩
  rw [AllCmdBuf.cmdBuf_set_self]
  exact represents_combined h p

/-- **Sub-packets whose payloads always fit are received**, and the buffer then stands for what the
    abstract receiver holds. -/
theorem exists_rxFeed {t : CmdType} {ps : List (CmdPdu × Mem)} (hty : OfType t ps)
    (hpay : ∀ p ∈ ps, (fragOf p).payload ≠ []) {a : AllCmdBuf} {held : List (Frag (Fin 64) UInt8)}
    (h : Represents (a.cmdBuf t) held)
    (hfit : ∀ qs, qs ≠ [] → qs <+: ps →
      (payloads ((qs.map fragOf).foldl absorb held)).length ≤ helloLen) :
    ∃ a', rxFeed ps a = some a' ∧
      Represents (a'.cmdBuf t) ((ps.map fragOf).foldl absorb held) := by
  induction ps using List.reverseRecOn with
  | nil => exact ⟨a, rfl, h⟩
  | append_singleton ps p ih =>
    have hp : p ∈ ps ++ [p] := List.mem_append_right _ (List.mem_singleton_self p)
    obtain ⟨a₁, hfeed, hrep⟩ := ih (fun q hq => hty q (List.mem_append_left _ hq))
      (fun q hq => hpay q (List.mem_append_left _ hq))
      fun qs hne hqs => hfit qs hne (hqs.trans (List.prefix_append ..))
    have hwhole := hfit (ps ++ [p]) (List.concat_ne_nil p ps) List.prefix_rfl
    rw [List.map_append, List.foldl_append] at hwhole ⊢
    obtain ⟨a', hcomb, hrep'⟩ := combine_next (hty p hp) (hpay p hp) hrep hwhole
    exact ⟨a', by rw [rxFeed_concat hfeed]; exact hcomb, hrep'⟩

/-- The case of few sub-packets, from `cmd_buf_init` on: all their payloads fit together. -/
theorem exists_rxFeed_subPkt (t : CmdType) (fs : List (Frag (Fin 64) UInt8))
    (hpay : ∀ f ∈ fs, f.payload ≠ []) (hfit : (payloads fs).length ≤ helloLen) (a : AllCmdBuf) :
    ∃ a', rxFeed (fs.map (subPkt t)) (cmdBufInitRx a) = some a' ∧
      Represents (a'.cmdBuf t) (run fs) := by
  have hmap : (fs.map (subPkt t)).map fragOf = fs :=
    map_fragOf_subPkt fun f hf => Nat.le_trans (length_payload_le hf) hfit
  have hrun := exists_rxFeed (ofType_subPkt t fs)
    (fun p hp => hpay _ (hmap ▸ List.mem_map_of_mem hp)) (represents_init a t) fun qs _ hqs => by
      have hpre : qs.map fragOf <+: fs := hmap ▸ hqs.map fragOf
      exact Nat.le_trans (length_payloads_le ((run_suffix _).sublist.trans hpre.sublist)) hfit
  rw [hmap] at hrun
  exact hrun

/-! ## A message arrives -/

/-- A buffer's header and what it holds, as one fragment. -/
def fragOfBuf (b : CmdBuf) : Frag (Fin 64) UInt8 :=
  ⟨b.cmdHdr.firstpkg, b.cmdHdr.fragment, b.cmdHdr.index, b.content⟩

/-- Any buffer stands for that fragment. -/
theorem represents_fragOfBuf (b : CmdBuf) : Represents b [fragOfBuf b] := by
  refine ⟨(List.append_nil _).symm, ?_, ?_⟩
  · intro f hf
    cases hf
    exact ⟨rfl, rfl⟩
  · intro l hl
    cases hl
    rfl

section Message

variable {t : CmdType} {ix : Fin 64} {cs : List (List UInt8)} {ps : List (CmdPdu × Mem)}

/-- After `j` fragments of a message the buffer stands for these fragments, whatever was in it. -/
theorem represents_take (hne : ∀ c ∈ cs, c ≠ []) (hlen : cs.flatten.length ≤ helloLen)
    (hty : OfType t ps) (hfrag : ps.map fragOf = fragments ix true cs) (a : AllCmdBuf) {j : Nat}
    (h0 : 0 < j) (hj : j ≤ cs.length) :
    ∃ a', rxFeed (ps.take j) a = some a' ∧
      Represents (a'.cmdBuf t) ((fragments ix true cs).take j) := by
  -- the earlier content is one more fragment, which the first one of the message covers
  have htake : ∀ i, 0 < i → i ≤ cs.length → ∀ held,
      ((ps.take i).map fragOf).foldl absorb held = (fragments ix true cs).take i := by
    intro i hi0 hi held
    rw [List.map_take, hfrag]
    exact absorb_fragments_take hne held hi0 hi
  have hpay : ∀ p ∈ ps, (fragOf p).payload ≠ [] := by
    intro p hp
    have hmem : fragOf p ∈ fragments ix true cs := hfrag ▸ List.mem_map_of_mem hp
    exact hne _ (payload_mem_of_mem_fragments hmem)
  rw [← htake j h0 hj [fragOfBuf (a.cmdBuf t)]]
  refine exists_rxFeed (fun p hp => hty p (List.mem_of_mem_take hp))
    (fun p hp => hpay p (List.mem_of_mem_take hp)) (represents_fragOfBuf _) fun qs hqne hqs => ?_
  have hqlen : qs.length ≤ j := Nat.le_trans hqs.length_le (List.length_take_le ..)
  have hq : qs = ps.take qs.length := List.prefix_iff_eq_take.mp (hqs.trans (List.take_prefix ..))
  rw [hq, htake _ (List.length_pos_iff.mpr hqne) (Nat.le_trans hqlen hj)]
  refine Nat.le_trans (length_payloads_le (List.take_sublist ..)) ?_
  rw [payloads_fragments]
  exact hlen

/-- **Reassembly is complete**: the fragments of a message, fed in order to a buffer in any state,
    count as complete after the last one and not before, and the buffer then holds the message. -/
theorem feed_fragments (hne : ∀ c ∈ cs, c ≠ []) (hlen : cs.flatten.length ≤ helloLen)
    (hty : OfType t ps) (hfrag : ps.map fragOf = fragments ix true cs) (a : AllCmdBuf) {j : Nat}
    (h0 : 0 < j) (hj : j ≤ cs.length) :
    ∃ a', rxFeed (ps.take j) a = some a' ∧
      rxCheckCmddataComplete (typeByte t) a' = some (decide (j = cs.length)) ∧
      (j = cs.length →
        (a'.cmdBuf t).len = cs.flatten.length ∧ (a'.cmdBuf t).content = cs.flatten) := by
  obtain ⟨a', hfeed, hrep⟩ := represents_take hne hlen hty hfrag a h0 hj
  refine ⟨a', hfeed, ?_, fun hall => ?_⟩
  · rw [rxCheckCmddataComplete_typeByte, hrep.complete_eq, complete_take hne h0 hj]
  · have hcontent : (a'.cmdBuf t).content = cs.flatten := by
      rw [hrep.content, hall, ← length_fragments ix true cs, List.take_length, payloads_fragments]
    exact ⟨by rw [← hcontent, CmdBuf.length_content], hcontent⟩

end Message

/-- Three bytes in two fragments, into the buffers as `cmd_buf_init` leaves them. -/
theorem feed_fragments_two :
    ∃ a', rxFeed (((fragments 5 true [[1, 2], [3]]).map (subPkt .distReport)).take 2)
        (cmdBufInitRx .zero) = some a' ∧
      rxCheckCmddataComplete (typeByte .distReport) a' = some (decide (2 = 2)) ∧
      (2 = 2 → (a'.cmdBuf .distReport).len = 3 ∧ (a'.cmdBuf .distReport).content = [1, 2, 3]) :=
  @feed_fragments .distReport 5 [[1, 2], [3]] _ (by decide) (by decide) (ofType_subPkt _ _)
    (map_fragOf_subPkt (by decide)) (cmdBufInitRx .zero) 2 (by decide) (by decide)

/-! ## Any traffic -/

/-- **Reassembly is sound**: after any sub-packets of one type that the buffer had room for, a
    complete buffer holds the payloads of the last of them, and these are exactly one message. -/
theorem complete_suffix {t : CmdType} {ps : List (CmdPdu × Mem)} (hty : OfType t ps)
    {a a' : AllCmdBuf} (hfeed : rxFeed ps (cmdBufInitRx a) = some a')
    (hc : rxCheckCmddataComplete (typeByte t) a' = some true) :
    ∃ pre suf, ps = pre ++ suf ∧ IsMessage (suf.map fragOf) ∧
      (a'.cmdBuf t).content = payloads (suf.map fragOf) := by
  have hrep : Represents (a'.cmdBuf t) (run (ps.map fragOf)) :=
    represents_rxFeed hty (represents_init a t) hfeed
  rw [rxCheckCmddataComplete_typeByte, hrep.complete_eq] at hc
  have hc' : complete (run (ps.map fragOf)) = true := Option.some.inj hc
  obtain ⟨pre, hpre⟩ := run_suffix (ps.map fragOf)
  have hsuf : (ps.drop pre.length).map fragOf = run (ps.map fragOf) := by
    conv_lhs => rw [List.map_drop, ← hpre, List.drop_left]
  refine ⟨ps.take pre.length, ps.drop pre.length, (List.take_append_drop ..).symm, ?_, ?_⟩
  · rw [hsuf]; exact isMessage_run hc'
  · rw [hsuf]; exact hrep.content

/-- A whole message behind a stray continuation. -/
theorem complete_suffix_stray :
    ∃ (a' : AllCmdBuf) (pre suf : List (CmdPdu × Mem)),
      [subPkt .macNodeHello ⟨false, true, 7, [9]⟩, subPkt .macNodeHello ⟨true, false, 7, [1, 2]⟩]
        = pre ++ suf ∧ IsMessage (suf.map fragOf) ∧
      (a'.cmdBuf .macNodeHello).content = payloads (suf.map fragOf) := by
  obtain ⟨a', hfeed, hrep⟩ := exists_rxFeed_subPkt .macNodeHello
    [⟨false, true, 7, [9]⟩, ⟨true, false, 7, [1, 2]⟩] (by decide) (by decide) .zero
  obtain ⟨pre, suf, h⟩ := complete_suffix (ofType_subPkt .macNodeHello _) hfeed
    (by rw [rxCheckCmddataComplete_typeByte, hrep.complete_eq]; rfl)
  exact ⟨a', pre, suf, h⟩

/-! ## Fragments lost on the way -/

/-- The index of message `n`: `tx_new_cmd_reset` counts modulo 64. -/
def msgIndex (i₀ : Fin 64) (n : Nat) : Fin 64 := i₀ + Fin.ofNat 64 n

/-- Whatever becomes complete while the sub-packets arrive is one of the messages. -/
def NeverCorrupted (t : CmdType) (cut : List (List (List UInt8))) (ps : List (CmdPdu × Mem))
    (a : AllCmdBuf) : Prop :=
  ∀ qs, qs <+: ps → ∃ a', rxFeed qs (cmdBufInitRx a) = some a' ∧
    (rxCheckCmddataComplete (typeByte t) a' = some true →
      ∃ cs ∈ cut, (a'.cmdBuf t).content = cs.flatten)

/-- What any delivery in sequence leaves in the buffer. -/
theorem represents_of_inSequence {t : CmdType} {i₀ : Fin 64} {cut : List (List (List UInt8))}
    (hne : ∀ cs ∈ cut, ∀ c ∈ cs, c ≠ []) (hlen : ∀ cs ∈ cut, cs.flatten.length ≤ helloLen)
    {ds : List (Tagged (Fin 64) UInt8)} (hmem : ∀ d ∈ ds, d ∈ stream (msgIndex i₀) cut)
    (hseq : InSequence ds) {ps : List (CmdPdu × Mem)} (hty : OfType t ps)
    (hfrag : ps.map fragOf = ds.map Tagged.frag) (a : AllCmdBuf) :
    ∃ a', rxFeed ps (cmdBufInitRx a) = some a' ∧
      Represents (a'.cmdBuf t) (run (ds.map Tagged.frag)) := by
  rw [← hfrag]
  refine exists_rxFeed hty (fun p hp => ?_) (represents_init a t) fun qs hqne hqs => ?_
  · have hp' : fragOf p ∈ ds.map Tagged.frag := hfrag ▸ List.mem_map_of_mem hp
    obtain ⟨d, hd, hdp⟩ := List.mem_map.mp hp'
    obtain ⟨cs, hcs, hget⟩ := mem_stream.mp (hmem d hd)
    rw [← hdp]
    exact hne cs (List.mem_of_getElem? hcs) _
      (payload_mem_of_mem_fragments (List.mem_of_getElem? hget))
  · -- what is held after any prefix is part of one message
    obtain ⟨rs, rfl⟩ := hqs
    rw [List.map_append] at hfrag
    obtain ⟨es, es', rfl, hes, -⟩ := List.map_eq_append_iff.mp hfrag.symm
    have hesne : es ≠ [] := by
      rintro rfl
      exact hqne (List.map_eq_nil_iff.mp hes.symm)
    have hlast := List.getLast?_eq_some_getLast hesne
    have hmem' : ∀ d ∈ es, d ∈ stream (msgIndex i₀) cut :=
      fun d hd => hmem d (List.mem_append_left _ hd)
    rw [← hes]
    obtain ⟨cs, hcs, hle⟩ := (holds_run hmem' hseq.prefix hlast).length_le
      (hmem' _ (List.getLast_mem hesne))
    exact Nat.le_trans hle (hlen cs hcs)

/-- **Loss without a gap is harmless**: of the fragments of any messages, numbered modulo 64, let any
    subsequence arrive; if every fragment that the code appends is the successor of the fragment
    that arrived before it, whatever becomes complete is one of the messages. -/
theorem complete_of_inSequence {t : CmdType} {i₀ : Fin 64} {cut : List (List (List UInt8))}
    (hne : ∀ cs ∈ cut, ∀ c ∈ cs, c ≠ []) (hlen : ∀ cs ∈ cut, cs.flatten.length ≤ helloLen)
    {ds : List (Tagged (Fin 64) UInt8)} (hsub : ds.Sublist (stream (msgIndex i₀) cut))
    (hseq : InSequence ds) {ps : List (CmdPdu × Mem)} (hty : OfType t ps)
    (hfrag : ps.map fragOf = ds.map Tagged.frag) (a : AllCmdBuf) : NeverCorrupted t cut ps a := by
  rintro qs ⟨rs, rfl⟩
  rw [List.map_append] at hfrag
  obtain ⟨es, es', rfl, hes, -⟩ := List.map_eq_append_iff.mp hfrag.symm
  have hmem : ∀ d ∈ es, d ∈ stream (msgIndex i₀) cut := fun d hd => hsub.subset (by simp [hd])
  obtain ⟨a', hfeed, hrep⟩ := represents_of_inSequence hne hlen hmem hseq.prefix
    (fun q hq => hty q (by simp [hq])) hes.symm a
  refine ⟨a', hfeed, fun hc => ?_⟩
  rw [rxCheckCmddataComplete_typeByte, hrep.complete_eq] at hc
  rw [hrep.content]
  exact payloads_run_of_inSequence hne hmem hseq.prefix (Option.some.inj hc)

/-- The first fragment of message 0 is lost, message 1 arrives whole. -/
theorem complete_of_inSequence_two :
    NeverCorrupted .distBaseData [[[7], [8]], [[1, 2], [3]]]
      (([⟨false, false, 0, [8]⟩, ⟨true, true, 1, [1, 2]⟩, ⟨false, false, 1, [3]⟩] :
        List (Frag (Fin 64) UInt8)).map (subPkt .distBaseData)) .zero :=
  @complete_of_inSequence .distBaseData 0 _ (by decide) (by decide)
    [⟨0, 1, false, false, 0, [8]⟩, ⟨1, 0, true, true, 1, [1, 2]⟩, ⟨1, 1, false, false, 1, [3]⟩]
    (.cons _ (.refl _))
    (((inSequence_nil.concat fun h => absurd h (by decide)).concat fun h => absurd h (by decide)).concat
      fun _ => ⟨_, rfl, rfl, rfl⟩)
    _ (ofType_subPkt _ _) (map_fragOf_subPkt (by decide)) .zero

/-- **A lost middle fragment goes unnoticed**: of the message 97, 98, 99 in three fragments the
    second is lost; the buffer then counts as complete and holds 97, 99. -/
theorem lost_middle_fragment :
    List.Sublist [⟨0, 0, true, true, 0, [97]⟩, ⟨0, 2, false, false, 0, [99]⟩]
      (stream (msgIndex 0) [[[97], [98], [99]]]) ∧
    ∃ a', rxFeed (([⟨true, true, 0, [97]⟩, ⟨false, false, 0, [99]⟩] :
        List (Frag (Fin 64) UInt8)).map (subPkt .macNodeHello)) (cmdBufInitRx .zero) = some a' ∧
      rxCheckCmddataComplete (typeByte .macNodeHello) a' = some true ∧
      (a'.cmdBuf .macNodeHello).content = [97, 99] ∧
      ¬ ∃ cs ∈ ([[[97], [98], [99]]] : List (List (List UInt8))), [97, 99] = cs.flatten := by
  obtain ⟨a', hfeed, hrep⟩ := exists_rxFeed_subPkt .macNodeHello
    [⟨true, true, 0, [97]⟩, ⟨false, false, 0, [99]⟩] (by decide) (by decide) .zero
  refine ⟨.cons_cons _ (.cons _ (.refl _)), a', hfeed, ?_, hrep.content, by decide⟩
  rw [rxCheckCmddataComplete_typeByte, hrep.complete_eq]
  rfl

end AdhocNode
