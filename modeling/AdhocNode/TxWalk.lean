/-
  WALKING A FRAME — the sub-packets of a frame, found by their own length fields.

  1. **The walk** — `Walks`: from the end of the MAC header on, the `sublen` field of each header leads
     to the next one.  A frame is `Walkable` when this visits the sub-packets that were written, and
     ends where the frame does.

  2. **The stamp** — `tx_cmd` copies a header into the frame before it sets its `sublen`.  So the field
     on the wire is what the buffer's header had before the call: 0 for a message that was just loaded,
     and the size of its last sub-packet later.  The frame is walkable iff these are the sizes of the
     sub-packets that the call writes (`walkable_iff`).
-/
import AdhocNode.TxQueue

namespace AdhocNode

open CMem Packing Runs

/-! ## The walk -/

/-- The `sublen` field of the header that lies at an offset. -/
def sublenAt (m : Mem) (off : Nat) : Nat := (CmdPdu.read (m.shift off)).sublen.toNat

/-- From `off` on, the length fields lead through the given offsets, and from the last one to `fin`. -/
def Walks (m : Mem) (fin : Nat) : Nat → List Nat → Prop
  | off, [] => off = fin
  | off, o :: os =>
    o = off ∧ cmdHdrLen + 1 ≤ sublenAt m off ∧ Walks m fin (off + sublenAt m off) os

/-- The walk through a frame visits the sub-packets written, and arrives at `mac_frame_len`. -/
def Walkable (s : TxState) : Prop :=
  Walks s.mactxBuf (MacPdu.read s.mactxBuf).macFrameLen.toNat sizeofMacPdu (s.sent.map Item.off)

section Walk

variable {m : Mem} {fin off off' : Nat} {is : List (Item CmdType)}

/-- A walk begins where the items do. -/
theorem Walks.start_eq (hwalk : Walks m fin off (is.map Item.off)) (hpacked : Packed is off' fin) :
    off = off' := by
  cases is with
  | nil => exact Eq.trans hwalk hpacked.symm
  | cons i is => exact hwalk.1.symm.trans hpacked.1

/-- Items that lie one behind the other are walked iff each one has its size as length field. -/
theorem walks_iff_of_packed (hsize : ∀ i ∈ is, cmdHdrLen < i.size) (hpacked : Packed is off fin) :
    Walks m fin off (is.map Item.off) ↔ ∀ i ∈ is, sublenAt m i.off = i.size := by
  induction is generalizing off with
  | nil => exact ⟨fun _ => nofun, fun _ => hpacked⟩
  | cons i is ih =>
    rcases hpacked with ⟨rfl, hrest⟩
    have hi := hsize i (List.mem_cons_self ..)
    have hwalk := ih (fun j hj => hsize j (List.mem_cons_of_mem _ hj)) hrest
    constructor
    · rintro ⟨-, -, htail⟩
      have hstart := htail.start_eq hrest
      have hsub : sublenAt m i.off = i.size := by omega
      rw [hsub] at htail
      intro j hj
      rcases List.mem_cons.mp hj with rfl | hj
      · exact hsub
      · exact hwalk.mp htail j hj
    · intro hall
      have hsub := hall i (List.mem_cons_self ..)
      refine ⟨rfl, ?_, ?_⟩
      · rw [hsub]
        exact hi
      · rw [hsub]
        exact hwalk.mpr fun j hj => hall j (List.mem_cons_of_mem _ hj)

end Walk

/-! ## The stamp -/

/-- The room that type `t` finds behind the MAC header and the sub-packets of the types before it. -/
def txRoom (maxMaclen : UInt32) (a : AllCmdBuf) (t : CmdType) : Nat :=
  roomAt cmdHdrLen (lens a) t CmdType.all (maxMaclen.toNat - sizeofMacPdu)

/-- Where there is something to send and room for it, the header has the size of the sub-packet
    already. -/
def Stamped (maxMaclen : UInt32) (a : AllCmdBuf) : Prop :=
  ∀ t, lens a t ≠ 0 → cmdHdrLen < txRoom maxMaclen a t →
    (a.cmdBuf t).cmdHdr.sublen.toNat = min (lens a t + cmdHdrLen) (txRoom maxMaclen a t)

section Stamp

variable {maxMaclen : UInt32} {a : AllCmdBuf} {m : Mem} {s : TxState} {t : CmdType}

theorem txSent_ne_zero_iff :
    txSent maxMaclen a t ≠ 0 ↔ lens a t ≠ 0 ∧ cmdHdrLen < txRoom maxMaclen a t := by
  have hiff : txSent maxMaclen a t = 0 ↔ lens a t = 0 ∨ txRoom maxMaclen a t ≤ cmdHdrLen :=
    share_eq_zero_iff
  omega

theorem txSent_add (h : txSent maxMaclen a t ≠ 0) :
    txSent maxMaclen a t + cmdHdrLen = min (lens a t + cmdHdrLen) (txRoom maxMaclen a t) := by
  have hshare : txSent maxMaclen a t = min (lens a t) (txRoom maxMaclen a t - cmdHdrLen) := rfl
  have hroom := (txSent_ne_zero_iff.mp h).2
  omega

/-- The length field on the wire is the one of the buffer's header before the call. -/
theorem TxSpec.sublenAt_eq (h : TxSpec maxMaclen a m s) {p : Item CmdType} (hp : p ∈ s.sent) :
    sublenAt s.mactxBuf p.off = (a.cmdBuf p.key).cmdHdr.sublen.toNat := by
  have hsize : cmdHdrLen < p.size := by
    rw [h.sent] at hp
    exact lt_size_of_mem_plan hp
  have hread : CmdPdu.read (s.mactxBuf.shift p.off) = (a.cmdBuf p.key).cmdHdr := by
    refine (CmdPdu.read_congr fun i hi => ?_).trans (a.cmdBuf p.key).read_image
    exact h.items p hp i (by omega)
  rw [sublenAt, hread]

/-- A sub-packet in the frame is what its type sends, -/
theorem TxSpec.size_eq (h : TxSpec maxMaclen a m s) {p : Item CmdType} (hp : p ∈ s.sent) :
    txSent maxMaclen a p.key ≠ 0 ∧ p.size = txSent maxMaclen a p.key + cmdHdrLen := by
  have hmem : p ∈ s.sent.filter (·.key = p.key) :=
    List.mem_filter.mpr ⟨hp, decide_eq_true rfl⟩
  rcases h.filter_sent p.key with ⟨-, hnil⟩ | ⟨hne, o, hitem⟩
  · rw [hnil] at hmem
    exact absurd hmem List.not_mem_nil
  · rw [hitem] at hmem
    exact ⟨hne, congrArg Item.size (List.mem_singleton.mp hmem)⟩

/-- and what a type sends is there. -/
theorem TxSpec.exists_item (h : TxSpec maxMaclen a m s) (hne : txSent maxMaclen a t ≠ 0) :
    ∃ p ∈ s.sent, p.key = t := by
  rcases h.filter_sent t with ⟨hz, -⟩ | ⟨-, o, hitem⟩
  · exact absurd hz hne
  · refine ⟨_, List.mem_of_mem_filter (hitem ▸ List.mem_singleton_self _), rfl⟩

theorem TxSpec.sent_ne_nil (h : TxSpec maxMaclen a m s) (hne : txSent maxMaclen a t ≠ 0) :
    s.sent ≠ [] := by
  rcases h.exists_item hne with ⟨p, hp, -⟩
  exact List.ne_nil_of_mem hp

/-- **One frame**: it is walkable iff the headers had the sizes before. -/
theorem TxSpec.walkable_iff_stamped (h : TxSpec maxMaclen a m s) (hlens : LensOk a)
    (hne : s.sent ≠ []) : Walkable s ↔ Stamped maxMaclen a := by
  have hsize : ∀ p ∈ s.sent, cmdHdrLen < p.size := by
    intro p hp
    rw [h.sent] at hp
    exact lt_size_of_mem_plan hp
  rw [Walkable, h.macFrameLen_eq hlens hne, walks_iff_of_packed hsize h.packed]
  constructor
  · intro hall t hlen hroom
    have hsent := txSent_ne_zero_iff.mpr ⟨hlen, hroom⟩
    rcases h.exists_item hsent with ⟨p, hp, rfl⟩
    rw [← h.sublenAt_eq hp, hall p hp, (h.size_eq hp).2, txSent_add hsent]
  · intro hstamped p hp
    rcases h.size_eq hp with ⟨hsent, hsize'⟩
    rcases txSent_ne_zero_iff.mp hsent with ⟨hlen, hroom⟩
    rw [h.sublenAt_eq hp, hstamped p.key hlen hroom, hsize', txSent_add hsent]

end Stamp

/-! ## Reachable states -/

section Reachable

variable {s : Sender}

/-- A load keeps the buffers in order, -/
theorem lensOk_indata (h : LensOk s.allCmd) (t : CmdType) : LensOk (s.indata t).allCmd := by
  refine h.set ?_
  rw [txCmdIndata]
  split
  · show 100 ≤ helloLen
    decide
  · exact h t

/-- and so does a call of `tx_cmd`, whatever its limit. -/
theorem lensOk_call (h : LensOk s.allCmd) (op : SendOp) :
    ∃ s', s.call op = some s' ∧ LensOk s'.allCmd := by
  cases op with
  | indata t => exact ⟨_, rfl, lensOk_indata h t⟩
  | tx maxMaclen mactxBuf =>
    rcases txCmd_total h maxMaclen mactxBuf with ⟨s', ret, hcall, hlens⟩
    refine ⟨{ s with allCmd := s'.allCmd }, ?_, hlens⟩
    show (txCmd maxMaclen s.allCmd mactxBuf).map _ = _
    rw [hcall]
    rfl

theorem lensOk_calls (h : LensOk s.allCmd) (ops : List SendOp) :
    ∃ s', ops.foldlM Sender.call s = some s' ∧ LensOk s'.allCmd :=
  exists_foldlM (I := fun s : Sender => LensOk s.allCmd) (fun _ op _ hs => lensOk_call hs op) h

end Reachable

/-- **The walk**, in every state that any calls lead to from `cmd_buf_init` on: a frame with something
    in it is walkable iff the headers had the sizes of their sub-packets before the call. -/
theorem walkable_iff (a : AllCmdBuf) (ops : List SendOp) {maxMaclen : UInt32}
    (hmax : sizeofMacPdu ≤ maxMaclen.toNat) (m : Mem) :
    ∃ s, ops.foldlM Sender.call (.init a) = some s ∧
      ∃ s' ret, txCmd maxMaclen s.allCmd m = some (s', ret) ∧
        (s'.sent ≠ [] → (Walkable s' ↔ Stamped maxMaclen s.allCmd)) := by
  rcases lensOk_calls (senderOk_init a).lensOk ops with ⟨s, hs, hlens⟩
  rcases txCmd_spec hlens hmax m with ⟨s', ret, hcall, hspec⟩
  exact ⟨s, hs, s', ret, hcall, hspec.walkable_iff_stamped hlens⟩

/-- What is left of a message of 100 bytes after a frame with room for 30 bytes of it. -/
theorem rest_of_frame : ∃ s, [SendOp.indata .macNodeHello, .tx 42 fun _ => 0].foldlM Sender.call
    (.init .zero) = some s ∧ (∀ t, lens s.allCmd t = if t = .macNodeHello then 70 else 0) ∧
    (s.allCmd.cmdBuf .macNodeHello).cmdHdr.sublen = 34 := by
  refine ⟨_, rfl, fun t => ?_, by decide⟩
  cases t with
  | macNodeHello => decide
  | distBaseData => decide
  | distReport => decide

/-- The next frame with room for 30 bytes says 34, as the first should have. -/
theorem walkable_iff_second : ∃ s, [SendOp.indata .macNodeHello, .tx 42 fun _ => 0].foldlM Sender.call
    (.init .zero) = some s ∧ ∃ s' ret, txCmd 42 s.allCmd (fun _ => 0) = some (s', ret) ∧
      s'.sent ≠ [] ∧ Walkable s' := by
  rcases rest_of_frame with ⟨s, hs, hlen, hsub⟩
  rcases walkable_iff .zero [SendOp.indata .macNodeHello, .tx 42 fun _ => 0]
    (show sizeofMacPdu ≤ (42 : UInt32).toNat by decide) (fun _ => 0) with ⟨t, ht, s', ret, hcall, hiff⟩
  rw [hs] at ht
  cases ht
  have hlens : LensOk s.allCmd := by
    intro t
    show lens s.allCmd t ≤ helloLen
    rw [hlen]
    split <;> decide
  have hroom : txRoom 42 s.allCmd .macNodeHello = 34 := roomAt_self
  have hsent : txSent 42 s.allCmd .macNodeHello ≠ 0 := by
    rw [txSent_ne_zero_iff, hlen, hroom]
    decide
  have hne : s'.sent ≠ [] := (txSpec_of_txCmd hlens (by decide) hcall).sent_ne_nil hsent
  refine ⟨s, hs, s', ret, hcall, hne, (hiff hne).mpr fun t hne _ => ?_⟩
  rw [hlen] at hne
  by_cases ht : t = .macNodeHello
  · subst ht
    rw [hsub, hlen, hroom]
    decide
  · rw [if_neg ht] at hne
    exact absurd rfl hne

/-- The first sub-packet of a message says 0. -/
theorem not_walkable_first : ¬ ∃ s, [SendOp.indata .macNodeHello].foldlM Sender.call
    (.init .zero) = some s ∧ ∃ s' ret, txCmd 200 s.allCmd (fun _ => 0) = some (s', ret) ∧
      (s'.sent ≠ [] → Walkable s') := by
  rintro ⟨s, hs, s', ret, hcall, hwalk⟩
  cases hs
  have hlens : LensOk ((Sender.init .zero).indata .macNodeHello).allCmd :=
    lensOk_indata (senderOk_init .zero).lensOk _
  have hroom : txRoom 200 ((Sender.init .zero).indata .macNodeHello).allCmd .macNodeHello = 192 :=
    roomAt_self
  have hsent : txSent 200 ((Sender.init .zero).indata .macNodeHello).allCmd .macNodeHello ≠ 0 := by
    rw [txSent_ne_zero_iff, hroom]
    decide
  have hspec := txSpec_of_txCmd hlens (by decide) hcall
  have hne := hspec.sent_ne_nil hsent
  have hstamp := (hspec.walkable_iff_stamped hlens hne).mp (hwalk hne) .macNodeHello
  rw [hroom] at hstamp
  exact absurd (hstamp (by decide) (by decide)) (by decide)

end AdhocNode
