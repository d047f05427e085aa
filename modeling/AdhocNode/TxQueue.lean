/-
  THE SEND QUEUE — `tx_cmd_indata` and `tx_cmd` call after call.

  1. **Loading and sending** — `SendOp` is one call of either function, `Sender` the send buffers
     and, for each type, how many messages were loaded (a count that the source does not keep).
     `BufOk` is what the five fields of a buffer say about each other; `cmd_buf_init` sets it up, a
     load and a sub-packet keep it, so it holds in every state that any calls lead to
     (`sender_ok`).

  2. **Draining** — `pending` is how many bytes the buffers still have to send.  A call with room
     for a MAC header, a sub-packet header and a byte moves some of them into the frame, and takes
     from `pending` what it moves (`txCmd_drains`).  So as many calls as there were bytes leave
     nothing (`drain_spec`).
-/
import AdhocNode.CmdTx
import AdhocNode.Lib.Runs

namespace AdhocNode

open CMem Packing Runs

/-! ## Loading and sending -/

/-- A call of `tx_cmd_indata` on a type's buffer, or of `tx_cmd`. -/
inductive SendOp where
  | indata (t : CmdType)
  | tx (maxMaclen : UInt32) (mactxBuf : Mem)

/-- The send buffers, and the number of messages that were loaded into each. -/
structure Sender where
  allCmd : AllCmdBuf
  loads : CmdType → Nat

/-- After `cmd_buf_init`. -/
def Sender.init (a : AllCmdBuf) : Sender := ⟨cmdBufInitTx a, fun _ => 0⟩

/-- `tx_cmd_indata` on the buffer of type `t`: a message is loaded when the check allows it. -/
def Sender.indata (t : CmdType) (s : Sender) : Sender where
  allCmd := s.allCmd.set t (txCmdIndata (s.allCmd.cmdBuf t))
  loads :=
    if txCheckIsgetCmd (s.allCmd.cmdBuf t) then Function.update s.loads t (s.loads t + 1)
    else s.loads

/-- One call. -/
def Sender.call (s : Sender) : SendOp → Option Sender
  | .indata t => some (s.indata t)
  | .tx maxMaclen mactxBuf =>
    (txCmd maxMaclen s.allCmd mactxBuf).map fun r => { s with allCmd := r.1.allCmd }

/-- A frame has room for its MAC header. -/
def SendOp.Ok : SendOp → Prop
  | .indata _ => True
  | .tx maxMaclen _ => sizeofMacPdu ≤ maxMaclen.toNat

/-- What a buffer of type `t` looks like after `n` loads. -/
structure BufOk (t : CmdType) (n : Nat) (b : CmdBuf) : Prop where
  cmdPduType : b.cmdHdr.cmdPduType.toNat = t.toNat
  len : b.len ≤ helloLen
  fragment : b.cmdHdr.fragment = true ↔ b.cmdHdr.firstpkg = false ∧ 0 < b.len
  index : b.cmdHdr.index.val = n % 64

/-- All buffers of the sender. -/
def SenderOk (s : Sender) : Prop := ∀ t, BufOk t (s.loads t) (s.allCmd.cmdBuf t)

section Buffer

variable {t : CmdType} {n : Nat} {b : CmdBuf}

theorem bufOk_init (t : CmdType) (b : CmdBuf) : BufOk t 0 (b.init true t) := by
  refine ⟨?_, Nat.zero_le _, ⟨nofun, fun h => absurd h.1 nofun⟩, rfl⟩
  cases t <;> rfl

/-- A load begins a message with the next index. -/
theorem BufOk.load (h : BufOk t n b) : BufOk t (n + 1) (txAddCmd (txNewCmdReset b)) := by
  refine ⟨h.cmdPduType, show 100 ≤ helloLen by decide, ⟨nofun, fun hf => absurd hf.1 nofun⟩, ?_⟩
  have hindex : (b.cmdHdr.index + 1).val = (b.cmdHdr.index.val + 1) % 64 := Fin.val_add ..
  show (b.cmdHdr.index + 1).val = _
  rw [hindex, h.index]
  omega

/-- A sub-packet sets `fragment` to whether bytes are left. -/
theorem BufOk.after (h : BufOk t n b) (k : Nat) : BufOk t n (b.after k) := by
  rw [CmdBuf.after]
  split
  · exact h
  · refine ⟨h.cmdPduType, Nat.le_trans (Nat.sub_le ..) h.len, ?_, h.index⟩
    show decide (b.len - k ≠ 0) = true ↔ false = false ∧ 0 < b.len - k
    rw [decide_eq_true_iff, Nat.pos_iff_ne_zero]
    exact ⟨fun hne => ⟨rfl, hne⟩, fun hf => hf.2⟩

/-- A buffer with bytes to send keeps them. -/
theorem txCmdIndata_of_ne (h : b.len ≠ 0) : txCmdIndata b = b := by
  rw [txCmdIndata, txCheckIsgetCmd]
  rw [decide_eq_false h]
  rfl

end Buffer

section Sender

variable {s : Sender}

theorem SenderOk.lensOk (h : SenderOk s) : LensOk s.allCmd := fun t => (h t).len

theorem senderOk_init (a : AllCmdBuf) : SenderOk (.init a) := fun t => bufOk_init t (a.cmdBuf t)

theorem SenderOk.indata (h : SenderOk s) (t : CmdType) : SenderOk (s.indata t) := by
  intro u
  rw [Sender.indata, txCmdIndata]
  by_cases hget : txCheckIsgetCmd (s.allCmd.cmdBuf t) = true
  · simp only [if_pos hget]
    by_cases hu : u = t
    · subst hu
      rw [AllCmdBuf.cmdBuf_set_self, Function.update_self]
      exact (h u).load
    · rw [AllCmdBuf.cmdBuf_set_of_ne hu, Function.update_of_ne hu]
      exact h u
  · simp only [if_neg hget]
    rw [AllCmdBuf.cmdBuf_set]
    split
    · rename_i hu
      rw [hu]
      exact h t
    · exact h u

/-- `tx_cmd_indata` leaves every buffer alone that has bytes to send, and those of other types. -/
theorem Sender.indata_changes {t u : CmdType}
    (h : (s.indata t).allCmd.cmdBuf u ≠ s.allCmd.cmdBuf u) : u = t ∧ lens s.allCmd u = 0 := by
  have hu : u = t := by
    by_contra hu
    exact h (AllCmdBuf.cmdBuf_set_of_ne hu)
  refine ⟨hu, ?_⟩
  by_contra hne
  subst hu
  apply h
  show (s.allCmd.set u _).cmdBuf u = _
  rw [AllCmdBuf.cmdBuf_set_self, txCmdIndata_of_ne hne]

/-- **One call keeps every buffer in order.** -/
theorem SenderOk.call (h : SenderOk s) {op : SendOp} (hop : op.Ok) :
    ∃ s', s.call op = some s' ∧ SenderOk s' := by
  cases op with
  | indata t => exact ⟨_, rfl, h.indata t⟩
  | tx maxMaclen mactxBuf =>
    rcases txCmd_spec h.lensOk hop mactxBuf with ⟨s', ret, hcall, hspec⟩
    refine ⟨{ s with allCmd := s'.allCmd }, ?_, fun t => ?_⟩
    · show (txCmd maxMaclen s.allCmd mactxBuf).map _ = _
      rw [hcall]
      rfl
    · show BufOk t (s.loads t) (s'.allCmd.cmdBuf t)
      rw [hspec.bufs t]
      exact (h t).after _

theorem SenderOk.calls (h : SenderOk s) {ops : List SendOp} (hops : ∀ op ∈ ops, op.Ok) :
    ∃ s', ops.foldlM Sender.call s = some s' ∧ SenderOk s' :=
  exists_foldlM (fun _ op hop hs => hs.call (hops op hop)) h

end Sender

/-- **The sender's state**, after any calls from `cmd_buf_init` on: every buffer is `BufOk`, and
    `tx_cmd_indata` would change only one whose bytes are all sent. -/
theorem sender_ok (a : AllCmdBuf) {ops : List SendOp} (hops : ∀ op ∈ ops, op.Ok) :
    ∃ s, ops.foldlM Sender.call (.init a) = some s ∧
      (∀ t, BufOk t (s.loads t) (s.allCmd.cmdBuf t)) ∧
      ∀ t u, (s.indata t).allCmd.cmdBuf u ≠ s.allCmd.cmdBuf u → u = t ∧ lens s.allCmd u = 0 := by
  rcases (senderOk_init a).calls hops with ⟨s, hs, hok⟩
  exact ⟨s, hs, hok, fun _ _ => Sender.indata_changes⟩

/-- A message is loaded, half of it is sent, and a second load changes nothing. -/
theorem sender_ok_half :
    ∃ s, [SendOp.indata .distReport, .tx 62 fun _ => 0, .indata .distReport].foldlM Sender.call
        (.init .zero) = some s ∧
      (∀ t, BufOk t (s.loads t) (s.allCmd.cmdBuf t)) ∧
      ∀ t u, (s.indata t).allCmd.cmdBuf u ≠ s.allCmd.cmdBuf u → u = t ∧ lens s.allCmd u = 0 := by
  refine sender_ok .zero fun op hop => ?_
  rcases List.mem_cons.mp hop with rfl | hop
  · trivial
  · rcases List.mem_cons.mp hop with rfl | hop
    · show 8 ≤ (62 : UInt32).toNat
      decide
    · rw [List.mem_singleton.mp hop]
      trivial

/-! ## Draining -/

/-- How many bytes the buffers still have to send. -/
def pending (a : AllCmdBuf) : Nat := (CmdType.all.map (lens a)).sum

/-- How many payload bytes a call has put into its frame. -/
def TxState.payload (s : TxState) : Nat := Packing.payload cmdHdrLen s.sent

/-- A frame has room for the MAC header, a sub-packet header and a byte. -/
def HasRoom (maxMaclen : UInt32) : Prop := sizeofMacPdu + cmdHdrLen + 1 ≤ maxMaclen.toNat

/-- `tx_cmd` for one frame after the other: the buffers that are left, and the number of payload
    bytes that were written. -/
def drain : List (UInt32 × Mem) → AllCmdBuf → Option (AllCmdBuf × Nat)
  | [], a => some (a, 0)
  | f :: fs, a => do
    let (s, _) ← txCmd f.1 a f.2
    let (a', n) ← drain fs s.allCmd
    return (a', s.payload + n)

theorem pending_eq_zero_iff {a : AllCmdBuf} : pending a = 0 ↔ ∀ t, lens a t = 0 := by
  rw [pending]
  rw [List.sum_eq_zero_iff_forall_eq_nat]
  constructor
  · intro h t
    exact h _ (List.mem_map_of_mem (CmdType.mem_all t))
  · intro h n hn
    rcases List.mem_map.mp hn with ⟨t, -, rfl⟩
    exact h t

section Drain

variable {a : AllCmdBuf}

/-- What a frame takes is what the buffers have less afterwards. -/
theorem TxSpec.pending {maxMaclen : UInt32} {m : Mem} {s : TxState} (h : TxSpec maxMaclen a m s) :
    s.payload + pending s.allCmd = pending a := by
  rw [TxState.payload, AdhocNode.pending]
  rw [h.sent, funext h.lens_eq]
  exact payload_add_rest CmdType.nodup_all

/-- Buffers that a call leaves have no more than before. -/
theorem TxSpec.lensOk {maxMaclen : UInt32} {m : Mem} {s : TxState} (h : TxSpec maxMaclen a m s)
    (hlens : LensOk a) : LensOk s.allCmd := by
  intro t
  rw [h.bufs t, CmdBuf.len_after]
  exact Nat.le_trans (Nat.sub_le ..) (hlens t)

/-- **Progress**: while something is pending, a frame with room takes some of it. -/
theorem txCmd_drains (hlens : LensOk a) {maxMaclen : UInt32} (hroom : HasRoom maxMaclen) (m : Mem) :
    ∃ s ret, txCmd maxMaclen a m = some (s, ret) ∧ LensOk s.allCmd ∧
      s.payload + pending s.allCmd = pending a ∧
      (pending a ≠ 0 → pending s.allCmd < pending a) := by
  rw [HasRoom] at hroom
  have hmax : sizeofMacPdu ≤ maxMaclen.toNat := by omega
  rcases txCmd_spec hlens hmax m with ⟨s, ret, hcall, hspec⟩
  refine ⟨s, ret, hcall, hspec.lensOk hlens, hspec.pending, fun hne => ?_⟩
  have hneed : ∃ t ∈ CmdType.all, lens a t ≠ 0 := by
    by_contra hno
    push Not at hno
    exact hne (pending_eq_zero_iff.mpr fun t => hno t (CmdType.mem_all t))
  have hpos : 0 < s.payload := by
    rw [TxState.payload]
    rw [hspec.sent]
    exact payload_plan_pos (plan_ne_nil (by omega) hneed)
  have hsum := hspec.pending
  omega

/-- Every call with something pending takes a byte at least. -/
theorem drain_pending (hlens : LensOk a) {fs : List (UInt32 × Mem)}
    (hroom : ∀ f ∈ fs, HasRoom f.1) :
    ∃ a' n, drain fs a = some (a', n) ∧ LensOk a' ∧ n + pending a' = pending a ∧
      pending a' ≤ pending a - fs.length := by
  induction fs generalizing a with
  | nil => exact ⟨a, 0, rfl, hlens, Nat.zero_add _, Nat.le_refl _⟩
  | cons f fs ih =>
    obtain ⟨s, ret, hcall, hlens', hsum, hless⟩ :=
      txCmd_drains hlens (hroom f (List.mem_cons_self ..)) f.2
    obtain ⟨a', n, hdrain, hok, hn, hle⟩ :=
      ih hlens' fun g hg => hroom g (List.mem_cons_of_mem _ hg)
    refine ⟨a', s.payload + n, ?_, hok, by omega, ?_⟩
    · show (txCmd f.1 a f.2).bind _ = _
      rw [hcall, Option.bind_some]
      show (drain fs s.allCmd).bind _ = _
      rw [hdrain]
      rfl
    · rw [List.length_cons]
      by_cases hz : pending a = 0
      · omega
      · have hlt := hless hz
        omega

/-- **The queue drains**: after any calls with room in their frames the next one takes some of what
    is pending, if something is; and once there were as many calls as bytes, nothing is pending and
    all bytes were written. -/
theorem drain_spec (hlens : LensOk a) {fs : List (UInt32 × Mem)} (hroom : ∀ f ∈ fs, HasRoom f.1) :
    ∃ a' n, drain fs a = some (a', n) ∧
      (∀ maxMaclen m, HasRoom maxMaclen → ∃ s ret, txCmd maxMaclen a' m = some (s, ret) ∧
        (pending a' ≠ 0 → pending s.allCmd < pending a')) ∧
      (pending a ≤ fs.length → (∀ t, lens a' t = 0) ∧ n = pending a) := by
  rcases drain_pending hlens hroom with ⟨a', n, hdrain, hok, hn, hle⟩
  refine ⟨a', n, hdrain, fun maxMaclen m hmax => ?_, fun hlong => ?_⟩
  · rcases txCmd_drains hok hmax m with ⟨s, ret, hcall, -, -, hless⟩
    exact ⟨s, ret, hcall, hless⟩
  · have hz : pending a' = 0 := by omega
    exact ⟨pending_eq_zero_iff.mp hz, by omega⟩

/-- Three bytes are sent one by one. -/
theorem drain_spec_three :
    ∃ a' n, drain [(13, fun _ => 0), (13, fun _ => 0), (13, fun _ => 0)]
        (AllCmdBuf.zero.set .distReport ⟨3, ⟨2, true, false, 1, 0⟩, .ofList [1, 2, 3]⟩) =
          some (a', n) ∧ (∀ t, lens a' t = 0) ∧ n = 3 := by
  have hlens : LensOk
      (AllCmdBuf.zero.set .distReport ⟨3, ⟨2, true, false, 1, 0⟩, .ofList [1, 2, 3]⟩) :=
    .set (fun _ => Nat.zero_le _) (show 3 ≤ helloLen by decide)
  have hthirteen : HasRoom 13 := show 13 ≤ (13 : UInt32).toNat by decide
  have hrooms : ∀ f ∈ [((13 : UInt32), (fun _ => 0 : Mem)), (13, fun _ => 0), (13, fun _ => 0)],
      HasRoom f.1 := by
    intro f hf
    rcases List.mem_cons.mp hf with rfl | hf
    · exact hthirteen
    · rcases List.mem_cons.mp hf with rfl | hf
      · exact hthirteen
      · rw [List.mem_singleton.mp hf]
        exact hthirteen
  rcases drain_spec hlens hrooms with ⟨a', n, hdrain, -, hall⟩
  exact ⟨a', n, hdrain, hall (by decide)⟩

end Drain

end AdhocNode
