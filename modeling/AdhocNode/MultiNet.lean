/-
  NODES ON THE MULTICAST ADDRESS — the sending and the receiving half of `src/protocol_socket.c` together.

  1. **The network** — any number of nodes, each with its `g_multi` and its buffer.  What `multi_tx` sends is
     on the air from then on: any node may receive it, late, more than once, in any order, or never.

  2. **The buffer** — `multi_rx` receives into `g_databuf[e_tx].buf`, so `check_p_hdr_til` may see what
     earlier datagrams have left behind a short one, and the field `len` in front of it.

  3. **They do not fit** — a datagram of `multi_tx` has a byte for each function that it called, so two at
     most: no node ever hands on anything that another one has sent (`multicast_silent`).
-/
import AdhocNode.MultiDatagram

namespace AdhocNode

open CMem Runs WhileLoop

/-! ## The network -/

/-- The nodes, the datagrams sent so far, and the calls of `multi_pdu_rx` so far. -/
structure MultiNet (ι : Type) where
  nodes : ι → Multicast
  air : List (List UInt8)
  handed : List (ι × Int × PduRx)

/-- The memory in front of the buffer is the field `len`. -/
def lenInFront (len : Nat) (outside : Around) : Around := fun i =>
  if -4 ≤ i ∧ i < 0 then leBytes len (i + 4).toNat else outside i

/-- A node receives a datagram, or calls the timer or the sender. -/
inductive MultiNetAct (ι : Type) where
  | multiRx (i : ι) (datagram : List UInt8) (outside : Around)
  | call (i : ι) (op : MultiOp)

/-- One of them. -/
def multiNetStep {ι : Type} [DecidableEq ι] : MultiNetAct ι → MultiNet ι → Option (MultiNet ι)
  | .multiRx i datagram outside, s =>
    if datagram ∈ s.air then do
      let recvLen := min datagram.length sockBufLen
      let (node, calls) ← multiRx (some datagram) (lenInFront recvLen outside) (s.nodes i)
      return { s with
        nodes := Function.update s.nodes i node
        handed := s.handed ++ calls.map fun call => (i, call) }
    else none
  | .call i op, s => do
    let node ← multiStep op (s.nodes i)
    return { s with
      nodes := Function.update s.nodes i node
      air := s.air ++ multicastSent (.call op) (s.nodes i) }

/-! ## Short datagrams -/

section

variable {buf : Around} {len : Int} {s s' : Multicast} {sent : MultiSent}

/-- A PDU of one or two bytes has no room for both marks, unless the first of the tail lies in front of the
    datagram. -/
theorem not_accepted_of_short (hlen : len ≤ 2) (hfront : buf (-1) = 0) : ¬ PduAccepted buf len 0 := by
  rintro ⟨hhead, hfits, htail, hpos⟩
  have hhead : u16At buf 0 = 0xFB00 := hhead
  have hfits : (u16At buf 2 : Int) + 0 ≤ len := hfits
  have hpos : u16At buf 2 ≠ 0 := hpos
  have htail : u16At buf (0 + (u16At buf 2 : Int) - 2) = 0x00BF := htail
  have hone : u16At buf 2 = 1 ∨ u16At buf 2 = 2 := by omega
  rcases hone with hone | htwo
  · -- the tail begins with the last byte of `len`
    rw [hone] at htail
    have hread : u16At buf (-1) = 0x00BF := htail
    unfold u16At at hread
    rw [hfront] at hread
    have hzero : (0 : UInt8).toNat = 0 := rfl
    have hcast : ((-1 : Int) + 1) = 0 := rfl
    omega
  · rw [htwo] at htail
    have hread : u16At buf 0 = 0x00BF := htail
    omega

/-- Nothing is handed on. -/
theorem multiDataRx_short (hpos : 0 ≤ len) (hlen : len ≤ 2) (hfront : buf (-1) = 0) :
    multiDataRx buf len = some [] := by
  have hexit : rxStep buf len ⟨0, []⟩ = .exit :=
    rxStep_of_not (by omega) (not_accepted_of_short hlen hfront)
  exact multiDataRx_eq ⟨Run.refl _, hexit⟩

/-- The last byte of a small `len`. -/
theorem lenInFront_last {n : Nat} (hn : n ≤ 2) (outside : Around) : lenInFront n outside (-1) = 0 := by
  have hzero : n / 256 ^ 3 = 0 := Nat.div_eq_of_lt (by omega)
  have hbyte : lenInFront n outside (-1) = UInt8.ofNat (n / 256 ^ 3) := rfl
  rw [hbyte, hzero]
  rfl

/-- **`multi_rx` of a short datagram**, whatever earlier ones have left in the buffer. -/
theorem multiRx_short {datagram : List UInt8} (hshort : datagram.length ≤ 2) (outside : Around)
    (s : Multicast) : ∃ s', multiRx (some datagram)
      (lenInFront (min datagram.length sockBufLen) outside) s = some (s', []) := by
  have hmin : min datagram.length sockBufLen ≤ 2 := Nat.le_trans (Nat.min_le_left _ _) hshort
  generalize hrecv : min datagram.length sockBufLen = recvLen at hmin
  rw [multiRx]
  dsimp only
  rw [hrecv]
  split
  · have hfront : Databuf.around ⟨recvLen, s.tx.buf.copy 0 (Mem.ofList datagram) recvLen⟩
        (lenInFront recvLen outside) (-1) = 0 := lenInFront_last hmin outside
    have hrx := multiDataRx_short (Int.natCast_nonneg recvLen) (by omega) hfront
    rw [hrx]
    exact ⟨_, rfl⟩
  · exact ⟨_, rfl⟩

/-- **What `multi_tx` sends** has a byte for each protocol that is due. -/
theorem length_datagram_le (htx : multiTx s = some (s', sent)) : sent.datagram.length ≤ 2 := by
  have hdata : ∀ p, (s.multi p).flg = true → ∃ m, (s.multi p).data = some m := by
    intro p hflg
    cases hnull : (s.multi p).data with
    | none => rw [multiTx_eq_none hflg hnull] at htx; cases htx
    | some m => exact ⟨m, rfl⟩
  rcases multiTx_due hdata with ⟨t, sent', ht, -, hcalled, hnone, hlast⟩
  rw [htx] at ht
  cases ht
  have htwo : sent.called.length ≤ 2 := by
    rw [hcalled]
    exact List.length_filter_le _ _
  cases hempty : sent.called.getLast? with
  | none =>
    rw [hnone (List.getLast?_eq_none_iff.mp hempty)]
    exact Nat.zero_le 2
  | some p =>
    have hmem : p ∈ MultiProto.all.filter fun p => (s.multi p).flg := by
      rw [← hcalled]
      exact List.mem_of_getLast? hempty
    rcases hdata p (List.mem_filter.mp hmem).2 with ⟨m, hm⟩
    rw [hlast p m hempty hm, Mem.length_slice]
    exact htwo

end

/-! ## Runs -/

/-- What is on the air is short, and nothing has been handed on. -/
structure Silent {ι : Type} (s : MultiNet ι) : Prop where
  air : ∀ d ∈ s.air, d.length ≤ 2
  handed : s.handed = []

theorem Silent.step {ι : Type} [DecidableEq ι] {s s' : MultiNet ι} (h : Silent s) {act : MultiNetAct ι}
    (hstep : multiNetStep act s = some s') : Silent s' := by
  cases act with
  | multiRx i datagram outside =>
    rw [multiNetStep] at hstep
    split at hstep
    · rename_i hmem
      rcases multiRx_short (h.air datagram hmem) outside (s.nodes i) with ⟨node, hrx⟩
      dsimp only at hstep
      rw [hrx] at hstep
      cases hstep
      exact ⟨h.air, (List.append_nil _).trans h.handed⟩
    · cases hstep
  | call i op =>
    rw [multiNetStep] at hstep
    rcases Option.bind_eq_some_iff.mp hstep with ⟨node, hop, heq⟩
    cases heq
    refine ⟨fun d hd => ?_, h.handed⟩
    rcases List.mem_append.mp hd with hd | hd
    · exact h.air d hd
    · cases op with
      | expireHandle icount => exact absurd hd List.not_mem_nil
      | multiTx =>
        rcases List.mem_map.mp hd with ⟨⟨s₁, sent⟩, hsent, rfl⟩
        exact length_datagram_le (Option.mem_toList.mp hsent)

/-- **No node hands on anything that another one has sent**: in every run of any number of nodes, with any
    data, whatever the network loses, repeats, delays or reorders. -/
theorem multicast_silent {ι : Type} [DecidableEq ι] (nodes : ι → Multicast) {acts : List (MultiNetAct ι)}
    {s : MultiNet ι} (hrun : run multiNetStep ⟨nodes, [], []⟩ acts = some s) :
    s.handed = [] ∧ ∀ d ∈ s.air, d.length ≤ 2 := by
  have hstart : Silent (⟨nodes, [], []⟩ : MultiNet ι) := ⟨fun d hd => absurd hd List.not_mem_nil, rfl⟩
  have hsilent := inv_of_run (fun _ _ _ h => h.step) hstart hrun
  exact ⟨hsilent.handed, hsilent.air⟩

/-- Two nodes, of which one sends when its timer has expired. -/
theorem multicast_silent_two : ∃ s, run multiNetStep ⟨fun _ : Fin 2 =>
    ⟨fun _ => ⟨false, 10000, some fun _ => 0⟩, ⟨0, fun _ => 0⟩⟩, [], []⟩
      [.call 0 (.expireHandle 100), .call 0 .multiTx, .multiRx 1 [0, 0] fun _ => 0] = some s ∧
        s.air = [[0, 0]] ∧ s.handed = [] := by
  have hrun : (run multiNetStep ⟨fun _ : Fin 2 =>
    ⟨fun _ => ⟨false, 10000, some fun _ => 0⟩, ⟨0, fun _ => 0⟩⟩, [], []⟩
      [.call 0 (.expireHandle 100), .call 0 .multiTx, .multiRx 1 [0, 0] fun _ => 0]).map MultiNet.air =
        some [[0, 0]] := by decide +kernel
  rcases Option.map_eq_some_iff.mp hrun with ⟨s, hs, hair⟩
  exact ⟨s, hs, hair, (multicast_silent _ hs).1⟩

end AdhocNode
