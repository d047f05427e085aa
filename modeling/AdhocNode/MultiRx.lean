/-
  MULTICAST DATAGRAMS — `multi_data_rx` of `src/protocol_socket.c` and what it calls.

  A datagram is a sequence of PDUs, each with a header `pdu_hdr_t` and a trailer `pdu_til_t`
  (little-endian `UINT16`s):

      bytes 0..1 head = MULTI_HEAD | 2..3 len | 4..5 msg_type | ... SDU ... | tail = MULTI_TAIL

  `len` counts the whole PDU, header and trailer included.

  1. **The program** — `multiDataRx` walks over the datagram: `check_p_hdr_til` returns the length of
     the PDU at an offset, or 0, which ends the loop.  The model lists the calls of `multi_pdu_rx`,
     each with its offset and what came of it.  The code reads wherever a length field sends it, also
     before the datagram and behind it, so a buffer is all memory around a pointer.  A sum that
     overflows an `int` is undefined.

  2. **One iteration** (`rxStep_of_accepted`, `rxStep_of_not`) — the loop goes on iff the PDU at the
     offset is `PduAccepted`, and then moves by its length; so it returns (`multiDataRx_eq`), and the
     offsets it comes to are those where accepted PDUs end (`AcceptedUpTo`).
-/
import AdhocNode.CString
import AdhocNode.Lib.WhileLoop

namespace AdhocNode

open CMem WhileLoop

/-! ## The program -/

/-- `SOCK_BUF_LEN`. -/
def sockBufLen : Nat := 10240

/-- `MULTI_HEAD`. -/
def multiHead : Nat := 0xFB00

/-- `MULTI_TAIL`. -/
def multiTail : Nat := 0x00BF

/-- `sizeof(pdu_hdr_t)`. -/
def sizeofPduHdr : Nat := 6

/-- `sizeof(pdu_til_t)`. -/
def sizeofPduTil : Nat := 2

/-- `sizeof(MacTWRHellodata)`: a node number and two `int`s for each of 32 nodes. -/
def sizeofMacTWRHellodata : Nat := 260

/-- `sizeof(MacNodeLendata)`: four bytes, and a byte and two `int`s for each of 32 nodes. -/
def sizeofMacNodeLendata : Nat := 292

/-- The `UINT16` at an offset. -/
def u16At (buf : Around) (i : Int) : Nat := (buf i).toNat + 256 * (buf (i + 1)).toNat

/-- `pdu_hdr_t`. -/
structure PduHdr where
  head : Nat
  len : Nat
  msgType : Nat
  deriving DecidableEq, Repr

/-- The header at an offset. -/
def PduHdr.read (buf : Around) (i : Int) : PduHdr := ⟨u16At buf i, u16At buf (i + 2), u16At buf (i + 4)⟩

/-- `check_p_hdr_til`. -/
def checkPHdrTil (buf : Around) (len dataidx : Int) : Option Int :=
  let pduHdr := PduHdr.read buf dataidx
  if pduHdr.head = multiHead then
    if pduHdr.len + dataidx ≥ 2 ^ 31 then none
    else if pduHdr.len + dataidx ≤ len then
      -- the offset is a `size_t`: below 0 it wraps, and the pointer goes back before `buf`
      if u16At buf (dataidx + pduHdr.len - sizeofPduTil) = multiTail then some pduHdr.len else some 0
    else some 0
  else some 0

/-- What `multi_pdu_rx` does with a PDU: it hands it on, or it prints an error. -/
inductive PduRx where
  | distBasedataRcv
  | distLenRcv
  | rxlenErr (sduLen : Int)
  | msgTypeErr (msgType : Nat)
  deriving DecidableEq, Repr

/-- `sdu_len` of `multi_pdu_rx`, a `size_t` difference in an `int`. -/
def PduHdr.sduLen (h : PduHdr) : Int := toInt32 (toSize (h.len - (sizeofPduHdr + sizeofPduTil)))

/-- `multi_pdu_rx` on the PDU at an offset. -/
def multiPduRx (buf : Around) (i : Int) : PduRx :=
  let pduHdr := PduHdr.read buf i
  match pduHdr.msgType with
  | 0 =>   -- `e_dist_basedata`
    if toSize pduHdr.sduLen = sizeofMacTWRHellodata then .distBasedataRcv
    else .rxlenErr pduHdr.sduLen
  | 1 =>   -- `e_dist_len`
    if toSize pduHdr.sduLen = sizeofMacNodeLendata then .distLenRcv else .rxlenErr pduHdr.sduLen
  | msgType => .msgTypeErr msgType

/-- The loop variable of `multi_data_rx`, and the calls of `multi_pdu_rx` so far. -/
structure MultiRxState where
  dataidx : Int
  calls : List (Int × PduRx)

/-- One evaluation of the loop of `multi_data_rx`. -/
def rxStep (buf : Around) (len : Int) (s : MultiRxState) : Step MultiRxState :=
  if s.dataidx < len then
    match checkPHdrTil buf len s.dataidx with
    | none => .fault
    | some pkglen =>
      if pkglen = 0 then .exit
      else .next ⟨s.dataidx + pkglen, s.calls ++ [(s.dataidx, multiPduRx buf s.dataidx)]⟩
  else .exit

/-- `multi_data_rx`: the calls of `multi_pdu_rx`. -/
def multiDataRx (buf : Around) (len : Int) : Option (List (Int × PduRx)) :=
  (exec (rxStep buf len) (len.toNat + 1) ⟨0, []⟩).map MultiRxState.calls

/-! ## One iteration -/

theorem u16At_lt (buf : Around) (i : Int) : u16At buf i < 2 ^ 16 := by
  have h0 := (buf i).toNat_lt
  have h1 := (buf (i + 1)).toNat_lt
  rw [u16At]
  omega

/-- The PDU at offset `p` passes `check_p_hdr_til`. -/
structure PduAccepted (buf : Around) (len p : Int) : Prop where
  head : (PduHdr.read buf p).head = multiHead
  fits : (PduHdr.read buf p).len + p ≤ len
  tail : u16At buf (p + (PduHdr.read buf p).len - sizeofPduTil) = multiTail
  pos : (PduHdr.read buf p).len ≠ 0

/-- A datagram begins with accepted PDUs that end at an offset. -/
inductive AcceptedUpTo (buf : Around) (len : Int) : Int → Prop
  | start : AcceptedUpTo buf len 0
  | next {p : Int} (h : AcceptedUpTo buf len p) (hp : PduAccepted buf len p) :
    AcceptedUpTo buf len (p + (PduHdr.read buf p).len)

section Iteration

variable {buf : Around} {len p n : Int} {s t : MultiRxState}

/-- `check_p_hdr_til` returns a length only for a PDU that is accepted. -/
theorem accepted_of_check (h : checkPHdrTil buf len p = some n) (hn : n ≠ 0) :
    PduAccepted buf len p ∧ n = (PduHdr.read buf p).len := by
  unfold checkPHdrTil at h
  dsimp only at h
  split at h
  · rename_i hhead
    split at h
    · cases h
    · split at h
      · rename_i hfits
        split at h
        · rename_i htail
          cases h
          exact ⟨⟨hhead, hfits, htail, fun hz => hn (congrArg Nat.cast hz)⟩, rfl⟩
        · exact absurd (Option.some.inj h).symm hn
      · exact absurd (Option.some.inj h).symm hn
  · exact absurd (Option.some.inj h).symm hn

theorem checkPHdrTil_of_accepted (hlen : len < 2 ^ 31) (h : PduAccepted buf len p) :
    checkPHdrTil buf len p = some ((PduHdr.read buf p).len : Int) := by
  rcases h with ⟨hhead, hfits, htail, -⟩
  rw [checkPHdrTil]
  simp only [if_pos hhead, if_neg (show ¬ ((PduHdr.read buf p).len + p ≥ 2 ^ 31) by omega),
    if_pos hfits, if_pos htail]

theorem checkPHdrTil_of_not (hover : (PduHdr.read buf p).len + p < 2 ^ 31)
    (h : ¬ PduAccepted buf len p) : checkPHdrTil buf len p = some 0 := by
  rw [checkPHdrTil]
  by_cases hhead : (PduHdr.read buf p).head = multiHead
  · simp only [if_pos hhead, if_neg (show ¬ ((PduHdr.read buf p).len + p ≥ 2 ^ 31) by omega)]
    by_cases hfits : (PduHdr.read buf p).len + p ≤ len
    · rw [if_pos hfits]
      by_cases htail : u16At buf (p + (PduHdr.read buf p).len - sizeofPduTil) = multiTail
      · rw [if_pos htail]
        by_cases hz : (PduHdr.read buf p).len = 0
        · rw [hz]; rfl
        · exact absurd ⟨hhead, hfits, htail, hz⟩ h
      · exact if_neg htail
    · exact if_neg hfits
  · exact if_neg hhead

/-- The state after an accepted PDU. -/
def MultiRxState.take (buf : Around) (s : MultiRxState) : MultiRxState :=
  ⟨s.dataidx + (PduHdr.read buf s.dataidx).len, s.calls ++ [(s.dataidx, multiPduRx buf s.dataidx)]⟩

theorem rxStep_of_accepted (hlen : len < 2 ^ 31) (h : PduAccepted buf len s.dataidx) :
    rxStep buf len s = .next (s.take buf) := by
  have hfits := h.fits
  have hpos := h.pos
  rw [rxStep]
  rw [if_pos (by omega), checkPHdrTil_of_accepted hlen h]
  exact if_neg (by omega)

theorem rxStep_of_not (hlen : len + 0xFFFF < 2 ^ 31) (h : ¬ PduAccepted buf len s.dataidx) :
    rxStep buf len s = .exit := by
  have hlt := u16At_lt buf (s.dataidx + 2)
  have hL : (PduHdr.read buf s.dataidx).len = u16At buf (s.dataidx + 2) := rfl
  rw [rxStep]
  by_cases hp : s.dataidx < len
  · rw [if_pos hp, checkPHdrTil_of_not (by omega) h]
    rfl
  · exact if_neg hp

/-- The loop goes on from accepted PDUs only, by their length. -/
theorem accepted_of_next (h : rxStep buf len s = .next t) :
    PduAccepted buf len s.dataidx ∧ t = s.take buf := by
  rw [rxStep] at h
  split at h
  · cases hcheck : checkPHdrTil buf len s.dataidx with
    | none =>
      rw [hcheck] at h
      cases h
    | some n =>
      rw [hcheck] at h
      by_cases hn : n = 0
      · simp only [if_pos hn] at h
        cases h
      · rcases accepted_of_check hcheck hn with ⟨hacc, rfl⟩
        simp only [if_neg hn] at h
        cases h
        exact ⟨hacc, rfl⟩
  · cases h

/-- The loop comes nearer to the end of the datagram. -/
theorem rxStep_lt (h : rxStep buf len s = .next t) :
    (len - t.dataidx).toNat < (len - s.dataidx).toNat := by
  rcases accepted_of_next h with ⟨hacc, rfl⟩
  have hfits := hacc.fits
  have hpos := hacc.pos
  show (len - (s.dataidx + (PduHdr.read buf s.dataidx).len)).toNat < _
  omega

/-- The model's fuel is enough. -/
theorem multiDataRx_eq (h : Returns (rxStep buf len) ⟨0, []⟩ t) :
    multiDataRx buf len = some t.calls := by
  have hfuel : (len - 0).toNat < len.toNat + 1 := by omega
  have hexec := exec_of_returns (I := fun _ => True) (fun s => (len - s.dataidx).toNat)
    (fun _ _ _ hnext => ⟨trivial, rxStep_lt hnext⟩) trivial h hfuel
  rw [multiDataRx]
  rw [hexec, Option.map_some]

/-- **`multi_data_rx` returns**, as long as no sum can overflow. -/
theorem exists_returns_rx (buf : Around) (hlen : len + 0xFFFF < 2 ^ 31) (s : MultiRxState) :
    ∃ t, Returns (rxStep buf len) s t := by
  have hstep : ∀ s, True → rxStep buf len s = .exit ∨ ∃ t, rxStep buf len s = .next t ∧ True ∧
      (len - t.dataidx).toNat < (len - s.dataidx).toNat := by
    intro s _
    by_cases hacc : PduAccepted buf len s.dataidx
    · have hnext := rxStep_of_accepted (by omega) hacc
      exact Or.inr ⟨_, hnext, trivial, rxStep_lt hnext⟩
    · exact Or.inl (rxStep_of_not hlen hacc)
  obtain ⟨t, ht, -⟩ := exists_returns (I := fun _ => True) (fun s => (len - s.dataidx).toNat) hstep
    (s := s) trivial
  exact ⟨t, ht⟩

theorem AcceptedUpTo.nonneg (h : AcceptedUpTo buf len p) : 0 ≤ p := by
  induction h with
  | start => exact Int.le_refl 0
  | next _ _ ih => omega

/-- The loop comes to the ends of accepted beginnings, -/
theorem AcceptedUpTo.run (hlen : len < 2 ^ 31) (h : AcceptedUpTo buf len p) :
    ∃ calls, Run (rxStep buf len) ⟨0, []⟩ ⟨p, calls⟩ := by
  induction h with
  | start => exact ⟨[], Run.refl _⟩
  | @next p _ hp ih =>
    rcases ih with ⟨calls, hrun⟩
    exact ⟨_, hrun.step (rxStep_of_accepted (s := ⟨p, calls⟩) hlen hp)⟩

/-- and to no other offsets. -/
theorem acceptedUpTo_of_run {s : MultiRxState} (h : Run (rxStep buf len) ⟨0, []⟩ s) :
    AcceptedUpTo buf len s.dataidx := by
  refine h.invariant (I := fun s => AcceptedUpTo buf len s.dataidx) (fun s t hs hnext => ?_) .start
  rcases accepted_of_next hnext with ⟨hacc, rfl⟩
  exact hs.next hacc

end Iteration

end AdhocNode
