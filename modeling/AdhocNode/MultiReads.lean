/-
  READS OF THE SPLITTER — the header and trailer fields that `multi_data_rx` looks at.

  1. **The reads** — `checkReads` lists the fields that `check_p_hdr_til` reads, each with its offset
     and size, and `pduReads` those of `multi_pdu_rx`.  A field is read only after the tests before it;
     none of these tests asks how many bytes of the datagram are left.

  2. **Inside the datagram** (`readsDatagram_iff`) — the loop leaves the datagram in four ways
     (`Overread`): at a tail of one byte; at a tail of two or three bytes that begins like a PDU; at
     a first PDU with a length of 0 or 1, whose trailer would lie before the datagram; and at a
     PDU of length 1, accepted with the byte before it as its trailer, when less than a header
     is left.
-/
import AdhocNode.MultiSplit

namespace AdhocNode

open CMem WhileLoop

/-! ## The reads -/

/-- The fields that `check_p_hdr_til` reads: `head`, `len` and `tail`. -/
def checkReads (buf : Around) (len dataidx : Int) : List (Int × Int) :=
  let pduHdr := PduHdr.read buf dataidx
  (dataidx, 2) ::
    if pduHdr.head = multiHead then
      (dataidx + 2, 2) ::
        if pduHdr.len + dataidx ≤ len then [(dataidx + pduHdr.len - sizeofPduTil, 2)] else []
    else []

/-- The fields that `multi_pdu_rx` reads: `len` and `msg_type`. -/
def pduReads (i : Int) : List (Int × Int) := [(i + 2, 2), (i + 4, 2)]

/-- What one evaluation of the loop of `multi_data_rx` reads. -/
def rxStepReads (buf : Around) (len : Int) (s : MultiRxState) : List (Int × Int) :=
  if s.dataidx < len then
    checkReads buf len s.dataidx ++
      match checkPHdrTil buf len s.dataidx with
      | none => []
      | some pkglen => if pkglen = 0 then [] else pduReads s.dataidx
  else []

/-- Every field that is read lies in the datagram. -/
def ReadsDatagram (buf : Around) (len : Int) : Prop :=
  ∀ s, Run (rxStep buf len) ⟨0, []⟩ s → ∀ r ∈ rxStepReads buf len s, 0 ≤ r.1 ∧ r.1 + r.2 ≤ len

/-! ## Inside the datagram -/

/-- What follows at an offset makes the loop read outside the datagram. -/
inductive Overread (buf : Around) (len p : Int) : Prop
  | oneByte (hend : len = p + 1)
  | headOnly (hhead : (PduHdr.read buf p).head = multiHead) (hlt : p < len) (hend : len < p + 4)
  | firstTail (hhead : (PduHdr.read buf p).head = multiHead) (hlt : p < len) (hp : p = 0)
    (hlen : (PduHdr.read buf p).len ≤ 1)
  | oneLong (hhead : (PduHdr.read buf p).head = multiHead) (hlt : p < len)
    (hlen : (PduHdr.read buf p).len = 1) (hbefore : buf (p - 1) = 0xBF) (hend : len < p + 6)

section Reads

variable {buf : Around} {len p : Int}

theorem checkReads_inside_iff :
    (∀ r ∈ checkReads buf len p, 0 ≤ r.1 ∧ r.1 + r.2 ≤ len) ↔
      (0 ≤ p ∧ p + 2 ≤ len) ∧ ((PduHdr.read buf p).head = multiHead →
        (0 ≤ p + 2 ∧ p + 2 + 2 ≤ len) ∧ ((PduHdr.read buf p).len + p ≤ len →
          0 ≤ p + (PduHdr.read buf p).len - 2 ∧ p + (PduHdr.read buf p).len - 2 + 2 ≤ len)) := by
  rw [checkReads]
  by_cases hhead : (PduHdr.read buf p).head = multiHead
  · by_cases hfits : (PduHdr.read buf p).len + p ≤ len
    · simp [hhead, hfits, sizeofPduTil]
    · simp [hhead, hfits]
  · simp [hhead]

/-- The reads at an offset: what has to be left there before each field is read. -/
theorem rxStepReads_inside_iff (hlen : len + 0xFFFF < 2 ^ 31) {s : MultiRxState}
    (h0 : 0 ≤ s.dataidx) (hlt : s.dataidx < len) :
    (∀ r ∈ rxStepReads buf len s, 0 ≤ r.1 ∧ r.1 + r.2 ≤ len) ↔
      s.dataidx + 2 ≤ len ∧
      ((PduHdr.read buf s.dataidx).head = multiHead → s.dataidx + 4 ≤ len ∧
        ((PduHdr.read buf s.dataidx).len + s.dataidx ≤ len →
          2 ≤ s.dataidx + (PduHdr.read buf s.dataidx).len)) ∧
      (PduAccepted buf len s.dataidx → s.dataidx + 6 ≤ len) := by
  have hlt16 : (PduHdr.read buf s.dataidx).len < 2 ^ 16 := u16At_lt buf (s.dataidx + 2)
  rw [rxStepReads, if_pos hlt, List.forall_mem_append, checkReads_inside_iff, and_assoc]
  refine and_congr (by omega) (and_congr ?_ ?_)
  · refine imp_congr_right fun _ => and_congr (by omega) (imp_congr_right fun _ => ?_)
    omega
  · by_cases hacc : PduAccepted buf len s.dataidx
    · have hpos := hacc.pos
      rw [checkPHdrTil_of_accepted (by omega) hacc]
      simp only [if_neg (show ¬ ((PduHdr.read buf s.dataidx).len : Int) = 0 by omega), pduReads,
        List.forall_mem_cons]
      constructor
      · rintro ⟨-, ⟨-, hend⟩, -⟩ -
        have hend' : s.dataidx + 4 + 2 ≤ len := hend
        omega
      · intro h
        have hend := h hacc
        refine ⟨⟨?_, ?_⟩, ⟨?_, ?_⟩, nofun⟩ <;> omega
    · rw [checkPHdrTil_of_not (by omega) hacc]
      exact ⟨fun _ h => absurd h hacc, fun _ => nofun⟩

/-- A way out of the datagram is a read outside it. -/
theorem Overread.not_inside (hlen : len + 0xFFFF < 2 ^ 31) (hup : AcceptedUpTo buf len p)
    (h : Overread buf len p) (calls : List (Int × PduRx)) :
    ¬ ∀ r ∈ rxStepReads buf len ⟨p, calls⟩, 0 ≤ r.1 ∧ r.1 + r.2 ≤ len := by
  have h0 := hup.nonneg
  intro hall
  cases h with
  | oneByte hend =>
    have hin := (rxStepReads_inside_iff hlen h0 (show p < len by omega)).mp hall
    have hhead : p + 2 ≤ len := hin.1
    omega
  | headOnly hhead hlt hend =>
    have hin := (rxStepReads_inside_iff hlen h0 hlt).mp hall
    have hfour : p + 4 ≤ len := (hin.2.1 hhead).1
    omega
  | firstTail hhead hlt hp hone =>
    have hin := (rxStepReads_inside_iff hlen h0 hlt).mp hall
    have htail : 2 ≤ p + (PduHdr.read buf p).len := (hin.2.1 hhead).2 (by
      show ((PduHdr.read buf p).len : Int) + p ≤ len
      omega)
    omega
  | oneLong hhead hlt hone hbefore hend =>
    have hin := (rxStepReads_inside_iff hlen h0 hlt).mp hall
    have hshort : ShortAt buf len p := ⟨hhead, by omega, Or.inr (Or.inr ⟨hone, hbefore⟩)⟩
    have hsix : p + 6 ≤ len := hin.2.2 hshort.accepted
    omega

/-- Without one, all reads are inside. -/
theorem inside_of_not_overread (hlen : len + 0xFFFF < 2 ^ 31)
    (hno : ∀ p, AcceptedUpTo buf len p → ¬ Overread buf len p) (hup : AcceptedUpTo buf len p)
    (hlt : p < len) (calls : List (Int × PduRx)) :
    ∀ r ∈ rxStepReads buf len ⟨p, calls⟩, 0 ≤ r.1 ∧ r.1 + r.2 ≤ len := by
  have h0 := hup.nonneg
  have hnot := hno p hup
  rw [rxStepReads_inside_iff hlen h0 hlt]
  show p + 2 ≤ len ∧ _ ∧ (PduAccepted buf len p → p + 6 ≤ len)
  refine ⟨?_, fun hhead => ⟨?_, fun hfits => ?_⟩, fun hacc => ?_⟩
  · by_contra hend
    exact hnot (.oneByte (by omega))
  · show p + 4 ≤ len
    by_contra hend
    exact hnot (.headOnly hhead hlt (by omega))
  · show 2 ≤ p + (PduHdr.read buf p).len
    by_contra htail
    by_cases hp : p = 0
    · exact hnot (.firstTail hhead hlt hp (by omega))
    -- at offset 1 the loop comes from a PDU of length 1 at offset 0
    · cases hup with
      | start => exact hp rfl
      | @next q hq hacc =>
        have hq0 := hq.nonneg
        have hpos := hacc.pos
        have hfirst : q = 0 := by omega
        exact hno q hq (.firstTail hacc.head (by omega) hfirst (by omega))
  · rcases accepted_iff.mp hacc with hwell | hshort
    · have hmin := hwell.min
      have hfits := hwell.fits
      unfold sizeofPduHdr sizeofPduTil at hmin
      omega
    · have hfits := hshort.fits
      rcases hshort.trailer with ⟨h6, -⟩ | ⟨h7, -⟩ | ⟨h1, hbefore⟩
      · omega
      · omega
      · by_contra hend
        exact hnot (.oneLong hshort.head hlt h1 hbefore (by omega))

end Reads

/-- **Reads**: of a datagram that fits into the buffer, the splitter reads only received bytes iff none
    of its accepted beginnings is followed by one of the four ways out. -/
theorem readsDatagram_iff (buf : Around) {len : Int} (hlen : len ≤ sockBufLen) :
    ReadsDatagram buf len ↔ ∀ p, AcceptedUpTo buf len p → ¬ Overread buf len p := by
  rw [sockBufLen] at hlen
  constructor
  · intro hreads p hup hover
    rcases hup.run (by omega) with ⟨calls, hrun⟩
    exact hover.not_inside (by omega) hup calls (hreads _ hrun)
  · intro hno s hrun
    by_cases hlt : s.dataidx < len
    · exact inside_of_not_overread (by omega) hno (acceptedUpTo_of_run hrun) hlt s.calls
    · rw [rxStepReads, if_neg hlt]
      exact fun r hr => absurd hr List.not_mem_nil

/-- A datagram of one PDU without an SDU. -/
def emptyPdu : Around := .ofList [0x00, 0xFB, 0x08, 0x00, 0x00, 0x00, 0xBF, 0x00]

theorem readsDatagram_iff_emptyPdu : ReadsDatagram emptyPdu 8 := by
  have hends : ∀ p, AcceptedUpTo emptyPdu 8 p → p = 0 ∨ p = 8 := by
    intro p hup
    induction hup with
    | start => exact Or.inl rfl
    | next _ hp ih =>
      rcases ih with rfl | rfl
      · exact Or.inr (by decide)
      · exact absurd hp.head (by decide)
  refine (readsDatagram_iff emptyPdu (by decide)).mpr fun p hup hover => ?_
  rcases hends p hup with rfl | rfl
  · cases hover with
    | oneByte hend => exact absurd hend (by decide)
    | headOnly _ _ hend => exact absurd hend (by decide)
    | firstTail _ _ _ hone => exact absurd hone (by decide)
    | oneLong _ _ hone => exact absurd hone (by decide)
  · cases hover with
    | oneByte hend => exact absurd hend (by decide)
    | headOnly hhead => exact absurd hhead (by decide)
    | firstTail hhead => exact absurd hhead (by decide)
    | oneLong hhead => exact absurd hhead (by decide)

/-- The second byte of a datagram of one byte. -/
theorem not_readsDatagram_oneByte : ¬ ReadsDatagram (.ofList [0x00]) 1 := by
  intro hreads
  have hread := hreads ⟨0, []⟩ (Run.refl _) (0, 2) (by decide)
  exact absurd hread.2 (by decide)

end AdhocNode
