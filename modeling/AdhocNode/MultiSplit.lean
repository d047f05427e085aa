/-
  SPLITTING A DATAGRAM — which PDUs `multi_data_rx` hands to `multi_pdu_rx`.

  1. **What is well formed is found** (`multiDataRx_pdus`) — a `Pdu` fits into its 16-bit length
     field.  When a datagram is a list of PDUs, followed by nothing or by bytes that
     `check_p_hdr_til` refuses, the calls are these PDUs, in order and each at its own offset,
     whatever their SDUs contain: the loop jumps over an SDU by the length in the header.

  2. **What is found** (`acceptsOnly_iff`) — `check_p_hdr_til` compares `len` with the end of the
     datagram, but not with the size of a header and a trailer.  A PDU of fewer than 8 bytes is
     accepted when its trailer is found among its own header bytes, behind them, or before it
     (`ShortAt`); the other lengths below 8 never pass (`accepted_iff`).  So only well-formed PDUs are
     accepted iff no well-formed beginning of the datagram is followed by a short one.
-/
import AdhocNode.MultiRx
import Mathlib.Data.List.GetD

namespace AdhocNode

open CMem WhileLoop

/-! ## What is well formed is found -/

/-- A PDU with its SDU. -/
structure Pdu where
  msgType : UInt16
  sdu : List UInt8
  fits : sdu.length + 8 ≤ 0xFFFF

/-- A `UINT16`'s bytes. -/
def le16 (n : Nat) : List UInt8 := [UInt8.ofNat n, UInt8.ofNat (n / 256)]

namespace Pdu

/-- The length of the whole PDU. -/
def size (p : Pdu) : Nat := p.sdu.length + 8

/-- The PDU on the wire. -/
def bytes (p : Pdu) : List UInt8 :=
  le16 multiHead ++ (le16 p.size ++ (le16 p.msgType.toNat ++ (p.sdu ++ le16 multiTail)))

/-- What is to be done with the PDU. -/
def rx (p : Pdu) : PduRx :=
  match p.msgType.toNat with
  | 0 => if p.sdu.length = sizeofMacTWRHellodata then .distBasedataRcv else .rxlenErr p.sdu.length
  | 1 => if p.sdu.length = sizeofMacNodeLendata then .distLenRcv else .rxlenErr p.sdu.length
  | msgType => .msgTypeErr msgType

theorem length_bytes (p : Pdu) : p.bytes.length = p.size := by
  unfold bytes size le16
  simp only [List.length_append, List.length_cons, List.length_nil]
  omega

/-- The calls for a list of PDUs, the first one at offset `i`. -/
def callsAt : List Pdu → Int → List (Int × PduRx)
  | [], _ => []
  | p :: ps, i => (i, p.rx) :: callsAt ps (i + p.size)

end Pdu

/-- The bytes lie at an offset. -/
def Holds (buf : Around) : Int → List UInt8 → Prop
  | _, [] => True
  | i, b :: bs => buf i = b ∧ Holds buf (i + 1) bs

section Holds

variable {buf : Around} {i : Int}

theorem holds_append {xs ys : List UInt8} :
    Holds buf i (xs ++ ys) ↔ Holds buf i xs ∧ Holds buf (i + xs.length) ys := by
  induction xs generalizing i with
  | nil =>
    rw [List.nil_append, List.length_nil, Int.natCast_zero, Int.add_zero]
    exact ⟨fun h => ⟨trivial, h⟩, fun h => h.2⟩
  | cons x xs ih =>
    have hlen : i + 1 + (xs.length : Int) = i + ((x :: xs).length : Int) := by
      rw [List.length_cons]; omega
    show buf i = x ∧ Holds buf (i + 1) (xs ++ ys) ↔ (buf i = x ∧ Holds buf (i + 1) xs) ∧ _
    rw [ih, hlen, and_assoc]

/-- Some bytes with zeros around them. -/
def Around.ofList (bs : List UInt8) : Around := fun i => if 0 ≤ i then bs.getD i.toNat 0 else 0

theorem holds_ofList_append (xs ys : List UInt8) : Holds (.ofList (xs ++ ys)) xs.length ys := by
  induction ys generalizing xs with
  | nil => trivial
  | cons y ys ih =>
    constructor
    · show (if (0 : Int) ≤ xs.length then (xs ++ y :: ys).getD (xs.length : Int).toNat 0 else 0) = y
      rw [if_pos (by omega), Int.toNat_natCast, List.getD_append_right _ _ _ _ (Nat.le_refl _),
        Nat.sub_self, List.getD_cons_zero]
    · have hrest := ih (xs ++ [y])
      rw [List.append_assoc, List.length_append] at hrest
      exact hrest

theorem holds_ofList (bs : List UInt8) : Holds (.ofList bs) 0 bs := holds_ofList_append [] bs

theorem u16At_of_holds {n : Nat} (h : Holds buf i (le16 n)) (hn : n < 2 ^ 16) : u16At buf i = n := by
  rcases h with ⟨h0, h1, -⟩
  rw [u16At]
  rw [h0, h1, UInt8.toNat_ofNat', UInt8.toNat_ofNat']
  omega

/-- **Round trip**: the header and the trailer of a PDU in memory. -/
theorem read_of_holds {p : Pdu} (h : Holds buf i p.bytes) :
    PduHdr.read buf i = ⟨multiHead, p.size, p.msgType.toNat⟩ ∧
      u16At buf (i + p.size - sizeofPduTil) = multiTail := by
  have hfits := p.fits
  rw [Pdu.bytes] at h
  rcases holds_append.mp h with ⟨hhead, h⟩
  rcases holds_append.mp h with ⟨hlen, h⟩
  rcases holds_append.mp h with ⟨htype, h⟩
  rcases holds_append.mp h with ⟨-, htail⟩
  have hread_head := u16At_of_holds hhead (by decide)
  have hread_len := u16At_of_holds hlen (by unfold Pdu.size; omega)
  have hread_type := u16At_of_holds htype p.msgType.toNat_lt
  have hread_tail := u16At_of_holds htail (by decide)
  have hoff : i + 2 + 2 + 2 + (p.sdu.length : Int) = i + p.size - sizeofPduTil := by
    rw [Pdu.size, sizeofPduTil]
    omega
  have hoff4 : i + 2 + 2 = i + 4 := by omega
  constructor
  · rw [PduHdr.read]
    rw [hread_head, show u16At buf (i + 2) = p.size from hread_len, ← hoff4,
      show u16At buf (i + 2 + 2) = p.msgType.toNat from hread_type]
  · rw [← hoff]
    exact hread_tail

end Holds

/-- `sdu_len` of a PDU that is long enough. -/
theorem sduLen_of_le {h : PduHdr} (h8 : 8 ≤ h.len) (hlt : h.len < 2 ^ 16) :
    h.sduLen = (h.len - 8 : Nat) := by
  have hsize : toSize (h.len - (sizeofPduHdr + sizeofPduTil)) = h.len - 8 := by
    rw [sizeofPduHdr, sizeofPduTil]
    rw [toSize_of_nonneg (by omega) (by omega)]
    omega
  rw [PduHdr.sduLen]
  rw [hsize, toInt32_of_lt (by omega) (by omega)]

/-- `multi_pdu_rx` does with a PDU what is to be done. -/
theorem multiPduRx_of_holds {buf : Around} {i : Int} {p : Pdu} (h : Holds buf i p.bytes) :
    multiPduRx buf i = p.rx := by
  have hfits := p.fits
  have hsdu : ∀ m, (⟨multiHead, p.size, m⟩ : PduHdr).sduLen = (p.sdu.length : Nat) := by
    intro m
    rw [sduLen_of_le (show 8 ≤ p.size by unfold Pdu.size; omega)
      (show p.size < 2 ^ 16 by unfold Pdu.size; omega)]
    show ((p.sdu.length + 8 - 8 : Nat) : Int) = _
    omega
  have hsize : toSize (p.sdu.length : Nat) = p.sdu.length := by
    rw [toSize_of_nonneg (by omega) (by omega)]
    omega
  have htype : p.msgType.toNat = 0 ∨ p.msgType.toNat = 1 ∨ ∃ m, p.msgType.toNat = m + 2 := by
    rcases Nat.lt_or_ge p.msgType.toNat 2 with hlt | hge
    · omega
    · exact Or.inr (Or.inr (Nat.exists_eq_add_of_le' hge))
  rw [multiPduRx, Pdu.rx]
  rw [(read_of_holds h).1]
  rcases htype with h0 | h1 | ⟨m, hm⟩
  · simp only [h0, hsdu, hsize]
  · simp only [h1, hsdu, hsize]
  · simp only [hm]

/-- The loop goes through a list of PDUs, one by one. -/
theorem run_pdus {buf : Around} {len : Int} (hlen : len < 2 ^ 31) {pdus : List Pdu} {i : Int}
    (hholds : Holds buf i (pdus.flatMap Pdu.bytes))
    (hfits : i + (pdus.flatMap Pdu.bytes).length ≤ len) (calls : List (Int × PduRx)) :
    Run (rxStep buf len) ⟨i, calls⟩
      ⟨i + (pdus.flatMap Pdu.bytes).length, calls ++ Pdu.callsAt pdus i⟩ := by
  induction pdus generalizing i calls with
  | nil =>
    rw [List.flatMap_nil, List.length_nil, Int.natCast_zero, Int.add_zero, Pdu.callsAt,
      List.append_nil]
    exact Run.refl _
  | cons p ps ih =>
    rw [List.flatMap_cons] at hholds hfits ⊢
    rw [List.length_append, p.length_bytes] at hfits ⊢
    rcases holds_append.mp hholds with ⟨hp, hps⟩
    rw [p.length_bytes] at hps
    rcases read_of_holds hp with ⟨hread, htail⟩
    have hsize : p.size ≠ 0 := by unfold Pdu.size; omega
    have hacc : PduAccepted buf len i := by
      refine ⟨?_, ?_, ?_, ?_⟩
      · rw [hread]
      · rw [hread]; show (p.size : Int) + i ≤ len; omega
      · rw [hread]; exact htail
      · rw [hread]; exact hsize
    have hnext := rxStep_of_accepted (s := ⟨i, calls⟩) hlen hacc
    have htake : MultiRxState.take buf ⟨i, calls⟩ = ⟨i + p.size, calls ++ [(i, p.rx)]⟩ := by
      rw [MultiRxState.take]
      rw [hread, multiPduRx_of_holds hp]
    rw [htake] at hnext
    have hrun := ih hps (by omega) (calls ++ [(i, p.rx)])
    rw [List.append_assoc, Int.add_assoc] at hrun
    rw [Int.natCast_add]
    exact Run.head hnext hrun

/-- **Every well-formed PDU is found**, and nothing behind them. -/
theorem multiDataRx_pdus {buf : Around} {pdus : List Pdu} {suffix : List UInt8} {len : Nat}
    (hlen : len = (pdus.flatMap Pdu.bytes ++ suffix).length) (hmax : len ≤ sockBufLen)
    (hholds : Holds buf 0 (pdus.flatMap Pdu.bytes ++ suffix))
    (hsuffix : suffix = [] ∨
      checkPHdrTil buf len (pdus.flatMap Pdu.bytes).length = some 0) :
    multiDataRx buf len = some (Pdu.callsAt pdus 0) := by
  rw [sockBufLen] at hmax
  rw [List.length_append] at hlen
  rcases holds_append.mp hholds with ⟨hpdus, -⟩
  have hint : (len : Int) < 2 ^ 31 := by omega
  have hrun := run_pdus hint hpdus (by omega) []
  rw [Int.zero_add, List.nil_append] at hrun
  refine multiDataRx_eq ⟨hrun, ?_⟩
  rw [rxStep]
  rcases hsuffix with rfl | hcheck
  · refine if_neg ?_
    show ¬ (((pdus.flatMap Pdu.bytes).length : Int) < len)
    rw [List.length_nil] at hlen
    omega
  · by_cases hlt : ((pdus.flatMap Pdu.bytes).length : Int) < len
    · rw [if_pos hlt, hcheck]
      rfl
    · exact if_neg hlt

/-- Two PDUs, the first of which carries a header and a trailer as its SDU, and a byte behind them. -/
def markerPdus : List Pdu :=
  [⟨7, [0x00, 0xFB, 0x08, 0x00, 0x00, 0x00, 0xBF, 0x00], by decide⟩, ⟨1, [], by decide⟩]

theorem multiDataRx_pdus_markers :
    multiDataRx (.ofList (markerPdus.flatMap Pdu.bytes ++ [0x17])) 25 =
      some [(0, .msgTypeErr 7), (16, .rxlenErr 0)] := by
  have hlen : 25 = (markerPdus.flatMap Pdu.bytes ++ [(0x17 : UInt8)]).length := by decide
  exact multiDataRx_pdus hlen (by decide) (holds_ofList _) (Or.inr (by decide))

/-! ## What is found -/

/-- The PDU at an offset is well formed. -/
structure WellFormedAt (buf : Around) (len p : Int) : Prop where
  min : sizeofPduHdr + sizeofPduTil ≤ (PduHdr.read buf p).len
  fits : (PduHdr.read buf p).len ≤ len - p
  head : (PduHdr.read buf p).head = multiHead
  tail : u16At buf (p + (PduHdr.read buf p).len - sizeofPduTil) = multiTail
  disjoint : p + sizeofPduHdr ≤ p + (PduHdr.read buf p).len - sizeofPduTil
  sduLen : (PduHdr.read buf p).sduLen = (PduHdr.read buf p).len - 8
  nonneg : 0 ≤ (PduHdr.read buf p).sduLen

/-- At an offset there is a header with a length below 8 whose trailer lies in the header (in
    `msg_type`), half in it, or half before it. -/
structure ShortAt (buf : Around) (len p : Int) : Prop where
  head : (PduHdr.read buf p).head = multiHead
  fits : (PduHdr.read buf p).len + p ≤ len
  trailer : ((PduHdr.read buf p).len = 6 ∧ (PduHdr.read buf p).msgType = multiTail) ∨
    ((PduHdr.read buf p).len = 7 ∧ buf (p + 5) = 0xBF ∧ buf (p + 6) = 0) ∨
    (PduHdr.read buf p).len = 1 ∧ buf (p - 1) = 0xBF

/-- The bytes of a `UINT16`. -/
theorem u16At_eq_iff {buf : Around} {i j : Int} (hj : j = i + 1) {lo hi : UInt8} :
    u16At buf i = lo.toNat + 256 * hi.toNat ↔ buf i = lo ∧ buf j = hi := by
  subst hj
  have h0 := (buf i).toNat_lt
  have h1 := (buf (i + 1)).toNat_lt
  have hlo := lo.toNat_lt
  have hhi := hi.toNat_lt
  rw [u16At]
  rw [← UInt8.toNat_inj, ← UInt8.toNat_inj]
  omega

section Accepted

variable {buf : Around} {len p : Int}

theorem head_iff : (PduHdr.read buf p).head = multiHead ↔ buf p = 0x00 ∧ buf (p + 1) = 0xFB := by
  show u16At buf p = (0x00 : UInt8).toNat + 256 * (0xFB : UInt8).toNat ↔ _
  exact u16At_eq_iff rfl

/-- A length below 8 that passes is 1, 6 or 7: for the others the trailer would have to agree with
    bytes of the header that are something else. -/
theorem shortAt_of_accepted (h : PduAccepted buf len p) (hlt : (PduHdr.read buf p).len < 8) :
    ShortAt buf len p := by
  rcases h with ⟨hhead, hfits, htail, hpos⟩
  refine ⟨hhead, hfits, ?_⟩
  rcases head_iff.mp hhead with ⟨hhead0, hhead1⟩
  have hlen : ∀ n : Nat, n < 8 → (PduHdr.read buf p).len = n →
      buf (p + 2) = UInt8.ofNat n ∧ buf (p + 3) = 0 := by
    intro n hn hL
    refine (u16At_eq_iff (by omega)).mp ?_
    rw [show u16At buf (p + 2) = n from hL, UInt8.toNat_ofNat']
    show n = n % 2 ^ 8 + 256 * 0
    omega
  have htrailer : ∀ (n : Nat) (i : Int), (PduHdr.read buf p).len = n → i = p + n - 2 →
      buf i = 0xBF ∧ buf (i + 1) = 0 := by
    intro n i hL hi
    rw [hL] at htail
    subst hi
    exact (u16At_eq_iff rfl).mp htail
  have hcases : (PduHdr.read buf p).len = 1 ∨ (PduHdr.read buf p).len = 2 ∨
      (PduHdr.read buf p).len = 3 ∨ (PduHdr.read buf p).len = 4 ∨ (PduHdr.read buf p).len = 5 ∨
      (PduHdr.read buf p).len = 6 ∨ (PduHdr.read buf p).len = 7 := by
    omega
  rcases hcases with h1 | h2 | h3 | h4 | h5 | h6 | h7
  · exact Or.inr (Or.inr ⟨h1, (htrailer 1 (p - 1) h1 (by omega)).1⟩)
  · have htil := (htrailer 2 p h2 (by omega)).1
    rw [hhead0] at htil
    exact absurd htil (by decide)
  · have htil := (htrailer 3 (p + 1) h3 (by omega)).1
    rw [hhead1] at htil
    exact absurd htil (by decide)
  · have htil := (htrailer 4 (p + 2) h4 (by omega)).1
    rw [(hlen 4 (by omega) h4).1] at htil
    exact absurd htil (by decide)
  · have htil := (htrailer 5 (p + 3) h5 (by omega)).1
    rw [(hlen 5 (by omega) h5).2] at htil
    exact absurd htil (by decide)
  · rcases htrailer 6 (p + 4) h6 (by omega) with ⟨htil0, htil1⟩
    exact Or.inl ⟨h6, (u16At_eq_iff rfl).mpr ⟨htil0, htil1⟩⟩
  · rcases htrailer 7 (p + 5) h7 (by omega) with ⟨htil0, htil1⟩
    rw [show p + 5 + 1 = p + 6 by omega] at htil1
    exact Or.inr (Or.inl ⟨h7, htil0, htil1⟩)

theorem ShortAt.accepted (h : ShortAt buf len p) : PduAccepted buf len p := by
  rcases h with ⟨hhead, hfits, htrailer⟩
  rcases head_iff.mp hhead with ⟨hhead0, -⟩
  rcases htrailer with ⟨h6, htype⟩ | ⟨h7, htil0, htil1⟩ | ⟨h1, htil⟩
  · refine ⟨hhead, hfits, ?_, by omega⟩
    rw [h6, show p + (6 : Nat) - sizeofPduTil = p + 4 by unfold sizeofPduTil; omega]
    exact htype
  · refine ⟨hhead, hfits, ?_, by omega⟩
    rw [h7, show p + (7 : Nat) - sizeofPduTil = p + 5 by unfold sizeofPduTil; omega]
    exact (u16At_eq_iff (by omega)).mpr ⟨htil0, htil1⟩
  · refine ⟨hhead, hfits, ?_, by omega⟩
    rw [h1, show p + (1 : Nat) - sizeofPduTil = p - 1 by unfold sizeofPduTil; omega]
    exact (u16At_eq_iff (by omega)).mpr ⟨htil, hhead0⟩

theorem WellFormedAt.accepted (h : WellFormedAt buf len p) : PduAccepted buf len p := by
  have hmin := h.min
  have hfits := h.fits
  rw [sizeofPduHdr, sizeofPduTil] at hmin
  exact ⟨h.head, by omega, h.tail, by omega⟩

theorem ShortAt.not_wellFormedAt (h : ShortAt buf len p) : ¬ WellFormedAt buf len p := by
  intro hwell
  have hmin := hwell.min
  rw [sizeofPduHdr, sizeofPduTil] at hmin
  rcases h.trailer with ⟨h6, -⟩ | ⟨h7, -⟩ | ⟨h1, -⟩ <;> omega

/-- **What `check_p_hdr_til` accepts**: well-formed PDUs, and three kinds of short ones. -/
theorem accepted_iff : PduAccepted buf len p ↔ WellFormedAt buf len p ∨ ShortAt buf len p := by
  constructor
  · intro h
    by_cases h8 : 8 ≤ (PduHdr.read buf p).len
    · have hlt : (PduHdr.read buf p).len < 2 ^ 16 := u16At_lt buf (p + 2)
      have hfits := h.fits
      have hsdu := sduLen_of_le h8 hlt
      refine Or.inl ⟨h8, by omega, h.head, h.tail, ?_, by omega, by omega⟩
      rw [sizeofPduHdr, sizeofPduTil]
      omega
    · exact Or.inr (shortAt_of_accepted h (by omega))
  · rintro (h | h)
    · exact h.accepted
    · exact h.accepted

end Accepted

/-- A datagram begins with well-formed PDUs that end at an offset. -/
inductive WellFormedUpTo (buf : Around) (len : Int) : Int → Prop
  | start : WellFormedUpTo buf len 0
  | next {p : Int} (h : WellFormedUpTo buf len p) (hp : WellFormedAt buf len p) :
    WellFormedUpTo buf len (p + (PduHdr.read buf p).len)

section Walk

variable {buf : Around} {len p : Int}

theorem WellFormedUpTo.acceptedUpTo (h : WellFormedUpTo buf len p) : AcceptedUpTo buf len p := by
  induction h with
  | start => exact .start
  | next _ hp ih => exact ih.next hp.accepted

/-- A call once made stays in the list. -/
theorem mem_calls_of_run {s t : MultiRxState} {c : Int × PduRx} (h : Run (rxStep buf len) s t)
    (hc : c ∈ s.calls) : c ∈ t.calls := by
  refine h.invariant (I := fun s => c ∈ s.calls) (fun s t hs hnext => ?_) hc
  rcases accepted_of_next hnext with ⟨-, rfl⟩
  exact List.mem_append_left _ hs

/-- Without short PDUs the loop finds well-formed ones only. -/
theorem wellFormed_of_run {t : MultiRxState}
    (hno : ∀ p, WellFormedUpTo buf len p → ¬ ShortAt buf len p)
    (h : Run (rxStep buf len) ⟨0, []⟩ t) : ∀ c ∈ t.calls, WellFormedAt buf len c.1 := by
  refine (h.invariant (I := fun s => WellFormedUpTo buf len s.dataidx ∧
    ∀ c ∈ s.calls, WellFormedAt buf len c.1) ?_ ⟨.start, nofun⟩).2
  rintro s t ⟨hup, hcalls⟩ hnext
  rcases accepted_of_next hnext with ⟨hacc, rfl⟩
  have hwell := (accepted_iff.mp hacc).resolve_right (hno _ hup)
  refine ⟨hup.next hwell, fun c hc => ?_⟩
  rcases List.mem_append.mp hc with hc | hc
  · exact hcalls c hc
  · rw [List.mem_singleton.mp hc]
    exact hwell

/-- **Only well-formed PDUs are found** iff no well-formed beginning of the datagram is followed by a
    short PDU. -/
theorem acceptsOnly_iff (buf : Around) {len : Int} (hlen : len + 0xFFFF < 2 ^ 31) :
    ∃ calls, multiDataRx buf len = some calls ∧
      ((∀ c ∈ calls, WellFormedAt buf len c.1) ↔
        ∀ p, WellFormedUpTo buf len p → ¬ ShortAt buf len p) := by
  rcases exists_returns_rx buf hlen ⟨0, []⟩ with ⟨t, ht⟩
  refine ⟨t.calls, multiDataRx_eq ht, fun hall p hup hshort => ?_, fun hno =>
    wellFormed_of_run hno ht.1⟩
  rcases hup.acceptedUpTo.run (by omega) with ⟨calls, hrun⟩
  have hnext := rxStep_of_accepted (s := ⟨p, calls⟩) (by omega) hshort.accepted
  have hmem : (p, multiPduRx buf p) ∈ (MultiRxState.take buf ⟨p, calls⟩).calls :=
    List.mem_append_right _ (List.mem_singleton_self _)
  have hlast := mem_calls_of_run (ht.of_run (hrun.step hnext)).1 hmem
  exact hshort.not_wellFormedAt (hall _ hlast)

end Walk

/-- A datagram of one short PDU: `len` is 6, and `msg_type` reads as a trailer. -/
def shortSix : Around := .ofList [0x00, 0xFB, 0x06, 0x00, 0xBF, 0x00]

theorem acceptsOnly_iff_six :
    ∃ calls, multiDataRx shortSix 6 = some calls ∧ ¬ ∀ c ∈ calls, WellFormedAt shortSix 6 c.1 := by
  obtain ⟨calls, hcalls, hiff⟩ :=
    acceptsOnly_iff shortSix (show (6 : Int) + 0xFFFF < 2 ^ 31 by decide)
  refine ⟨calls, hcalls, fun hall => hiff.mp hall 0 .start ?_⟩
  exact ⟨by decide, by decide, Or.inl (by decide)⟩

/-- It is handed to `multi_pdu_rx`, which computes an SDU of -2 bytes. -/
theorem not_wellFormed_six :
    multiDataRx shortSix 6 = some [(0, .msgTypeErr 0xBF)] ∧
      (PduHdr.read shortSix 0).sduLen = -2 ∧ ¬ WellFormedAt shortSix 6 0 := by
  refine ⟨by decide, by decide, fun h => ?_⟩
  exact absurd h.min (by decide)

end AdhocNode
