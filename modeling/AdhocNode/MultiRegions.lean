/-
  THE REGIONS OF A DATAGRAM — `multi_data_rx` ends, and no byte is handed on twice.

  1. **Regions** — the region of a call of `multi_pdu_rx` is its offset with the length that
     `check_p_hdr_til` returned there.  Regions that follow each other (`Consecutive`) lie between
     their ends and have no byte in common, and there are no more of them than bytes.

  2. **The loop** (`multiDataRx_handsOnOnce`) — the length is 0, and the loop is left, or the PDU ends
     inside the datagram.  So the regions so far always fill the datagram up to the offset
     (`RegionsUpTo`), and every iteration moves the offset.
-/
import AdhocNode.MultiSplit
import Mathlib

namespace AdhocNode

open WhileLoop

/-! ## Regions -/

/-- The bytes of a region: its offset and its length. -/
def regionBytes (r : Int × Int) : Set Int := Set.Ico r.1 (r.1 + r.2)

/-- Regions, none of them empty, that follow each other from one offset to another. -/
def Consecutive : List (Int × Int) → Int → Int → Prop
  | [], i, j => i = j
  | r :: rs, i, j => r.1 = i ∧ 0 < r.2 ∧ Consecutive rs (i + r.2) j

section

variable {rs : List (Int × Int)} {r : Int × Int} {i j : Int}

theorem Consecutive.concat (h : Consecutive rs i j) (hoff : r.1 = j) (hpos : 0 < r.2) :
    Consecutive (rs ++ [r]) i (j + r.2) := by
  induction rs generalizing i with
  | nil =>
    have hij : i = j := h
    subst hij
    exact ⟨hoff, hpos, rfl⟩
  | cons r' rs ih =>
    rcases h with ⟨hoff', hpos', hrest⟩
    exact ⟨hoff', hpos', ih hrest⟩

/-- There are no more regions than bytes. -/
theorem Consecutive.length_le (h : Consecutive rs i j) : i + rs.length ≤ j := by
  induction rs generalizing i with
  | nil =>
    have hij : i = j := h
    rw [List.length_nil]
    omega
  | cons r rs ih =>
    rcases h with ⟨-, hpos, hrest⟩
    have hle := ih hrest
    rw [List.length_cons]
    omega

theorem Consecutive.bounds (h : Consecutive rs i j) (hr : r ∈ rs) :
    i ≤ r.1 ∧ 0 < r.2 ∧ r.1 + r.2 ≤ j := by
  induction rs generalizing i with
  | nil => exact absurd hr List.not_mem_nil
  | cons r' rs ih =>
    rcases h with ⟨hoff, hpos, hrest⟩
    rcases List.mem_cons.mp hr with rfl | hmem
    · have hle := hrest.length_le
      exact ⟨by omega, hpos, by omega⟩
    · have hbounds := ih hrest hmem
      exact ⟨by omega, hbounds.2.1, hbounds.2.2⟩

theorem Consecutive.nonempty (h : Consecutive rs i j) (hr : r ∈ rs) : (regionBytes r).Nonempty := by
  have hbounds := h.bounds hr
  exact ⟨r.1, Int.le_refl r.1, by omega⟩

theorem Consecutive.inside (h : Consecutive rs i j) (hr : r ∈ rs) :
    regionBytes r ⊆ Set.Ico i j := by
  have hbounds := h.bounds hr
  exact Set.Ico_subset_Ico hbounds.1 hbounds.2.2

/-- **Regions that follow each other are disjoint.** -/
theorem Consecutive.disjoint (h : Consecutive rs i j) :
    rs.Pairwise fun r r' => Disjoint (regionBytes r) (regionBytes r') := by
  induction rs generalizing i with
  | nil => exact List.Pairwise.nil
  | cons r rs ih =>
    rcases h with ⟨hoff, hpos, hrest⟩
    refine List.Pairwise.cons (fun r' hr' => ?_) (ih hrest)
    have hbounds := hrest.bounds hr'
    refine Set.disjoint_left.mpr fun x hx hx' => ?_
    have hend : x < r.1 + r.2 := hx.2
    have hbegin : r'.1 ≤ x := hx'.1
    omega

end

/-! ## The loop -/

/-- The regions handed to `multi_pdu_rx`: the offset of each call, and what `check_p_hdr_til` returned
    there. -/
def rxRegions (buf : Around) (len : Int) (calls : List (Int × PduRx)) : List (Int × Int) :=
  calls.map fun c => (c.1, (checkPHdrTil buf len c.1).getD 0)

/-- The loop of `multi_data_rx` stops in `t` behind `n` iterations, and has handed on no byte twice. -/
structure HandsOnOnce (buf : Around) (len : Int) (n : Nat) (t : MultiRxState) : Prop where
  run : Iterates (rxStep buf len) n ⟨0, []⟩ t
  /-- At most `len` iterations, the one that a refused PDU breaks off included. -/
  bound : n + (if t.dataidx < len then 1 else 0) ≤ len.toNat
  /-- There is no further iteration. -/
  stopped : ∀ u, rxStep buf len t ≠ .next u
  /-- The loop is left and `multi_data_rx` returns, for every length to which a 16-bit one can be added as
      an `int`; a datagram has less than 2^16 bytes. -/
  left : len + 0xFFFF < 2 ^ 31 → rxStep buf len t = .exit ∧ multiDataRx buf len = some t.calls
  consecutive : Consecutive (rxRegions buf len t.calls) 0 t.dataidx
  nonempty : ∀ r ∈ rxRegions buf len t.calls, (regionBytes r).Nonempty
  inside : ∀ r ∈ rxRegions buf len t.calls, regionBytes r ⊆ Set.Ico 0 len
  disjoint : (rxRegions buf len t.calls).Pairwise fun r r' =>
    Disjoint (regionBytes r) (regionBytes r')

/-- The regions so far fill the datagram up to the offset. -/
structure RegionsUpTo (buf : Around) (len : Int) (s : MultiRxState) : Prop where
  consecutive : Consecutive (rxRegions buf len s.calls) 0 s.dataidx
  le : s.dataidx ≤ len

section

variable {buf : Around} {len : Int} {s t : MultiRxState}

/-- An iteration hands on one region, at the end of those before it and inside the datagram. -/
theorem regionsUpTo_of_next (h : RegionsUpTo buf len s) (hnext : rxStep buf len s = .next t) :
    RegionsUpTo buf len t := by
  have hacc := (accepted_of_next hnext).1
  have hfits := hacc.fits
  rw [rxStep] at hnext
  split at hnext
  · cases hcheck : checkPHdrTil buf len s.dataidx with
    | none =>
      rw [hcheck] at hnext
      cases hnext
    | some pkglen =>
      rw [hcheck] at hnext
      by_cases hzero : pkglen = 0
      · simp only [if_pos hzero] at hnext
        cases hnext
      · simp only [if_neg hzero] at hnext
        cases hnext
        have hpkglen := (accepted_of_check hcheck hzero).2
        have hregion : rxRegions buf len (s.calls ++ [(s.dataidx, multiPduRx buf s.dataidx)]) =
            rxRegions buf len s.calls ++ [(s.dataidx, pkglen)] := by
          rw [rxRegions, List.map_append, List.map_singleton, hcheck]
          rfl
        refine ⟨?_, ?_⟩
        · show Consecutive (rxRegions buf len (s.calls ++ _)) 0 (s.dataidx + pkglen)
          rw [hregion]
          exact h.consecutive.concat rfl (show 0 < pkglen by omega)
        · show s.dataidx + pkglen ≤ len
          omega
  · cases hnext

/-- Only a sum behind the last `int` is undefined. -/
theorem overflow_of_fault (h : rxStep buf len s = .fault) : 2 ^ 31 ≤ len + 0xFFFF := by
  by_contra hlen
  by_cases hacc : PduAccepted buf len s.dataidx
  · rw [rxStep_of_accepted (by omega) hacc] at h
    cases h
  · rw [rxStep_of_not (by omega) hacc] at h
    cases h

end

/-- **The splitter ends, and hands on every byte at most once.** -/
theorem multiDataRx_handsOnOnce (buf : Around) {len : Int} (hlen : 0 ≤ len) :
    ∃ n t, HandsOnOnce buf len n t := by
  have hstart : RegionsUpTo buf len ⟨0, []⟩ := ⟨rfl, hlen⟩
  have hstep : ∀ s t, RegionsUpTo buf len s → rxStep buf len s = .next t →
      RegionsUpTo buf len t ∧ (len - t.dataidx).toNat < (len - s.dataidx).toNat :=
    fun _ _ hs hnext => ⟨regionsUpTo_of_next hs hnext, rxStep_lt hnext⟩
  rcases exists_iterates_stopped (fun s => (len - s.dataidx).toNat) hstep hstart with
    ⟨n, t, hiter, hstop⟩
  rcases hiter.add_le (fun s => (len - s.dataidx).toNat) hstep hstart with ⟨ht, hcount⟩
  have hbytes : n + (len - t.dataidx).toNat ≤ (len - 0).toNat := hcount
  refine ⟨n, t, hiter, ?_, hstop, fun hint => ?_, ht.consecutive, fun r hr => ht.consecutive.nonempty hr,
    fun r hr => ?_, ht.consecutive.disjoint⟩
  · split
    · omega
    · omega
  · cases hend : rxStep buf len t with
    | exit => exact ⟨rfl, multiDataRx_eq ⟨hiter.run, hend⟩⟩
    | fault => exact absurd hint (Int.not_lt.mpr (overflow_of_fault hend))
    | next u => exact absurd hend (hstop u)
  · exact (ht.consecutive.inside hr).trans (Set.Ico_subset_Ico_right ht.le)

/-- A datagram of one PDU and one byte more. -/
theorem multiDataRx_handsOnOnce_nine : ∃ n t, HandsOnOnce
    (.ofList [0x00, 0xFB, 0x08, 0x00, 0x00, 0x00, 0xBF, 0x00, 0x00]) 9 n t :=
  multiDataRx_handsOnOnce _ (by decide)

end AdhocNode
