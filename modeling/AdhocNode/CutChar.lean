/-
  TRIMMING A STRING — `head_tail_cut_char` of `src/common.c`.

  1. **The program** — on the memory around `str`, with a list of the regions that were read or
     written.  `memcpy` gets overlapping regions; the model takes the bytes as moved, which is the best
     that can come of it.  A sum that overflows an `int` is undefined (`none`).

  2. **Trimming** (`cutsChar_iff`) — the string is trimmed, inside its own bytes, iff it does not begin
     with the character and its length is a positive `int`.  A string that begins with the character
     is shifted together with its NUL and one byte more; for the empty string the byte before it is
     read.  (Behind the `int`s, a positive remainder of the length is enough if neither the byte that
     is taken for the last one nor the last one is the character.)
-/
import AdhocNode.CString
import Mathlib.Data.List.GetD

namespace AdhocNode

open CMem

/-! ## The program -/

/-- The memory around `str`, and the regions that have been read or written: offset and size. -/
structure CutState where
  mem : Around
  touched : List (Int × Nat)

/-- The memory from the pointer on. -/
def Around.ahead (mem : Around) : Mem := fun i => mem i

namespace CutState

/-- An access to `n` bytes. -/
def touch (s : CutState) (off : Int) (n : Nat) : CutState :=
  { s with touched := s.touched ++ [(off, n)] }

/-- `strlen(str)`, on a string within `cap` bytes. -/
def strlen (cap : Nat) (s : CutState) : Option (CutState × Nat) :=
  (s.mem.ahead.str? 0 cap).map fun str => (s.touch 0 (str.length + 1), str.length)

/-- `memcpy(str, str + 1, n)`. -/
def shift (s : CutState) (n : Nat) : CutState :=
  { (s.touch 1 n).touch 0 n with
    mem := fun i => if 0 ≤ i ∧ i < n then s.mem (i + 1) else s.mem i }

/-- A NUL at an offset. -/
def putNul (s : CutState) (off : Int) : CutState :=
  { s.touch off 1 with mem := fun i => if i = off then 0 else s.mem i }

/-- The first `if`: the string is shifted by one byte. -/
def cutHead (ch : UInt8) (len : Int) (s : CutState) : Option CutState :=
  let s := s.touch 0 1
  if s.mem 0 = ch then
    if len + 1 ≥ 2 ^ 31 then none else some (s.shift (toSize (len + 1)))
  else some s

/-- The second `if`: a NUL replaces the last byte. -/
def cutTail (ch : UInt8) (len : Int) (s : CutState) : CutState :=
  let s := s.touch (len - 1) 1
  if s.mem (len - 1) = ch then s.putNul (len - 1) else s

end CutState

/-- `head_tail_cut_char`, on a string within `cap` bytes; `len` is an `int`. -/
def headTailCutChar (cap : Nat) (ch : UInt8) (s : CutState) : Option CutState := do
  let (s, len) ← s.strlen cap
  let s ← s.cutHead ch (toInt32 len)
  let (s, len) ← s.strlen cap
  return s.cutTail ch (toInt32 len)

/-! ## Trimming -/

/-- The string without its first character, if this is `ch`, and then without its last, if this is. -/
def trimmed (ch : UInt8) (str : List UInt8) : List UInt8 :=
  let str := if str.head? = some ch then str.tail else str
  if str.getLast? = some ch then str.dropLast else str

/-- A string in memory, with what lies before it and behind its NUL. -/
def CString.around (str : CString) (outside : Around) : Around := fun i =>
  if 0 ≤ i ∧ i ≤ str.bytes.length then str.bytes.getD i.toNat 0 else outside i

/-- **The string is trimmed inside its own bytes**, its NUL included. -/
def CutsChar (outside : Around) (str : CString) (ch : UInt8) : Prop :=
  ∃ s, headTailCutChar (str.bytes.length + 1) ch ⟨str.around outside, []⟩ = some s ∧
    s.mem.ahead.HoldsStr 0 (trimmed ch str.bytes) ∧
    ∀ r ∈ s.touched, 0 ≤ r.1 ∧ r.1 + r.2 ≤ str.bytes.length + 1

/-- The condition. -/
structure CutOk (str : CString) (ch : UInt8) : Prop where
  head : str.bytes.head? ≠ some ch
  pos : 0 < toInt32 str.bytes.length
  short : toInt32 str.bytes.length = str.bytes.length ∨
    str.bytes.getD (toInt32 str.bytes.length - 1).toNat 0 ≠ ch ∧ str.bytes.getLast? ≠ some ch

/-! ## The string in memory -/

section

variable {mem outside : Around} {cap : Nat} {ch : UInt8} {t : List UInt8} {k : Nat}

theorem holds_around (str : CString) (outside : Around) :
    (str.around outside).ahead.HoldsStr 0 str.bytes := by
  intro i hi
  show (if 0 ≤ ((0 + i : Nat) : Int) ∧ _ then _ else _) = _
  rw [if_pos (by omega), Nat.zero_add, Int.toNat_natCast]

theorem strlen_of_holds {s : CutState} (h : s.mem.ahead.HoldsStr 0 t) (ht : 0 ∉ t)
    (hcap : t.length < cap) : s.strlen cap = some (s.touch 0 (t.length + 1), t.length) := by
  rw [CutState.strlen, Mem.str?_of_holds h ht hcap]
  rfl

/-- A NUL inside the string cuts it off. -/
theorem holds_putNul {s : CutState} (h : s.mem.ahead.HoldsStr 0 t) (hk : k ≤ t.length) :
    (s.putNul k).mem.ahead.HoldsStr 0 (t.take k) := by
  intro i hi
  rw [List.length_take_of_le hk] at hi
  have hold : s.mem.ahead (0 + i) = t.getD i 0 := h i (by omega)
  show (if ((0 + i : Nat) : Int) = k then 0 else s.mem.ahead (0 + i)) = _
  rw [Nat.zero_add] at hold ⊢
  by_cases hik : i = k
  · rw [if_pos (by omega), List.getD_eq_default _ _ (by rw [List.length_take]; omega)]
  · rw [if_neg (by omega), hold, List.getD_eq_getElem?_getD, List.getD_eq_getElem?_getD,
      List.getElem?_take_of_lt (by omega)]

/-- Fewer bytes than the string has are shifted: it has one byte twice, and is as long as before. -/
theorem holds_shift {s : CutState} (h : s.mem.ahead.HoldsStr 0 t) (hk : k < t.length) :
    (s.shift k).mem.ahead.HoldsStr 0 (t.tail.take k ++ t.drop k) := by
  have hlen : (t.tail.take k).length = k := by
    rw [List.length_take, List.length_tail]
    omega
  intro i hi
  rw [List.length_append, hlen, List.length_drop] at hi
  rw [Nat.zero_add]
  show (if 0 ≤ (i : Int) ∧ (i : Int) < k then s.mem ((i : Int) + 1) else s.mem i) = _
  by_cases hik : i < k
  · have hnext : s.mem ((0 + (i + 1) : Nat) : Int) = t.getD (i + 1) 0 := h (i + 1) (by omega)
    rw [if_pos (by omega), List.getD_append _ _ _ _ (by omega), List.getD_eq_getElem?_getD,
      List.getElem?_take_of_lt hik, List.getElem?_tail, ← List.getD_eq_getElem?_getD, ← hnext]
    congr 1
    omega
  · have hsame : s.mem ((0 + i : Nat) : Int) = t.getD i 0 := h i (by omega)
    rw [if_neg (by omega), List.getD_append_right _ _ _ _ (by omega), hlen,
      List.getD_eq_getElem?_getD, List.getElem?_drop, ← List.getD_eq_getElem?_getD,
      show k + (i - k) = i by omega, ← hsame, Nat.zero_add]

/-- A number of bytes in an `int`. -/
theorem toInt32_natCast_bounds (n : Nat) : toInt32 n ≤ n ∧ toInt32 n < 2 ^ 31 ∧
    -2 ^ 31 ≤ toInt32 n ∧ toInt32 n % 2 ^ 32 = n % 2 ^ 32 := by
  unfold toInt32
  split
  · omega
  · omega

end

/-! ## A string that does not begin with the character -/

section

variable {outside : Around} {str : CString} {ch : UInt8}

theorem strlen_around (touched : List (Int × Nat)) :
    CutState.strlen (str.bytes.length + 1) ⟨str.around outside, touched⟩ =
      some (CutState.touch ⟨str.around outside, touched⟩ 0 (str.bytes.length + 1),
        str.bytes.length) :=
  strlen_of_holds (holds_around str outside) str.noNul (Nat.lt_succ_self _)

/-- The first byte is the character iff the string begins with it. -/
theorem around_zero_iff (hch : ch ≠ 0) : str.around outside 0 = ch ↔ str.bytes.head? = some ch := by
  have hzero : str.around outside 0 = str.bytes.getD 0 0 := holds_around str outside 0 (Nat.zero_le _)
  rw [hzero]
  cases hbytes : str.bytes with
  | nil => exact ⟨fun heq => absurd heq.symm hch, nofun⟩
  | cons b bs => exact ⟨fun heq => congrArg some heq, Option.some.inj⟩

/-- What the function looks at when nothing is shifted. -/
def lookedAt (str : CString) : List (Int × Nat) :=
  [(0, str.bytes.length + 1), (0, 1), (0, str.bytes.length + 1)]

/-- Nothing is shifted. -/
theorem headTailCutChar_of_head_ne (hch : ch ≠ 0) (hhead : str.bytes.head? ≠ some ch) :
    headTailCutChar (str.bytes.length + 1) ch ⟨str.around outside, []⟩ = some
      (CutState.cutTail ch (toInt32 str.bytes.length) ⟨str.around outside, lookedAt str⟩) := by
  have hfirst : ¬ str.around outside 0 = ch := fun heq => hhead ((around_zero_iff hch).mp heq)
  have hcut : ∀ touched, CutState.cutHead ch (toInt32 str.bytes.length)
      ⟨str.around outside, touched⟩ = some ⟨str.around outside, touched ++ [(0, 1)]⟩ :=
    fun touched => if_neg hfirst
  rw [headTailCutChar, strlen_around]
  show (CutState.cutHead ch _ ⟨str.around outside, _⟩).bind _ = _
  rw [hcut, Option.bind_some, strlen_around]
  rfl

theorem trimmed_of_head_ne (hhead : str.bytes.head? ≠ some ch) : trimmed ch str.bytes =
    if str.bytes.getLast? = some ch then str.bytes.dropLast else str.bytes := by
  rw [trimmed]
  simp only [if_neg hhead]

theorem mem_cutTail_iff {s : CutState} {len : Int} {r : Int × Nat} :
    r ∈ (s.cutTail ch len).touched ↔ r ∈ s.touched ∨ r = (len - 1, 1) := by
  rw [CutState.cutTail]
  split
  · show r ∈ (s.touched ++ [(len - 1, 1)]) ++ [(len - 1, 1)] ↔ _
    rw [List.mem_append, List.mem_append, List.mem_singleton, or_assoc, or_self]
  · show r ∈ s.touched ++ [(len - 1, 1)] ↔ _
    rw [List.mem_append, List.mem_singleton]

/-- What the second `if` leaves of a string: all of it, or the bytes in front of the one it finds. -/
theorem holds_cutTail (ch : UInt8) {s : CutState} {t : List UInt8} {k : Nat}
    (h : s.mem.ahead.HoldsStr 0 t) (hk : k < t.length) : (s.cutTail ch (k + 1)).mem.ahead.HoldsStr 0
      (if t.getD k 0 = ch then t.take k else t) := by
  have hbyte : s.mem ((0 + k : Nat) : Int) = t.getD k 0 := h k (Nat.le_of_lt hk)
  have hoff : (k : Int) + 1 - 1 = k := by omega
  rw [Nat.zero_add] at hbyte
  rw [CutState.cutTail, hoff, ← hbyte]
  show (if s.mem k = ch then (s.touch k 1).putNul k else s.touch k 1).mem.ahead.HoldsStr 0 _
  by_cases hch : s.mem k = ch
  · rw [if_pos hch, if_pos hch]
    exact holds_putNul (s := s.touch k 1) h (Nat.le_of_lt hk)
  · rw [if_neg hch, if_neg hch]
    exact h

/-- What the second `if` leaves is trimmed iff it has found the last byte, or finds nothing where there
    is nothing to find. -/
theorem trimmed_eq_iff (hhead : str.bytes.head? ≠ some ch) {k : Nat} (hk : k < str.bytes.length) :
    (if str.bytes.getD k 0 = ch then str.bytes.take k else str.bytes) = trimmed ch str.bytes ↔
      k + 1 = str.bytes.length ∨ str.bytes.getD k 0 ≠ ch ∧ str.bytes.getLast? ≠ some ch := by
  rw [trimmed_of_head_ne hhead]
  by_cases hend : k + 1 = str.bytes.length
  · have hlast : str.bytes.getLast? = some ch ↔ str.bytes.getD k 0 = ch := by
      rw [List.getLast?_eq_getElem?, ← hend, Nat.add_sub_cancel, List.getElem?_eq_getElem hk,
        Option.some_inj, List.getD_eq_getElem _ _ hk]
    have hdrop : str.bytes.dropLast = str.bytes.take k := by
      rw [List.dropLast_eq_take, ← hend, Nat.add_sub_cancel]
    refine ⟨fun _ => Or.inl hend, fun _ => ?_⟩
    rw [hdrop]
    exact if_congr hlast.symm rfl rfl
  · by_cases hbyte : str.bytes.getD k 0 = ch
    -- the string is cut off before its last byte
    · rw [if_pos hbyte]
      constructor
      · intro heq
        have hlen := congrArg List.length heq
        rw [List.length_take_of_le (Nat.le_of_lt hk)] at hlen
        split at hlen
        · rw [List.length_dropLast] at hlen
          omega
        · omega
      · rintro (heq | ⟨hne, -⟩)
        · exact absurd heq hend
        · exact absurd hbyte hne
    · rw [if_neg hbyte]
      by_cases hlast : str.bytes.getLast? = some ch
      · rw [if_pos hlast]
        constructor
        · intro heq
          have hlen := congrArg List.length heq
          rw [List.length_dropLast] at hlen
          omega
        · rintro (heq | ⟨-, hne⟩)
          · exact absurd heq hend
          · exact absurd hlast hne
      · rw [if_neg hlast]
        exact ⟨fun _ => Or.inr ⟨hbyte, hlast⟩, fun _ => rfl⟩

theorem nul_not_mem_trimmed (str : CString) (ch : UInt8) : 0 ∉ trimmed ch str.bytes := by
  have hcut : ∀ t : List UInt8, (if t.getLast? = some ch then t.dropLast else t).Sublist t := by
    intro t
    split
    · exact List.dropLast_sublist t
    · exact List.Sublist.refl t
  refine fun hmem => str.noNul (List.Sublist.mem hmem ((hcut _).trans ?_))
  split
  · exact List.tail_sublist str.bytes
  · exact List.Sublist.refl str.bytes

/-- **Without the character in front**, only the bytes of the string are touched iff its length is a
    positive `int`. -/
theorem cutsChar_iff_holds (hch : ch ≠ 0) (hhead : str.bytes.head? ≠ some ch) :
    CutsChar outside str ch ↔ 0 < toInt32 str.bytes.length ∧
      (CutState.cutTail ch (toInt32 str.bytes.length)
        ⟨str.around outside, lookedAt str⟩).mem.ahead.HoldsStr 0 (trimmed ch str.bytes) := by
  have hbounds := toInt32_natCast_bounds str.bytes.length
  rw [CutsChar, headTailCutChar_of_head_ne hch hhead]
  constructor
  · rintro ⟨s, hs, hholds, htouched⟩
    obtain rfl := Option.some.inj hs
    have hback := htouched _ (mem_cutTail_iff.mpr (Or.inr rfl))
    exact ⟨by omega, hholds⟩
  · rintro ⟨hpos, hholds⟩
    refine ⟨_, rfl, hholds, fun r hr => ?_⟩
    rcases mem_cutTail_iff.mp hr with hr | rfl
    · unfold lookedAt at hr
      simp only [List.mem_cons, List.not_mem_nil, or_false] at hr
      rcases hr with rfl | rfl | rfl
      · exact ⟨Int.le_refl 0, by omega⟩
      · exact ⟨Int.le_refl 0, by omega⟩
      · exact ⟨Int.le_refl 0, by omega⟩
    · exact ⟨by omega, by omega⟩

/-- It is trimmed then, or nothing is to be done and nothing is done. -/
theorem cutsChar_iff_of_head_ne (hch : ch ≠ 0) (hhead : str.bytes.head? ≠ some ch) :
    CutsChar outside str ch ↔ CutOk str ch := by
  have hbounds := toInt32_natCast_bounds str.bytes.length
  rw [cutsChar_iff_holds hch hhead]
  by_cases hpos : 0 < toInt32 str.bytes.length
  · obtain ⟨k, hk⟩ : ∃ k : Nat, toInt32 str.bytes.length = k + 1 :=
      ⟨(toInt32 str.bytes.length - 1).toNat, by omega⟩
    have hlt : k < str.bytes.length := by omega
    have hleft := holds_cutTail ch (s := ⟨str.around outside, lookedAt str⟩)
      (holds_around str outside) hlt
    have hnul : 0 ∉ if str.bytes.getD k 0 = ch then str.bytes.take k else str.bytes := by
      split
      · exact fun hmem => str.noNul (List.mem_of_mem_take hmem)
      · exact str.noNul
    have hindex : (toInt32 str.bytes.length - 1).toNat = k := by omega
    have hshort : k + 1 = str.bytes.length ↔ toInt32 str.bytes.length = str.bytes.length := by omega
    rw [← hk] at hleft
    constructor
    · rintro ⟨-, hholds⟩
      have heq := Mem.HoldsStr.unique hleft hnul hholds (nul_not_mem_trimmed str ch)
      refine ⟨hhead, hpos, ?_⟩
      rw [hindex, ← hshort]
      exact (trimmed_eq_iff hhead hlt).mp heq
    · rintro ⟨-, -, hshort'⟩
      rw [hindex, ← hshort] at hshort'
      rw [(trimmed_eq_iff hhead hlt).mpr hshort'] at hleft
      exact ⟨hpos, hleft⟩
  · exact ⟨fun h => absurd h.1 hpos, fun h => absurd h.pos hpos⟩

end

/-! ## A string that begins with the character -/

section

variable {outside : Around} {str : CString} {ch : UInt8}

/-- It loses one or two characters. -/
theorem length_trimmed (hhead : str.bytes.head? = some ch) :
    str.bytes.length ≤ (trimmed ch str.bytes).length + 2 ∧
      (trimmed ch str.bytes).length < str.bytes.length := by
  have hpos : 0 < str.bytes.length := by
    cases hbytes : str.bytes with
    | nil =>
      rw [hbytes] at hhead
      cases hhead
    | cons b bs => exact Nat.succ_pos _
  rw [trimmed]
  simp only [if_pos hhead]
  split
  · rw [List.length_dropLast, List.length_tail]
    omega
  · rw [List.length_tail]
    omega

/-- What is shifted first: as many bytes as the `int` length says, and one more. -/
theorem cutHead_of_head {touched : List (Int × Nat)} {len : Int} {s : CutState} (hch : ch ≠ 0)
    (hhead : str.bytes.head? = some ch)
    (h : CutState.cutHead ch len ⟨str.around outside, touched⟩ = some s) :
    len + 1 < 2 ^ 31 ∧
      s = CutState.shift ⟨str.around outside, touched ++ [(0, 1)]⟩ (toSize (len + 1)) := by
  have hfirst : str.around outside 0 = ch := (around_zero_iff hch).mpr hhead
  change (if str.around outside 0 = ch then if len + 1 ≥ 2 ^ 31 then none else
    some (CutState.shift ⟨str.around outside, touched ++ [(0, 1)]⟩ (toSize (len + 1))) else _) =
      some s at h
  rw [if_pos hfirst] at h
  by_cases hover : len + 1 ≥ 2 ^ 31
  · rw [if_pos hover] at h
    cases h
  · rw [if_neg hover] at h
    exact ⟨by omega, (Option.some.inj h).symm⟩

/-- Shifted in part, the string is as long as before. -/
theorem exists_shifted (outside : Around) (touched : List (Int × Nat)) {k : Nat}
    (hk : k < str.bytes.length) :
    ∃ t, (CutState.shift ⟨str.around outside, touched⟩ k).mem.ahead.HoldsStr 0 t ∧ 0 ∉ t ∧
      t.length = str.bytes.length := by
  refine ⟨str.bytes.tail.take k ++ str.bytes.drop k,
    holds_shift (s := ⟨str.around outside, touched⟩) (holds_around str outside) hk, ?_, ?_⟩
  · rw [List.mem_append, not_or]
    exact ⟨fun hmem => str.noNul (List.mem_of_mem_tail (List.mem_of_mem_take hmem)),
      fun hmem => str.noNul (List.mem_of_mem_drop hmem)⟩
  · rw [List.length_append, List.length_take, List.length_drop, List.length_tail]
    omega

/-- **With the character in front, the string is never trimmed inside its own bytes.**  One byte more
    than the string and its NUL is shifted; if the length is no `int`, the string may be shifted in
    part, and then is too long. -/
theorem not_cutsChar_of_head (hch : ch ≠ 0) (hhead : str.bytes.head? = some ch) :
    ¬ CutsChar outside str ch := by
  rintro ⟨s, hrun, hholds, htouched⟩
  have hbounds := toInt32_natCast_bounds str.bytes.length
  have hlen := length_trimmed hhead
  rw [headTailCutChar, strlen_around, Option.bind_eq_bind, Option.bind_some] at hrun
  rcases Option.bind_eq_some_iff.mp hrun with ⟨s₁, hcut, hrun⟩
  rcases cutHead_of_head hch hhead hcut with ⟨hover, rfl⟩
  rcases Option.bind_eq_some_iff.mp hrun with ⟨⟨s₂, len⟩, hstrlen, hrun⟩
  have hs : s = s₂.cutTail ch (toInt32 len) := (Option.some.inj hrun).symm
  subst hs
  obtain ⟨k, hk⟩ : ∃ k, toSize (toInt32 str.bytes.length + 1) = k := ⟨_, rfl⟩
  rw [hk] at hstrlen
  -- the string is read again behind the shift, so what was shifted has been touched
  have hin : k < str.bytes.length := by
    obtain ⟨u, -, hu⟩ := Option.map_eq_some_iff.mp hstrlen
    obtain ⟨rfl, rfl⟩ := Prod.mk.inj hu
    have hk' := htouched (1, k)
      (mem_cutTail_iff.mpr (Or.inl (by simp [CutState.touch, CutState.shift])))
    have hle : 1 + (k : Int) ≤ str.bytes.length + 1 := hk'.2
    unfold toSize at hk
    omega
  obtain ⟨t, hmoved, hnul, hsame⟩ := exists_shifted outside
    ([(0, str.bytes.length + 1)] ++ [(0, 1)]) hin
  have hstrlen' : CutState.strlen (str.bytes.length + 1) _ = _ :=
    strlen_of_holds hmoved hnul (by omega)
  rw [hsame] at hstrlen'
  obtain ⟨rfl, rfl⟩ := Prod.mk.inj (Option.some.inj (hstrlen.symm.trans hstrlen'))
  -- so its length is the same `int`, but not the length itself
  clear hcut hrun hstrlen hstrlen'
  generalize toInt32 (str.bytes.length : Int) = n at *
  have hback : 0 ≤ n - 1 := (htouched _ (mem_cutTail_iff.mpr (Or.inr rfl))).1
  obtain ⟨j, rfl⟩ : ∃ j : Nat, n = j + 1 := ⟨(n - 1).toNat, by omega⟩
  have hjlen : j + 2 < str.bytes.length := by
    rw [toSize_of_nonneg (by omega) (by omega)] at hk
    omega
  have hleft := holds_cutTail ch (s := CutState.touch (CutState.shift
    ⟨str.around outside, [(0, str.bytes.length + 1)] ++ [(0, 1)]⟩ k) 0 (str.bytes.length + 1))
    hmoved (show j < t.length by omega)
  have hnul' : 0 ∉ if t.getD j 0 = ch then t.take j else t := by
    split
    · exact fun hmem => hnul (List.mem_of_mem_take hmem)
    · exact hnul
  have heq := congrArg List.length
    (Mem.HoldsStr.unique hleft hnul' hholds (nul_not_mem_trimmed str ch))
  split at heq
  · rw [List.length_take_of_le (by omega)] at heq
    omega
  · omega

end

/-- **The string is trimmed inside its own bytes iff there is nothing to cut off in front and its
    length is a positive `int`**; where the length is no `int` but leaves a positive remainder,
    iff neither the byte in front of the remainder nor the last one is the character. -/
theorem cutsChar_iff (outside : Around) (str : CString) {ch : UInt8} (hch : ch ≠ 0) :
    CutsChar outside str ch ↔ CutOk str ch := by
  by_cases hhead : str.bytes.head? = some ch
  · exact ⟨fun h => absurd h (not_cutsChar_of_head hch hhead), fun h => absurd hhead h.head⟩
  · exact cutsChar_iff_of_head_ne hch hhead

/-- "11,", with a comma behind. -/
theorem cutsChar_iff_behind : CutsChar (fun _ => 0) ⟨[49, 49, 44], by decide⟩ 44 :=
  (cutsChar_iff _ _ (by decide)).mpr ⟨by decide, by decide, Or.inl (by decide)⟩

/-- ",11,": the byte behind the NUL is moved to the place of the NUL. -/
theorem not_cutsChar_both : ¬ CutsChar (fun _ => 0) ⟨[44, 49, 49, 44], by decide⟩ 44 := by
  rintro ⟨s, hrun, -, htouched⟩
  have htouch : (headTailCutChar 5 44
      ⟨CString.around ⟨[44, 49, 49, 44], by decide⟩ fun _ => 0, []⟩).map CutState.touched =
        some [(0, 5), (0, 1), (1, 5), (0, 5), (0, 4), (2, 1), (2, 1)] := by decide
  rw [show headTailCutChar 5 44 _ = some s from hrun] at htouch
  have hbehind := htouched (1, 5) (by rw [Option.some.inj htouch]; decide)
  exact absurd hbehind.2 (by decide)

end AdhocNode
