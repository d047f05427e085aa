/-
  C STRINGS IN MEMORY — `strncpy` and `strcpy` into an object, and the string found there.

  A string is given by the bytes in front of its NUL.  `HoldsStr m off s`: the string `s` and its NUL
  lie at offset `off`; then `str?` reads `s` back (`str?_of_holds`), and a comparison of the first bytes
  with a literal is one of the string (`slice_eq_iff`).  `IsStr cap m s` says so of a whole object.
  While a string is being stored, a first part of it is read (`str?_of_torn`).
-/
import AdhocNode.Lib.CMem

namespace CMem

namespace Mem

/-- `strncpy(dst, s, n)`: `n` bytes are written, NULs behind a shorter string. -/
def strncpy (dst : Mem) (s : List UInt8) (n : Nat) : Mem := fun i =>
  if i < n then s.getD i 0 else dst i

/-- `strcpy(dst, s)` into an object of `cap` bytes; `none` where it does not fit with its NUL. -/
def strcpy? (cap : Nat) (dst : Mem) (s : List UInt8) : Option Mem :=
  if s.length < cap then some fun i => if i ≤ s.length then s.getD i 0 else dst i else none

/-- The string at offset `off`, with its NUL within `cap` bytes. -/
def str? (m : Mem) : Nat → Nat → Option (List UInt8)
  | _, 0 => none
  | off, cap + 1 => if m off = 0 then some [] else (str? m (off + 1) cap).map (m off :: ·)

/-- `strchr` at offset `off`, for a character that is no NUL: where the string has it first, if it
    does.  Neither the character nor the NUL within `cap` bytes is undefined. -/
def strchr? (c : UInt8) (m : Mem) : Nat → Nat → Option (Option Nat)
  | _, 0 => none
  | off, cap + 1 =>
    if m off = c then some (some off)
    else if m off = 0 then some none
    else strchr? c m (off + 1) cap

/-- The string `s` lies at offset `off`, its NUL included. -/
def HoldsStr (m : Mem) (off : Nat) (s : List UInt8) : Prop :=
  ∀ i, i ≤ s.length → m (off + i) = s.getD i 0

/-- The object of `cap` bytes at `m` holds the string `s`. -/
structure IsStr (cap : Nat) (m : Mem) (s : List UInt8) : Prop where
  holds : HoldsStr m 0 s
  noNul : 0 ∉ s
  short : s.length < cap

variable {m : Mem} {off n cap : Nat} {b : UInt8} {s lit : List UInt8}

theorem HoldsStr.tail (h : HoldsStr m off (b :: s)) : HoldsStr m (off + 1) s := by
  intro i hi
  have hnext := h (i + 1) (Nat.succ_le_succ hi)
  rw [List.getD_cons_succ] at hnext
  rw [Nat.add_assoc, Nat.add_comm 1 i]
  exact hnext

/-- `strncpy` of a string that is shorter than the object stores it. -/
theorem isStr_strncpy (m : Mem) (hs : 0 ∉ s) (h : s.length < n) : IsStr n (m.strncpy s n) s := by
  refine ⟨fun i hi => ?_, hs, h⟩
  rw [Nat.zero_add]
  exact if_pos (by omega)

/-- `strcpy` stores a string that fits, -/
theorem strcpy?_of_fits (hs : 0 ∉ s) (h : s.length < cap) :
    ∃ m', strcpy? cap m s = some m' ∧ IsStr cap m' s := by
  refine ⟨_, if_pos h, fun i hi => ?_, hs, h⟩
  rw [Nat.zero_add]
  exact if_pos hi

/-- and is undefined for any other. -/
theorem fits_of_strcpy? {m' : Mem} (h : strcpy? cap m s = some m') : s.length < cap := by
  rw [strcpy?] at h
  split at h
  · assumption
  · exact nomatch h

theorem getD_slice {i : Nat} (m : Mem) (off : Nat) (h : i < n) :
    (m.slice off n).getD i 0 = m (off + i) := by
  induction n generalizing off i with
  | zero => exact absurd h (Nat.not_lt_zero i)
  | succ n ih =>
    rw [slice_succ]
    cases i with
    | zero => rfl
    | succ i =>
      rw [List.getD_cons_succ, ih (off + 1) (Nat.lt_of_succ_lt_succ h), Nat.add_assoc,
        Nat.add_comm 1 i]

/-- A string goes with the bytes of its object. -/
theorem IsStr.transfer (h : IsStr cap m s) (dst : Mem) :
    IsStr cap (dst.copy 0 (ofList (m.slice 0 cap)) cap) s := by
  have hshort := h.short
  refine ⟨fun i hi => ?_, h.noNul, hshort⟩
  rw [copy_apply_of_mem (Nat.zero_le _) (by omega), ← h.holds i hi]
  show (m.slice 0 cap).getD (0 + i - 0) 0 = _
  rw [Nat.zero_add, Nat.sub_zero, getD_slice m 0 (by omega), Nat.zero_add]

/-- **The string is read back.** -/
theorem str?_of_holds (h : HoldsStr m off s) (hs : 0 ∉ s) (hcap : s.length < cap) :
    m.str? off cap = some s := by
  induction s generalizing off cap with
  | nil =>
    have hnul : m off = 0 := h 0 (Nat.le_refl _)
    obtain ⟨cap, rfl⟩ := Nat.exists_eq_succ_of_ne_zero (Nat.ne_of_gt hcap)
    rw [str?, if_pos hnul]
  | cons b s ih =>
    have hhead : m off = b := h 0 (Nat.zero_le _)
    rw [List.mem_cons, not_or] at hs
    rw [List.length_cons] at hcap
    obtain ⟨cap, rfl⟩ := Nat.exists_eq_succ_of_ne_zero (show cap ≠ 0 by omega)
    rw [str?, hhead, if_neg (Ne.symm hs.1), ih h.tail hs.2 (by omega)]
    rfl

/-- **The search ends** at the first byte that is the character or a NUL. -/
theorem strchr?_of_stop {c : UInt8} (hs : ∀ b ∈ s, b ≠ 0 ∧ b ≠ c)
    (hread : ∀ i, i < s.length → m (off + i) = s.getD i 0)
    (hstop : m (off + s.length) = c ∨ m (off + s.length) = 0) (hcap : s.length < cap) :
    m.strchr? c off cap = some (if m (off + s.length) = c then some (off + s.length) else none) := by
  induction s generalizing off cap with
  | nil =>
    obtain ⟨cap, rfl⟩ := Nat.exists_eq_succ_of_ne_zero (Nat.ne_of_gt hcap)
    rw [List.length_nil, Nat.add_zero] at hstop ⊢
    rw [strchr?]
    by_cases hc : m off = c
    · rw [if_pos hc, if_pos hc]
    · rw [if_neg hc, if_neg hc, if_pos (hstop.resolve_left hc)]
  | cons b s ih =>
    have hhead : m off = b := hread 0 (Nat.zero_lt_succ _)
    have hb := hs b List.mem_cons_self
    have htail : ∀ i, i < s.length → m (off + 1 + i) = s.getD i 0 := by
      intro i hi
      have hnext := hread (i + 1) (Nat.succ_lt_succ hi)
      rw [List.getD_cons_succ] at hnext
      rw [Nat.add_assoc, Nat.add_comm 1 i]
      exact hnext
    rw [List.length_cons] at hcap hstop ⊢
    obtain ⟨cap, rfl⟩ := Nat.exists_eq_succ_of_ne_zero (show cap ≠ 0 by omega)
    have hoff : off + (s.length + 1) = off + 1 + s.length := by omega
    rw [hoff] at hstop ⊢
    rw [strchr?, hhead, if_neg hb.2, if_neg hb.1]
    exact ih (fun b' hb' => hs b' (List.mem_cons_of_mem _ hb')) htail hstop (by omega)

/-- There is one string at an offset. -/
theorem HoldsStr.unique {t : List UInt8} (h : HoldsStr m off s) (hs : 0 ∉ s) (h' : HoldsStr m off t)
    (ht : 0 ∉ t) : s = t := by
  have hread : m.str? off (s.length + t.length + 1) = some s := str?_of_holds h hs (by omega)
  have hread' : m.str? off (s.length + t.length + 1) = some t := str?_of_holds h' ht (by omega)
  rw [hread] at hread'
  exact Option.some.inj hread'

/-- **Comparing the first bytes in memory with a literal compares the string with it.** -/
theorem slice_eq_iff (h : HoldsStr m off s) (hlit : 0 ∉ lit) :
    m.slice off lit.length = lit ↔ s.take lit.length = lit := by
  induction lit generalizing off s with
  | nil => exact ⟨fun _ => rfl, fun _ => rfl⟩
  | cons c lit ih =>
    rw [List.mem_cons, not_or] at hlit
    rw [List.length_cons, slice_succ]
    cases s with
    | nil =>
      have hnul : m off = 0 := h 0 (Nat.le_refl _)
      rw [hnul]
      exact ⟨fun heq => absurd (List.cons.inj heq).1 hlit.1, fun heq => nomatch heq⟩
    | cons b s =>
      have hhead : m off = b := h 0 (Nat.zero_le _)
      rw [hhead, List.take_succ_cons, List.cons.injEq, List.cons.injEq, ih h.tail hlit.2]

/-- Of the string at an offset, some bytes have been stored and some not yet. -/
def Torn (m : Mem) (off : Nat) (s : List UInt8) : Prop := ∀ i, m (off + i) = 0 ∨ m (off + i) = s.getD i 0

/-- **What is read of it** is some first part. -/
theorem str?_of_torn (h : Torn m off s) (hcap : s.length < cap) :
    ∃ k ≤ s.length, m.str? off cap = some (s.take k) := by
  induction s generalizing off cap with
  | nil =>
    have hnul : m off = 0 := (h 0).elim id id
    obtain ⟨cap, rfl⟩ := Nat.exists_eq_succ_of_ne_zero (Nat.ne_of_gt hcap)
    exact ⟨0, Nat.le_refl _, by rw [str?, if_pos hnul]; rfl⟩
  | cons b s ih =>
    rw [List.length_cons] at hcap
    obtain ⟨cap, rfl⟩ := Nat.exists_eq_succ_of_ne_zero (show cap ≠ 0 by omega)
    by_cases hnul : m off = 0
    · exact ⟨0, Nat.zero_le _, by rw [str?, if_pos hnul]; rfl⟩
    · have hhead : m off = b := (h 0).resolve_left hnul
      have htail : Torn m (off + 1) s := by
        intro i
        have hnext := h (i + 1)
        rw [List.getD_cons_succ] at hnext
        rw [Nat.add_assoc, Nat.add_comm 1 i]
        exact hnext
      rcases ih htail (show s.length < cap by omega) with ⟨k, hk, hread⟩
      refine ⟨k + 1, Nat.succ_le_succ hk, ?_⟩
      rw [str?, if_neg hnul, hread, hhead]
      rfl

theorem IsStr.str (h : IsStr cap m s) : m.str? 0 cap = some s :=
  str?_of_holds h.holds h.noNul h.short

end Mem

end CMem
