/-
  THE STRING HASHES — `HashFun`, `harsh_table_harsh_string` and `bkdrHash` of `src/c_STL.c`.

  All three are Horner's rule, with bases 33, 31 and 131, in `unsigned` arithmetic of 64, 32 and 31 bits
  (the last one is masked).  The bases are odd, so no power of one is lost in the wrap-around: a key in
  which one character is replaced by another, or two neighbours change places, never has the same hash
  (`hashes_apart`), however long it is.
-/
import AdhocNode.HashTable
import AdhocNode.Lib.CFile
import AdhocNode.Lib.Horner
import Mathlib.Data.List.TakeWhile

namespace AdhocNode

open CMem Horner

/-! ## The functions -/

/-- A `char`, widened to `unsigned int`. -/
def charToUInt (c : UInt8) : UInt32 := if c < 128 then c.toUInt32 else c.toUInt32 - 256

/-- `harsh_table_harsh_string`: the characters are unsigned here. -/
def harshTableHarshString (sKey : CString) : UInt32 :=
  match sKey.bytes with
  | [] => 0
  | c :: p => p.foldl (fun value c => (value <<< 5) - value + c.toUInt32) c.toUInt32

/-- `bkdrHash`: the string ends at a newline. -/
def bkdrHash (key : CString) : UInt32 :=
  (key.bytes.takeWhile (· ≠ CFile.newline)).foldl (fun hash c => hash * 131 + charToUInt c) 0
    &&& 0x7FFFFFFF

/-! ## Horner's rule -/

/-- A signed `char`. -/
def schar (c : UInt8) : ℤ := if c < 128 then c.toNat else c.toNat - 256

theorem abs_schar_sub_lt (x y : UInt8) : |schar x - schar y| < 256 := by
  have hx := x.toNat_lt
  have hy := y.toNat_lt
  rw [abs_lt]
  unfold schar
  simp only [UInt8.lt_iff_toNat_lt]
  split <;> split <;> simp_all <;> omega

/-- An unsigned `char`. -/
def uchar (c : UInt8) : ℤ := c.toNat

theorem abs_uchar_sub_lt (x y : UInt8) : |uchar x - uchar y| < 256 := by
  have hx := x.toNat_lt
  have hy := y.toNat_lt
  rw [abs_lt]
  unfold uchar
  omega

/-- The characters of a string are told apart by their values. -/
theorem schar_inj {x y : UInt8} (h : schar x = schar y) : x = y := by
  have hx := x.toNat_lt
  have hy := y.toNat_lt
  apply UInt8.toNat_inj.mp
  revert h
  unfold schar
  simp only [UInt8.lt_iff_toNat_lt]
  split <;> split <;> intro h <;> simp_all <;> omega

theorem uchar_inj {x y : UInt8} (h : uchar x = uchar y) : x = y :=
  UInt8.toNat_inj.mp (Int.ofNat_inj.mp h)

theorem charToULong_modEq (c : UInt8) : ((charToULong c).toNat : ℤ) ≡ schar c [ZMOD 2 ^ 64] := by
  have hc := c.toNat_lt
  unfold charToULong schar
  split
  · simp [Int.ModEq]
  · rw [UInt64.toNat_sub]
    simp [Int.ModEq]
    omega

theorem charToUInt_modEq (c : UInt8) : ((charToUInt c).toNat : ℤ) ≡ schar c [ZMOD 2 ^ 32] := by
  have hc := c.toNat_lt
  unfold charToUInt schar
  split
  · simp [Int.ModEq]
  · rw [UInt32.toNat_sub]
    simp [Int.ModEq]
    omega

/-- `HashFun`, one character. -/
theorem hashFun_step {h : UInt64} {z : ℤ} (hz : (h.toNat : ℤ) ≡ z [ZMOD 2 ^ 64]) (c : UInt8) :
    ((h * 33 + charToULong c).toNat : ℤ) ≡ z * 33 + schar c [ZMOD 2 ^ 64] := by
  rw [UInt64.toNat_add, UInt64.toNat_mul]
  push_cast
  refine (Int.mod_modEq _ _).trans ?_
  exact ((Int.mod_modEq _ _).trans (hz.mul_right 33)).add (charToULong_modEq c)

theorem hashFun_fold (l : List UInt8) {h : UInt64} {z : ℤ} (hz : (h.toNat : ℤ) ≡ z [ZMOD 2 ^ 64]) :
    ((l.foldl (fun hash c => hash * 33 + charToULong c) h).toNat : ℤ) ≡
      horner 33 z (l.map schar) [ZMOD 2 ^ 64] := by
  induction l generalizing h z with
  | nil => exact hz
  | cons c l ih => exact ih (hashFun_step hz c)

/-- `bkdrHash`, one character. -/
theorem bkdrHash_step {h : UInt32} {z : ℤ} (hz : (h.toNat : ℤ) ≡ z [ZMOD 2 ^ 32]) (c : UInt8) :
    ((h * 131 + charToUInt c).toNat : ℤ) ≡ z * 131 + schar c [ZMOD 2 ^ 32] := by
  rw [UInt32.toNat_add, UInt32.toNat_mul]
  push_cast
  refine (Int.mod_modEq _ _).trans ?_
  exact ((Int.mod_modEq _ _).trans (hz.mul_right 131)).add (charToUInt_modEq c)

theorem bkdrHash_fold (l : List UInt8) {h : UInt32} {z : ℤ} (hz : (h.toNat : ℤ) ≡ z [ZMOD 2 ^ 32]) :
    ((l.foldl (fun hash c => hash * 131 + charToUInt c) h).toNat : ℤ) ≡
      horner 131 z (l.map schar) [ZMOD 2 ^ 32] := by
  induction l generalizing h z with
  | nil => exact hz
  | cons c l ih => exact ih (bkdrHash_step hz c)

/-- `harsh_table_harsh_string`, one character. -/
theorem harshTableHarshString_step {h : UInt32} {z : ℤ} (hz : (h.toNat : ℤ) ≡ z [ZMOD 2 ^ 32])
    (c : UInt8) : (((h <<< 5) - h + c.toUInt32).toNat : ℤ) ≡ z * 31 + uchar c [ZMOD 2 ^ 32] := by
  have hh := h.toNat_lt
  have hstep : (((h <<< 5) - h + c.toUInt32).toNat : ℤ) ≡ h.toNat * 31 + uchar c [ZMOD 2 ^ 32] := by
    rw [UInt32.toNat_add, UInt32.toNat_sub, UInt32.toNat_shiftLeft]
    simp [Int.ModEq, uchar, Nat.shiftLeft_eq]
    omega
  exact hstep.trans ((hz.mul_right 31).add_right _)

theorem harshTableHarshString_fold (l : List UInt8) {h : UInt32} {z : ℤ}
    (hz : (h.toNat : ℤ) ≡ z [ZMOD 2 ^ 32]) :
    ((l.foldl (fun (value : UInt32) c => (value <<< 5) - value + c.toUInt32) h).toNat : ℤ) ≡
      horner 31 z (l.map uchar) [ZMOD 2 ^ 32] := by
  induction l generalizing h z with
  | nil => exact hz
  | cons c l ih => exact ih (harshTableHarshString_step hz c)

/-- Without a first character of its own: `value` starts from 0. -/
theorem harshTableHarshString_horner (sKey : CString) :
    ((harshTableHarshString sKey).toNat : ℤ) ≡ horner 31 0 (sKey.bytes.map uchar) [ZMOD 2 ^ 32] := by
  unfold harshTableHarshString
  cases sKey.bytes with
  | nil => exact Int.ModEq.refl 0
  | cons c p =>
    refine harshTableHarshString_fold p ?_
    simp [Int.ModEq, uchar]

/-- In front of the newline. -/
theorem bkdrHash_horner {key : CString} (hkey : CFile.newline ∉ key.bytes) :
    ((bkdrHash key).toNat : ℤ) ≡ horner 131 0 (key.bytes.map schar) [ZMOD 2 ^ 31] := by
  have hall : key.bytes.takeWhile (· ≠ CFile.newline) = key.bytes :=
    List.takeWhile_eq_self_iff.mpr fun c hc => decide_eq_true fun h => hkey (h ▸ hc)
  have hfold := bkdrHash_fold key.bytes (show ((0 : UInt32).toNat : ℤ) ≡ 0 [ZMOD 2 ^ 32] from rfl)
  have hmask (u : UInt32) : ((u &&& 0x7FFFFFFF).toNat : ℤ) ≡ u.toNat [ZMOD 2 ^ 31] := by
    rw [UInt32.toNat_and, show (0x7FFFFFFF : UInt32).toNat = 2 ^ 31 - 1 from rfl,
      Nat.and_two_pow_sub_one_eq_mod]
    push_cast
    exact Int.mod_modEq _ _
  unfold bkdrHash
  rw [hall]
  exact (hmask _).trans (hfold.of_dvd (by norm_num))

/-- Of a key whose length is an `int`. -/
theorem hashFun_horner {key : CString} (hlen : key.bytes.length < 2 ^ 31) :
    ((hashFun key).toNat : ℤ) ≡ horner 33 0 (key.bytes.map schar) [ZMOD 2 ^ 64] := by
  have hint : toInt32 key.bytes.length = key.bytes.length := toInt32_of_lt (by omega) (by omega)
  unfold hashFun
  dsimp only
  rw [hint, Int.toNat_natCast, List.take_length]
  exact hashFun_fold key.bytes rfl

/-! ## Keys that differ in one place -/

/-- **Keys that are one edit apart have different hashes**: the table's `HashFun`, whatever the length an
    `int` holds; `harsh_table_harsh_string`; and `bkdrHash`, of lines without a newline. -/
theorem hashes_apart {s t : CString} (he : Edit s.bytes t.bytes) :
    (s.bytes.length < 2 ^ 31 → hashFun s ≠ hashFun t) ∧
      harshTableHarshString s ≠ harshTableHarshString t ∧
      (CFile.newline ∉ s.bytes → CFile.newline ∉ t.bytes → bkdrHash s ≠ bkdrHash t) := by
  refine ⟨?_, ?_, ?_⟩
  · intro hlen heq
    have hs := hashFun_horner hlen
    have ht := hashFun_horner (he.length_eq ▸ hlen)
    rw [heq] at hs
    have hcop : IsCoprime (2 ^ 64 : ℤ) 33 := Int.isCoprime_iff_gcd_eq_one.mpr rfl
    exact he.not_modEq (fun _ _ => schar_inj) abs_schar_sub_lt hcop (by norm_num) (by norm_num) 0
      (hs.symm.trans ht)
  · intro heq
    have hs := harshTableHarshString_horner s
    rw [heq] at hs
    have hcop : IsCoprime (2 ^ 32 : ℤ) 31 := Int.isCoprime_iff_gcd_eq_one.mpr rfl
    exact he.not_modEq (fun _ _ => uchar_inj) abs_uchar_sub_lt hcop (by norm_num) (by norm_num) 0
      (hs.symm.trans (harshTableHarshString_horner t))
  · intro hs ht heq
    have hcop : IsCoprime (2 ^ 31 : ℤ) 131 := Int.isCoprime_iff_gcd_eq_one.mpr rfl
    have hs := bkdrHash_horner hs
    rw [heq] at hs
    exact he.not_modEq (fun _ _ => schar_inj) abs_schar_sub_lt hcop (by norm_num) (by norm_num) 0
      (hs.symm.trans (bkdrHash_horner ht))

/-- "ab" and "ba". -/
theorem hashes_apart_swapped :
    let s : CString := ⟨[97, 98], by decide⟩
    let t : CString := ⟨[98, 97], by decide⟩
    hashFun s ≠ hashFun t ∧ harshTableHarshString s ≠ harshTableHarshString t ∧
      bkdrHash s ≠ bkdrHash t := by
  intro s t
  rcases hashes_apart (s := s) (t := t) (Edit.swap [] [] (by decide)) with ⟨hfun, hharsh, hbkdr⟩
  exact ⟨hfun (by decide), hharsh, hbkdr (by decide) (by decide)⟩

end AdhocNode
