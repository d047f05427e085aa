/-
  C INTEGERS AND BYTE MEMORY — the part of C's data model that byte-level code rests on.

  1. **Integer conversions** — `toInt32`, `toU32`, `toU16`, `toSize` are the conversions to `int`,
     `unsigned int`, `unsigned short` and (on a 64-bit target) `size_t`.  They take an `Int`, so an
     unsigned subtraction that wraps is written `toU32 (a - b)`.

  2. **Memory** — a `Mem` is memory as seen from a base pointer: byte `i` lies at offset `i`.
     `slice m off n` reads `n` bytes, `copy` is `memcpy` between two regions, and `copyIn?` is
     `memcpy` into an object of `cap` bytes with an `int` length: a negative length (as `size_t` it
     is at least `2 ^ 63`) or a copy past the end of the object is undefined, so it gives `none`.

  3. **Little-endian words** — `leVal` reads a list of bytes as a number, `leBytes v` is the memory
     image of the number `v`; `leVal_slice_leBytes` is the round trip.
-/
import Mathlib.Algebra.Group.Int.Defs
import Mathlib.Algebra.GroupWithZero.Nat
import Mathlib.Data.Nat.Basic

namespace CMem

/-! ## Integer conversions -/

/-- Conversion to a 32-bit `int`. -/
def toInt32 (x : Int) : Int :=
  if x % 2 ^ 32 < 2 ^ 31 then x % 2 ^ 32 else x % 2 ^ 32 - 2 ^ 32

/-- Conversion to a 32-bit `unsigned int`. -/
def toU32 (x : Int) : Nat := (x % 2 ^ 32).toNat

/-- Conversion to a 16-bit `unsigned short`. -/
def toU16 (x : Int) : Nat := (x % 2 ^ 16).toNat

/-- Conversion to a 64-bit `size_t`. -/
def toSize (x : Int) : Nat := (x % 2 ^ 64).toNat

theorem toInt32_of_lt {x : Int} (h0 : 0 ≤ x) (h1 : x < 2 ^ 31) : toInt32 x = x := by
  unfold toInt32; split <;> omega

theorem toU32_of_lt {x : Int} (h0 : 0 ≤ x) (h1 : x < 2 ^ 32) : toU32 x = x.toNat := by
  unfold toU32; omega

theorem toU16_of_lt {x : Int} (h0 : 0 ≤ x) (h1 : x < 2 ^ 16) : toU16 x = x.toNat := by
  unfold toU16; omega

theorem toSize_of_nonneg {x : Int} (h0 : 0 ≤ x) (h1 : x < 2 ^ 64) : toSize x = x.toNat := by
  unfold toSize; omega

/-- An `unsigned int` difference of at least `2 ^ 31`, stored in an `int`, is negative; compared
    as a `size_t` it is astronomically large. -/
theorem toSize_toInt32_of_ge {x : Int} (h0 : 2 ^ 31 ≤ x) (h1 : x < 2 ^ 32) :
    2 ^ 63 ≤ toSize (toInt32 x) := by
  unfold toSize toInt32; split <;> omega

/-! ## Byte memory -/

/-- Memory seen from a base pointer. -/
abbrev Mem := Nat → UInt8

namespace Mem

/-- Pointer arithmetic: the memory seen from `off` bytes further on. -/
def shift (m : Mem) (off : Nat) : Mem := fun i => m (off + i)

/-- The `n` bytes from offset `off` on. -/
def slice (m : Mem) : Nat → Nat → List UInt8
  | _, 0 => []
  | off, n + 1 => m off :: slice m (off + 1) n

/-- `memcpy(dst + off, src, n)`. -/
def copy (dst : Mem) (off : Nat) (src : Mem) (n : Nat) : Mem := fun i =>
  if off ≤ i ∧ i < off + n then src (i - off) else dst i

/-- `memcpy(dst + off, src, n)` into an object of `cap` bytes; `none` when the copy is undefined. -/
def copyIn? (cap : Nat) (dst : Mem) (off : Nat) (src : Mem) (n : Int) : Option Mem :=
  if 0 ≤ n ∧ off + n.toNat ≤ cap then some (dst.copy off src n.toNat) else none

/-- A region that starts with the given bytes. -/
def ofList (l : List UInt8) : Mem := fun i => l.getD i 0

@[simp] theorem slice_zero (m : Mem) (off : Nat) : m.slice off 0 = [] := rfl

theorem slice_succ (m : Mem) (off n : Nat) :
    m.slice off (n + 1) = m off :: m.slice (off + 1) n := rfl

@[simp] theorem length_slice (m : Mem) (off n : Nat) : (m.slice off n).length = n := by
  induction n generalizing off with
  | zero => rfl
  | succ n ih => rw [slice_succ, List.length_cons, ih]

/-- `a + b` bytes are `a` bytes, then `b` more. -/
theorem slice_add (m : Mem) (off a b : Nat) :
    m.slice off (a + b) = m.slice off a ++ m.slice (off + a) b := by
  induction a generalizing off with
  | zero => simp
  | succ a ih =>
    rw [show a + 1 + b = (a + b) + 1 by omega, slice_succ, ih, slice_succ, List.cons_append,
      show off + 1 + a = off + (a + 1) by omega]

/-- Memories that agree on a region read the same bytes there. -/
theorem slice_congr {m m' : Mem} {off off' n : Nat} (h : ∀ i, i < n → m (off + i) = m' (off' + i)) :
    m.slice off n = m'.slice off' n := by
  induction n generalizing off off' with
  | zero => rfl
  | succ n ih =>
    have hhead : m off = m' off' := h 0 (by omega)
    have htail : m.slice (off + 1) n = m'.slice (off' + 1) n := by
      apply ih
      intro i hi
      have := h (i + 1) (by omega)
      rwa [show off + (i + 1) = off + 1 + i by omega,
        show off' + (i + 1) = off' + 1 + i by omega] at this
    rw [slice_succ, slice_succ, hhead, htail]

/-- The listed bytes are read back. -/
theorem slice_ofList (l : List UInt8) : (ofList l).slice 0 l.length = l := by
  induction l with
  | nil => rfl
  | cons b l ih =>
    have htail : (ofList (b :: l)).slice 1 l.length = (ofList l).slice 0 l.length :=
      slice_congr fun i _ => by
        show (b :: l).getD (1 + i) 0 = l.getD (0 + i) 0
        rw [Nat.add_comm 1 i, Nat.zero_add, List.getD_cons_succ]
    rw [List.length_cons, slice_succ, htail, ih]
    rfl

theorem copy_apply_of_mem {dst src : Mem} {off n i : Nat} (h0 : off ≤ i) (h1 : i < off + n) :
    dst.copy off src n i = src (i - off) := if_pos ⟨h0, h1⟩

theorem copy_apply_of_lt {dst src : Mem} {off n i : Nat} (h : i < off) :
    dst.copy off src n i = dst i := if_neg (by omega)

theorem copy_apply_of_ge {dst src : Mem} {off n i : Nat} (h : off + n ≤ i) :
    dst.copy off src n i = dst i := if_neg (by omega)

/-- What a copy wrote is read back. -/
theorem slice_copy_self (dst src : Mem) (off n : Nat) :
    (dst.copy off src n).slice off n = src.slice 0 n :=
  slice_congr fun i hi => by rw [copy_apply_of_mem (by omega) (by omega)]; congr 1; omega

/-- A copy leaves the bytes before its destination alone. -/
theorem slice_copy_before {dst src : Mem} {off n o k : Nat} (h : o + k ≤ off) :
    (dst.copy off src n).slice o k = dst.slice o k :=
  slice_congr fun _ _ => copy_apply_of_lt (by omega)

/-- Copying right behind the first `a` bytes appends to them. -/
theorem slice_copy_append (dst src : Mem) (a n : Nat) :
    (dst.copy a src n).slice 0 (a + n) = dst.slice 0 a ++ src.slice 0 n := by
  rw [slice_add, slice_copy_before (by omega), Nat.zero_add, slice_copy_self]

theorem copyIn?_eq_some {cap : Nat} {dst : Mem} {off : Nat} {src : Mem} {n : Int} {m : Mem} :
    copyIn? cap dst off src n = some m ↔
      0 ≤ n ∧ off + n.toNat ≤ cap ∧ m = dst.copy off src n.toNat := by
  unfold copyIn?
  split
  · rename_i h
    constructor
    · intro heq; cases heq; exact ⟨h.1, h.2, rfl⟩
    · rintro ⟨-, -, rfl⟩; rfl
  · rename_i h
    constructor
    · intro heq; cases heq
    · rintro ⟨h0, h1, -⟩; exact absurd ⟨h0, h1⟩ h

theorem copyIn?_of_fits {cap : Nat} {dst : Mem} {off : Nat} {src : Mem} {n : Int} (h0 : 0 ≤ n)
    (h1 : off + n.toNat ≤ cap) : copyIn? cap dst off src n = some (dst.copy off src n.toNat) :=
  copyIn?_eq_some.mpr ⟨h0, h1, rfl⟩

end Mem

/-! ## Little-endian words -/

/-- The number a list of bytes spells, lowest byte first. -/
def leVal : List UInt8 → Nat
  | [] => 0
  | b :: bs => b.toNat + 256 * leVal bs

/-- The bytes of a number, lowest first. -/
def leBytes (v : Nat) : Mem := fun i => UInt8.ofNat (v / 256 ^ i)

theorem slice_leBytes_succ (v n : Nat) :
    (leBytes v).slice 0 (n + 1) = UInt8.ofNat v :: (leBytes (v / 256)).slice 0 n := by
  have htail : (leBytes v).slice 1 n = (leBytes (v / 256)).slice 0 n :=
    Mem.slice_congr fun i _ => by
      unfold leBytes
      rw [Nat.div_div_eq_div_mul, Nat.zero_add, Nat.pow_add, Nat.pow_one]
  rw [Mem.slice_succ, htail]
  simp [leBytes]

/-- **Round trip**: the first `n` bytes of `v` spell `v` modulo `256 ^ n`. -/
theorem leVal_slice_leBytes (v n : Nat) : leVal ((leBytes v).slice 0 n) = v % 256 ^ n := by
  induction n generalizing v with
  | zero => simp [leVal, Nat.mod_one]
  | succ n ih =>
    have hbyte : (UInt8.ofNat v).toNat = v % 256 := by simp
    rw [slice_leBytes_succ, leVal, ih, hbyte, Nat.pow_succ, Nat.mul_comm _ 256, Nat.mod_mul]

end CMem
