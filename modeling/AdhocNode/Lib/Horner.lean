/-
  POLYNOMIAL HASHES — Horner's rule, and when two strings cannot have the same value.

  `horner b h l` runs through the list with `h * b + c` at each member `c`.  Two lists that differ in one
  member differ by that difference times a power of the base (`horner_subst`), and two that differ by a
  swap of neighbours by the same times `b - 1` (`horner_swap`).  Modulo a number that is coprime to the
  base the power does not matter (`eq_of_modEq_subst`, `eq_of_modEq_swap`), so two strings of small
  characters that are one such `Edit` apart have different values (`Edit.not_modEq`).
-/
import Mathlib.Data.Int.ModEq
import Mathlib.RingTheory.Coprime.Lemmas
import Mathlib.RingTheory.Int.Basic
import Mathlib.Tactic.Linarith
import Mathlib.Tactic.Ring

namespace Horner

/-- Horner's rule, from `h` on. -/
def horner {R : Type} [CommRing R] (b : R) (h : R) (l : List R) : R := l.foldl (fun h c => h * b + c) h

section Ring

variable {R : Type} [CommRing R] {b h x y : R} {l m : List R}

theorem horner_nil : horner b h [] = h := rfl

theorem horner_cons : horner b h (x :: l) = horner b (h * b + x) l := rfl

theorem horner_append : horner b h (l ++ m) = horner b (horner b h l) m := List.foldl_append

/-- What one starts from is multiplied by the base at every member. -/
theorem horner_sub (h k : R) : horner b h l - horner b k l = (h - k) * b ^ l.length := by
  induction l generalizing h k with
  | nil => simp [horner_nil]
  | cons c l ih =>
    rw [horner_cons, horner_cons, ih, List.length_cons]
    ring

/-- **One member is another.** -/
theorem horner_subst (l m : List R) (x y : R) :
    horner b h (l ++ x :: m) - horner b h (l ++ y :: m) = (x - y) * b ^ m.length := by
  rw [horner_append, horner_append, horner_cons, horner_cons, horner_sub]
  ring

/-- **Two neighbours are swapped.** -/
theorem horner_swap (l m : List R) (x y : R) :
    horner b h (l ++ x :: y :: m) - horner b h (l ++ y :: x :: m) =
      (x - y) * (b - 1) * b ^ m.length := by
  rw [horner_append, horner_append, horner_cons, horner_cons, horner_cons, horner_cons, horner_sub]
  ring

end Ring

section Mod

variable {b h x y n : ℤ} {l m : List ℤ}

/-- A number below the modulus that it divides is 0. -/
theorem eq_zero_of_dvd_mul_pow {d : ℤ} (hcop : IsCoprime n b) (k : Nat) (hd : n ∣ d * b ^ k)
    (hlt : |d| < n) : d = 0 :=
  Int.eq_zero_of_abs_lt_dvd ((hcop.pow_right (n := k)).dvd_of_dvd_mul_right hd) hlt

theorem eq_of_modEq_subst (hcop : IsCoprime n b) (hlt : |x - y| < n)
    (heq : horner b h (l ++ x :: m) ≡ horner b h (l ++ y :: m) [ZMOD n]) : x = y := by
  have hd := heq.symm.dvd
  rw [horner_subst] at hd
  exact sub_eq_zero.mp (eq_zero_of_dvd_mul_pow hcop _ hd hlt)

theorem eq_of_modEq_swap (hcop : IsCoprime n b) (hb : b ≠ 1) (hlt : |(x - y) * (b - 1)| < n)
    (heq : horner b h (l ++ x :: y :: m) ≡ horner b h (l ++ y :: x :: m) [ZMOD n]) : x = y := by
  have hd := heq.symm.dvd
  rw [horner_swap] at hd
  rcases mul_eq_zero.mp (eq_zero_of_dvd_mul_pow hcop _ hd hlt) with hzero | hzero
  · exact sub_eq_zero.mp hzero
  · exact absurd (sub_eq_zero.mp hzero) hb

end Mod

/-! ## Edits -/

/-- One member is another, or two different neighbours are swapped. -/
inductive Edit {α : Type} : List α → List α → Prop
  | subst {x y : α} (l m : List α) (hne : x ≠ y) : Edit (l ++ x :: m) (l ++ y :: m)
  | swap {x y : α} (l m : List α) (hne : x ≠ y) : Edit (l ++ x :: y :: m) (l ++ y :: x :: m)

theorem Edit.length_eq {α : Type} {l m : List α} (he : Edit l m) : l.length = m.length := by
  cases he <;> simp

/-- **An edit of a string changes its value** modulo a number that is coprime to the base and above what
    an edit can make of two characters. -/
theorem Edit.not_modEq {α : Type} {f : α → ℤ} (hinj : ∀ x y, f x = f y → x = y) {k : ℤ}
    (hclose : ∀ x y, |f x - f y| < k) {b n : ℤ} (hcop : IsCoprime n b) (hb : 1 < b) (hn : k * b ≤ n)
    {l m : List α} (he : Edit l m) (h : ℤ) :
    ¬ horner b h (l.map f) ≡ horner b h (m.map f) [ZMOD n] := by
  intro heq
  cases he with
  | @subst x y l m hne =>
    rw [List.map_append, List.map_append, List.map_cons, List.map_cons] at heq
    have hlt : |f x - f y| < n := by nlinarith [hclose x y, abs_nonneg (f x - f y)]
    exact hne (hinj x y (eq_of_modEq_subst hcop hlt heq))
  | @swap x y l m hne =>
    rw [List.map_append, List.map_append, List.map_cons, List.map_cons, List.map_cons,
      List.map_cons] at heq
    have hlt : |(f x - f y) * (b - 1)| < n := by
      rw [abs_mul, abs_of_pos (show 0 < b - 1 by omega)]
      nlinarith [hclose x y, abs_nonneg (f x - f y)]
    exact hne (hinj x y (eq_of_modEq_swap hcop (by omega) hlt heq))

end Horner
