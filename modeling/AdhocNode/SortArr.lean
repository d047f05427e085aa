/-
  SORTING — `sort_arr` of `src/common.c`, whose loops sort an array of any length.

  1. **The program** — a pass of the inner loop compares neighbours and swaps them; the pass number `i`
     leaves out the last `i` places.  Every read and every write of the array is checked: outside of it
     nothing is defined.

  2. **Without the checks** — the same loops on a memory without an end, where they are equations
     (`sortInner`, `sortOuter`), and that the checked loops never leave their array
     (`sortLoops_placesOf`).

  3. **What a pass does** — it rearranges the places that it runs over (`Shuffled`), so what bounds these
     before bounds them after; and the last of them holds the greatest (`sortInner_le_last`).

  4. **The outer loop** — after `i` passes each of the last `i` places holds the greatest of all that are
     not behind it (`TopsOut`).
-/
import Mathlib.Data.List.Nodup
import Mathlib.Data.List.Perm.Basic
import Mathlib.Data.List.Range
import Mathlib.Logic.Equiv.Basic

namespace AdhocNode

/-! ## The program -/

/-- `arr[j]`, which is there to be read inside of the array only. -/
def placeAt (arr : List Int) (j : Int) : Option Int := if 0 ≤ j then arr[j.toNat]? else none

/-- `arr[j] = x`, inside of the array. -/
def putAt (arr : List Int) (j x : Int) : Option (List Int) :=
  if 0 ≤ j ∧ j.toNat < arr.length then some (arr.set j.toNat x) else none

/-- The three `memcpy`s, through `tmp`. -/
def swapPlaces (arr : List Int) (j : Int) : Option (List Int) := do
  let tmp ← placeAt arr j
  let arr ← putAt arr j (← placeAt arr (j - 1))
  putAt arr (j - 1) tmp

/-- The body of the inner loop. -/
def sortBody (arr : List Int) (j : Nat) : Option (List Int) := do
  let lower ← placeAt arr ((j : Int) - 1)
  let upper ← placeAt arr j
  if lower > upper then swapPlaces arr j else some arr

/-- The loops of `sort_arr`, on an array of `n` places. -/
def sortLoops (arr : List Int) (n : Nat) : Option (List Int) :=
  (List.range (n - 1)).foldlM (fun arr i => (List.range' 1 (n - i - 1)).foldlM sortBody arr) arr

/-- `sort_arr`: what it prints. -/
def sortArr : Option (List Int) := sortLoops [5, 3, 4, 1, 2] 5

/-! ## Without the checks -/

/-- The swap. -/
def swapLower (arr : Nat → Int) (j : Nat) : Nat → Int :=
  Function.update (Function.update arr j (arr (j - 1))) (j - 1) (arr j)

/-- The inner loop, with its last `j`. -/
def sortInner (arr : Nat → Int) : Nat → Nat → Int
  | 0 => arr
  | j + 1 =>
    let arr := sortInner arr j
    if arr (j + 1 - 1) > arr (j + 1) then swapLower arr (j + 1) else arr

/-- The first `i` rounds of the outer loop, on `n` places. -/
def sortOuter (arr : Nat → Int) (n : Nat) : Nat → Nat → Int
  | 0 => arr
  | i + 1 => sortInner (sortOuter arr n i) (n - i - 1)

/-- The first places of a memory. -/
def placesOf (arr : Nat → Int) (n : Nat) : List Int := (List.range n).map arr

section Checks

variable {arr : Nat → Int} {n j : Nat}

theorem length_placesOf (arr : Nat → Int) (n : Nat) : (placesOf arr n).length = n := by
  rw [placesOf, List.length_map, List.length_range]

theorem getElem_placesOf (arr : Nat → Int) {t : Nat} (h : t < (placesOf arr n).length) :
    (placesOf arr n)[t] = arr t := by
  simp [placesOf]

/-- A place inside of the array is read. -/
theorem placeAt_placesOf (arr : Nat → Int) (hj : j < n) : placeAt (placesOf arr n) j = some (arr j) := by
  rw [placeAt, if_pos (Int.natCast_nonneg j), Int.toNat_natCast, placesOf, List.getElem?_map,
    List.getElem?_range hj]
  rfl

/-- A place inside of the array is written, and it alone. -/
theorem putAt_placesOf (arr : Nat → Int) (hj : j < n) (x : Int) :
    putAt (placesOf arr n) j x = some (placesOf (Function.update arr j x) n) := by
  have hlen : (j : Int).toNat < (placesOf arr n).length := by
    rw [length_placesOf]
    exact hj
  rw [putAt, if_pos ⟨Int.natCast_nonneg j, hlen⟩, Int.toNat_natCast]
  refine congrArg some (List.ext_getElem ?_ fun t _ _ => ?_)
  · rw [List.length_set, length_placesOf, length_placesOf]
  · rw [List.getElem_set, getElem_placesOf, getElem_placesOf, Function.update_apply]
    exact if_congr eq_comm rfl rfl

/-- **Inside of the array** the body of the inner loop is what it is without the checks. -/
theorem sortBody_placesOf (arr : Nat → Int) (hpos : 0 < j) (hj : j < n) :
    sortBody (placesOf arr n) j =
      some (placesOf (if arr (j - 1) > arr j then swapLower arr j else arr) n) := by
  have hlow : ((j : Int) - 1) = ((j - 1 : Nat) : Int) := by omega
  have hlt : j - 1 < n := by omega
  have hread := placeAt_placesOf arr hj
  have hreadLow := placeAt_placesOf arr hlt
  simp only [sortBody, hlow, hreadLow, hread, Option.bind_eq_bind, Option.bind_some]
  split
  · simp only [swapPlaces, hlow, hreadLow, hread, Option.bind_eq_bind, Option.bind_some,
      putAt_placesOf _ hj, putAt_placesOf _ hlt, swapLower]
  · rfl

/-- A pass over a part of the array passes every check. -/
theorem foldlM_sortBody (arr : Nat → Int) (hj : j < n) :
    (List.range' 1 j).foldlM sortBody (placesOf arr n) = some (placesOf (sortInner arr j) n) := by
  induction j with
  | zero => rfl
  | succ j ih =>
    rw [List.range'_1_concat, List.foldlM_append, ih (Nat.lt_of_succ_lt hj), Option.bind_eq_bind,
      Option.bind_some, List.foldlM_cons, Nat.add_comm, sortBody_placesOf _ (Nat.succ_pos j) hj]
    rfl

/-- **The checked loops never leave the array.** -/
theorem sortLoops_placesOf (arr : Nat → Int) (n : Nat) :
    sortLoops (placesOf arr n) n = some (placesOf (sortOuter arr n (n - 1)) n) := by
  have hrounds : ∀ i ≤ n - 1, (List.range i).foldlM
      (fun arr i => (List.range' 1 (n - i - 1)).foldlM sortBody arr) (placesOf arr n) =
        some (placesOf (sortOuter arr n i) n) := by
    intro i
    induction i with
    | zero => exact fun _ => rfl
    | succ i ih =>
      intro hi
      rw [List.range_succ, List.foldlM_append, ih (Nat.le_of_succ_le hi), Option.bind_eq_bind,
        Option.bind_some, List.foldlM_cons, foldlM_sortBody _ (by omega)]
      rfl
  exact hrounds _ (Nat.le_refl _)

/-- Every array is the first places of a memory. -/
theorem exists_placesOf (arr : List Int) : ∃ mem, placesOf mem arr.length = arr := by
  refine ⟨fun t => arr.getD t 0, List.ext_getElem (length_placesOf _ _) fun t _ ht => ?_⟩
  rw [getElem_placesOf, List.getD_eq_getElem?_getD, List.getElem?_eq_getElem ht, Option.getD_some]

end Checks

/-! ## Rearranged arrays -/

/-- The first `n` places are rearranged, and the others are not touched. -/
def Shuffled (n : Nat) (arr arr' : Nat → Int) : Prop :=
  ∃ e : Equiv.Perm Nat, (∀ t, n ≤ t → e t = t) ∧ ∀ t, arr' t = arr (e t)

section

variable {n m j : Nat} {arr arr' arr'' : Nat → Int}

theorem Shuffled.refl (n : Nat) (arr : Nat → Int) : Shuffled n arr arr :=
  ⟨Equiv.refl Nat, fun _ _ => rfl, fun _ => rfl⟩

/-- Two rearrangements are one. -/
theorem Shuffled.trans (h : Shuffled n arr arr') (h' : Shuffled n arr' arr'') : Shuffled n arr arr'' := by
  rcases h with ⟨e, he, harr⟩
  rcases h' with ⟨e', he', harr'⟩
  refine ⟨e'.trans e, fun t ht => ?_, fun t => ?_⟩
  · rw [Equiv.trans_apply, he' t ht, he t ht]
  · rw [harr', harr, Equiv.trans_apply]

theorem Shuffled.mono (h : Shuffled m arr arr') (hmn : m ≤ n) : Shuffled n arr arr' := by
  rcases h with ⟨e, he, harr⟩
  exact ⟨e, fun t ht => he t (Nat.le_trans hmn ht), harr⟩

/-- Behind these places nothing has changed. -/
theorem Shuffled.behind (h : Shuffled n arr arr') {t : Nat} (ht : n ≤ t) : arr' t = arr t := by
  rcases h with ⟨e, he, harr⟩
  rw [harr, he t ht]

/-- A place among them is filled from one among them. -/
theorem Shuffled.exists_from (h : Shuffled n arr arr') {t : Nat} (ht : t < n) :
    ∃ u < n, arr' t = arr u := by
  rcases h with ⟨e, he, harr⟩
  refine ⟨e t, ?_, harr t⟩
  apply Nat.lt_of_not_le
  intro hge
  -- `e` would take two places to the same one
  have hsame : e t = t := e.injective (he (e t) hge)
  omega

/-- **The places hold the same numbers.** -/
theorem Shuffled.perm (h : Shuffled n arr arr') : (placesOf arr' n).Perm (placesOf arr n) := by
  rcases h with ⟨e, he, harr⟩
  have hmap : placesOf arr' n = ((List.range n).map e).map arr := by
    rw [List.map_map]
    exact List.map_congr_left fun t _ => harr t
  rw [hmap]
  apply List.Perm.map
  apply (List.perm_ext_iff_of_nodup (List.nodup_range.map e.injective) List.nodup_range).mpr
  intro u
  rw [List.mem_map, List.mem_range]
  constructor
  · rintro ⟨t, ht, rfl⟩
    -- the places themselves are shuffled
    have hplaces : Shuffled n (fun t => (t : Int)) fun t => (e t : Int) := ⟨e, he, fun _ => rfl⟩
    rcases hplaces.exists_from (List.mem_range.mp ht) with ⟨v, hv, heq⟩
    have hev : e t = v := Int.ofNat_inj.mp heq
    omega
  · intro hu
    refine ⟨e.symm u, List.mem_range.mpr ?_, e.apply_symm_apply u⟩
    apply Nat.lt_of_not_le
    intro hge
    have hsame : e (e.symm u) = e.symm u := he _ hge
    rw [e.apply_symm_apply] at hsame
    omega

/-- A swap of neighbours. -/
theorem shuffled_swapLower (arr : Nat → Int) (hj : 0 < j) (hn : j < n) :
    Shuffled n arr (swapLower arr j) := by
  refine ⟨Equiv.swap (j - 1) j, fun t ht => ?_, fun t => ?_⟩
  · exact Equiv.swap_apply_of_ne_of_ne (by omega) (by omega)
  · unfold swapLower
    by_cases hlow : t = j - 1
    · rw [hlow, Function.update_self, Equiv.swap_apply_left]
    · rw [Function.update_of_ne hlow]
      by_cases hhigh : t = j
      · rw [hhigh, Function.update_self, Equiv.swap_apply_right]
      · rw [Function.update_of_ne hhigh, Equiv.swap_apply_of_ne_of_ne hlow hhigh]

/-! ## A pass -/

/-- A pass moves numbers among the places it looks at. -/
theorem sortInner_shuffled (arr : Nat → Int) (j : Nat) : Shuffled (j + 1) arr (sortInner arr j) := by
  induction j with
  | zero => exact Shuffled.refl _ arr
  | succ j ih =>
    have hbefore := ih.mono (Nat.le_succ (j + 1))
    rw [sortInner]
    split
    · exact hbefore.trans (shuffled_swapLower _ (Nat.succ_pos j) (Nat.lt_succ_self _))
    · exact hbefore

/-- **The last place of a pass holds the greatest number.** -/
theorem sortInner_le_last (arr : Nat → Int) (j : Nat) :
    ∀ t ≤ j, sortInner arr j t ≤ sortInner arr j j := by
  induction j with
  | zero =>
    intro t ht
    exact Int.le_of_eq (congrArg (sortInner arr 0) (Nat.le_zero.mp ht))
  | succ j ih =>
    intro t ht
    rw [sortInner, Nat.add_sub_cancel]
    generalize sortInner arr j = arr' at ih
    split
    · rename_i hswap
      unfold swapLower
      rw [Nat.add_sub_cancel, Function.update_of_ne (Nat.succ_ne_self j), Function.update_self]
      by_cases hlow : t = j
      · rw [hlow, Function.update_self]
        exact Int.le_of_lt hswap
      · rw [Function.update_of_ne hlow]
        by_cases hhigh : t = j + 1
        · exact Int.le_of_eq (by rw [hhigh, Function.update_self])
        · rw [Function.update_of_ne hhigh]
          exact ih t (by omega)
    · rename_i hkeep
      have hle : arr' j ≤ arr' (j + 1) := Int.not_lt.mp hkeep
      by_cases hhigh : t = j + 1
      · exact Int.le_of_eq (congrArg arr' hhigh)
      · exact Int.le_trans (ih t (by omega)) hle

/-! ## The passes -/

/-- From place `k` on, each holds the greatest of all that are not behind it. -/
def TopsOut (arr : Nat → Int) (k n : Nat) : Prop := ∀ t, k ≤ t → t < n → ∀ u ≤ t, arr u ≤ arr t

/-- A pass over the places up to `m` makes it one more. -/
theorem TopsOut.pass (h : TopsOut arr (m + 1) n) : TopsOut (sortInner arr m) m n := by
  have hshuffled := sortInner_shuffled arr m
  intro t ht hn u hu
  by_cases hlast : t = m
  · rw [hlast] at hu ⊢
    exact sortInner_le_last arr m u hu
  · rw [hshuffled.behind (t := t) (by omega)]
    by_cases hbehind : m + 1 ≤ u
    · rw [hshuffled.behind hbehind]
      exact h t (by omega) hn u hu
    · rcases hshuffled.exists_from (t := u) (by omega) with ⟨v, hv, heq⟩
      rw [heq]
      exact h t (by omega) hn v (by omega)

/-- The first `i` rounds. -/
theorem sortOuter_topsOut (arr : Nat → Int) (n : Nat) {i : Nat} (hi : i < n ∨ i = 0) :
    Shuffled n arr (sortOuter arr n i) ∧ TopsOut (sortOuter arr n i) (n - i) n := by
  induction i with
  | zero => exact ⟨Shuffled.refl n arr, fun t ht hn => absurd hn (by omega)⟩
  | succ i ih =>
    rcases ih (by omega) with ⟨hshuffled, htops⟩
    have hlast : n - i = n - i - 1 + 1 := by omega
    constructor
    · exact hshuffled.trans ((sortInner_shuffled _ _).mono (by omega))
    · rw [sortOuter, show n - (i + 1) = n - i - 1 by omega]
      rw [hlast] at htops
      exact htops.pass

end

/-- **The loops of `sort_arr` sort**: whatever the array and its length, they read and write no place
    outside of it, and leave in it the same numbers, in order. -/
theorem sort_loops_sort (arr : List Int) :
    ∃ arr', sortLoops arr arr.length = some arr' ∧ arr'.Perm arr ∧ arr'.Pairwise (· ≤ ·) := by
  rcases exists_placesOf arr with ⟨mem, hmem⟩
  have hloops := sortLoops_placesOf mem arr.length
  rw [hmem] at hloops
  rcases sortOuter_topsOut mem arr.length (i := arr.length - 1) (by omega) with ⟨hshuffled, htops⟩
  have hperm := hshuffled.perm
  rw [hmem] at hperm
  refine ⟨_, hloops, hperm, ?_⟩
  refine List.pairwise_map.mpr (List.pairwise_lt_range.imp_of_mem fun {u t} hu ht hlt => ?_)
  exact htops t (by omega) (List.mem_range.mp ht) u (Nat.le_of_lt hlt)

example : sortArr = some [1, 2, 3, 4, 5] := by decide

end AdhocNode
