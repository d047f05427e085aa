/-
  SLOT TABLES — the first `n` slots of an array are in use, some of them are vacated, and `n` is
  lowered by their number.

  `holes d n` counts the slots below `n` that are vacated (`d`).  Nothing is moved, so the slots in
  use are the first ones again exactly when the vacated ones were the last (`Upper`,
  `filled_iff_upper`): otherwise a hole stays below the new count, and a slot in use above it.

  Whatever is vacated, a table whose entries are distinct members of a set has a free slot as long
  as the set has fewer members than the table has slots (`exists_free`).  A scan of the table logs
  something for each slot; what it logs about one entry is what it logs at that entry's slot
  (`filter_flatMap_of_mem`).
-/
import Mathlib.Data.Fintype.Card

namespace SlotTable

/-- The number of vacated slots below `n`. -/
def holes (d : Nat → Bool) (n : Nat) : Nat := (List.range n).countP d

/-- With a slot, every slot in use behind it is vacated too. -/
def Upper (d : Nat → Bool) (n : Nat) : Prop := ∀ i j, i < j → j < n → d i = true → d j = true

variable {d : Nat → Bool} {n m k : Nat}

@[simp] theorem holes_zero (d : Nat → Bool) : holes d 0 = 0 := rfl

theorem holes_succ (d : Nat → Bool) (n : Nat) :
    holes d (n + 1) = holes d n + if d n = true then 1 else 0 := by
  unfold holes
  rw [List.range_succ, List.countP_append, List.countP_singleton]

theorem holes_le (d : Nat → Bool) (n : Nat) : holes d n ≤ n := by
  have h := List.countP_le_length (p := d) (l := List.range n)
  rw [List.length_range] at h
  exact h

/-- The holes below `m + k` are those below `m` and those in the `k` slots behind. -/
theorem holes_add (d : Nat → Bool) (m k : Nat) :
    holes d (m + k) = holes d m + holes (fun i => d (m + i)) k := by
  induction k with
  | zero => rfl
  | succ k ih => rw [← Nat.add_assoc, holes_succ, holes_succ, ih, Nat.add_assoc]

theorem holes_eq_zero_iff : holes d n = 0 ↔ ∀ i, i < n → d i = false := by
  unfold holes
  rw [List.countP_eq_zero]
  constructor
  · intro h i hi
    exact Bool.eq_false_iff.mpr (h i (List.mem_range.mpr hi))
  · intro h i hi
    exact Bool.eq_false_iff.mp (h i (List.mem_range.mp hi))

theorem holes_eq_self_iff : holes d n = n ↔ ∀ i, i < n → d i = true := by
  have hlen : (List.range n).countP d = (List.range n).length ↔ ∀ i ∈ List.range n, d i = true :=
    List.countP_eq_length
  rw [List.length_range] at hlen
  unfold holes
  rw [hlen]
  constructor
  · intro h i hi
    exact h i (List.mem_range.mpr hi)
  · intro h i hi
    exact h i (List.mem_range.mp hi)

/-- When no slot below the lowered count is vacated, all the others are: they are as many. -/
theorem vacated_of_filled (hfilled : ∀ i, i < n - holes d n → d i = false) {i : Nat}
    (hle : n - holes d n ≤ i) (hi : i < n) : d i = true := by
  have hsplit := holes_add d (n - holes d n) (holes d n)
  rw [Nat.sub_add_cancel (holes_le d n), holes_eq_zero_iff.mpr hfilled, Nat.zero_add] at hsplit
  have hdi := holes_eq_self_iff.mp hsplit.symm (i - (n - holes d n)) (by omega)
  rw [show n - holes d n + (i - (n - holes d n)) = i by omega] at hdi
  exact hdi

/-- **Closing up**: below the lowered count no slot is vacated iff the vacated slots were the last
    ones in use. -/
theorem filled_iff_upper : (∀ i, i < n - holes d n → d i = false) ↔ Upper d n := by
  constructor
  · intro hfilled i j hij hj hi
    refine vacated_of_filled hfilled ?_ hj
    have hi' : n - holes d n ≤ i := by
      refine Nat.le_of_not_lt fun hlt => ?_
      rw [hfilled i hlt] at hi
      cases hi
    omega
  · intro hupper i hi
    rw [← Bool.not_eq_true]
    intro hdi
    -- all slots from `i` on are vacated, so `i` is not below the lowered count
    have hrest : holes (fun l => d (i + l)) (n - i) = n - i := by
      rw [holes_eq_self_iff]
      intro l hl
      cases l with
      | zero => exact hdi
      | succ l => exact hupper i (i + (l + 1)) (by omega) (by omega) hdi
    have hsplit := holes_add d i (n - i)
    rw [Nat.add_sub_cancel' (by omega), hrest] at hsplit
    omega

/-- Then the vacated slots are those from the lowered count on. -/
theorem Upper.vacated_iff (h : Upper d n) {i : Nat} (hi : i < n) :
    d i = true ↔ n - holes d n ≤ i := by
  have hfilled := filled_iff_upper.mpr h
  constructor
  · intro hdi
    refine Nat.le_of_not_lt fun hlt => ?_
    rw [hfilled i hlt] at hdi
    cases hdi
  · intro hle
    exact vacated_of_filled hfilled hle hi

/-- **Pigeonhole**: distinct members of a set that is smaller than the table leave a slot free. -/
theorem exists_free {α : Type} {slots : Fin n → α} {free : α} {s : Finset α}
    (hmem : ∀ i, slots i ≠ free → slots i ∈ s)
    (hdistinct : ∀ i j, slots i ≠ free → slots i = slots j → i = j) (hlt : s.card < n) :
    ∃ i, slots i = free := by
  by_contra hno
  push Not at hno
  have hle : (Finset.univ : Finset (Fin n)).card ≤ s.card :=
    Finset.card_le_card_of_injOn slots (fun i _ => hmem i (hno i))
      fun i _ j _ hij => hdistinct i j (hno i) hij
  rw [Finset.card_univ, Fintype.card_fin] at hle
  omega

section Log

variable {α β : Type} {l : List α} {f : α → List β} {p : β → Bool}

theorem filter_flatMap_of_not (h : ∀ b ∈ l, (f b).filter p = []) : (l.flatMap f).filter p = [] := by
  rw [List.filter_flatMap, List.flatMap_eq_nil_iff]
  exact h

/-- When only `a` logs entries that satisfy `p`, these are what `a` logs. -/
theorem filter_flatMap_of_mem (hnd : l.Nodup) {a : α} (ha : a ∈ l)
    (h : ∀ b ∈ l, b ≠ a → (f b).filter p = []) : (l.flatMap f).filter p = (f a).filter p := by
  induction l with
  | nil => cases ha
  | cons b bs ih =>
    obtain ⟨hb, hnd'⟩ := List.nodup_cons.mp hnd
    rw [List.flatMap_cons, List.filter_append]
    rcases List.mem_cons.mp ha with rfl | ha
    · have hrest : (bs.flatMap f).filter p = [] := filter_flatMap_of_not fun c hc => by
        refine h c (List.mem_cons_of_mem _ hc) ?_
        rintro rfl
        exact hb hc
      rw [hrest, List.append_nil]
    · have hba : b ≠ a := by
        rintro rfl
        exact hb ha
      rw [h b (List.mem_cons_self ..) hba, List.nil_append]
      exact ih hnd' ha fun c hc => h c (List.mem_cons_of_mem _ hc)

end Log

end SlotTable
