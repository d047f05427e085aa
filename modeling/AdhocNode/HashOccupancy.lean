/-
  THE OCCUPANCY COUNTER — `currentIndex` of the hash table against its buckets.

  1. **The count** — `OccupancyExact t`: `currentIndex` is the number of buckets that are not empty.

  2. **A call** (`call_occupancy`) — `Insert` adds 1 exactly when it fills an empty bucket.  `Dorp`
     never touches the counter, so it must not empty a bucket: the count stays exact iff the node that
     it removes is not alone in its bucket.

  3. **Runs** — `occupancyAlways_iff`: the count is exact in every state iff no `Dorp` of the run
     empties a bucket.
-/
import AdhocNode.HashUnique
import Mathlib.Data.Finset.Card
import Mathlib.Data.Fintype.Card

namespace AdhocNode

open CMem PtrChain AssocList Runs

/-! ## The count -/

/-- The number of non-empty buckets. -/
def occupied (t : HashTable) : Nat := (Finset.univ.filter fun i => t.hashNode i ≠ none).card

/-- The counter is exact. -/
def OccupancyExact (t : HashTable) : Prop := t.currentIndex = occupied t

/-- The counter is exact in every state of the run `ops`, the first and the last included; and every
    call returns. -/
def OccupancyAlways (t : HashTable) (ops : List HashOp) : Prop :=
  Always tableStep OccupancyExact t ops

/-! ## The condition -/

/-- The bucket of `key` is not just one node, with this key. -/
def NotAlone (t : HashTable) (key : CString) : Prop :=
  ∀ x, Chain t.heap (t.hashNode (hashPos key)) [x] → x.2.key ≠ key

/-- A `Dorp` does not empty its bucket. -/
def DorpLeaves : HashOp → HashTable → Prop
  | .insert _ _, _ => True
  | .get _, _ => True
  | .dorp key, t => NotAlone t key

/-- No `Dorp` of the run does. -/
def DorpsLeave (t : HashTable) (ops : List HashOp) : Prop := Meets tableStep DorpLeaves t ops

/-! ## The buckets of a represented table -/

/-- The number of buckets with nodes. -/
def filled (L : Buckets) : Nat := (Finset.univ.filter fun i => L i ≠ []).card

section

variable {t t' : HashTable} {L : Buckets} {i : Fin maxTableSize} {l : List (Nat × HashEntry)}
  {key : CString}

theorem hashNode_eq_none_iff (h : Rep t L) : t.hashNode i = none ↔ L i = [] := by
  refine ⟨h.hashNode_none, fun hL => ?_⟩
  have hchain := h.chain i
  rw [hL] at hchain
  exact hchain

theorem occupied_eq (h : Rep t L) : occupied t = filled L := by
  unfold occupied filled
  refine congrArg Finset.card (Finset.filter_congr fun i _ => ?_)
  exact not_congr (hashNode_eq_none_iff h)

theorem filled_le (L : Buckets) : filled L ≤ maxTableSize := by
  have hle := (Finset.univ : Finset (Fin maxTableSize)).card_filter_le fun i => L i ≠ []
  rwa [Finset.card_univ, Fintype.card_fin] at hle

/-- A bucket on its own, and the others. -/
theorem filled_eq (L : Buckets) (i : Fin maxTableSize) :
    filled L = ((Finset.univ.erase i).filter fun j => L j ≠ []).card +
      if L i = [] then 0 else 1 := by
  have hall : filled L = ((insert i (Finset.univ.erase i)).filter fun j => L j ≠ []).card := by
    rw [Finset.insert_erase (Finset.mem_univ i)]
    rfl
  rw [hall, Finset.filter_insert]
  by_cases hL : L i = []
  · rw [if_neg (not_not.mpr hL), if_pos hL]
    rfl
  · have hnot : i ∉ (Finset.univ.erase i).filter fun j => L j ≠ [] := by
      intro hmem
      exact (Finset.mem_erase.mp (Finset.mem_filter.mp hmem).1).1 rfl
    rw [if_pos hL, if_neg hL, Finset.card_insert_of_notMem hnot]

/-- **One bucket changes**: what it counted for before goes, what it counts for now comes. -/
theorem filled_update (L : Buckets) (i : Fin maxTableSize) (l : List (Nat × HashEntry)) :
    filled (Function.update L i l) + (if L i = [] then 0 else 1) =
      filled L + if l = [] then 0 else 1 := by
  have hothers : ((Finset.univ.erase i).filter fun j => Function.update L i l j ≠ []) =
      (Finset.univ.erase i).filter fun j => L j ≠ [] := by
    refine Finset.filter_congr fun j hj => ?_
    rw [Function.update_of_ne (Finset.mem_erase.mp hj).1]
  rw [filled_eq (Function.update L i l) i, filled_eq L i, hothers, Function.update_self]
  omega

theorem notAlone_iff (h : Rep t L) :
    NotAlone t key ↔ (drop HashEntry.key key (L (hashPos key)) = [] → L (hashPos key) = []) := by
  constructor
  · intro hnot hempty
    cases hL : L (hashPos key) with
    | nil => rfl
    | cons x l =>
      have hchain := h.chain (hashPos key)
      rw [hL] at hempty hchain
      by_cases hkey : x.2.key = key
      · rw [drop_cons_self hkey] at hempty
        rw [hempty] at hchain
        exact absurd hkey (hnot x hchain)
      · rw [drop_cons_of_ne hkey] at hempty
        cases hempty
  · intro hempty x hx hkey
    have hL : L (hashPos key) = [x] := (h.chain _).unique hx
    rw [hL, drop_cons_self hkey] at hempty
    exact List.cons_ne_nil x [] (hempty rfl)

end

/-! ## A call -/

/-- `Insert` adds 1 to the counter iff it finds its bucket empty. -/
theorem insert_currentIndex {t t' : HashTable} {key : CString} {value : Int32}
    (hcall : t.insert key value = some t') : t'.currentIndex =
      if t.hashNode (hashPos key) = none then toInt32 (t.currentIndex + 1) else t.currentIndex := by
  rcases insert_cases hcall with ⟨hp, rfl⟩ | ⟨p, heap, hp, rfl, -⟩
  · rw [if_pos hp]
  · rw [hp, if_neg (Option.some_ne_none p)]

/-- `Dorp` does not touch the counter. -/
theorem dorp_currentIndex {t t' : HashTable} {key : CString} {n : Int}
    (hcall : t.dorp key = some (t', n)) : t'.currentIndex = t.currentIndex := by
  cases hp : t.hashNode (hashPos key) with
  | none =>
    rw [dorp_of_none hp] at hcall
    cases hcall
    rfl
  | some p =>
    simp only [HashTable.dorp, hp, Option.bind_eq_bind] at hcall
    rcases Option.bind_eq_some_iff.mp hcall with ⟨node, -, hcall⟩
    split at hcall
    · rcases Option.bind_eq_some_iff.mp hcall with ⟨heap, -, hret⟩
      cases hret
      rfl
    · rcases Option.bind_eq_some_iff.mp hcall with ⟨⟨heap, m⟩, -, hret⟩
      cases hret
      rfl

section

variable {t : HashTable} {L : Buckets}

/-- **`Insert` keeps an exact counter exact.** -/
theorem insert_occupancy (h : Rep t L) (hexact : OccupancyExact t) (key : CString) (value : Int32) :
    ∃ t' L', tableStep (.insert key value) t = some t' ∧ Rep t' L' ∧ OccupancyExact t' := by
  rcases insert_spec h key value with ⟨t', hcall, hrep⟩
  refine ⟨t', _, tableStep_insert hcall, hrep, ?_⟩
  have hindex := insert_currentIndex hcall
  have hfilled := filled_update L (hashPos key)
    (put HashEntry.key t.heap.bound ⟨key, value⟩ (L (hashPos key)))
  have hle := filled_le L
  rw [OccupancyExact, occupied_eq h] at hexact
  rw [if_neg put_ne_nil] at hfilled
  rw [OccupancyExact, occupied_eq hrep, hindex]
  by_cases hnone : t.hashNode (hashPos key) = none
  · rw [if_pos ((hashNode_eq_none_iff h).mp hnone)] at hfilled
    unfold maxTableSize at hle
    rw [if_pos hnone, toInt32_of_lt (by omega) (by omega)]
    omega
  · rw [if_neg fun hL => hnone ((hashNode_eq_none_iff h).mpr hL)] at hfilled
    rw [if_neg hnone]
    omega

/-- **`Dorp` keeps it exact iff it does not empty its bucket.** -/
theorem dorp_occupancy (h : Rep t L) (hexact : OccupancyExact t) (key : CString) :
    ∃ t' L', tableStep (.dorp key) t = some t' ∧ Rep t' L' ∧
      (OccupancyExact t' ↔ NotAlone t key) := by
  rcases dorp_spec h key with ⟨t', hcall, hrep⟩
  refine ⟨t', _, tableStep_dorp hcall, hrep, ?_⟩
  have hindex := dorp_currentIndex hcall
  have hfilled := filled_update L (hashPos key) (drop HashEntry.key key (L (hashPos key)))
  rw [OccupancyExact, occupied_eq h] at hexact
  rw [OccupancyExact, occupied_eq hrep, hindex, notAlone_iff h]
  by_cases hL : L (hashPos key) = []
  · have hdrop : drop HashEntry.key key (L (hashPos key)) = [] := by
      rw [hL]
      rfl
    rw [if_pos hL, if_pos hdrop] at hfilled
    exact ⟨fun _ _ => hL, fun _ => by omega⟩
  · rw [if_neg hL] at hfilled
    by_cases hdrop : drop HashEntry.key key (L (hashPos key)) = []
    · rw [if_pos hdrop] at hfilled
      constructor
      · intro heq
        omega
      · intro hempty
        exact absurd (hempty hdrop) hL
    · rw [if_neg hdrop] at hfilled
      exact ⟨fun _ hempty => absurd hempty hdrop, fun _ => by omega⟩

/-- **A call** keeps an exact counter exact iff it is no `Dorp` that empties its bucket. -/
theorem call_occupancy (h : Rep t L) (hexact : OccupancyExact t) (op : HashOp) :
    ∃ t' L', tableStep op t = some t' ∧ Rep t' L' ∧ (OccupancyExact t' ↔ DorpLeaves op t) := by
  cases op with
  | insert key value =>
    rcases insert_occupancy h hexact key value with ⟨t', L', hstep, hrep, hexact'⟩
    exact ⟨t', L', hstep, hrep, fun _ => trivial, fun _ => hexact'⟩
  | get key =>
    exact ⟨t, L, tableStep_get (getValue_spec h key), h, fun _ => trivial, fun _ => hexact⟩
  | dorp key => exact dorp_occupancy h hexact key

end

/-! ## Runs -/

/-- **The counter is exact in every state iff no `Dorp` of the run removes the only node of its
    bucket**, whatever was in the memory of the table before `InitHashTable`. -/
theorem occupancyAlways_iff (t : HashTable) (ops : List HashOp) :
    OccupancyAlways (initHashTable t) ops ↔ DorpsLeave (initHashTable t) ops := by
  have hstart : OccupancyExact (initHashTable t) := by
    rw [OccupancyExact, occupied_eq (rep_init t)]
    rfl
  refine always_iff_meets (I := fun t => ∃ L, Rep t L ∧ OccupancyExact t) ?_ ?_
    ⟨_, rep_init t, hstart⟩
  · rintro t ⟨L, -, hexact⟩
    exact hexact
  · rintro t op ⟨L, hrep, hexact⟩
    rcases call_occupancy hrep hexact op with ⟨t', L', hstep, hrep', hcount⟩
    exact ⟨t', hstep, fun hok => ⟨L', hrep', hcount.mpr hok⟩, hcount.mp⟩

/-- `Insert` and `Dorp` of "b": the bucket is empty, and counts. -/
theorem not_occupancyAlways_dorp :
    ¬ OccupancyAlways (initHashTable .blank) [.insert keyB 1, .dorp keyB] := by
  intro h
  rcases insert_tableStep (rep_init .blank) keyB 1 with ⟨t₁, hstep₁, hrep₁⟩
  have hexact₁ : OccupancyExact t₁ := (h.rest hstep₁).first
  rcases call_occupancy hrep₁ hexact₁ (.dorp keyB) with ⟨t₂, L₂, hstep₂, -, hcount⟩
  rcases h.last with ⟨t, hrun, hexact⟩
  rw [run_cons hstep₁, run_cons hstep₂] at hrun
  cases hrun
  have hnot : NotAlone t₁ keyB := hcount.mp hexact
  -- the bucket is the new node alone
  have hchain := hrep₁.chain (hashPos keyB)
  rw [Function.update_self] at hchain
  exact hnot _ hchain rfl

end AdhocNode
