/-
  WHAT THE HASH TABLE LOSES — the exact numbers, over any calls.

  `Insert` forgets the node it has just allocated when it finds its key in the first node of the bucket
  (`overwrites`), and `Dorp` does not count a bucket that it empties (`empties`).  Nothing else goes wrong
  with the nodes and with `currentIndex`: as many nodes are lost as there were such `Insert`s, the counter
  is too high by the number of such `Dorp`s, and `clearHashTable` frees all nodes but the lost ones
  (`table_drift`).
-/
import AdhocNode.HashClear
import AdhocNode.HashOccupancy

namespace AdhocNode

open CMem PtrChain AssocList Runs

/-! ## The two calls -/

/-- The first node of the bucket of `key`. -/
def HashTable.head (t : HashTable) (key : CString) : Option HashNode :=
  (t.hashNode (hashPos key)).bind t.heap.cells

/-- An `Insert` that finds its key in the first node of its bucket. -/
def overwrites : HashOp → HashTable → Bool
  | .insert key _, t => (t.head key).any fun node => decide (node.val.key = key)
  | .get _, _ => false
  | .dorp _, _ => false

/-- A `Dorp` that takes the only node out of its bucket. -/
def empties : HashOp → HashTable → Bool
  | .insert _ _, _ => false
  | .get _, _ => false
  | .dorp key, t => (t.head key).any fun node => decide (node.val.key = key ∧ node.next = none)

section

variable {t t' : HashTable} {L : Buckets} {key : CString} {value : Int32} {base n : Nat}

/-- The first node, of a table that represents `L`. -/
theorem head_of_cons (h : Rep t L) {x : Nat × HashEntry} {l : List (Nat × HashEntry)}
    (hL : L (hashPos key) = x :: l) :
    ∃ r, t.head key = some ⟨x.2, r⟩ ∧ (r = none ↔ l = []) := by
  have hchain := h.chain (hashPos key)
  rw [hL] at hchain
  rcases hchain with ⟨hp, r, hcell, hrest⟩
  refine ⟨r, ?_, ?_⟩
  · rw [HashTable.head, hp]
    exact hcell
  · constructor
    · rintro rfl
      exact Chain.unique hrest rfl
    · rintro rfl
      exact hrest

/-- An empty bucket has no first node. -/
theorem head_of_nil (h : Rep t L) (hL : L (hashPos key) = []) : t.head key = none := by
  rw [HashTable.head, (hashNode_eq_none_iff h).mpr hL]
  rfl

/-- An `Insert` overwrites if its key is that of the first node, -/
theorem overwrites_iff (h : Rep t L) : overwrites (.insert key value) t = true ↔
    ¬ ∀ x ∈ (L (hashPos key)).head?, HashEntry.key x.2 ≠ key := by
  cases hL : L (hashPos key) with
  | nil => simp [overwrites, head_of_nil h hL]
  | cons x l =>
    rcases head_of_cons h hL with ⟨r, hhead, -⟩
    simp [overwrites, hhead]

/-- and a `Dorp` empties its bucket if it takes out the only node. -/
theorem empties_iff (h : Rep t L) : empties (.dorp key) t = true ↔
    L (hashPos key) ≠ [] ∧ drop HashEntry.key key (L (hashPos key)) = [] := by
  cases hL : L (hashPos key) with
  | nil => simp [empties, head_of_nil h hL]
  | cons x l =>
    rcases head_of_cons h hL with ⟨r, hhead, hnone⟩
    by_cases hkey : x.2.key = key
    · simp [empties, hhead, hkey, hnone, drop_cons_self hkey]
    · simp [empties, hhead, hkey, drop_cons_of_ne hkey]

/-! ## The counter -/

/-- The counter exceeds the number of filled buckets by `n`, as an `int`. -/
def CountedBy (n : Nat) (t : HashTable) : Prop :=
  ∃ L, Rep t L ∧ t.currentIndex = toInt32 ((filled L + n : Nat) : Int)

/-- The counter wraps around like an `int`, so one step of it is a step of what it stands for. -/
theorem toInt32_succ (x : Int) : toInt32 (toInt32 x + 1) = toInt32 (x + 1) := by
  unfold toInt32
  split <;> split <;> split <;> omega

/-- **One call**: an `Insert` into an empty bucket counts it, and a `Dorp` that empties one does
    not. -/
theorem CountedBy.step {op : HashOp} (h : CountedBy n t) (hstep : tableStep op t = some t') :
    CountedBy (n + if empties op t then 1 else 0) t' := by
  rcases h with ⟨L, hrep, hcount⟩
  cases op with
  | get key =>
    rw [tableStep_get (getValue_spec hrep key)] at hstep
    cases hstep
    exact ⟨L, hrep, hcount⟩
  | insert key value =>
    rcases insert_spec hrep key value with ⟨u, hcall, hrep'⟩
    rw [tableStep_insert hcall] at hstep
    cases hstep
    refine ⟨_, hrep', ?_⟩
    have hfilled := filled_update L (hashPos key)
      (put HashEntry.key t.heap.bound ⟨key, value⟩ (L (hashPos key)))
    rw [if_neg put_ne_nil] at hfilled
    rw [insert_currentIndex hcall, hcount]
    show _ = toInt32 ((filled _ + (n + 0) : Nat) : Int)
    by_cases hnone : t.hashNode (hashPos key) = none
    · rw [if_pos ((hashNode_eq_none_iff hrep).mp hnone)] at hfilled
      rw [if_pos hnone, toInt32_succ]
      exact congrArg toInt32 (by omega)
    · rw [if_neg fun hL => hnone ((hashNode_eq_none_iff hrep).mpr hL)] at hfilled
      rw [if_neg hnone]
      exact congrArg toInt32 (by omega)
  | dorp key =>
    rcases dorp_spec hrep key with ⟨u, hcall, hrep'⟩
    rw [tableStep_dorp hcall] at hstep
    cases hstep
    refine ⟨_, hrep', ?_⟩
    have hfilled := filled_update L (hashPos key) (drop HashEntry.key key (L (hashPos key)))
    rw [dorp_currentIndex hcall, hcount]
    refine congrArg (fun m : Nat => toInt32 (m : Int)) ?_
    by_cases hempties : empties (.dorp key) t = true
    · rcases (empties_iff hrep).mp hempties with ⟨hL, hdrop⟩
      rw [if_neg hL, if_pos hdrop] at hfilled
      rw [if_pos hempties]
      omega
    · rw [if_neg hempties]
      by_cases hL : L (hashPos key) = []
      · have hdrop : drop HashEntry.key key (L (hashPos key)) = [] := by
          rw [hL]
          rfl
        rw [if_pos hL, if_pos hdrop] at hfilled
        omega
      · have hdrop : drop HashEntry.key key (L (hashPos key)) ≠ [] :=
          fun hdrop => hempties ((empties_iff hrep).mpr ⟨hL, hdrop⟩)
        rw [if_neg hL, if_neg hdrop] at hfilled
        omega

/-! ## The nodes -/

/-- Of the nodes that were allocated from `base` on and not freed, `n` are in no bucket. -/
def LostBy (base n : Nat) (t : HashTable) : Prop :=
  base ≤ t.heap.bound ∧ ∃ L, Rep t L ∧ ∃ lost : Finset Nat, lost.card = n ∧
    (∀ a ∈ lost, ¬ InBuckets L a) ∧ ∀ a, Outstanding base t a ↔ InBuckets L a ∨ a ∈ lost

/-- An address that is still to be given out is nobody's. -/
theorem not_outstanding_bound : ¬ Outstanding base t t.heap.bound := by
  rintro ⟨-, hlive⟩
  rw [t.heap.fresh _ (Nat.le_refl _)] at hlive
  cases hlive

/-- An `Insert` allocates a node, also when it overwrites and uses none. -/
theorem outstanding_insert {a : Nat} (hbase : base ≤ t.heap.bound)
    (hcall : t.insert key value = some t') :
    Outstanding base t' a ↔ Outstanding base t a ∨ a = t.heap.bound := by
  rw [Outstanding, (insert_live hcall).2, Outstanding]
  constructor
  · rintro ⟨hle, hor | ha⟩
    · exact Or.inl ⟨hle, hor⟩
    · exact Or.inr ha
  · rintro (⟨hle, ha⟩ | ha)
    · exact ⟨hle, Or.inl ha⟩
    · exact ⟨by omega, Or.inr ha⟩

/-- The new node is in a bucket, unless it has overwritten the first one. -/
theorem inBuckets_put_iff {a : Nat} (hrep : Rep t L) : InBuckets (Function.update L (hashPos key)
      (put HashEntry.key t.heap.bound ⟨key, value⟩ (L (hashPos key)))) a ↔
    InBuckets L a ∨ a = t.heap.bound ∧ ¬ overwrites (.insert key value) t = true := by
  rw [inBuckets_update_iff, mem_names_put_iff, overwrites_iff hrep, not_not,
    inBuckets_self_iff (i := hashPos key)]
  exact or_right_comm

/-- The node that is found is in no bucket any more. -/
theorem inBuckets_drop_iff {a : Nat} (hrep : Rep t L) : InBuckets (Function.update L (hashPos key)
      (drop HashEntry.key key (L (hashPos key)))) a ↔
    InBuckets L a ∧ dorped key (L (hashPos key)) ≠ some a := by
  have hnd := (hrep.chain (hashPos key)).nodup
  rw [inBuckets_update_iff, mem_names_drop_iff hnd, inBuckets_self_iff (i := hashPos key)]
  constructor
  · rintro (⟨hin, hne⟩ | ⟨j, hj, hin⟩)
    · exact ⟨Or.inl hin, hne⟩
    · refine ⟨Or.inr ⟨j, hj, hin⟩, fun hfound => ?_⟩
      rcases Option.map_eq_some_iff.mp hfound with ⟨x, hx, hxa⟩
      rcases List.mem_map.mp hin with ⟨y, hy, hya⟩
      exact hrep.addr_ne hj hy (List.mem_of_find?_eq_some hx) (hya.trans hxa.symm)
  · rintro ⟨hin | hother, hne⟩
    · exact Or.inl ⟨hin, hne⟩
    · exact Or.inr hother

/-- That node is lost if the key was there first. -/
theorem LostBy.insert (h : LostBy base n t) (hcall : t.insert key value = some t') :
    LostBy base (n + if overwrites (.insert key value) t then 1 else 0) t' := by
  rcases h with ⟨hbase, L, hrep, lost, hcard, hout, hall⟩
  rcases insert_spec hrep key value with ⟨u, hcall', hrep'⟩
  rw [hcall] at hcall'
  cases hcall'
  have hbound := (insert_live hcall).1
  have hfresh : ¬ Outstanding base t t.heap.bound := not_outstanding_bound
  rw [hall, not_or] at hfresh
  refine ⟨by omega, _, hrep', ?_⟩
  by_cases hover : overwrites (.insert key value) t = true
  · refine ⟨Insert.insert t.heap.bound lost, ?_, ?_, ?_⟩
    · rw [Finset.card_insert_of_notMem hfresh.2, hcard, if_pos hover]
    · intro a ha hin
      rcases (inBuckets_put_iff hrep).mp hin with hin | ⟨-, hnot⟩
      · rcases Finset.mem_insert.mp ha with rfl | ha
        · exact hfresh.1 hin
        · exact hout a ha hin
      · exact hnot hover
    · intro a
      rw [outstanding_insert hbase hcall, hall, inBuckets_put_iff hrep, Finset.mem_insert]
      constructor
      · rintro ((hin | ha) | ha)
        · exact Or.inl (Or.inl hin)
        · exact Or.inr (Or.inr ha)
        · exact Or.inr (Or.inl ha)
      · rintro ((hin | ⟨-, hnot⟩) | ha | ha)
        · exact Or.inl (Or.inl hin)
        · exact absurd hover hnot
        · exact Or.inr ha
        · exact Or.inl (Or.inr ha)
  · refine ⟨lost, ?_, ?_, ?_⟩
    · rw [hcard, if_neg hover]
      rfl
    · intro a ha hin
      rcases (inBuckets_put_iff hrep).mp hin with hin | ⟨rfl, -⟩
      · exact hout a ha hin
      · exact hfresh.2 ha
    · intro a
      rw [outstanding_insert hbase hcall, hall, inBuckets_put_iff hrep]
      constructor
      · rintro ((hin | ha) | ha)
        · exact Or.inl (Or.inl hin)
        · exact Or.inr ha
        · exact Or.inl (Or.inr ⟨ha, hover⟩)
      · rintro ((hin | ⟨ha, -⟩) | ha)
        · exact Or.inl (Or.inl hin)
        · exact Or.inr ha
        · exact Or.inl (Or.inr ha)

/-- A `Dorp` frees the node that it takes out, and loses none. -/
theorem LostBy.dorp {m : Int} (h : LostBy base n t) (hcall : t.dorp key = some (t', m)) :
    LostBy base n t' := by
  rcases h with ⟨hbase, L, hrep, lost, hcard, hout, hall⟩
  rcases dorp_spec hrep key with ⟨u, hcall', hrep'⟩
  rw [hcall] at hcall'
  cases hcall'
  rcases dorp_live hrep hcall with ⟨hbound, hlive⟩
  refine ⟨by omega, _, hrep', lost, hcard,
    fun a ha hin => hout a ha ((inBuckets_drop_iff hrep).mp hin).1, fun a => ?_⟩
  rw [Outstanding, hlive, ← and_assoc, inBuckets_drop_iff hrep]
  show Outstanding base t a ∧ _ ↔ _
  rw [hall]
  constructor
  · rintro ⟨hin | ha, hne⟩
    · exact Or.inl ⟨hin, hne⟩
    · exact Or.inr ha
  · rintro (⟨hin, hne⟩ | ha)
    · exact ⟨Or.inl hin, hne⟩
    · -- a lost node is in no bucket, so it is not found
      refine ⟨Or.inr ha, fun hfound => hout a ha ?_⟩
      rcases Option.map_eq_some_iff.mp hfound with ⟨x, hx, hxa⟩
      exact ⟨hashPos key, List.mem_map.mpr ⟨x, List.mem_of_find?_eq_some hx, hxa⟩⟩

/-- **One call** loses a node if it overwrites. -/
theorem LostBy.step {op : HashOp} (h : LostBy base n t) (hstep : tableStep op t = some t') :
    LostBy base (n + if overwrites op t then 1 else 0) t' := by
  rcases h with ⟨hbase, L, hrep, hlost⟩
  have h : LostBy base n t := ⟨hbase, L, hrep, hlost⟩
  cases op with
  | get key =>
    rw [tableStep_get (getValue_spec hrep key)] at hstep
    cases hstep
    exact h
  | insert key value =>
    rcases insert_spec hrep key value with ⟨u, hcall, -⟩
    rw [tableStep_insert hcall] at hstep
    cases hstep
    exact h.insert hcall
  | dorp key =>
    rcases dorp_spec hrep key with ⟨u, hcall, -⟩
    rw [tableStep_dorp hcall] at hstep
    cases hstep
    exact h.dorp hcall

end

/-! ## Runs -/

/-- **What is lost, exactly**, after any calls on an initialised table: as many nodes as there were
    `Insert`s that overwrote, and as many steps of the counter as there were `Dorp`s that emptied a bucket.
    The lost nodes are those that no bucket reaches, and those that `clearHashTable` leaves. -/
theorem table_drift (t : HashTable) (ops : List HashOp) :
    ∃ t₁ t₂, run tableStep (initHashTable t) ops = some t₁ ∧ clearHashTable t₁ = some t₂ ∧
      t₁.currentIndex =
        toInt32 ((occupied t₁ + tally tableStep empties (initHashTable t) ops : Nat) : Int) ∧
      ∃ lost : Finset Nat, lost.card = tally tableStep overwrites (initHashTable t) ops ∧
        (∀ a, a ∈ lost ↔ Outstanding t.heap.bound t₁ a ∧ ¬ Reachable t₁ a) ∧
        ∀ a, Outstanding t.heap.bound t₂ a ↔ a ∈ lost := by
  rcases exists_run_rep (rep_init t) ops with ⟨t₁, L₁, hrun, hrep₁⟩
  have hcount : CountedBy 0 (initHashTable t) := by
    refine ⟨_, rep_init t, ?_⟩
    have hzero : filled (fun _ => []) = 0 := by simp [filled]
    rw [hzero]
    exact (toInt32_of_lt (Int.le_refl 0) (by omega)).symm
  have hlost : LostBy t.heap.bound 0 (initHashTable t) := by
    refine ⟨Nat.le_refl _, _, rep_init t, ∅, rfl, fun a ha => absurd ha (Finset.notMem_empty a), ?_⟩
    intro a
    constructor
    · rintro ⟨hle, hlive⟩
      rw [(initHashTable t).heap.fresh a hle] at hlive
      cases hlive
    · rintro (⟨i, ha⟩ | ha)
      · cases ha
      · exact absurd ha (Finset.notMem_empty a)
  rcases tally_of_run (fun n s op s' => CountedBy.step) hcount hrun with ⟨L, hrep, hindex⟩
  rcases tally_of_run (fun n s op s' => LostBy.step) hlost hrun with
    ⟨-, K, hrepK, lost, hcard, hout, hall⟩
  rcases clear_spec hrepK with ⟨t₂, hclear, -, -, hlive⟩
  rw [Nat.zero_add] at hindex hcard
  refine ⟨t₁, t₂, hrun, hclear, ?_, lost, hcard, fun a => ?_, fun a => ?_⟩
  · rw [occupied_eq hrep]
    exact hindex
  · rw [hall, reachable_iff hrepK]
    constructor
    · intro ha
      exact ⟨Or.inr ha, hout a ha⟩
    · rintro ⟨hin | ha, hnot⟩
      · exact absurd hin hnot
      · exact ha
  · rw [Outstanding, hlive, ← and_assoc]
    show Outstanding _ t₁ a ∧ _ ↔ _
    rw [hall]
    constructor
    · rintro ⟨hin | ha, hnot⟩
      · exact absurd hin hnot
      · exact ha
    · intro ha
      exact ⟨Or.inr ha, hout a ha⟩

end AdhocNode
