/-
  CLEARING THE HASH TABLE — what `clearHashTable` leaves, against a new table.

  1. **As new** — `AsNew t`: the buckets are empty, the counter is 0, the buckets reach no freed node,
     and every sequence of calls returns what it returns on an initialised table.

  2. **What is cleared** (`clear_spec`) — every node of every bucket is freed.  Neither the pointers of
     the buckets nor the counter are touched, so the buckets lead to freed nodes.

  3. **Calls after it** (`replies_eq`) — what calls return depends on the entries in the buckets, not
     on the addresses of the nodes, so an empty table is as good as a new one.

  Hence the cleared table is as new iff the table was empty, with the counter at 0, before
  (`clearsTable_iff`).
-/
import AdhocNode.HashLedger

namespace AdhocNode

open PtrChain AssocList Runs

/-! ## As new -/

/-- What the calls return. -/
def HashTable.replies : HashTable → List HashOp → Option (List HashReply)
  | _, [] => some []
  | t, op :: ops => do
    let (t', r) ← t.call op
    let rs ← t'.replies ops
    return r :: rs

/-- **The table is as good as a new one.** -/
structure AsNew (t : HashTable) : Prop where
  empty : ∀ i, t.hashNode i = none
  counter : t.currentIndex = 0
  noDangling : ∀ a, Reachable t a → (t.heap.cells a).isSome
  replies : ∀ u ops, t.replies ops = (initHashTable u).replies ops

/-- The table behind the calls is as new once it is cleared. -/
def ClearsTable (t : HashTable) (ops : List HashOp) : Prop :=
  ∃ t₁ t₂, run tableStep t ops = some t₁ ∧ clearHashTable t₁ = some t₂ ∧ AsNew t₂

/-! ## What is cleared -/

/-- The loop along a bucket frees its nodes. -/
theorem clearLoop_spec {l : List (Nat × HashEntry)} : ∀ {fuel : Nat} {q : Option Nat}
    {heap : Heap HashEntry}, Chain heap q l → l.length ≤ fuel →
      ∃ heap', clearLoop fuel q heap = some heap' ∧
        (∀ a, a ∉ l.map Prod.fst → heap'.cells a = heap.cells a) ∧
        ∀ a, a ∈ l.map Prod.fst → heap'.cells a = none := by
  induction l with
  | nil =>
    intro fuel q heap hq _
    rw [show q = none from hq]
    refine ⟨heap, ?_, fun _ _ => rfl, fun a ha => nomatch ha⟩
    cases fuel with
    | zero => rfl
    | succ fuel => rfl
  | cons x l ih =>
    intro fuel q heap hq hfuel
    have hchain : Chain heap q (x :: l) := hq
    have hnd := hchain.nodup
    rw [List.map_cons, List.nodup_cons] at hnd
    rcases hq with ⟨rfl, r, hcell, hrest⟩
    rw [List.length_cons] at hfuel
    obtain ⟨fuel, rfl⟩ := Nat.exists_eq_succ_of_ne_zero (show fuel ≠ 0 by omega)
    rcases Heap.exists_free hcell with ⟨h₁, hfree, hnone, -, hsame⟩
    have hrest₁ : Chain h₁ r l := Seg.congr hrest (hchain.tail_congr hsame)
    rcases ih hrest₁ (Nat.le_of_succ_le_succ hfuel) with ⟨heap', hloop, hother, hfreed⟩
    refine ⟨heap', ?_, fun a ha => ?_, fun a ha => ?_⟩
    · rw [clearLoop, hcell, Option.bind_eq_bind, Option.bind_some, hfree]
      exact hloop
    · rw [List.map_cons, List.mem_cons, not_or] at ha
      rw [hother a ha.2, hsame a ha.1]
    · rcases List.mem_cons.mp ha with rfl | ha
      · rw [hother x.1 hnd.1, hnone]
      · exact hfreed a ha

/-- The loop over the buckets frees the nodes of all of them. -/
theorem clearLoops_spec {t : HashTable} {L : Buckets} {fuel : Nat} (h : Rep t L)
    {is : List (Fin maxTableSize)} : ∀ {heap : Heap HashEntry}, is.Nodup →
      (∀ i ∈ is, Chain heap (t.hashNode i) (L i)) → (∀ i ∈ is, (L i).length ≤ fuel) →
      ∃ heap', is.foldlM (fun heap i => clearLoop fuel (t.hashNode i) heap) heap = some heap' ∧
        ∀ a, (heap'.cells a).isSome ↔
          (heap.cells a).isSome ∧ ∀ i ∈ is, a ∉ (L i).map Prod.fst := by
  induction is with
  | nil => exact fun _ _ _ => ⟨_, rfl, fun a => (and_iff_left fun i hi => nomatch hi).symm⟩
  | cons i is ih =>
    intro heap hnd hchains hlens
    rw [List.nodup_cons] at hnd
    rcases clearLoop_spec (hchains i (List.mem_cons_self ..)) (hlens i (List.mem_cons_self ..)) with
      ⟨h₁, hloop, hother, hfreed⟩
    -- the nodes of the buckets to come are others
    have hchains₁ : ∀ j ∈ is, Chain h₁ (t.hashNode j) (L j) := by
      intro j hj
      refine (hchains j (List.mem_cons_of_mem _ hj)).congr fun y hy => hother y.1 fun hmem => ?_
      rcases List.mem_map.mp hmem with ⟨x, hx, hxy⟩
      have hij : i ≠ j := fun heq => hnd.1 (heq ▸ hj)
      exact h.addr_ne hij hx hy hxy
    rcases ih hnd.2 hchains₁ fun j hj => hlens j (List.mem_cons_of_mem _ hj) with
      ⟨heap', hloops, hlive⟩
    refine ⟨heap', ?_, fun a => ?_⟩
    · rw [List.foldlM_cons, hloop]
      exact hloops
    · rw [hlive, List.forall_mem_cons, ← and_assoc]
      refine and_congr_left fun _ => ?_
      by_cases ha : a ∈ (L i).map Prod.fst
      · rw [hfreed a ha]
        exact ⟨fun hnone => absurd hnone nofun, fun hnot => absurd ha hnot.2⟩
      · rw [hother a ha, and_iff_left ha]

/-- **`clearHashTable` frees the nodes of the buckets**, and changes nothing else. -/
theorem clear_spec {t : HashTable} {L : Buckets} (h : Rep t L) :
    ∃ t', clearHashTable t = some t' ∧ t'.hashNode = t.hashNode ∧
      t'.currentIndex = t.currentIndex ∧
      ∀ a, (t'.heap.cells a).isSome ↔ (t.heap.cells a).isSome ∧ ¬ InBuckets L a := by
  rcases clearLoops_spec h (List.nodup_finRange maxTableSize) (fun i _ => h.chain i)
    fun i _ => (h.chain i).length_le with ⟨heap', hloops, hlive⟩
  refine ⟨{ t with heap := heap' }, ?_, rfl, rfl, fun a => ?_⟩
  · rw [clearHashTable, hloops]
    rfl
  · rw [hlive, InBuckets, not_exists]
    exact and_congr_right fun _ => ⟨fun hall i => hall i (List.mem_finRange i), fun hall i _ => hall i⟩

/-! ## Calls after it -/

/-- The entries of a bucket, without the addresses of its nodes. -/
def entries (L : Buckets) (i : Fin maxTableSize) : List (Unit × HashEntry) :=
  rename (fun _ => ()) (L i)

section

variable {t u : HashTable} {L K : Buckets}

/-- Two tables with the same entries differ in the addresses of their nodes only. -/
structure SameEntries (t u : HashTable) (L K : Buckets) : Prop where
  left : Rep t L
  right : Rep u K
  same : entries L = entries K

theorem entries_update (L : Buckets) (i : Fin maxTableSize) (l : List (Nat × HashEntry)) :
    entries (Function.update L i l) = Function.update (entries L) i (rename (fun _ => ()) l) := by
  funext j
  unfold entries
  by_cases hj : j = i
  · rw [hj, Function.update_self, Function.update_self]
  · rw [Function.update_of_ne hj, Function.update_of_ne hj]

/-- What `Get` and `Dorp` find is the same entry. -/
theorem SameEntries.lookup (h : SameEntries t u L K) (key : CString) (i : Fin maxTableSize) :
    (AssocList.lookup HashEntry.key key (L i)).map Prod.snd =
      (AssocList.lookup HashEntry.key key (K i)).map Prod.snd := by
  have hbucket : ∀ M : Buckets, (AssocList.lookup HashEntry.key key (M i)).map Prod.snd =
      (AssocList.lookup HashEntry.key key (entries M i)).map Prod.snd := by
    intro M
    rw [entries, lookup_rename, Option.map_map]
    rfl
  rw [hbucket L, hbucket K, h.same]

/-- **A call** returns the same on both tables, and leaves both with the same entries. -/
theorem SameEntries.call (h : SameEntries t u L K) (op : HashOp) :
    ∃ t' u' L' K' r, t.call op = some (t', r) ∧ u.call op = some (u', r) ∧
      SameEntries t' u' L' K' := by
  cases op with
  | insert key value =>
    rcases insert_spec h.left key value with ⟨t', ht, hrep⟩
    rcases insert_spec h.right key value with ⟨u', hu, hrep'⟩
    refine ⟨t', u', _, _, .void, call_insert ht, call_insert hu, hrep, hrep', ?_⟩
    rw [entries_update, entries_update, rename_put, rename_put, h.same]
    exact congrArg _ (congrArg _ (congrFun h.same (hashPos key)))
  | get key =>
    have hvalue : t.getValue key = u.getValue key := by
      have hfound := congrArg (Option.map HashEntry.value) (h.lookup key (hashPos key))
      rw [Option.map_map, Option.map_map] at hfound
      rw [getValue_spec h.left, getValue_spec h.right]
      exact congrArg some hfound
    obtain ⟨v, hu⟩ : ∃ v, u.getValue key = some v := ⟨_, getValue_spec h.right key⟩
    exact ⟨t, u, L, K, .value v, call_get (hvalue.trans hu), call_get hu, h⟩
  | dorp key =>
    rcases dorp_spec h.left key with ⟨t', ht, hrep⟩
    rcases dorp_spec h.right key with ⟨u', hu, hrep'⟩
    have hresult : dorpResult key (L (hashPos key)) = dorpResult key (K (hashPos key)) := by
      have hfound := congrArg Option.isSome (h.lookup key (hashPos key))
      rw [Option.isSome_map, Option.isSome_map] at hfound
      rw [dorpResult, dorpResult, hfound]
    rw [hresult] at ht
    refine ⟨t', u', _, _, .int _, call_dorp ht, call_dorp hu, hrep, hrep', ?_⟩
    rw [entries_update, entries_update, rename_drop, rename_drop, h.same]
    exact congrArg _ (congrArg _ (congrFun h.same (hashPos key)))

/-- **The addresses are not seen**: tables with the same entries return the same. -/
theorem replies_eq (ops : List HashOp) : ∀ {t u : HashTable} {L K : Buckets},
    SameEntries t u L K → t.replies ops = u.replies ops := by
  induction ops with
  | nil => exact fun _ => rfl
  | cons op ops ih =>
    intro t u L K h
    rcases h.call op with ⟨t', u', L', K', r, ht, hu, hsame⟩
    rw [HashTable.replies, HashTable.replies, ht, hu, Option.bind_eq_bind, Option.bind_some,
      Option.bind_some]
    show (t'.replies ops).bind _ = (u'.replies ops).bind _
    rw [ih hsame]

end

/-! ## As new, once cleared -/

/-- An empty table is as new iff its counter is 0. -/
theorem asNew_of_empty {t : HashTable} (hempty : ∀ i, t.hashNode i = none)
    (hcounter : t.currentIndex = 0) : AsNew t := by
  have hrep : Rep t fun _ => [] := ⟨fun i => hempty i, fun i x hx => nomatch hx⟩
  refine ⟨hempty, hcounter, fun a ha => ?_, fun u ops => ?_⟩
  · exact InBuckets.live hrep ((reachable_iff hrep).mp ha)
  · exact replies_eq ops ⟨hrep, rep_init u, rfl⟩

/-- Every run is defined, and leaves a represented table. -/
theorem exists_run_rep {t : HashTable} {L : Buckets} (h : Rep t L) (ops : List HashOp) :
    ∃ t' L', run tableStep t ops = some t' ∧ Rep t' L' := by
  have halways : Always tableStep (fun t => ∃ L, Rep t L) t ops := by
    refine always_of_inv (I := fun t => ∃ L, Rep t L) (fun _ hs => hs) ?_ ⟨L, h⟩
    rintro s op ⟨M, hM⟩
    rcases SameEntries.call ⟨hM, hM, rfl⟩ op with ⟨s', s'', M', M'', r, hcall, -, hsame⟩
    refine ⟨s', ?_, M', hsame.left⟩
    rw [tableStep, hcall]
    rfl
  rcases halways.last with ⟨t', hrun, L', hrep⟩
  exact ⟨t', L', hrun, hrep⟩

/-- **The table is as new once it is cleared iff it was empty, with the counter at 0, before.** -/
theorem clearsTable_iff (u : HashTable) (ops : List HashOp) :
    ClearsTable (initHashTable u) ops ↔
      ∃ t, run tableStep (initHashTable u) ops = some t ∧ (∀ i, t.hashNode i = none) ∧
        t.currentIndex = 0 := by
  rcases exists_run_rep (rep_init u) ops with ⟨t, L, hrun, hrep⟩
  rcases clear_spec hrep with ⟨t', hclear, hnode, hindex, -⟩
  constructor
  · rintro ⟨t₁, t₂, hrun₁, hclear₁, hnew⟩
    rw [hrun] at hrun₁
    cases hrun₁
    rw [hclear] at hclear₁
    cases hclear₁
    exact ⟨t, hrun, fun i => (congrFun hnode i).symm.trans (hnew.empty i),
      hindex.symm.trans hnew.counter⟩
  · rintro ⟨t₁, hrun₁, hempty, hcounter⟩
    rw [hrun] at hrun₁
    cases hrun₁
    exact ⟨t, t', hrun, hclear, asNew_of_empty (fun i => (congrFun hnode i).trans (hempty i))
      (hindex.trans hcounter)⟩

/-- `Insert` of "b", then `clearHashTable`: the bucket still leads to the node. -/
theorem not_clearsTable_insert : ¬ ClearsTable (initHashTable .blank) [.insert keyB 1] := by
  rintro ⟨t₁, t₂, hrun, hclear, hnew⟩
  rcases insert_tableStep (rep_init .blank) keyB 1 with ⟨t, hstep, hrep⟩
  rw [run_cons hstep] at hrun
  cases hrun
  rcases clear_spec hrep with ⟨t', hclear', hnode, -⟩
  rw [hclear'] at hclear
  cases hclear
  have hL := hrep.hashNode_none ((congrFun hnode (hashPos keyB)).symm.trans (hnew.empty _))
  rw [Function.update_self] at hL
  exact put_ne_nil hL

end AdhocNode
