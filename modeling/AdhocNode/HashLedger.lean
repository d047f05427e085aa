/-
  THE LEDGER OF THE HASH TABLE — which nodes are allocated, and which can still be reached.

  1. **The ledger** — `Outstanding base t`: the nodes that were allocated since the table was
     initialised (from address `base` on) and not freed.  `Balanced base t`: they are the nodes that
     the buckets reach, and nothing that was freed is reached.

  2. **What the calls do to the live nodes** — `Insert` allocates one, whatever it does with it
     (`insert_live`); `Dorp` frees the node it finds, and no other (`dorp_live`).

  3. **Runs** — `ledgerAlways_iff`: the ledger balances in every state iff no `Insert` of the run finds
     its key in the first node of its bucket.  There it overwrites the value and forgets the new node.
-/
import AdhocNode.HashUnique

namespace AdhocNode

open PtrChain AssocList Runs

/-! ## The ledger -/

/-- Allocated since the table was initialised, and not freed. -/
def Outstanding (base : Nat) (t : HashTable) (a : Nat) : Prop :=
  base ≤ a ∧ (t.heap.cells a).isSome

/-- The links of some bucket lead there. -/
def Reachable (t : HashTable) (a : Nat) : Prop := ∃ i, Reaches t.heap (t.hashNode i) a

/-- **The ledger balances**. -/
structure Balanced (base : Nat) (t : HashTable) : Prop where
  /-- What is outstanding is what can be reached, -/
  ledger : ∀ a, Outstanding base t a ↔ Reachable t a
  /-- and no freed node can. -/
  noDangling : ∀ a, Reachable t a → (t.heap.cells a).isSome

/-- The ledger balances in every state of the run `ops`, the first and the last included; and every
    call returns. -/
def LedgerAlways (base : Nat) (t : HashTable) (ops : List HashOp) : Prop :=
  Always tableStep (Balanced base) t ops

/-! ## The condition -/

/-- The first node of `key`'s bucket, if there is one, has another key. -/
def NotHead (t : HashTable) (key : CString) : Prop :=
  ∀ l, Chain t.heap (t.hashNode (hashPos key)) l → ∀ x ∈ l.head?, x.2.key ≠ key

/-- An `Insert` links its node. -/
def InsertLinks : HashOp → HashTable → Prop
  | .insert key _, t => NotHead t key
  | .get _, _ => True
  | .dorp _, _ => True

/-- Every `Insert` of the run does. -/
def InsertsLink (t : HashTable) (ops : List HashOp) : Prop := Meets tableStep InsertLinks t ops

/-! ## The nodes of a represented table -/

section

variable {t : HashTable} {L : Buckets} {key : CString} {base a : Nat}

/-- The addresses in the buckets. -/
def InBuckets (L : Buckets) (a : Nat) : Prop := ∃ i, a ∈ (L i).map Prod.fst

theorem reachable_iff (h : Rep t L) : Reachable t a ↔ InBuckets L a :=
  exists_congr fun i => (h.chain i).reaches_iff

theorem InBuckets.live (h : Rep t L) (ha : InBuckets L a) : (t.heap.cells a).isSome := by
  rcases ha with ⟨i, ha⟩
  rcases List.mem_map.mp ha with ⟨x, hx, rfl⟩
  rcases Seg.cell (h.chain i) hx with ⟨r, hr⟩
  rw [hr]
  rfl

/-- On a represented table nothing dangles, so it is up to the ledger. -/
theorem balanced_iff (h : Rep t L) :
    Balanced base t ↔ ∀ a, Outstanding base t a ↔ InBuckets L a := by
  constructor
  · intro hbal a
    exact (hbal.ledger a).trans (reachable_iff h)
  · intro hall
    refine ⟨fun a => (hall a).trans (reachable_iff h).symm, fun a ha => ?_⟩
    exact InBuckets.live h ((reachable_iff h).mp ha)

theorem notHead_iff (h : Rep t L) :
    NotHead t key ↔ ∀ x ∈ (L (hashPos key)).head?, HashEntry.key x.2 ≠ key := by
  constructor
  · intro hne
    exact hne _ (h.chain _)
  · intro hne l hl
    rw [hl.unique (h.chain _)]
    exact hne

/-- With `l` for bucket `i`, an address is in the buckets iff it is in `l` or in another bucket. -/
theorem inBuckets_update_iff {i : Fin maxTableSize} {l : List (Nat × HashEntry)} :
    InBuckets (Function.update L i l) a ↔
      a ∈ l.map Prod.fst ∨ ∃ j, j ≠ i ∧ a ∈ (L j).map Prod.fst := by
  constructor
  · rintro ⟨j, ha⟩
    by_cases hj : j = i
    · rw [hj, Function.update_self] at ha
      exact Or.inl ha
    · rw [Function.update_of_ne hj] at ha
      exact Or.inr ⟨j, hj, ha⟩
  · rintro (ha | ⟨j, hj, ha⟩)
    · refine ⟨i, ?_⟩
      rw [Function.update_self]
      exact ha
    · refine ⟨j, ?_⟩
      rw [Function.update_of_ne hj]
      exact ha

end

/-! ## What the calls do to the live nodes -/

/-- **`Insert` allocates a node**, whether it links it or not. -/
theorem insert_live {t t' : HashTable} {key : CString} {value : Int32}
    (hcall : t.insert key value = some t') : t'.heap.bound = t.heap.bound + 1 ∧
      ∀ a, (t'.heap.cells a).isSome ↔ (t.heap.cells a).isSome ∨ a = t.heap.bound := by
  rcases insert_cases hcall with ⟨-, rfl⟩ | ⟨p, heap, -, rfl, ⟨c, hset⟩ | ⟨c, c', h₁, hnew, hset⟩⟩
  · exact ⟨rfl, fun a => Heap.isSome_alloc⟩
  · rcases Heap.live_of_set hset with ⟨hbound, hlive⟩
    exact ⟨hbound, fun a => (hlive a).trans Heap.isSome_alloc⟩
  · rcases Heap.live_of_set hnew with ⟨hbound₁, hlive₁⟩
    rcases Heap.live_of_set hset with ⟨hbound₂, hlive₂⟩
    refine ⟨hbound₂.trans hbound₁, fun a => ?_⟩
    exact (hlive₂ a).trans ((hlive₁ a).trans Heap.isSome_alloc)

/-- The node that `Dorp` finds. -/
def dorped (key : CString) (l : List (Nat × HashEntry)) : Option Nat :=
  (lookup HashEntry.key key l).map Prod.fst

/-- The loop of `Dorp` frees the node it finds. -/
theorem dorpLoop_live {key : CString} {l : List (Nat × HashEntry)} : ∀ {fuel last : Nat}
    {heap heap' : Heap HashEntry} {q : Option Nat} {n : Int}, Chain heap q l →
      dorpLoop heap key fuel last q = some (heap', n) → heap'.bound = heap.bound ∧
        ∀ a, (heap'.cells a).isSome ↔ (heap.cells a).isSome ∧ dorped key l ≠ some a := by
  induction l with
  | nil =>
    intro fuel last heap heap' q n hq hloop
    rw [show q = none from hq, dorpLoop_null] at hloop
    cases hloop
    exact ⟨rfl, fun a => ⟨fun hlive => ⟨hlive, nofun⟩, fun hlive => hlive.1⟩⟩
  | cons x l ih =>
    intro fuel last heap heap' q n hq hloop
    rcases hq with ⟨rfl, r, hcell, hrest⟩
    cases fuel with
    | zero => cases hloop
    | succ fuel =>
      rw [dorpLoop, hcell, Option.bind_eq_bind, Option.bind_some] at hloop
      by_cases hkey : x.2.key = key
      · rw [if_pos hkey] at hloop
        rcases Option.bind_eq_some_iff.mp hloop with ⟨lastNode, -, hloop⟩
        rcases Option.bind_eq_some_iff.mp hloop with ⟨h₁, hset, hloop⟩
        rcases Option.bind_eq_some_iff.mp hloop with ⟨h₂, hfree, hret⟩
        cases hret
        rcases Heap.live_of_set hset with ⟨hbound₁, hlive₁⟩
        rcases Heap.live_of_free hfree with ⟨hbound₂, hlive₂⟩
        have hfound : dorped key (x :: l) = some x.1 := by
          rw [dorped, lookup_cons_self hkey]
          rfl
        refine ⟨hbound₂.trans hbound₁, fun a => ?_⟩
        rw [hlive₂, hlive₁, hfound, Ne, Ne, Option.some_inj]
      · rw [if_neg hkey] at hloop
        have hfound : dorped key (x :: l) = dorped key l := by
          rw [dorped, dorped, lookup_cons_of_ne hkey]
        rw [hfound]
        exact ih hrest hloop

/-- **`Dorp` frees the node it finds**, and no other. -/
theorem dorp_live {t t' : HashTable} {L : Buckets} (h : Rep t L) {key : CString} {n : Int}
    (hcall : t.dorp key = some (t', n)) : t'.heap.bound = t.heap.bound ∧
      ∀ a, (t'.heap.cells a).isSome ↔
        (t.heap.cells a).isSome ∧ dorped key (L (hashPos key)) ≠ some a := by
  cases hp : t.hashNode (hashPos key) with
  | none =>
    rw [dorp_of_none hp] at hcall
    cases hcall
    rw [h.hashNode_none hp]
    exact ⟨rfl, fun a => ⟨fun hlive => ⟨hlive, nofun⟩, fun hlive => hlive.1⟩⟩
  | some p =>
    rcases h.hashNode_some hp with ⟨e, r, l, hL, hcell, hrest⟩
    rw [hL]
    by_cases hkey : e.key = key
    · rcases Heap.exists_free hcell with ⟨h₁, hfree, -⟩
      rw [dorp_of_head hp hcell hkey hfree] at hcall
      cases hcall
      have hfound : dorped key ((p, e) :: l) = some p := by
        rw [dorped, lookup_cons_self (show HashEntry.key (p, e).2 = key from hkey)]
        rfl
      rcases Heap.live_of_free hfree with ⟨hbound, hlive⟩
      refine ⟨hbound, fun a => ?_⟩
      rw [hlive, hfound, Ne, Ne, Option.some_inj]
    · have hlen : l.length ≤ t.heap.bound := Chain.length_le hrest
      have hchain : Chain t.heap (t.hashNode (hashPos key)) ([] ++ (p, e) :: l) := by
        rw [List.nil_append, ← hL]
        exact h.chain _
      obtain ⟨h₁, hloop, -⟩ : ∃ h₁, dorpLoop t.heap key t.heap.bound p r =
          some (h₁, dorpResult key l) ∧ _ := dorpLoop_spec hchain hcell hlen
      rw [dorp_of_not_head hp hcell hkey hloop] at hcall
      cases hcall
      have hfound : dorped key ((p, e) :: l) = dorped key l := by
        rw [dorped, dorped, lookup_cons_of_ne (show HashEntry.key (p, e).2 ≠ key from hkey)]
      rw [hfound]
      exact dorpLoop_live hrest hloop

/-! ## A call -/

/-- The invariant: the table is represented, and its buckets hold what is outstanding. -/
structure Booked (base : Nat) (t : HashTable) (L : Buckets) : Prop where
  rep : Rep t L
  base_le : base ≤ t.heap.bound
  books : ∀ a, Outstanding base t a ↔ InBuckets L a

/-- The same for the buckets as they are. -/
theorem inBuckets_self_iff {L : Buckets} {i : Fin maxTableSize} {a : Nat} :
    InBuckets L a ↔ a ∈ (L i).map Prod.fst ∨ ∃ j, j ≠ i ∧ a ∈ (L j).map Prod.fst := by
  rw [← inBuckets_update_iff, Function.update_eq_self]

/-- **`Insert` keeps the books iff it links its node.** -/
theorem insert_booked {base : Nat} {t : HashTable} {L : Buckets} (h : Booked base t L)
    (key : CString) (value : Int32) :
    ∃ t' L', tableStep (.insert key value) t = some t' ∧ Rep t' L' ∧ base ≤ t'.heap.bound ∧
      ((∀ a, Outstanding base t' a ↔ InBuckets L' a) ↔ NotHead t key) := by
  rcases insert_spec h.rep key value with ⟨t', hcall, hrep⟩
  rcases insert_live hcall with ⟨hbound, hlive⟩
  have hbase := h.base_le
  have hout : ∀ a, Outstanding base t' a ↔ InBuckets L a ∨ a = t.heap.bound := by
    intro a
    rw [Outstanding, hlive, ← h.books, Outstanding]
    constructor
    · rintro ⟨hle, hor | ha⟩
      · exact Or.inl ⟨hle, hor⟩
      · exact Or.inr ha
    · rintro (⟨hle, ha⟩ | ha)
      · exact ⟨hle, Or.inl ha⟩
      · exact ⟨by omega, Or.inr ha⟩
  refine ⟨t', _, tableStep_insert hcall, hrep, by omega, ?_⟩
  rw [notHead_iff h.rep]
  constructor
  · intro hall
    have hnew := (hall t.heap.bound).mp ((hout _).mpr (Or.inr rfl))
    -- the new address is in no old bucket, so it was put
    have hold : ¬ InBuckets L t.heap.bound := by
      intro hin
      have hlive₀ := hin.live h.rep
      rw [t.heap.fresh _ (Nat.le_refl _)] at hlive₀
      cases hlive₀
    rcases inBuckets_update_iff.mp hnew with hput | hother
    · rcases mem_names_put_iff.mp hput with hin | ⟨-, hne⟩
      · exact absurd ⟨_, hin⟩ hold
      · exact hne
    · rcases hother with ⟨j, -, hin⟩
      exact absurd ⟨j, hin⟩ hold
  · intro hne a
    rw [hout, inBuckets_update_iff, mem_names_put_iff, and_iff_left hne,
      inBuckets_self_iff (i := hashPos key)]
    exact or_right_comm

/-- **`Dorp` keeps the books.** -/
theorem dorp_booked {base : Nat} {t : HashTable} {L : Buckets} (h : Booked base t L)
    (key : CString) : ∃ t' L', tableStep (.dorp key) t = some t' ∧ Booked base t' L' := by
  rcases dorp_spec h.rep key with ⟨t', hcall, hrep⟩
  rcases dorp_live h.rep hcall with ⟨hbound, hlive⟩
  have hbase : base ≤ t'.heap.bound := hbound.symm ▸ h.base_le
  refine ⟨t', _, tableStep_dorp hcall, hrep, hbase, fun a => ?_⟩
  have hnd := (h.rep.chain (hashPos key)).nodup
  rw [inBuckets_update_iff, mem_names_drop_iff hnd, Outstanding, hlive, ← and_assoc]
  show Outstanding base t a ∧ dorped key (L (hashPos key)) ≠ some a ↔
    _ ∧ dorped key (L (hashPos key)) ≠ some a ∨ _
  rw [h.books, inBuckets_self_iff (i := hashPos key)]
  constructor
  · rintro ⟨hin | hother, hne⟩
    · exact Or.inl ⟨hin, hne⟩
    · exact Or.inr hother
  · rintro (⟨hin, hne⟩ | ⟨j, hj, hin⟩)
    · exact ⟨Or.inl hin, hne⟩
    · refine ⟨Or.inr ⟨j, hj, hin⟩, fun hfound => ?_⟩
      -- what is found is in the bucket of the key, not in another
      rcases Option.map_eq_some_iff.mp hfound with ⟨x, hx, hxa⟩
      rcases List.mem_map.mp hin with ⟨y, hy, hya⟩
      exact h.rep.addr_ne hj hy (List.mem_of_find?_eq_some hx) (hya.trans hxa.symm)

/-! ## Runs -/

/-- **The ledger balances in every state iff every `Insert` of the run links its node**, whatever was
    allocated before `InitHashTable`. -/
theorem ledgerAlways_iff (t : HashTable) (ops : List HashOp) :
    LedgerAlways t.heap.bound (initHashTable t) ops ↔ InsertsLink (initHashTable t) ops := by
  refine always_iff_meets (I := fun u => ∃ L, Booked t.heap.bound u L) ?_ ?_ ?_
  · rintro u ⟨L, hbooked⟩
    exact (balanced_iff hbooked.rep).mpr hbooked.books
  · rintro u op ⟨L, hbooked⟩
    cases op with
    | insert key value =>
      rcases insert_booked hbooked key value with ⟨t', L', hstep, hrep, hbase, hbooks⟩
      refine ⟨t', hstep, fun hok => ⟨L', hrep, hbase, hbooks.mpr hok⟩, fun hbal => ?_⟩
      exact hbooks.mp ((balanced_iff hrep).mp hbal)
    | get key =>
      have hstep := tableStep_get (getValue_spec hbooked.rep key)
      exact ⟨u, hstep, fun _ => ⟨L, hbooked⟩, fun _ => trivial⟩
    | dorp key =>
      rcases dorp_booked hbooked key with ⟨t', L', hstep, hbooked'⟩
      exact ⟨t', hstep, fun _ => ⟨L', hbooked'⟩, fun _ => trivial⟩
  -- nothing is outstanding at first, and no bucket has a node
  · refine ⟨_, rep_init t, Nat.le_refl _, fun a => ⟨?_, ?_⟩⟩
    · rintro ⟨hle, hlive⟩
      rw [(initHashTable t).heap.fresh a hle] at hlive
      cases hlive
    · rintro ⟨i, ha⟩
      cases ha

/-- `Insert` of "b" twice: nothing points to the node that the second one allocates. -/
theorem not_ledgerAlways_overwrite : ¬ LedgerAlways 0 (initHashTable .blank)
    [.insert keyB 1, .insert keyB 2] := by
  intro h
  rcases insert_tableStep (rep_init .blank) keyB 1 with ⟨t₁, hstep₁, hrep₁⟩
  have hbal₁ : Balanced 0 t₁ := (h.rest hstep₁).first
  have hbooked : Booked 0 t₁ _ := ⟨hrep₁, Nat.zero_le _, (balanced_iff hrep₁).mp hbal₁⟩
  rcases insert_booked hbooked keyB 2 with ⟨t₂, L₂, hstep₂, hrep₂, -, hbooks⟩
  rcases h.last with ⟨t, hrun, hbal⟩
  rw [run_cons hstep₁, run_cons hstep₂] at hrun
  cases hrun
  have hne := (notHead_iff hrep₁).mp (hbooks.mp ((balanced_iff hrep₂).mp hbal))
  rw [Function.update_self] at hne
  -- the first node of the bucket is the one with "b"
  exact hne _ rfl rfl

end AdhocNode
