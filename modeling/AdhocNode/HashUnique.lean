/-
  ONE NODE FOR EACH KEY — the shape of the hash table over sequences of calls.

  1. **The shape** — `WellFormed t`: the chain of every bucket is finite and without a cycle, its keys
     hash to the bucket, and two nodes of the table have different keys.  On a represented table all
     but the last holds anyway, and the last says that no bucket has a key twice (`wellFormed_iff`).

  2. **A call** — `Get` and `Dorp` keep the shape.  `Insert` compares its key with that of the first
     node only, so it keeps it iff no later node of the chain has the key (`call_keysNodup`).

  3. **Runs** — `wellAlways_iff`: the shape holds in every state iff no `Insert` of the run misses its
     key behind the first node.
-/
import AdhocNode.HashMap
import AdhocNode.Lib.Runs

namespace AdhocNode

open PtrChain AssocList Runs

/-! ## The shape -/

/-- **The representation invariant of the table.** -/
structure WellFormed (t : HashTable) : Prop where
  /-- Every chain ends, -/
  ends : ∀ i, ∃ l, Chain t.heap (t.hashNode i) l
  /-- and meets no node twice; -/
  acyclic : ∀ i l, Chain t.heap (t.hashNode i) l → (l.map Prod.fst).Nodup
  /-- the keys of bucket `i` hash to `i`; -/
  home : ∀ i l, Chain t.heap (t.hashNode i) l → ∀ x ∈ l, hashPos x.2.key = i
  /-- no key is in two nodes of the table. -/
  unique : ∀ i j l m, Chain t.heap (t.hashNode i) l → Chain t.heap (t.hashNode j) m →
    ∀ x ∈ l, ∀ y ∈ m, x.2.key = y.2.key → x.1 = y.1

/-- The table behind a call. -/
def tableStep (op : HashOp) (t : HashTable) : Option HashTable := (t.call op).map Prod.fst

/-- **The invariant holds throughout**: in every state of the run `ops`, the first and the last
    included; and every call returns. -/
def WellAlways (t : HashTable) (ops : List HashOp) : Prop := Always tableStep WellFormed t ops

/-! ## The condition -/

/-- No node behind the first one of `key`'s bucket has the key. -/
def NotBehind (t : HashTable) (key : CString) : Prop :=
  ∀ l, Chain t.heap (t.hashNode (hashPos key)) l → ∀ x ∈ l.tail, x.2.key ≠ key

/-- An `Insert` does not miss its key. -/
def InsertOk : HashOp → HashTable → Prop
  | .insert key _, t => NotBehind t key
  | .get _, _ => True
  | .dorp _, _ => True

/-- No `Insert` of the run does. -/
def InsertsOk (t : HashTable) (ops : List HashOp) : Prop := Meets tableStep InsertOk t ops

/-! ## The shape of a represented table -/

/-- No bucket has a key twice. -/
def KeysNodup (L : Buckets) : Prop := ∀ i, (keys HashEntry.key (L i)).Nodup

section

variable {t : HashTable} {L : Buckets} {key : CString}

/-- **On a represented table the shape is up to the keys of each bucket.** -/
theorem wellFormed_iff (h : Rep t L) : WellFormed t ↔ KeysNodup L := by
  constructor
  · intro hwell i
    have haddr : ((L i).map Prod.fst).Nodup := hwell.acyclic i _ (h.chain i)
    refine haddr.of_map.map_on fun x hx y hy hkey => ?_
    -- the same key is in the same node
    exact List.inj_on_of_nodup_map haddr hx hy (hwell.unique i i _ _ (h.chain i) (h.chain i) x hx y
      hy hkey)
  · intro hkeys
    refine ⟨fun i => ⟨L i, h.chain i⟩, fun i l hl => hl.nodup, ?_, ?_⟩
    · intro i l hl x hx
      rw [hl.unique (h.chain i)] at hx
      exact h.home i x hx
    · intro i j l m hl hm x hx y hy hkey
      rw [hl.unique (h.chain i)] at hx
      rw [hm.unique (h.chain j)] at hy
      have hij : i = j := by rw [← h.home i x hx, ← h.home j y hy, hkey]
      subst hij
      rw [List.inj_on_of_nodup_map (hkeys i) hx hy hkey]

theorem notBehind_iff (h : Rep t L) :
    NotBehind t key ↔ key ∉ keys HashEntry.key (L (hashPos key)).tail := by
  rw [mem_keys]
  constructor
  · rintro hne ⟨x, hx, hkey⟩
    exact hne _ (h.chain _) x hx hkey
  · intro hnot l hl x hx hkey
    rw [hl.unique (h.chain _)] at hx
    exact hnot ⟨x, hx, hkey⟩

/-- Only the bucket that changes matters. -/
theorem keysNodup_update_iff {i : Fin maxTableSize} {l : List (Nat × HashEntry)}
    (hL : KeysNodup L) :
    KeysNodup (Function.update L i l) ↔ (keys HashEntry.key l).Nodup := by
  constructor
  · intro hnew
    have hi := hnew i
    rwa [Function.update_self] at hi
  · intro hl j
    by_cases hj : j = i
    · rw [hj, Function.update_self]
      exact hl
    · rw [Function.update_of_ne hj]
      exact hL j

end

/-! ## A call -/

section

variable {t t' : HashTable} {key : CString} {value : Int32}

theorem tableStep_insert (h : t.insert key value = some t') :
    tableStep (.insert key value) t = some t' := by
  rw [tableStep, call_insert h]
  rfl

theorem tableStep_get {v : Option Int32} (h : t.getValue key = some v) :
    tableStep (.get key) t = some t := by
  rw [tableStep, call_get h]
  rfl

theorem tableStep_dorp {n : Int} (h : t.dorp key = some (t', n)) :
    tableStep (.dorp key) t = some t' := by
  rw [tableStep, call_dorp h]
  rfl

end

/-- What `Insert` leaves, as a call. -/
theorem insert_tableStep {t : HashTable} {L : Buckets} (h : Rep t L) (key : CString)
    (value : Int32) : ∃ t', tableStep (.insert key value) t = some t' ∧
      Rep t' (Function.update L (hashPos key)
        (put HashEntry.key t.heap.bound ⟨key, value⟩ (L (hashPos key)))) := by
  rcases insert_spec h key value with ⟨t', hcall, hrep⟩
  exact ⟨t', tableStep_insert hcall, hrep⟩

/-- **A call**: on a represented table with one node for each key it returns, and leaves such a table
    iff it is no `Insert` that misses its key. -/
theorem call_keysNodup {t : HashTable} {L : Buckets} (h : Rep t L) (hL : KeysNodup L)
    (op : HashOp) : ∃ t' L', tableStep op t = some t' ∧ Rep t' L' ∧
      (KeysNodup L' ↔ InsertOk op t) := by
  cases op with
  | insert key value =>
    rcases insert_tableStep h key value with ⟨t', hstep, hrep⟩
    refine ⟨t', _, hstep, hrep, ?_⟩
    rw [keysNodup_update_iff hL, nodup_keys_put_iff (hL (hashPos key))]
    exact (notBehind_iff h).symm
  | get key =>
    exact ⟨t, L, tableStep_get (getValue_spec h key), h, fun _ => trivial, fun _ => hL⟩
  | dorp key =>
    rcases dorp_spec h key with ⟨t', hcall, hrep⟩
    refine ⟨t', _, tableStep_dorp hcall, hrep, fun _ => trivial, fun _ => ?_⟩
    rw [keysNodup_update_iff hL]
    exact nodup_keys_drop (hL (hashPos key))

/-! ## Runs -/

/-- **The representation invariant holds in every state iff no `Insert` misses its key behind the
    first node of its bucket**, whatever was in the memory of the table before `InitHashTable`. -/
theorem wellAlways_iff (t : HashTable) (ops : List HashOp) :
    WellAlways (initHashTable t) ops ↔ InsertsOk (initHashTable t) ops := by
  refine always_iff_meets (I := fun t => ∃ L, Rep t L ∧ KeysNodup L) ?_ ?_
    ⟨_, rep_init t, fun _ => List.nodup_nil⟩
  · rintro t ⟨L, hrep, hL⟩
    exact (wellFormed_iff hrep).mpr hL
  · rintro t op ⟨L, hrep, hL⟩
    rcases call_keysNodup hrep hL op with ⟨t', L', hstep, hrep', hkeys⟩
    refine ⟨t', hstep, fun hok => ⟨L', hrep', hkeys.mpr hok⟩, fun hwell => ?_⟩
    exact hkeys.mp ((wellFormed_iff hrep').mp hwell)

/-- `Insert` of "b", "aa" and "aa": the second "aa" gets a node of its own. -/
theorem not_wellAlways_reinsert : ¬ WellAlways (initHashTable .blank)
    [.insert keyB 1, .insert keyAA 2, .insert keyAA 3] := by
  intro h
  rcases insert_tableStep (rep_init .blank) keyB 1 with ⟨t₁, h₁, hrep₁⟩
  rcases insert_tableStep hrep₁ keyAA 2 with ⟨t₂, h₂, hrep₂⟩
  rcases insert_tableStep hrep₂ keyAA 3 with ⟨t₃, h₃, hrep₃⟩
  rcases h.last with ⟨t, hrun, hwell⟩
  rw [run_cons h₁, run_cons h₂, run_cons h₃] at hrun
  cases hrun
  -- bucket of "b" and "aa", after the three calls
  have hkeys := (wellFormed_iff hrep₃).mp hwell (hashPos keyAA)
  have hpos : hashPos keyB = hashPos keyAA := by decide
  simp only [hpos, Function.update_self] at hkeys
  have hdup : ¬ [keyB, keyAA, keyAA].Nodup := by decide
  exact hdup hkeys

end AdhocNode
