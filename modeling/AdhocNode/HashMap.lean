/-
  THE HASH TABLE AGAINST A MAP — sequences of `Insert`, `Get` and `Dorp` on an initialised table.

  1. **The map** — `KeyMap` has at most one value for each key.  `Insert` sets it, `Dorp` removes it
     and tells whether there was one, `Get` reads it (`mapCall`).

  2. **A call** — on a represented table that agrees with a map, every call returns what the map
     says; behind it the two agree again unless the call was a `Dorp` of a key that has more than one
     node (`call_spec`).  `Insert` makes such keys: it looks for its key in the first node of the
     chain only, and links a second node with the key when the first one is behind another key.

  3. **Runs** — `followsMap_iff`: a run follows the map iff no `Dorp` in it meets its key twice.
-/
import AdhocNode.HashChains

namespace AdhocNode

open PtrChain AssocList

/-! ## The map -/

/-- The values the keys are mapped to. -/
abbrev KeyMap := CString → Option Int32

/-- A call on the table. -/
inductive HashOp where
  | insert (key : CString) (value : Int32)
  | get (key : CString)
  | dorp (key : CString)

/-- What a call returns; for `Get`, what is read through the returned pointer. -/
inductive HashReply where
  | void
  | value (v : Option Int32)
  | int (n : Int)
  deriving DecidableEq

/-- The call on the table: the table behind it, and the result. -/
def HashTable.call (t : HashTable) : HashOp → Option (HashTable × HashReply)
  | .insert key value => do
    let t' ← t.insert key value
    return (t', .void)
  | .get key => do
    let v ← t.getValue key
    return (t, .value v)
  | .dorp key => do
    let (t', n) ← t.dorp key
    return (t', .int n)

theorem call_insert {t t' : HashTable} {key : CString} {value : Int32}
    (h : t.insert key value = some t') : t.call (.insert key value) = some (t', .void) := by
  rw [HashTable.call, h]
  rfl

theorem call_get {t : HashTable} {key : CString} {v : Option Int32}
    (h : t.getValue key = some v) : t.call (.get key) = some (t, .value v) := by
  rw [HashTable.call, h]
  rfl

theorem call_dorp {t t' : HashTable} {key : CString} {n : Int}
    (h : t.dorp key = some (t', n)) : t.call (.dorp key) = some (t', .int n) := by
  rw [HashTable.call, h]
  rfl

/-- The same call on a map. -/
def mapCall (M : KeyMap) : HashOp → KeyMap × HashReply
  | .insert key value => (Function.update M key (some value), .void)
  | .get key => (M, .value (M key))
  | .dorp key => (Function.update M key none, .int (if (M key).isSome then 1 else 0))

/-- `Get` yields what the map has, for every key. -/
def Agrees (t : HashTable) (M : KeyMap) : Prop := ∀ key, t.getValue key = some (M key)

/-- **The table refines the map** on the calls `ops`: at every point of the run `Get` yields what the
    map has, and every call returns what it returns on the map. -/
def FollowsMap : HashTable → KeyMap → List HashOp → Prop
  | t, M, [] => Agrees t M
  | t, M, op :: ops => Agrees t M ∧
    ∃ t', t.call op = some (t', (mapCall M op).2) ∧ FollowsMap t' (mapCall M op).1 ops

/-- The table behind the calls `ops`. -/
def HashTable.calls : HashTable → List HashOp → Option HashTable
  | t, [] => some t
  | t, op :: ops => do
    let (t', _) ← t.call op
    t'.calls ops

/-- The map behind them. -/
def mapCalls : KeyMap → List HashOp → KeyMap
  | M, [] => M
  | M, op :: ops => mapCalls (mapCall M op).1 ops

/-! ## The condition -/

/-- The chain of `key`'s bucket holds `key` in at most one node. -/
def KeyOnce (t : HashTable) (key : CString) : Prop :=
  ∀ l, Chain t.heap (t.hashNode (hashPos key)) l → count HashEntry.key key l ≤ 1

/-- A `Dorp` meets its key at most once. -/
def OpOk (t : HashTable) : HashOp → Prop
  | .insert _ _ => True
  | .get _ => True
  | .dorp key => KeyOnce t key

/-- Every `Dorp` of the run does. -/
def DorpsOk : HashTable → List HashOp → Prop
  | _, [] => True
  | t, op :: ops => OpOk t op ∧ ∀ t' r, t.call op = some (t', r) → DorpsOk t' ops

/-! ## What the buckets hold for a key -/

/-- The value in the first node with the key. -/
def found (L : Buckets) (key : CString) : Option Int32 :=
  (lookup HashEntry.key key (L (hashPos key))).map fun x => x.2.value

section

variable {t : HashTable} {L : Buckets} {M : KeyMap} {key key' : CString}

theorem agrees_iff (h : Rep t L) : Agrees t M ↔ ∀ key, found L key = M key := by
  constructor
  · intro hM key
    exact Option.some.inj ((getValue_spec h key).symm.trans (hM key))
  · intro hM key
    exact (getValue_spec h key).trans (congrArg some (hM key))

theorem keyOnce_iff (h : Rep t L) :
    KeyOnce t key ↔ count HashEntry.key key (L (hashPos key)) ≤ 1 := by
  constructor
  · intro honce
    exact honce _ (h.chain _)
  · intro hcount l hl
    rw [hl.unique (h.chain _)]
    exact hcount

/-- A bucket in which `key'` is found as before changes nothing for `key'`. -/
theorem found_update {i : Fin maxTableSize} {l : List (Nat × HashEntry)}
    (hl : lookup HashEntry.key key' l = lookup HashEntry.key key' (L i)) :
    found (Function.update L i l) key' = found L key' := by
  unfold found
  by_cases hpos : hashPos key' = i
  · rw [hpos, Function.update_self, hl]
  · rw [Function.update_of_ne hpos]

/-- After `Insert` the buckets hold what the updated map has. -/
theorem found_put (a : Nat) (key key' : CString) (value : Int32) :
    found (Function.update L (hashPos key)
      (put HashEntry.key a ⟨key, value⟩ (L (hashPos key)))) key' =
      Function.update (found L) key (some value) key' := by
  by_cases hkey : key' = key
  · subst hkey
    have hself : (lookup HashEntry.key (HashEntry.key ⟨key', value⟩) (put HashEntry.key a
        ⟨key', value⟩ (L (hashPos key')))).map Prod.snd = some ⟨key', value⟩ := lookup_put_self
    have hval := congrArg (Option.map HashEntry.value) hself
    rw [Option.map_map] at hval
    rw [Function.update_self, found, Function.update_self]
    exact hval
  · rw [Function.update_of_ne hkey]
    exact found_update (lookup_put_of_ne (Ne.symm hkey))

/-- After `Dorp` the other keys have what they had. -/
theorem found_drop_of_ne (h : key' ≠ key) :
    found (Function.update L (hashPos key) (drop HashEntry.key key (L (hashPos key)))) key' =
      found L key' := found_update (lookup_drop_of_ne h)

/-- After `Dorp` the key itself is gone iff it had at most one node. -/
theorem found_drop_self_iff :
    found (Function.update L (hashPos key) (drop HashEntry.key key (L (hashPos key)))) key = none ↔
      count HashEntry.key key (L (hashPos key)) ≤ 1 := by
  unfold found
  rw [Function.update_self, Option.map_eq_none_iff]
  exact lookup_drop_self_iff

end

/-! ## A call -/

/-- **A call**: it returns what the map says, and the table agrees with the map behind it iff the
    call was no `Dorp` of a key with several nodes. -/
theorem call_spec {t : HashTable} {L : Buckets} {M : KeyMap} (h : Rep t L) (hM : Agrees t M)
    (op : HashOp) : ∃ t' L', t.call op = some (t', (mapCall M op).2) ∧ Rep t' L' ∧
      (Agrees t' (mapCall M op).1 ↔ OpOk t op) := by
  have hfound : found L = M := funext ((agrees_iff h).mp hM)
  cases op with
  | insert key value =>
    obtain ⟨t', hcall, hrep⟩ := insert_spec h key value
    refine ⟨t', _, call_insert hcall, hrep, fun _ => trivial, fun _ => ?_⟩
    refine (agrees_iff hrep).mpr fun key' => ?_
    rw [found_put, hfound]
    rfl
  | get key =>
    exact ⟨t, L, call_get (hM key), h, fun _ => trivial, fun _ => hM⟩
  | dorp key =>
    obtain ⟨t', hcall, hrep⟩ := dorp_spec h key
    have hres : dorpResult key (L (hashPos key)) = if (M key).isSome then 1 else 0 := by
      rw [← hfound, dorpResult, found, Option.isSome_map]
    refine ⟨t', _, ?_, hrep, ?_⟩
    · rw [call_dorp hcall, hres]
      rfl
    · show Agrees t' (Function.update M key none) ↔ KeyOnce t key
      -- the other keys agree in any case, so it is up to the key itself
      rw [agrees_iff hrep, keyOnce_iff h, ← found_drop_self_iff]
      constructor
      · intro hall
        exact (hall key).trans (Function.update_self ..)
      · intro hself key'
        by_cases hkey : key' = key
        · subst hkey
          rw [Function.update_self]
          exact hself
        · rw [Function.update_of_ne hkey, found_drop_of_ne hkey, hfound]

/-! ## Runs -/

theorem FollowsMap.agrees {t : HashTable} {M : KeyMap} {ops : List HashOp}
    (h : FollowsMap t M ops) : Agrees t M := by
  cases ops with
  | nil => exact h
  | cons op ops => exact h.1

/-- A run that follows the map agrees with it at its end. -/
theorem FollowsMap.calls {ops : List HashOp} : ∀ {t : HashTable} {M : KeyMap}, FollowsMap t M ops →
    ∃ t', t.calls ops = some t' ∧ Agrees t' (mapCalls M ops) := by
  induction ops with
  | nil => exact fun {t} {M} h => ⟨t, rfl, h⟩
  | cons op ops ih =>
    rintro t M ⟨-, t₁, hcall, hrun⟩
    obtain ⟨t', hcalls, hagrees⟩ := ih hrun
    refine ⟨t', ?_, hagrees⟩
    rw [HashTable.calls, hcall]
    exact hcalls

theorem followsMap_iff_of_rep (ops : List HashOp) : ∀ {t : HashTable} {L : Buckets} {M : KeyMap},
    Rep t L → Agrees t M → (FollowsMap t M ops ↔ DorpsOk t ops) := by
  induction ops with
  | nil => exact fun _ hM => ⟨fun _ => trivial, fun _ => hM⟩
  | cons op ops ih =>
    intro t L M h hM
    obtain ⟨t₁, L₁, hcall, hrep, hagrees⟩ := call_spec h hM op
    constructor
    · rintro ⟨-, t₂, hcall₂, hrun⟩
      rw [hcall] at hcall₂
      cases hcall₂
      refine ⟨hagrees.mp hrun.agrees, fun t₂ r hcall₂ => ?_⟩
      rw [hcall] at hcall₂
      cases hcall₂
      exact (ih hrep hrun.agrees).mp hrun
    · rintro ⟨hop, hrest⟩
      exact ⟨hM, t₁, hcall, (ih hrep (hagrees.mpr hop)).mpr (hrest t₁ _ hcall)⟩

/-- **The table refines a map exactly as long as no `Dorp` meets its key twice**, whatever was in the
    memory of the table before `InitHashTable`. -/
theorem followsMap_iff (t : HashTable) (ops : List HashOp) :
    FollowsMap (initHashTable t) (fun _ => none) ops ↔ DorpsOk (initHashTable t) ops :=
  followsMap_iff_of_rep ops (rep_init t)
    ((agrees_iff (rep_init t)).mpr fun _ => rfl)

/-- Memory in which nothing is allocated. -/
def HashTable.blank : HashTable := ⟨fun _ => none, 0, ⟨fun _ => none, 0, fun _ _ => rfl⟩⟩

/-- "b" -/
def keyB : CString := ⟨[98], by decide⟩

/-- "aa", which shares the bucket of "b". -/
def keyAA : CString := ⟨[97, 97], by decide⟩

/-- `Insert` of "b" = 1, "aa" = 2 and "aa" = 3, then `Dorp` of "aa": the node with the 2 is still
    found. -/
theorem not_followsMap_reinsert : ¬ FollowsMap (initHashTable .blank) (fun _ => none)
    [.insert keyB 1, .insert keyAA 2, .insert keyAA 3, .dorp keyAA] := by
  intro h
  obtain ⟨t, hcalls, hagrees⟩ := h.calls
  have hget : (((initHashTable .blank).calls
      [.insert keyB 1, .insert keyAA 2, .insert keyAA 3, .dorp keyAA]).bind
        fun t => t.getValue keyAA) = some (some 2) := by decide
  rw [hcalls, Option.bind_some, hagrees keyAA] at hget
  exact absurd hget (by decide)

end AdhocNode
