/-
  ONE CALL ON THE HASH TABLE — what `Insert` and `Dorp` do to their key, and to another key.

  The table is any represented one: chains of any length, a key as often as it likes, as long as every
  node sits in the bucket of its hash.

  1. **`Insert`** (`insert_isolated`) — the new node goes behind the first of its chain, so it lies
     before every older node with its key unless that is the first one, which is overwritten.
  2. **`Dorp`** (`dorp_isolated`) — it unlinks and frees the node that `Get` finds, and no other.

  Neither of them changes what `Get` returns for another key, nor the value there.
-/
import AdhocNode.HashLedger

namespace AdhocNode

open PtrChain AssocList

/-! ## What a call may do -/

/-- `Insert` of `key`, as seen by `Get` of `key` and of another key. -/
structure InsertIsolated (t t' : HashTable) (key : CString) (value : Int32) (key' : CString) :
    Prop where
  found : t'.getValue key = some (some value)
  other : t'.get key' = t.get key'
  otherValue : t'.getValue key' = t.getValue key'

/-- The node `q` is unlinked from `key`'s bucket and freed, and the other nodes stay. -/
structure NodeRemoved (t t' : HashTable) (L L' : Buckets) (key : CString) (q : Nat) : Prop where
  bucket : ∃ pre e post, L (hashPos key) = pre ++ (q, e) :: post ∧ L' (hashPos key) = pre ++ post
  buckets : ∀ i, i ≠ hashPos key → L' i = L i
  freed : ∀ a, (t'.heap.cells a).isSome ↔ (t.heap.cells a).isSome ∧ q ≠ a

/-- `Dorp` of `key`, as seen by `Get` of `key` and of another key. -/
structure DorpIsolated (t t' : HashTable) (L L' : Buckets) (key : CString) (n : Int)
    (key' : CString) : Prop where
  rep : Rep t' L'
  result : n = 1 ↔ ∃ q, t.get key = some (some q)
  removed : ∀ q, t.get key = some (some q) → NodeRemoved t t' L L' key q
  kept : t.get key = some none →
    L' = L ∧ ∀ a, (t'.heap.cells a).isSome ↔ (t.heap.cells a).isSome
  other : t'.get key' = t.get key'
  otherValue : t'.getValue key' = t.getValue key'

/-! ## Another key -/

section

variable {t t' : HashTable} {L : Buckets} {key key' : CString}

/-- A bucket in which `key'` is found in the same node changes nothing for `Get` of `key'`. -/
theorem get_of_bucket (h : Rep t L) {i : Fin maxTableSize} {l : List (Nat × HashEntry)}
    (h' : Rep t' (Function.update L i l))
    (hl : lookup HashEntry.key key' l = lookup HashEntry.key key' (L i)) :
    t'.get key' = t.get key' ∧ t'.getValue key' = t.getValue key' := by
  have hsame : lookup HashEntry.key key' (Function.update L i l (hashPos key')) =
      lookup HashEntry.key key' (L (hashPos key')) := by
    by_cases hpos : hashPos key' = i
    · rw [hpos, Function.update_self, hl]
    · rw [Function.update_of_ne hpos]
  constructor
  · rw [get_spec h', get_spec h, hsame]
  · rw [getValue_spec h', getValue_spec h, hsame]

/-! ## The calls -/

/-- **`Insert` is found, and is not seen by another key.** -/
theorem insert_isolated (h : Rep t L) (hne : key' ≠ key) (value : Int32) :
    ∃ t', t.insert key value = some t' ∧ InsertIsolated t t' key value key' := by
  rcases insert_spec h key value with ⟨t', hcall, hrep⟩
  rcases get_of_bucket h hrep (lookup_put_of_ne (Ne.symm hne)) with ⟨hget, hvalue⟩
  refine ⟨t', hcall, ?_, hget, hvalue⟩
  have hfound := found_put (L := L) t.heap.bound key key value
  rw [Function.update_self] at hfound
  exact (getValue_spec hrep key).trans (congrArg some hfound)

/-- **`Dorp` removes the node that `Get` finds, and is not seen by another key.** -/
theorem dorp_isolated (h : Rep t L) (hne : key' ≠ key) :
    ∃ t' L' n, t.dorp key = some (t', n) ∧ DorpIsolated t t' L L' key n key' := by
  rcases dorp_spec h key with ⟨t', hcall, hrep⟩
  rcases dorp_live h hcall with ⟨-, hlive⟩
  rcases get_of_bucket h hrep (lookup_drop_of_ne hne) with ⟨hget, hvalue⟩
  have hgetKey : t.get key = some (dorped key (L (hashPos key))) := get_spec h key
  refine ⟨t', _, _, hcall, hrep, ?_, fun q hq => ?_, fun hnull => ?_, hget, hvalue⟩
  · rw [hgetKey, dorpResult, dorped]
    cases lookup HashEntry.key key (L (hashPos key)) with
    | none =>
      constructor
      · intro hone
        cases hone
      · rintro ⟨q, hq⟩
        cases hq
    | some x => exact ⟨fun _ => ⟨x.1, rfl⟩, fun _ => rfl⟩
  · rw [hgetKey] at hq
    have hdorped : dorped key (L (hashPos key)) = some q := Option.some.inj hq
    refine ⟨?_, fun i hi => Function.update_of_ne hi _ _, fun a => ?_⟩
    · rcases Option.map_eq_some_iff.mp hdorped with ⟨x, hx, rfl⟩
      rcases exists_drop_of_lookup hx with ⟨pre, post, hL, hdrop⟩
      refine ⟨pre, x.2, post, hL, ?_⟩
      rw [Function.update_self, hdrop]
    · rw [hlive, hdorped, Ne, Ne, Option.some_inj]
  · rw [hgetKey] at hnull
    have hdorped : dorped key (L (hashPos key)) = none := Option.some.inj hnull
    refine ⟨?_, fun a => ?_⟩
    · rw [drop_of_lookup (Option.map_eq_none_iff.mp hdorped), Function.update_eq_self]
    · rw [hlive, hdorped]
      exact and_iff_left (Option.some_ne_none a).symm

/-- **Key isolation**, in one call on any table whose nodes sit in the buckets of their hashes. -/
theorem insert_dorp_isolated (h : Rep t L) (hne : key' ≠ key) (value : Int32) :
    (∃ t', t.insert key value = some t' ∧ InsertIsolated t t' key value key') ∧
      ∃ t' L' n, t.dorp key = some (t', n) ∧ DorpIsolated t t' L L' key n key' :=
  ⟨insert_isolated h hne value, dorp_isolated h hne⟩

end

/-- "b" on a table in which it shares its bucket with "aa". -/
theorem insert_dorp_isolated_shared : ∃ t L, Rep t L ∧ t.getValue keyAA = some (some 2) ∧
    (∃ t', t.insert keyB 3 = some t' ∧ InsertIsolated t t' keyB 3 keyAA) ∧
      ∃ t' L' n, t.dorp keyB = some (t', n) ∧ DorpIsolated t t' L L' keyB n keyAA := by
  rcases insert_spec (rep_init .blank) keyB 1 with ⟨t₁, -, hrep₁⟩
  rcases insert_isolated hrep₁ (show keyB ≠ keyAA by decide) 2 with ⟨t₂, hcall₂, hisolated⟩
  rcases insert_spec hrep₁ keyAA 2 with ⟨t₃, hcall₃, hrep₃⟩
  rw [hcall₂] at hcall₃
  cases hcall₃
  exact ⟨t₂, _, hrep₃, hisolated.found,
    insert_dorp_isolated hrep₃ (show keyAA ≠ keyB by decide) 3⟩

end AdhocNode
