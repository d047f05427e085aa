/-
  ASSOCIATION LISTS WITH REPEATED KEYS — lists of nodes, each a name and an entry, searched from the
  front by the entry's key.

  `put` is how a bucket takes an entry without a search: it overwrites the entry of the first node
  if that has the key, and otherwise a new node goes in behind the first.  The entry found for a key
  is then always the last one put (`lookup_put_self`), but an older node with the key may stay behind
  it.  `drop` removes the first node with a key; the key is gone exactly when there was at most one
  (`lookup_drop_self_iff`).  A list with one node for each key keeps that under `drop`, and under `put`
  exactly when the key is not behind the first node (`nodup_keys_put_iff`).
-/
import Mathlib.Data.List.Nodup

namespace AssocList

variable {ι τ κ : Type} [DecidableEq κ] (key : τ → κ)

/-- The first node with key `k`. -/
def lookup (k : κ) (l : List (ι × τ)) : Option (ι × τ) := l.find? fun x => decide (key x.2 = k)

/-- Overwrite the first node's entry, or put the node `a` in behind it. -/
def put (a : ι) (e : τ) : List (ι × τ) → List (ι × τ)
  | [] => [(a, e)]
  | x :: l => if key x.2 = key e then (x.1, e) :: l else x :: (a, e) :: l

/-- Remove the first node with key `k`. -/
def drop (k : κ) (l : List (ι × τ)) : List (ι × τ) := l.eraseP fun x => decide (key x.2 = k)

/-- The number of nodes with key `k`. -/
def count (k : κ) (l : List (ι × τ)) : Nat := l.countP fun x => decide (key x.2 = k)

/-- The keys of the nodes, in order. -/
def keys (l : List (ι × τ)) : List κ := l.map fun x => key x.2

variable {key} {k k' : κ} {a : ι} {e : τ} {x y : ι × τ} {l : List (ι × τ)}

/-! ## Searching -/

theorem lookup_cons_self (h : key x.2 = k) : lookup key k (x :: l) = some x :=
  List.find?_cons_of_pos (decide_eq_true h)

theorem lookup_cons_of_ne (h : key x.2 ≠ k) : lookup key k (x :: l) = lookup key k l :=
  List.find?_cons_of_neg (by simpa using h)

/-- A key is not found when no node has it. -/
theorem lookup_eq_none_iff : lookup key k l = none ↔ count key k l = 0 := by
  unfold lookup count
  rw [List.find?_eq_none, List.countP_eq_zero]

/-! ## Putting -/

theorem put_cons_of_eq (h : key x.2 = key e) : put key a e (x :: l) = (x.1, e) :: l := if_pos h

theorem put_cons_of_ne (h : key x.2 ≠ key e) : put key a e (x :: l) = x :: (a, e) :: l := if_neg h

/-- A list with a node put in is not empty. -/
theorem put_ne_nil : put key a e l ≠ [] := by
  cases l with
  | nil => exact List.cons_ne_nil _ _
  | cons x l =>
    rw [put]
    split
    · exact List.cons_ne_nil _ _
    · exact List.cons_ne_nil _ _

/-- **The entry put last is the one found.** -/
theorem lookup_put_self : (lookup key (key e) (put key a e l)).map Prod.snd = some e := by
  have hself : ∀ (b : ι) (m : List (ι × τ)),
      (lookup key (key e) ((b, e) :: m)).map Prod.snd = some e := by
    intro b m
    have hkey : key (b, e).2 = key e := rfl
    rw [lookup_cons_self hkey, Option.map_some]
  cases l with
  | nil => exact hself a []
  | cons x l =>
    by_cases h : key x.2 = key e
    · rw [put_cons_of_eq h]
      exact hself x.1 l
    · rw [put_cons_of_ne h, lookup_cons_of_ne h]
      exact hself a l

/-- The other keys find what they found. -/
theorem lookup_put_of_ne (h : key e ≠ k) : lookup key k (put key a e l) = lookup key k l := by
  cases l with
  | nil => exact lookup_cons_of_ne h
  | cons x l =>
    by_cases hx : key x.2 = key e
    · rw [put_cons_of_eq hx, lookup_cons_of_ne h, lookup_cons_of_ne fun hk => h (hx.symm.trans hk)]
    · rw [put_cons_of_ne hx]
      by_cases hk : key x.2 = k
      · rw [lookup_cons_self hk, lookup_cons_self hk]
      · rw [lookup_cons_of_ne hk, lookup_cons_of_ne hk, lookup_cons_of_ne h]

/-- Every key was there or is the new one. -/
theorem key_of_mem_put (h : y ∈ put key a e l) : key y.2 = key e ∨ y ∈ l := by
  cases l with
  | nil => rw [List.mem_singleton.mp h]; exact Or.inl rfl
  | cons x l =>
    by_cases hx : key x.2 = key e
    · rw [put_cons_of_eq hx] at h
      rcases List.mem_cons.mp h with rfl | h
      · exact Or.inl rfl
      · exact Or.inr (List.mem_cons_of_mem _ h)
    · rw [put_cons_of_ne hx] at h
      rcases List.mem_cons.mp h with rfl | h
      · exact Or.inr (List.mem_cons_self ..)
      · rcases List.mem_cons.mp h with rfl | h
        · exact Or.inl rfl
        · exact Or.inr (List.mem_cons_of_mem _ h)

/-- **`put` adds its node unless the first one has the key.** -/
theorem mem_names_put_iff {b : ι} : b ∈ (put key a e l).map Prod.fst ↔
    b ∈ l.map Prod.fst ∨ b = a ∧ ∀ x ∈ l.head?, key x.2 ≠ key e := by
  cases l with
  | nil =>
    show b ∈ [a] ↔ _
    rw [List.mem_singleton]
    constructor
    · intro hb
      exact Or.inr ⟨hb, fun x hx => nomatch hx⟩
    · rintro (hb | ⟨hb, -⟩)
      · cases hb
      · exact hb
  | cons x l =>
    by_cases hx : key x.2 = key e
    · rw [put_cons_of_eq hx]
      show b ∈ (x :: l).map Prod.fst ↔ _
      constructor
      · exact Or.inl
      · rintro (hb | ⟨-, hne⟩)
        · exact hb
        · exact absurd hx (hne x rfl)
    · rw [put_cons_of_ne hx]
      show b ∈ x.1 :: a :: l.map Prod.fst ↔ b ∈ x.1 :: l.map Prod.fst ∨ _
      have hhead : ∀ y ∈ (x :: l).head?, key y.2 ≠ key e := by
        intro y hy
        rw [← Option.some.inj hy]
        exact hx
      rw [List.mem_cons, List.mem_cons, List.mem_cons, and_iff_left hhead]
      constructor
      · rintro (hb | hb | hb)
        · exact Or.inl (Or.inl hb)
        · exact Or.inr hb
        · exact Or.inl (Or.inr hb)
      · rintro ((hb | hb) | hb)
        · exact Or.inl hb
        · exact Or.inr (Or.inr hb)
        · exact Or.inr (Or.inl hb)

/-! ## Dropping -/

theorem drop_cons_self (h : key x.2 = k) : drop key k (x :: l) = l :=
  List.eraseP_cons_of_pos (decide_eq_true h)

theorem drop_cons_of_ne (h : key x.2 ≠ k) : drop key k (x :: l) = x :: drop key k l :=
  List.eraseP_cons_of_neg (by simpa using h)

/-- The other keys find what they found, whatever is dropped. -/
theorem lookup_drop_of_ne (h : k' ≠ k) : lookup key k' (drop key k l) = lookup key k' l := by
  induction l with
  | nil => rfl
  | cons x l ih =>
    by_cases hk : key x.2 = k
    · rw [drop_cons_self hk, lookup_cons_of_ne fun hk' => h (hk'.symm.trans hk)]
    · rw [drop_cons_of_ne hk]
      by_cases hk' : key x.2 = k'
      · rw [lookup_cons_self hk', lookup_cons_self hk']
      · rw [lookup_cons_of_ne hk', lookup_cons_of_ne hk', ih]

theorem count_cons_self (h : key x.2 = k) : count key k (x :: l) = count key k l + 1 :=
  List.countP_cons_of_pos (decide_eq_true h)

theorem count_cons_of_ne (h : key x.2 ≠ k) : count key k (x :: l) = count key k l :=
  List.countP_cons_of_neg (by simpa using h)

/-- **A dropped key is gone iff it had at most one node.** -/
theorem lookup_drop_self_iff : lookup key k (drop key k l) = none ↔ count key k l ≤ 1 := by
  induction l with
  | nil => exact ⟨fun _ => Nat.zero_le _, fun _ => rfl⟩
  | cons x l ih =>
    by_cases hk : key x.2 = k
    · rw [drop_cons_self hk, count_cons_self hk, lookup_eq_none_iff]
      omega
    · rw [drop_cons_of_ne hk, count_cons_of_ne hk, lookup_cons_of_ne hk]
      exact ih

theorem mem_of_mem_drop (h : x ∈ drop key k l) : x ∈ l := List.mem_of_mem_eraseP h

/-- **`drop` cuts the list at the node that `lookup` finds.** -/
theorem exists_drop_of_lookup (h : lookup key k l = some x) :
    ∃ pre post, l = pre ++ x :: post ∧ drop key k l = pre ++ post := by
  induction l with
  | nil => cases h
  | cons y l ih =>
    by_cases hk : key y.2 = k
    · rw [lookup_cons_self hk] at h
      cases h
      exact ⟨[], l, rfl, drop_cons_self hk⟩
    · rw [lookup_cons_of_ne hk] at h
      rcases ih h with ⟨pre, post, hl, hdrop⟩
      refine ⟨y :: pre, post, congrArg (y :: ·) hl, ?_⟩
      rw [drop_cons_of_ne hk, hdrop]
      rfl

/-- Where nothing is found, nothing is dropped. -/
theorem drop_of_lookup (h : lookup key k l = none) : drop key k l = l := by
  have hnot : ∀ x ∈ l, ¬ decide (key x.2 = k) = true := List.find?_eq_none.mp h
  exact List.eraseP_of_forall_not hnot

/-- **`drop` takes out the node that `lookup` finds**, when no two nodes have one name. -/
theorem mem_names_drop_iff (h : (l.map Prod.fst).Nodup) {b : ι} :
    b ∈ (drop key k l).map Prod.fst ↔
      b ∈ l.map Prod.fst ∧ (lookup key k l).map Prod.fst ≠ some b := by
  induction l with
  | nil =>
    constructor
    · intro hb
      cases hb
    · rintro ⟨hb, -⟩
      cases hb
  | cons x l ih =>
    rcases List.nodup_cons.mp h with ⟨hx, hl⟩
    by_cases hk : key x.2 = k
    · rw [drop_cons_self hk, lookup_cons_self hk]
      show _ ↔ b ∈ x.1 :: l.map Prod.fst ∧ some x.1 ≠ some b
      rw [List.mem_cons]
      constructor
      · intro hb
        refine ⟨Or.inr hb, fun heq => hx ?_⟩
        rw [Option.some.inj heq]
        exact hb
      · rintro ⟨hb, hne⟩
        exact hb.resolve_left fun heq => hne (congrArg some heq.symm)
    · rw [drop_cons_of_ne hk, lookup_cons_of_ne hk]
      show b ∈ x.1 :: (drop key k l).map Prod.fst ↔ b ∈ x.1 :: l.map Prod.fst ∧ _
      rw [List.mem_cons, List.mem_cons, ih hl]
      constructor
      · rintro (hb | ⟨hb, hne⟩)
        · refine ⟨Or.inl hb, fun hfound => hx ?_⟩
          -- what is found further on is not the first node
          rcases Option.map_eq_some_iff.mp hfound with ⟨y, hy, hyb⟩
          rw [← hb, ← hyb]
          exact List.mem_map_of_mem (List.mem_of_find?_eq_some hy)
        · exact ⟨Or.inr hb, hne⟩
      · rintro ⟨hb | hb, hne⟩
        · exact Or.inl hb
        · exact Or.inr ⟨hb, hne⟩

/-! ## Names -/

/-- The same entries, under other names. -/
def rename {ι' : Type} (f : ι → ι') (l : List (ι × τ)) : List (ι' × τ) := l.map fun x => (f x.1, x.2)

section Names

variable {ι' : Type} {f : ι → ι'}

/-- **The names do not matter**: not for what is found, -/
theorem lookup_rename :
    lookup key k (rename f l) = (lookup key k l).map fun x => (f x.1, x.2) := by
  induction l with
  | nil => rfl
  | cons x l ih =>
    show lookup key k ((f x.1, x.2) :: rename f l) = _
    by_cases hk : key x.2 = k
    · rw [lookup_cons_self hk, lookup_cons_self (show key (f x.1, x.2).2 = k from hk)]
      rfl
    · rw [lookup_cons_of_ne hk, lookup_cons_of_ne (show key (f x.1, x.2).2 ≠ k from hk), ih]

/-- not for what is put, -/
theorem rename_put : rename f (put key a e l) = put key (f a) e (rename f l) := by
  cases l with
  | nil => rfl
  | cons x l =>
    show _ = put key (f a) e ((f x.1, x.2) :: rename f l)
    by_cases hx : key x.2 = key e
    · rw [put_cons_of_eq hx, put_cons_of_eq (show key (f x.1, x.2).2 = key e from hx)]
      rfl
    · rw [put_cons_of_ne hx, put_cons_of_ne (show key (f x.1, x.2).2 ≠ key e from hx)]
      rfl

/-- and not for what is dropped. -/
theorem rename_drop : rename f (drop key k l) = drop key k (rename f l) := by
  induction l with
  | nil => rfl
  | cons x l ih =>
    show _ = drop key k ((f x.1, x.2) :: rename f l)
    by_cases hk : key x.2 = k
    · rw [drop_cons_self hk, drop_cons_self (show key (f x.1, x.2).2 = k from hk)]
    · rw [drop_cons_of_ne hk, drop_cons_of_ne (show key (f x.1, x.2).2 ≠ k from hk), ← ih]
      rfl

end Names

/-! ## One node for each key -/

omit [DecidableEq κ] in
theorem mem_keys : k ∈ keys key l ↔ ∃ x ∈ l, key x.2 = k := List.mem_map

/-- `drop` makes no second node. -/
theorem nodup_keys_drop (h : (keys key l).Nodup) : (keys key (drop key k l)).Nodup :=
  h.sublist (List.eraseP_sublist.map _)

/-- **`put` makes no second node for its key iff it has none behind the first node.** -/
theorem nodup_keys_put_iff (h : (keys key l).Nodup) :
    (keys key (put key a e l)).Nodup ↔ key e ∉ keys key l.tail := by
  cases l with
  | nil => exact ⟨fun _ => List.not_mem_nil, fun _ => List.nodup_singleton _⟩
  | cons x l =>
    have hcons : (key x.2 :: keys key l).Nodup := h
    obtain ⟨hx, hl⟩ := List.nodup_cons.mp hcons
    show _ ↔ key e ∉ keys key l
    by_cases hkey : key x.2 = key e
    -- the keys are what they were
    · rw [put_cons_of_eq hkey]
      rw [hkey] at hx
      exact ⟨fun _ => hx, fun _ => List.nodup_cons.mpr ⟨hx, hl⟩⟩
    · rw [put_cons_of_ne hkey]
      constructor
      · intro hnodup
        exact (List.nodup_cons.mp (List.nodup_cons.mp hnodup).2).1
      · intro hnew
        refine List.nodup_cons.mpr ⟨fun hmem => ?_, List.nodup_cons.mpr ⟨hnew, hl⟩⟩
        rcases List.mem_cons.mp hmem with heq | hmem
        · exact hkey heq
        · exact hx hmem

end AssocList
