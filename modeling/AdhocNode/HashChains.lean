/-
  THE BUCKETS AS LISTS — what `Insert`, `Get` and `Dorp` do to the chains of the hash table.

  1. **The representation** — `Rep t L`: the chain of each bucket `i` passes the nodes `L i`, and
     every key in it hashes to `i`.  No node is then in two buckets (`Rep.addr_ne`), so a change to
     the nodes of one bucket leaves the others alone (`Rep.of_bucket`).

  2. **The operations** — on a represented table each function returns, and acts on the list of its
     key's bucket as the association list does: `insert_spec` (`AssocList.put`), `get_spec`
     (`AssocList.lookup`) and `dorp_spec` (`AssocList.drop`).
-/
import AdhocNode.HashTable
import AdhocNode.Lib.AssocList

namespace AdhocNode

open PtrChain AssocList

/-! ## The representation -/

/-- The nodes of each bucket, in order. -/
abbrev Buckets := Fin maxTableSize → List (Nat × HashEntry)

/-- `L i` are the nodes of bucket `i`, with keys that belong there. -/
structure Rep (t : HashTable) (L : Buckets) : Prop where
  chain : ∀ i, Chain t.heap (t.hashNode i) (L i)
  home : ∀ i, ∀ x ∈ L i, hashPos x.2.key = i

section

variable {t t' : HashTable} {L : Buckets} {i : Fin maxTableSize} {key : CString}

/-- An initialised table has no nodes, whatever was in its memory. -/
theorem rep_init (t : HashTable) : Rep (initHashTable t) fun _ => [] where
  chain _ := rfl
  home _ _ hx := nomatch hx

/-- Two buckets share no node: its key would have two positions. -/
theorem Rep.addr_ne (h : Rep t L) {j : Fin maxTableSize} (hij : i ≠ j) {x y : Nat × HashEntry}
    (hx : x ∈ L i) (hy : y ∈ L j) : x.1 ≠ y.1 := by
  intro heq
  obtain ⟨r, hr⟩ := Seg.cell (h.chain i) hx
  obtain ⟨s, hs⟩ := Seg.cell (h.chain j) hy
  rw [heq, hs] at hr
  have hval : y.2 = x.2 := (Cell.mk.inj (Option.some.inj hr)).1
  have hpos := h.home j y hy
  rw [hval, h.home i x hx] at hpos
  exact hij hpos

/-- A node of a chain has been allocated. -/
theorem Rep.lt_bound (h : Rep t L) {x : Nat × HashEntry} (hx : x ∈ L i) : x.1 < t.heap.bound := by
  obtain ⟨r, hr⟩ := Seg.cell (h.chain i) hx
  exact Heap.lt_bound hr

/-- **Frame**: only bucket `i` changes, and of the old nodes only its own. -/
theorem Rep.of_bucket (h : Rep t L) {l : List (Nat × HashEntry)}
    (hl : Chain t'.heap (t'.hashNode i) l) (hhome : ∀ x ∈ l, hashPos x.2.key = i)
    (hnode : ∀ j, j ≠ i → t'.hashNode j = t.hashNode j)
    (hsame : ∀ a, a < t.heap.bound → (∀ x ∈ L i, x.1 ≠ a) → t'.heap.cells a = t.heap.cells a) :
    Rep t' (Function.update L i l) where
  chain j := by
    by_cases hj : j = i
    · rw [hj, Function.update_self]
      exact hl
    · rw [Function.update_of_ne hj, hnode j hj]
      refine (h.chain j).congr fun y hy => hsame _ (h.lt_bound hy) fun x hx => ?_
      exact h.addr_ne (Ne.symm hj) hx hy
  home j := by
    by_cases hj : j = i
    · rw [hj, Function.update_self]
      exact hhome
    · rw [Function.update_of_ne hj]
      exact h.home j

/-- The first pointer of a bucket is NULL iff the bucket is empty. -/
theorem Rep.hashNode_none (h : Rep t L) (hp : t.hashNode i = none) : L i = [] := by
  have hchain := h.chain i
  rw [hp] at hchain
  exact Chain.unique hchain rfl

/-- A bucket that is not empty starts with the node its pointer says. -/
theorem Rep.hashNode_some (h : Rep t L) {p : Nat} (hp : t.hashNode i = some p) :
    ∃ e r l, L i = (p, e) :: l ∧ t.heap.cells p = some ⟨e, r⟩ ∧ Chain t.heap r l := by
  have hchain := h.chain i
  rw [hp] at hchain
  cases hL : L i with
  | nil =>
    rw [hL] at hchain
    exact nomatch (show some p = none from hchain)
  | cons x l =>
    rw [hL] at hchain
    obtain ⟨hx, r, hcell, hrest⟩ := hchain
    cases hx
    exact ⟨x.2, r, l, rfl, hcell, hrest⟩

end

/-! ## `Insert` -/

section

variable {t : HashTable} {L : Buckets} {key : CString} {value : Int32} {p : Nat} {e : HashEntry}
  {r : Option Nat} {h₁ h₂ : Heap HashEntry}

theorem insert_of_none (hp : t.hashNode (hashPos key) = none) :
    t.insert key value = some {
      hashNode := Function.update t.hashNode (hashPos key) (some t.heap.bound)
      currentIndex := CMem.toInt32 (t.currentIndex + 1)
      heap := t.heap.alloc ⟨⟨key, value⟩, none⟩ } := by
  simp only [HashTable.insert, hp]

theorem insert_of_head (hp : t.hashNode (hashPos key) = some p)
    (hcell : (t.heap.alloc ⟨⟨key, value⟩, none⟩).cells p = some ⟨e, r⟩) (hkey : e.key = key)
    (hset : (t.heap.alloc ⟨⟨key, value⟩, none⟩).set p ⟨⟨e.key, value⟩, r⟩ = some h₁) :
    t.insert key value = some { t with heap := h₁ } := by
  simp only [HashTable.insert, hp, hcell, Option.bind_eq_bind, Option.bind_some, if_pos hkey, hset]
  rfl

theorem insert_of_not_head (hp : t.hashNode (hashPos key) = some p)
    (hcell : (t.heap.alloc ⟨⟨key, value⟩, none⟩).cells p = some ⟨e, r⟩) (hkey : e.key ≠ key)
    (hnew : (t.heap.alloc ⟨⟨key, value⟩, none⟩).set t.heap.bound ⟨⟨key, value⟩, r⟩ = some h₁)
    (hset : h₁.set p ⟨e, some t.heap.bound⟩ = some h₂) :
    t.insert key value = some { t with heap := h₂ } := by
  simp only [HashTable.insert, hp, hcell, Option.bind_eq_bind, Option.bind_some, if_neg hkey, hnew,
    hset]
  rfl

end

/-- **What `Insert` can do**: the new node becomes the bucket, or one cell or two are overwritten. -/
theorem insert_cases {t t' : HashTable} {key : CString} {value : Int32}
    (hcall : t.insert key value = some t') :
    (t.hashNode (hashPos key) = none ∧ t' = {
      hashNode := Function.update t.hashNode (hashPos key) (some t.heap.bound)
      currentIndex := CMem.toInt32 (t.currentIndex + 1)
      heap := t.heap.alloc ⟨⟨key, value⟩, none⟩ }) ∨
    ∃ p heap, t.hashNode (hashPos key) = some p ∧ t' = { t with heap := heap } ∧
      ((∃ c, (t.heap.alloc ⟨⟨key, value⟩, none⟩).set p c = some heap) ∨
        ∃ c c' h₁, (t.heap.alloc ⟨⟨key, value⟩, none⟩).set t.heap.bound c = some h₁ ∧
          h₁.set p c' = some heap) := by
  cases hp : t.hashNode (hashPos key) with
  | none =>
    rw [insert_of_none hp] at hcall
    exact Or.inl ⟨rfl, (Option.some.inj hcall).symm⟩
  | some p =>
    simp only [HashTable.insert, hp, Option.bind_eq_bind] at hcall
    rcases Option.bind_eq_some_iff.mp hcall with ⟨node, -, hcall⟩
    split at hcall
    · rcases Option.bind_eq_some_iff.mp hcall with ⟨heap, hset, hret⟩
      exact Or.inr ⟨p, heap, rfl, (Option.some.inj hret).symm, Or.inl ⟨_, hset⟩⟩
    · rcases Option.bind_eq_some_iff.mp hcall with ⟨h₁, hnew, hcall⟩
      rcases Option.bind_eq_some_iff.mp hcall with ⟨heap, hset, hret⟩
      exact Or.inr ⟨p, heap, rfl, (Option.some.inj hret).symm, Or.inr ⟨_, _, h₁, hnew, hset⟩⟩

/-- **`Insert` puts the entry into its bucket**, by way of a new node. -/
theorem insert_spec {t : HashTable} {L : Buckets} (h : Rep t L) (key : CString) (value : Int32) :
    ∃ t', t.insert key value = some t' ∧ Rep t' (Function.update L (hashPos key)
      (put HashEntry.key t.heap.bound ⟨key, value⟩ (L (hashPos key)))) := by
  have hhome : ∀ x ∈ put HashEntry.key t.heap.bound ⟨key, value⟩ (L (hashPos key)),
      hashPos x.2.key = hashPos key := by
    intro x hx
    rcases key_of_mem_put hx with hx | hx
    · rw [hx]
    · exact h.home _ x hx
  cases hp : t.hashNode (hashPos key) with
  | none =>
    rw [h.hashNode_none hp] at hhome ⊢
    refine ⟨_, insert_of_none hp, h.of_bucket ?_ hhome ?_ ?_⟩
    · dsimp only
      rw [Function.update_self]
      exact ⟨rfl, none, Heap.alloc_self _ _, rfl⟩
    · intro j hj
      dsimp only
      rw [Function.update_of_ne hj]
    · exact fun a ha _ => Heap.alloc_of_ne (Nat.ne_of_lt ha)
  | some p =>
    obtain ⟨e, r, l, hL, hcell, -⟩ := h.hashNode_some hp
    have hchain := h.chain (hashPos key)
    have hmem : ∀ a, (∀ x ∈ L (hashPos key), x.1 ≠ a) → a ≠ p := by
      intro a ha hap
      exact ha (p, e) (hL ▸ List.mem_cons_self ..) hap.symm
    have hlt : p < t.heap.bound := Heap.lt_bound hcell
    have halloc := Heap.alloc_self (⟨⟨key, value⟩, none⟩ : HashNode) t.heap
    -- allocating the new node leaves the head as it is
    have hcell₁ : (t.heap.alloc ⟨⟨key, value⟩, none⟩).cells p = some ⟨e, r⟩ :=
      (Heap.alloc_of_ne (Nat.ne_of_lt hlt)).trans hcell
    rw [hL] at hhome hchain ⊢
    by_cases hkey : e.key = key
    · rw [put_cons_of_eq (show HashEntry.key (p, e).2 = HashEntry.key ⟨key, value⟩ from hkey)]
        at hhome ⊢
      obtain ⟨h₁, hset, hself, -, hsame⟩ := Heap.exists_set hcell₁ ⟨⟨e.key, value⟩, r⟩
      have hchain₁ : Chain (t.heap.alloc ⟨⟨key, value⟩, none⟩) (t.hashNode (hashPos key))
          ((p, e) :: l) :=
        hchain.congr fun x hx => Heap.alloc_of_ne (Nat.ne_of_lt (h.lt_bound (hL ▸ hx)))
      refine ⟨_, insert_of_head hp hcell₁ hkey hset, h.of_bucket ?_ hhome (fun _ _ => rfl) ?_⟩
      · have hself' : h₁.cells p = some ⟨⟨key, value⟩, r⟩ := hkey ▸ hself
        exact hchain₁.set_head ⟨e, hcell₁⟩ hself' hsame
      · intro a ha hne
        exact (hsame a (hmem a hne)).trans (Heap.alloc_of_ne (Nat.ne_of_lt ha))
    · rw [put_cons_of_ne (show HashEntry.key (p, e).2 ≠ HashEntry.key ⟨key, value⟩ from hkey)]
        at hhome ⊢
      obtain ⟨h₁, hnew, hself₁, -, hsame₁⟩ := Heap.exists_set halloc ⟨⟨key, value⟩, r⟩
      have hcell₂ := (hsame₁ p (Nat.ne_of_lt hlt)).trans hcell₁
      obtain ⟨h₂, hset, hself₂, -, hsame₂⟩ := Heap.exists_set hcell₂ ⟨e, some t.heap.bound⟩
      refine ⟨_, insert_of_not_head hp hcell₁ hkey hnew hset,
        h.of_bucket ?_ hhome (fun _ _ => rfl) ?_⟩
      · refine hchain.link_second ⟨e, hcell⟩ (t.heap.fresh _ (Nat.le_refl _)) hself₂ ?_ ?_
        · exact (hsame₂ _ (Nat.ne_of_gt hlt)).trans hself₁
        · intro b hbp hb
          rw [hsame₂ b hbp, hsame₁ b hb]
          exact Heap.alloc_of_ne hb
      · intro a ha hne
        rw [hsame₂ a (hmem a hne), hsame₁ a (Nat.ne_of_lt ha)]
        exact Heap.alloc_of_ne (Nat.ne_of_lt ha)

/-! ## `Get` -/

theorem getLoop_null (heap : Heap HashEntry) (key : CString) (fuel : Nat) :
    getLoop heap key fuel none = some none := by
  cases fuel <;> rfl

/-- The loop of `Get` finds the first node with the key. -/
theorem getLoop_spec {heap : Heap HashEntry} {key : CString} {l : List (Nat × HashEntry)} :
    ∀ {fuel : Nat} {q : Option Nat}, Chain heap q l → l.length ≤ fuel →
      getLoop heap key fuel q = some ((lookup HashEntry.key key l).map Prod.fst) := by
  induction l with
  | nil =>
    intro fuel q hq _
    rw [show q = none from hq]
    exact getLoop_null heap key fuel
  | cons x l ih =>
    intro fuel q hq hfuel
    obtain ⟨rfl, r, hcell, hrest⟩ := hq
    rw [List.length_cons] at hfuel
    obtain ⟨fuel, rfl⟩ := Nat.exists_eq_succ_of_ne_zero (show fuel ≠ 0 by omega)
    rw [getLoop, hcell, Option.bind_eq_bind, Option.bind_some]
    by_cases hkey : x.2.key = key
    · rw [if_pos hkey, lookup_cons_self hkey]
      rfl
    · rw [if_neg hkey, lookup_cons_of_ne hkey]
      exact ih hrest (by omega)

/-- **`Get` finds the first node with the key in its bucket.** -/
theorem get_spec {t : HashTable} {L : Buckets} (h : Rep t L) (key : CString) :
    t.get key = some ((lookup HashEntry.key key (L (hashPos key))).map Prod.fst) :=
  getLoop_spec (h.chain _) (h.chain _).length_le

/-- What is read through the result of `Get` is that node's value. -/
theorem getValue_spec {t : HashTable} {L : Buckets} (h : Rep t L) (key : CString) :
    t.getValue key = some ((lookup HashEntry.key key (L (hashPos key))).map fun x => x.2.value) := by
  rw [HashTable.getValue, get_spec h, Option.bind_eq_bind, Option.bind_some]
  cases hx : lookup HashEntry.key key (L (hashPos key)) with
  | none => rfl
  | some x =>
    obtain ⟨r, hcell⟩ := Seg.cell (h.chain (hashPos key)) (List.mem_of_find?_eq_some hx)
    show (t.heap.cells x.1).bind _ = _
    rw [hcell]
    rfl

/-! ## `Dorp` -/

/-- What `Dorp` returns. -/
def dorpResult (key : CString) (l : List (Nat × HashEntry)) : Int :=
  if (lookup HashEntry.key key l).isSome then 1 else 0

theorem dorpLoop_null (heap : Heap HashEntry) (key : CString) (fuel last : Nat) :
    dorpLoop heap key fuel last none = some (heap, 0) := by
  cases fuel <;> rfl

/-- The loop of `Dorp` unlinks the first node with the key, behind `last`. -/
theorem dorpLoop_spec {heap : Heap HashEntry} {key : CString} {p : Option Nat}
    {l : List (Nat × HashEntry)} : ∀ {fuel : Nat} {pre : List (Nat × HashEntry)}
      {last : Nat × HashEntry} {q : Option Nat}, Chain heap p (pre ++ last :: l) →
      heap.cells last.1 = some ⟨last.2, q⟩ → l.length ≤ fuel →
      ∃ heap', dorpLoop heap key fuel last.1 q = some (heap', dorpResult key l) ∧
        Chain heap' p (pre ++ last :: drop HashEntry.key key l) ∧
        ∀ a, (∀ x ∈ pre ++ last :: l, x.1 ≠ a) → heap'.cells a = heap.cells a := by
  induction l with
  | nil =>
    intro fuel pre last q hchain hlast _
    obtain ⟨s, -, -, r, hr, hnil⟩ := seg_append.mp hchain
    rw [hlast] at hr
    cases hr
    rw [show q = none from hnil]
    exact ⟨heap, dorpLoop_null heap key fuel last.1, hchain, fun _ _ => rfl⟩
  | cons x l ih =>
    intro fuel pre last q hchain hlast hfuel
    obtain ⟨s, -, -, r, hr, hx, u, hu, -⟩ := seg_append.mp hchain
    rw [hlast] at hr
    cases hr
    cases hx
    rw [List.length_cons] at hfuel
    obtain ⟨fuel, rfl⟩ := Nat.exists_eq_succ_of_ne_zero (show fuel ≠ 0 by omega)
    rw [dorpLoop, hu, Option.bind_eq_bind, Option.bind_some]
    by_cases hkey : x.2.key = key
    -- `last` is linked to what follows `x`, then `x` is freed
    · have hne : last.1 ≠ x.1 := hchain.ne_next
      obtain ⟨h₁, hset, hself, -, hsame₁⟩ := Heap.exists_set hlast ⟨last.2, u⟩
      obtain ⟨h₂, hfree, -, -, hsame₂⟩ := Heap.exists_free ((hsame₁ x.1 hne.symm).trans hu)
      refine ⟨h₂, ?_, ?_, ?_⟩
      · simp only [if_pos hkey, hlast, hset, hfree, Option.bind_eq_bind, Option.bind_some, dorpResult,
          lookup_cons_self hkey]
        rfl
      · rw [drop_cons_self hkey]
        refine hchain.unlink hu ((hsame₂ _ hne).trans hself) fun b hb hbx => ?_
        exact (hsame₂ b hbx).trans (hsame₁ b hb)
      · intro a ha
        have hlastmem : last ∈ pre ++ last :: x :: l :=
          List.mem_append_right _ (List.mem_cons_self ..)
        have hxmem : x ∈ pre ++ last :: x :: l :=
          List.mem_append_right _ (List.mem_cons_of_mem _ (List.mem_cons_self ..))
        exact (hsame₂ a (ha x hxmem).symm).trans (hsame₁ a (ha last hlastmem).symm)
    · rw [if_neg hkey, drop_cons_of_ne hkey, dorpResult, lookup_cons_of_ne hkey]
      have hmove : pre ++ last :: x :: l = (pre ++ [last]) ++ x :: l := by
        rw [List.append_assoc]
        rfl
      rw [hmove] at hchain ⊢
      obtain ⟨heap', hloop, hchain', hsame⟩ := ih hchain hu (Nat.le_of_succ_le_succ hfuel)
      -- `last` has joined the nodes already passed
      refine ⟨heap', hloop, ?_, hsame⟩
      rw [List.append_assoc] at hchain'
      exact hchain'

section

variable {t : HashTable} {L : Buckets} {key : CString} {p : Nat} {e : HashEntry} {r : Option Nat}
  {h₁ : Heap HashEntry} {n : Int}

theorem dorp_of_none (hp : t.hashNode (hashPos key) = none) : t.dorp key = some (t, 0) := by
  simp only [HashTable.dorp, hp]

theorem dorp_of_head (hp : t.hashNode (hashPos key) = some p) (hcell : t.heap.cells p = some ⟨e, r⟩)
    (hkey : e.key = key) (hfree : t.heap.free p = some h₁) :
    t.dorp key = some ({ t with
      hashNode := Function.update t.hashNode (hashPos key) r, heap := h₁ }, 1) := by
  simp only [HashTable.dorp, hp, hcell, Option.bind_eq_bind, Option.bind_some, if_pos hkey, hfree]
  rfl

theorem dorp_of_not_head (hp : t.hashNode (hashPos key) = some p)
    (hcell : t.heap.cells p = some ⟨e, r⟩) (hkey : e.key ≠ key)
    (hloop : dorpLoop t.heap key t.heap.bound p r = some (h₁, n)) :
    t.dorp key = some ({ t with heap := h₁ }, n) := by
  simp only [HashTable.dorp, hp, hcell, Option.bind_eq_bind, Option.bind_some, if_neg hkey, hloop]
  rfl

end

/-- **`Dorp` removes the first node with the key from its bucket**, and says whether there was
    one. -/
theorem dorp_spec {t : HashTable} {L : Buckets} (h : Rep t L) (key : CString) :
    ∃ t', t.dorp key = some (t', dorpResult key (L (hashPos key))) ∧
      Rep t' (Function.update L (hashPos key) (drop HashEntry.key key (L (hashPos key)))) := by
  have hhome : ∀ x ∈ drop HashEntry.key key (L (hashPos key)), hashPos x.2.key = hashPos key :=
    fun x hx => h.home _ x (mem_of_mem_drop hx)
  cases hp : t.hashNode (hashPos key) with
  | none =>
    have hL := h.hashNode_none hp
    have hsame : drop HashEntry.key key (L (hashPos key)) = L (hashPos key) := by
      rw [hL]
      rfl
    refine ⟨t, ?_, ?_⟩
    · rw [dorp_of_none hp, hL]
      rfl
    · rw [hsame, Function.update_eq_self]
      exact h
  | some p =>
    obtain ⟨e, r, l, hL, hcell, hrest⟩ := h.hashNode_some hp
    have hchain := h.chain (hashPos key)
    rw [hL] at hhome hchain ⊢
    by_cases hkey : HashEntry.key (p, e).2 = key
    · obtain ⟨h₁, hfree, -, -, hsame⟩ := Heap.exists_free hcell
      have hres : dorpResult key ((p, e) :: l) = 1 := by
        rw [dorpResult, lookup_cons_self hkey]
        rfl
      rw [drop_cons_self hkey] at hhome ⊢
      rw [hres]
      refine ⟨_, dorp_of_head hp hcell hkey hfree, h.of_bucket ?_ hhome ?_ ?_⟩
      · dsimp only
        rw [Function.update_self]
        exact Seg.congr hrest (hchain.tail_congr hsame)
      · intro j hj
        dsimp only
        rw [Function.update_of_ne hj]
      · intro a _ hne
        exact hsame a (hne (p, e) (hL ▸ List.mem_cons_self ..)).symm
    · have hlen : l.length ≤ t.heap.bound := Chain.length_le hrest
      have hchain₀ : Chain t.heap (t.hashNode (hashPos key)) ([] ++ (p, e) :: l) := hchain
      obtain ⟨h₁, hloop, hchain', hsame⟩ := dorpLoop_spec hchain₀ hcell hlen
      have hres : dorpResult key ((p, e) :: l) = dorpResult key l := by
        rw [dorpResult, dorpResult, lookup_cons_of_ne hkey]
      rw [drop_cons_of_ne hkey] at hhome ⊢
      rw [hres]
      refine ⟨_, dorp_of_not_head hp hcell hkey hloop,
        h.of_bucket hchain' hhome (fun _ _ => rfl) ?_⟩
      intro a _ hne
      exact hsame a (hL ▸ hne)

end AdhocNode
