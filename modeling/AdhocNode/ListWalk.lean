/-
  LOOPS THAT CHANGE THE LIST — `list_for_each_safe`, and what goes wrong without it.

  1. **The rule** — a body of `list_for_each_safe` that takes the node it is run for out of the list, or
     leaves it there, is run for every entry once and in order, and the entries it left stay in
     order (`Rings.forEachSafe`).  The loop reads one node ahead, so what the body does to its own node,
     even giving its memory back, does not matter.

  2. **Purging** — entries are deleted and freed (`purge_safe`); the same body under `list_for_each`
     ends only if there was nothing to delete (`purge_each_iff`).

  3. **Sorting out** — entries are moved to the tail of another list (`sortOut_safe`).
-/
import AdhocNode.ListRuns

namespace AdhocNode

open PtrRing WhileLoop

variable {m m' : ListMem} {σ τ : List (List ListAddr)} {K l : List ListAddr} {x head : ListAddr}
  {poison : Poison} {p : ListAddr → Bool}

/-! ## The rule -/

section Rule

variable {body : ListAddr → ListMem → Option ListMem}
  {J : List ListAddr → List (List ListAddr) → ListMem → Prop}

theorem forEachSafeBody_entry {n next : ListAddr} {k : List ListAddr} (hx : x ≠ head)
    (hbody : body x m = some m') (hnext : m'.next n = some next) :
    forEachSafeBody body head ⟨x, n, k, m⟩ = .next ⟨n, next, k ++ [x], m'⟩ := by
  simp [forEachSafeBody, hx, hbody, hnext]

theorem forEachMutBody_entry {n next : ListAddr} {k : List ListAddr} (hx : x ≠ head)
    (hbody : body x m = some m') (hnext : m'.next x = some next) :
    forEachMutBody body head ⟨x, n, k, m⟩ = .next ⟨next, n, k ++ [x], m'⟩ := by
  simp [forEachMutBody, hx, hbody, hnext]

theorem forEachMutBody_freed {n : ListAddr} {k : List ListAddr} (hx : x ≠ head)
    (hbody : body x m = some m') (hnext : m'.next x = none) :
    forEachMutBody body head ⟨x, n, k, m⟩ = .fault := by
  simp [forEachMutBody, hx, hbody, hnext]

/-- The node a loop stands at, and the one behind it, are nodes of the list. -/
theorem Rings.next_cursor (h : Rings m ((head :: K ++ l) :: τ)) :
    m.next (l.headD head) = some (m.links.next (l.headD head)) := by
  refine next_eq (h.live _ (List.mem_cons_self ..) _ ?_)
  cases l with
  | nil => exact List.mem_cons_self ..
  | cons x l => exact List.mem_append_right _ (List.mem_cons_self ..)

/-- The two reads in front of `list_for_each_safe`. -/
theorem Rings.forEachSafeInit (h : Rings m ((head :: l) :: τ)) : forEachSafeInit head m =
    some ⟨l.headD head, m.links.next (l.headD head), [], m⟩ := by
  show ((m.next head).bind fun pos => (m.next pos).bind fun n => some (⟨pos, n, [], m⟩ : MutCursor)) = _
  rw [h.next_head.1, Option.bind_some, Rings.next_cursor (K := []) h, Option.bind_some]

/-- An entry is not the head, so the loop does not end there. -/
theorem Rings.entry_ne_head (h : Rings m ((head :: K ++ x :: l) :: τ)) : x ≠ head := by
  have hring := h.ring _ (List.mem_cons_self ..)
  exact fun heq => (List.nodup_cons.mp hring.nodup).1 (by simp [heq])

/-- Behind an entry the loop finds the next one, or the head. -/
theorem Rings.next_entry (h : Rings m ((head :: K ++ x :: l) :: τ)) :
    m.links.next x = l.headD head := by
  have hring := h.ring _ (List.mem_cons_self ..)
  cases l with
  | nil =>
    have hrot : Ring m.links ([x] ++ head :: K) := hring.rotate
    exact (Ring.seam (l := []) hrot).1
  | cons y l => exact hring.linked.1

/-- **The rule for `list_for_each_safe`**: `p` says which entries the body takes out, `J` what it does
    besides, to the other lists and to the memory. -/
theorem Rings.forEachSafe
    (hbody : ∀ {k K x l τ m}, J k τ m → Rings m ((head :: K ++ x :: l) :: τ) →
      ∃ m' τ', body x m = some m' ∧ J (k ++ [x]) τ' m' ∧
        Rings m' ((head :: K ++ if p x then l else x :: l) :: τ'))
    {k : List ListAddr} (hJ : J k τ m) (h : Rings m ((head :: K ++ l) :: τ)) :
    ∃ n m' τ', Returns (forEachSafeBody body head)
        ⟨l.headD head, m.links.next (l.headD head), k, m⟩ ⟨head, n, k ++ l, m'⟩ ∧
      J (k ++ l) τ' m' ∧ Rings m' ((head :: K ++ l.filter fun x => !p x) :: τ') := by
  induction l generalizing K k m τ with
  | nil =>
    rw [List.append_nil k]
    exact ⟨_, m, τ, ⟨Run.refl _, if_pos rfl⟩, hJ, h⟩
  | cons x l ih =>
    -- read before the body is run
    have hahead := h.next_entry
    rcases hbody hJ h with ⟨m₁, τ₁, hm₁, hJ₁, h₁⟩
    have hkey : ∀ {K' : List ListAddr}, Rings m₁ ((head :: K' ++ l) :: τ₁) →
        head :: K' ++ l.filter (fun x => !p x) = head :: K ++ (x :: l).filter (fun x => !p x) →
        ∃ n m' τ', Returns (forEachSafeBody body head) ⟨x, m.links.next x, k, m⟩
            ⟨head, n, k ++ x :: l, m'⟩ ∧ J (k ++ x :: l) τ' m' ∧
          Rings m' ((head :: K ++ (x :: l).filter fun x => !p x) :: τ') := by
      intro K' h' hK'
      rcases ih hJ₁ h' with ⟨n, m', τ', hret, hJ', hrings⟩
      rw [List.append_assoc, List.singleton_append] at hret hJ'
      rw [hK'] at hrings
      refine ⟨n, m', τ', ⟨Run.head ?_ hret.1, hret.2⟩, hJ', hrings⟩
      rw [hahead]
      exact forEachSafeBody_entry h.entry_ne_head hm₁ h'.next_cursor
    cases hp : p x with
    | true =>
      rw [hp] at h₁
      exact hkey h₁ (by simp [hp])
    | false =>
      rw [hp] at h₁
      have h₂ : Rings m₁ ((head :: (K ++ [x]) ++ l) :: τ₁) := by simpa using h₁
      exact hkey h₂ (by simp [hp])

end Rule

/-! ## Purging -/

/-- A loop body that deletes the entries `p` and gives their memory back. -/
def purge (poison : Poison) (p : ListAddr → Bool) (x : ListAddr) (m : ListMem) : Option ListMem :=
  if p x then (listDel poison x m).map (ListMem.free x) else some m

/-- A node that is on no list can be freed. -/
theorem Rings.free (h : Rings m σ) (hx : x ∉ σ.flatten) : Rings (m.free x) σ where
  ring := h.ring
  apart := h.apart
  live r hr y hy := by
    have hyx : y ≠ x := fun heq => hx (heq ▸ List.mem_flatten.mpr ⟨r, hr, hy⟩)
    show Function.update m.live x false y = true
    rw [Function.update_of_ne hyx]
    exact h.live r hr y hy

/-- One entry: deleted and freed, or left. -/
theorem Rings.purge (poison : Poison) (p : ListAddr → Bool)
    (h : Rings m ((head :: K ++ x :: l) :: τ)) : ∃ m', purge poison p x m = some m' ∧
      Rings m' ((head :: K ++ if p x then l else x :: l) :: τ) ∧
      m'.live = if p x then Function.update m.live x false else m.live := by
  unfold AdhocNode.purge
  cases hp : p x with
  | true =>
    have hrem : Removed x ((head :: K ++ x :: l) :: τ) ((head :: K ++ l) :: τ) :=
      Removed.entry (List.Perm.refl _)
    rcases h.del poison hrem with ⟨k, hk, hrings⟩
    refine ⟨(m.withLinks k).free x, ?_, hrings.free h.notMem_removed, rfl⟩
    rw [if_pos rfl, hk]
    rfl
  | false => exact ⟨m, rfl, h, rfl⟩

/-- **Purging with `list_for_each_safe`** runs its body for every entry once; afterwards the list
    holds the others, and the deleted ones are freed. -/
theorem purge_safe (poison : Poison) (p : ListAddr → Bool) (h : Rings m ((head :: l) :: τ)) :
    ∃ c n m', forEachSafeInit head m = some c ∧
      Returns (forEachSafeBody (purge poison p) head) c ⟨head, n, l, m'⟩ ∧
      Rings m' ((head :: l.filter fun x => !p x) :: τ) ∧
      ∀ x, m'.live x = (m.live x && !decide (x ∈ l ∧ p x = true)) := by
  have hbody : ∀ {k K : List ListAddr} {x : ListAddr} {l : List ListAddr} {τ' : List (List ListAddr)}
      {m₁ : ListMem}, (τ' = τ ∧ ∀ x, m₁.live x = (m.live x && !decide (x ∈ k ∧ p x = true))) →
      Rings m₁ ((head :: K ++ x :: l) :: τ') → ∃ m' τ'', purge poison p x m₁ = some m' ∧
        (τ'' = τ ∧ ∀ y, m'.live y = (m.live y && !decide (y ∈ k ++ [x] ∧ p y = true))) ∧
        Rings m' ((head :: K ++ if p x then l else x :: l) :: τ'') := by
    rintro k K x l τ' m₁ ⟨rfl, hlive⟩ hrings
    rcases hrings.purge poison p with ⟨m', hm', hrings', hlive'⟩
    refine ⟨m', τ', hm', ⟨rfl, fun y => ?_⟩, hrings'⟩
    rw [hlive']
    cases hp : p x with
    | true =>
      rw [if_pos rfl, Function.update_apply]
      by_cases hy : y = x
      · simp [hy, hp]
      · simp [hy, hlive]
    | false =>
      rw [if_neg Bool.false_ne_true, hlive]
      by_cases hy : y = x
      · simp [hy, hp]
      · simp [hy]
  have hstart : τ = τ ∧ ∀ x, m.live x = (m.live x && !decide (x ∈ ([] : List ListAddr) ∧ p x = true)) :=
    ⟨rfl, by simp⟩
  rcases Rings.forEachSafe (K := []) (J := fun k τ' m' => τ' = τ ∧
      ∀ x, m'.live x = (m.live x && !decide (x ∈ k ∧ p x = true))) hbody hstart h with
    ⟨n, m', τ', hret, ⟨rfl, hlive⟩, hrings⟩
  exact ⟨_, n, m', h.forEachSafeInit, hret, hrings, hlive⟩

/-- Nodes 1 to 3, of which 1 is the head of the list of the others. -/
def threeNodes : ListMem :=
  ⟨fun a => decide (a ∈ [1, 2, 3]), ⟨fun a => a % 3 + 1, fun a => (a + 1) % 3 + 1⟩⟩

theorem threeNodes_rings : Rings threeNodes [[1, 2, 3]] where
  ring r hr := by
    rw [List.mem_singleton.mp hr]
    exact ⟨by decide, by simp [Linked, threeNodes], by simp [Linked, threeNodes]⟩
  live := by decide
  apart := List.pairwise_singleton _ _

/-- The second of its two entries is purged. -/
theorem purge_safe_threeNodes : ∃ c n m', forEachSafeInit 1 threeNodes = some c ∧
    Returns (forEachSafeBody (purge ⟨256, 290⟩ (· == 3)) 1) c ⟨1, n, [2, 3], m'⟩ ∧
    Rings m' [[1, 2]] ∧ m'.live 3 = false := by
  rcases purge_safe ⟨256, 290⟩ (· == 3) threeNodes_rings with ⟨c, n, m', hc, hret, hrings, hlive⟩
  exact ⟨c, n, m', hc, hret, hrings, hlive 3⟩

/-- At an entry that it deletes, `list_for_each` reads the `next` of freed memory. -/
theorem Rings.purge_fault (poison : Poison) (h : Rings m ((head :: K ++ x :: l) :: τ))
    (hp : p x = true) (n : ListAddr) (k : List ListAddr) :
    forEachMutBody (AdhocNode.purge poison p) head ⟨x, n, k, m⟩ = .fault := by
  rcases h.purge poison p with ⟨m₁, hm₁, -, hlive⟩
  apply forEachMutBody_freed h.entry_ne_head hm₁
  rw [hp, if_pos rfl] at hlive
  apply if_neg
  rw [hlive, Function.update_self]
  exact Bool.false_ne_true

/-- At an entry that it keeps, it goes on to the next one. -/
theorem Rings.purge_next (poison : Poison) (h : Rings m ((head :: K ++ x :: l) :: τ))
    (hp : p x = false) (n : ListAddr) (k : List ListAddr) :
    forEachMutBody (AdhocNode.purge poison p) head ⟨x, n, k, m⟩ =
      .next ⟨l.headD head, n, k ++ [x], m⟩ := by
  have hkeep : AdhocNode.purge poison p x m = some m := if_neg (by rw [hp]; exact Bool.false_ne_true)
  have hlive := h.live _ (List.mem_cons_self ..) x (by simp)
  have hahead : m.next x = some (l.headD head) := by rw [next_eq hlive, h.next_entry]
  exact forEachMutBody_entry h.entry_ne_head hkeep hahead

/-- From an entry on, the loop ends if nothing is left to delete. -/
theorem Rings.purge_each (poison : Poison) (h : Rings m ((head :: K ++ l) :: τ)) (n : ListAddr)
    (k : List ListAddr) :
    (∃ c, Returns (forEachMutBody (AdhocNode.purge poison p) head) ⟨l.headD head, n, k, m⟩ c) ↔
      ∀ x ∈ l, p x = false := by
  induction l generalizing k K with
  | nil => exact ⟨fun _ => nofun, fun _ => ⟨_, Run.refl _, if_pos rfl⟩⟩
  | cons x l ih =>
    rw [List.forall_mem_cons]
    cases hp : p x with
    | true =>
      -- the node the loop stands at is freed by its own body
      have hfault := h.purge_fault poison hp n k
      have hexit : forEachMutBody (AdhocNode.purge poison p) head ⟨x, n, k, m⟩ ≠ .exit := by
        rw [hfault]
        exact nofun
      refine ⟨?_, fun hall => absurd hall.1 Bool.noConfusion⟩
      rintro ⟨c, hret⟩
      rcases hret.of_ne_exit hexit with ⟨t, ht, -⟩
      cases hfault.symm.trans ht
    | false =>
      have hstep := h.purge_next poison hp n k
      have hrest : Rings m ((head :: (K ++ [x]) ++ l) :: τ) := by simpa using h
      rw [and_iff_right rfl, ← ih hrest (k ++ [x])]
      constructor
      · rintro ⟨c, hret⟩
        exact ⟨c, hret.of_run (Run.head hstep (Run.refl _))⟩
      · rintro ⟨c, hret⟩
        exact ⟨c, Run.head hstep hret.1, hret.2⟩

/-- **Purging with `list_for_each`** ends only if there is nothing to delete: the loop reads the `next`
    of the node that its body has just freed. -/
theorem purge_each_iff (poison : Poison) (p : ListAddr → Bool) (h : Rings m ((head :: l) :: τ)) :
    (∃ first c, m.next head = some first ∧
      Returns (forEachMutBody (purge poison p) head) ⟨first, first, [], m⟩ c) ↔
      ∀ x ∈ l, p x = false := by
  rw [← Rings.purge_each (K := []) poison h (l.headD head) []]
  constructor
  · rintro ⟨first, c, hfirst, hret⟩
    rw [h.next_head.1] at hfirst
    cases hfirst
    exact ⟨c, hret⟩
  · rintro ⟨c, hret⟩
    exact ⟨_, c, h.next_head.1, hret⟩

/-- Even the last entry must not be deleted. -/
theorem purge_each_threeNodes : ¬ ∃ first c, threeNodes.next 1 = some first ∧
    Returns (forEachMutBody (purge ⟨256, 290⟩ (· == 3)) 1) ⟨first, first, [], threeNodes⟩ c := by
  rw [purge_each_iff ⟨256, 290⟩ (· == 3) threeNodes_rings]
  decide

/-! ## Sorting out -/

/-- A loop body that moves the entries `p` to the tail of the list of `other`. -/
def sortOut (p : ListAddr → Bool) (other x : ListAddr) (m : ListMem) : Option ListMem :=
  if p x then listMoveTail x other m else some m

/-- **Sorting out with `list_for_each_safe`**: the entries `p` are moved behind those of the other list,
    both lists keep their order, and every other list stays as it is. -/
theorem sortOut_safe (p : ListAddr → Bool) {other : ListAddr} {L : List ListAddr}
    (h : Rings m ((head :: l) :: (other :: L) :: τ)) :
    ∃ c n m', forEachSafeInit head m = some c ∧
      Returns (forEachSafeBody (sortOut p other) head) c ⟨head, n, l, m'⟩ ∧
      Rings m' ((head :: l.filter fun x => !p x) :: (other :: L ++ l.filter p) :: τ) := by
  have hbody : ∀ {k K : List ListAddr} {x : ListAddr} {l : List ListAddr} {τ' : List (List ListAddr)}
      {m₁ : ListMem}, τ' = (other :: L ++ k.filter p) :: τ → Rings m₁ ((head :: K ++ x :: l) :: τ') →
      ∃ m' τ'', sortOut p other x m₁ = some m' ∧ τ'' = (other :: L ++ (k ++ [x]).filter p) :: τ ∧
        Rings m' ((head :: K ++ if p x then l else x :: l) :: τ'') := by
    rintro k K x l τ' m₁ rfl hrings
    rw [List.filter_append]
    unfold sortOut
    cases hp : p x with
    | false => exact ⟨m₁, _, rfl, rfl, by simpa [hp] using hrings⟩
    | true =>
      have hrem : Removed x ((head :: K ++ x :: l) :: (other :: L ++ k.filter p) :: τ)
          ((head :: K ++ l) :: (other :: L ++ k.filter p) :: τ) := Removed.entry (List.Perm.refl _)
      have hadd : AddedBefore x other ((head :: K ++ l) :: (other :: L ++ k.filter p) :: τ)
          ((other :: (L ++ k.filter p) ++ [x]) :: (head :: K ++ l) :: τ) :=
        AddedBefore.head (List.Perm.swap ..) hrings.notMem_removed
      rcases hrings.moveTail hrem hadd with ⟨k', hk', hrings'⟩
      refine ⟨_, _, hk', rfl, ?_⟩
      have hback := hrings'.perm (List.Perm.swap ..)
      simpa [hp] using hback
  rcases Rings.forEachSafe (K := []) (k := [])
      (J := fun k τ' _ => τ' = (other :: L ++ k.filter p) :: τ) hbody (by simp) h with
    ⟨n, m', τ', hret, rfl, hrings⟩
  exact ⟨_, n, m', h.forEachSafeInit, hret, by simpa using hrings⟩

/-- Nodes 1 to 4: a list of two entries, and one that is empty. -/
def fourNodes : ListMem :=
  ⟨fun a => decide (a ∈ [1, 2, 3, 4]),
    ⟨fun a => if a = 4 then 4 else a % 3 + 1, fun a => if a = 4 then 4 else (a + 1) % 3 + 1⟩⟩

theorem fourNodes_rings : Rings fourNodes [[1, 2, 3], [4]] where
  ring r hr := by
    rcases List.mem_pair.mp hr with rfl | rfl
    · exact ⟨by decide, by simp [Linked, fourNodes], by simp [Linked, fourNodes]⟩
    · exact ⟨by decide, by simp [fourNodes], by simp [Linked, fourNodes]⟩
  live := by decide
  apart := List.pairwise_pair.mpr (by simp)

/-- The first of the two entries is moved to the list of 4. -/
theorem sortOut_safe_fourNodes : ∃ c n m', forEachSafeInit 1 fourNodes = some c ∧
    Returns (forEachSafeBody (sortOut (· == 2) 4) 1) c ⟨1, n, [2, 3], m'⟩ ∧
    Rings m' [[1, 3], [4, 2]] :=
  sortOut_safe (· == 2) fourNodes_rings

end AdhocNode
