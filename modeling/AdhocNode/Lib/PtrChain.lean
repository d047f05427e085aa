/-
  LINKED LISTS IN A HEAP — cells with a value and a link, and the chains they form.

  1. **The heap** — `Heap α` maps addresses to live cells; addresses from `bound` on have never been
     allocated, so `alloc` takes `bound` itself.  `set` and `free` are undefined (`none`) on an
     address that is not live.

  2. **Segments and chains** — `Seg h p l q`: following links from `p`, one passes the cells `l`
     (addresses and values) and arrives at `q`.  A `Chain` is a segment that ends in a null link.  A
     chain is determined by its first link (`Chain.unique`); hence it is acyclic (`Chain.nodup`) and
     no longer than `bound` (`Chain.length_le`), and it does not change when other cells do
     (`Seg.congr`).  What its first link reaches are its cells (`Chain.reaches_iff`).

  3. **Surgery** — what a chain is after a value is overwritten at its head, a cell is linked in
     behind the head, the head is cut off, or a cell is unlinked from behind its predecessor.
-/
import Mathlib.Data.List.Perm.Subperm
import Mathlib.Data.List.Nodup
import Mathlib.Logic.Function.Basic

namespace PtrChain

/-! ## The heap -/

/-- A cell: its value, and the link to the next one. -/
structure Cell (α : Type) where
  val : α
  next : Option Nat

/-- The live cells. -/
structure Heap (α : Type) where
  cells : Nat → Option (Cell α)
  bound : Nat
  fresh : ∀ a, bound ≤ a → cells a = none

namespace Heap

variable {α : Type}

/-- A live address has been allocated. -/
theorem lt_bound {h : Heap α} {a : Nat} {c : Cell α} (ha : h.cells a = some c) : a < h.bound := by
  refine Nat.lt_of_not_le fun hle => ?_
  rw [h.fresh a hle] at ha
  cases ha

/-- Allocate a cell, at address `h.bound`. -/
def alloc (c : Cell α) (h : Heap α) : Heap α where
  cells := Function.update h.cells h.bound (some c)
  bound := h.bound + 1
  fresh a ha := by
    rw [Function.update_of_ne (by omega)]
    exact h.fresh a (by omega)

/-- Overwrite a live cell. -/
def set (a : Nat) (c : Cell α) (h : Heap α) : Option (Heap α) :=
  if ha : (h.cells a).isSome then
    some {
      cells := Function.update h.cells a (some c)
      bound := h.bound
      fresh := fun b hb => by
        obtain ⟨c', hc'⟩ := Option.isSome_iff_exists.mp ha
        have hlt := lt_bound hc'
        rw [Function.update_of_ne (by omega)]
        exact h.fresh b hb }
  else none

/-- Retire a live cell. -/
def free (a : Nat) (h : Heap α) : Option (Heap α) :=
  if (h.cells a).isSome then
    some {
      cells := Function.update h.cells a none
      bound := h.bound
      fresh := fun b hb => by
        by_cases hba : b = a
        · rw [hba, Function.update_self]
        · rw [Function.update_of_ne hba]
          exact h.fresh b hb }
  else none

@[simp] theorem alloc_self (c : Cell α) (h : Heap α) : (h.alloc c).cells h.bound = some c :=
  Function.update_self ..

theorem alloc_of_ne {c : Cell α} {h : Heap α} {a : Nat} (ha : a ≠ h.bound) :
    (h.alloc c).cells a = h.cells a := Function.update_of_ne ha ..

/-- What `set` does on a live address. -/
theorem exists_set {h : Heap α} {a : Nat} {c : Cell α} (ha : h.cells a = some c) (c' : Cell α) :
    ∃ h', h.set a c' = some h' ∧ h'.cells a = some c' ∧ h'.bound = h.bound ∧
      ∀ b, b ≠ a → h'.cells b = h.cells b := by
  unfold set
  rw [dif_pos (by rw [ha]; rfl)]
  exact ⟨_, rfl, Function.update_self .., rfl, fun b hb => Function.update_of_ne hb ..⟩

/-- What `free` does on a live address. -/
theorem exists_free {h : Heap α} {a : Nat} {c : Cell α} (ha : h.cells a = some c) :
    ∃ h', h.free a = some h' ∧ h'.cells a = none ∧ h'.bound = h.bound ∧
      ∀ b, b ≠ a → h'.cells b = h.cells b := by
  unfold free
  rw [if_pos (by rw [ha]; rfl)]
  exact ⟨_, rfl, Function.update_self .., rfl, fun b hb => Function.update_of_ne hb ..⟩

/-- What is live after `alloc`. -/
theorem isSome_alloc {c : Cell α} {h : Heap α} {a : Nat} :
    ((h.alloc c).cells a).isSome ↔ (h.cells a).isSome ∨ a = h.bound := by
  by_cases ha : a = h.bound
  · rw [ha, alloc_self]
    exact ⟨fun _ => Or.inr rfl, fun _ => rfl⟩
  · rw [alloc_of_ne ha]
    exact ⟨Or.inl, fun hor => hor.resolve_right ha⟩

/-- `set` keeps what is live, and allocates nothing. -/
theorem live_of_set {c : Cell α} {h h' : Heap α} {a : Nat} (hset : h.set a c = some h') :
    h'.bound = h.bound ∧ ∀ b, (h'.cells b).isSome ↔ (h.cells b).isSome := by
  unfold set at hset
  split at hset
  · rename_i ha
    cases hset
    refine ⟨rfl, fun b => ?_⟩
    show (Function.update h.cells a (some c) b).isSome ↔ _
    by_cases hb : b = a
    · rw [hb, Function.update_self]
      exact ⟨fun _ => ha, fun _ => rfl⟩
    · rw [Function.update_of_ne hb]
  · cases hset

/-- `free` retires one cell, and allocates nothing. -/
theorem live_of_free {h h' : Heap α} {a : Nat} (hfree : h.free a = some h') :
    h'.bound = h.bound ∧ ∀ b, (h'.cells b).isSome ↔ (h.cells b).isSome ∧ a ≠ b := by
  unfold free at hfree
  split at hfree
  · cases hfree
    refine ⟨rfl, fun b => ?_⟩
    show (Function.update h.cells a none b).isSome ↔ _
    by_cases hb : a = b
    · rw [hb, Function.update_self]
      exact ⟨fun hnone => absurd hnone nofun, fun hne => absurd rfl hne.2⟩
    · rw [Function.update_of_ne (Ne.symm hb)]
      exact ⟨fun hlive => ⟨hlive, hb⟩, fun hlive => hlive.1⟩
  · cases hfree

end Heap

/-! ## Segments and chains -/

section Chains

variable {α : Type} {h h' : Heap α} {p q : Option Nat} {l l' : List (Nat × α)}

/-- The links from `p` pass the cells `l` and arrive at `q`. -/
def Seg (h : Heap α) : Option Nat → List (Nat × α) → Option Nat → Prop
  | p, [], q => p = q
  | p, x :: l, q => p = some x.1 ∧ ∃ r, h.cells x.1 = some ⟨x.2, r⟩ ∧ Seg h r l q

/-- The links from `p` pass the cells `l` and end. -/
def Chain (h : Heap α) (p : Option Nat) (l : List (Nat × α)) : Prop := Seg h p l none

theorem seg_append {k : List (Nat × α)} :
    Seg h p (l ++ k) q ↔ ∃ r, Seg h p l r ∧ Seg h r k q := by
  induction l generalizing p with
  | nil => exact ⟨fun hk => ⟨p, rfl, hk⟩, fun ⟨r, hr, hk⟩ => by rw [show p = r from hr]; exact hk⟩
  | cons x l ih =>
    constructor
    · rintro ⟨hp, s, hx, hrest⟩
      obtain ⟨r, hl, hk⟩ := ih.mp hrest
      exact ⟨r, ⟨hp, s, hx, hl⟩, hk⟩
    · rintro ⟨r, ⟨hp, s, hx, hl⟩, hk⟩
      exact ⟨hp, s, hx, ih.mpr ⟨r, hl, hk⟩⟩

/-- **Frame**: a segment depends on its own cells only. -/
theorem Seg.congr (hseg : Seg h p l q) (hsame : ∀ x ∈ l, h'.cells x.1 = h.cells x.1) :
    Seg h' p l q := by
  induction l generalizing p with
  | nil => exact hseg
  | cons x l ih =>
    obtain ⟨hp, r, hx, hrest⟩ := hseg
    refine ⟨hp, r, ?_, ih hrest fun y hy => hsame y (List.mem_cons_of_mem _ hy)⟩
    rw [hsame x (List.mem_cons_self ..)]
    exact hx

/-- The cells of a segment are live, and hold what it says. -/
theorem Seg.cell (hseg : Seg h p l q) {x : Nat × α} (hx : x ∈ l) :
    ∃ r, h.cells x.1 = some ⟨x.2, r⟩ := by
  induction l generalizing p with
  | nil => cases hx
  | cons y l ih =>
    obtain ⟨-, r, hy, hrest⟩ := hseg
    rcases List.mem_cons.mp hx with rfl | hx
    · exact ⟨r, hy⟩
    · exact ih hrest hx

/-- **A chain is determined by its first link.** -/
theorem Chain.unique (hl : Chain h p l) (hl' : Chain h p l') : l = l' := by
  induction l generalizing p l' with
  | nil =>
    cases l' with
    | nil => rfl
    | cons x l' =>
      have hp : p = none := hl
      rw [hp] at hl'
      exact nomatch hl'.1
  | cons x l ih =>
    obtain ⟨hp, r, hx, hrest⟩ := hl
    cases l' with
    | nil =>
      have hp' : p = none := hl'
      rw [hp'] at hp
      cases hp
    | cons y l' =>
      obtain ⟨hp', r', hy, hrest'⟩ := hl'
      have haddr : x.1 = y.1 := Option.some.inj (hp.symm.trans hp')
      rw [← haddr, hx] at hy
      obtain ⟨hval, rfl⟩ := Cell.mk.inj (Option.some.inj hy)
      rw [ih hrest hrest', Prod.ext haddr hval]

/-- A chain passes no cell twice. -/
theorem Chain.nodup (hl : Chain h p l) : (l.map Prod.fst).Nodup := by
  induction l generalizing p with
  | nil => exact List.nodup_nil
  | cons x l ih =>
    obtain ⟨hp, r, hx, hrest⟩ := hl
    rw [List.map_cons, List.nodup_cons]
    refine ⟨fun hmem => ?_, ih hrest⟩
    -- a second visit would have the rest of the chain behind it, shorter than it is
    obtain ⟨y, hy, hxy⟩ := List.mem_map.mp hmem
    obtain ⟨pre, post, rfl⟩ := List.append_of_mem hy
    obtain ⟨s, -, hs⟩ := seg_append.mp hrest
    have hwhole : Chain h s (x :: (pre ++ y :: post)) := by
      rw [hs.1, hxy]
      exact ⟨rfl, r, hx, hrest⟩
    have hlen := congrArg List.length (Chain.unique hs hwhole)
    rw [List.length_cons, List.length_cons, List.length_append, List.length_cons] at hlen
    omega

/-- The links from `p` lead to address `a`, live or not. -/
inductive Reaches (h : Heap α) : Option Nat → Nat → Prop
  | here (a : Nat) : Reaches h (some a) a
  | next {a b : Nat} {c : Cell α} : h.cells a = some c → Reaches h c.next b → Reaches h (some a) b

/-- What a chain reaches are its cells. -/
theorem Chain.reaches_iff (hl : Chain h p l) {a : Nat} : Reaches h p a ↔ a ∈ l.map Prod.fst := by
  constructor
  · intro hreach
    induction hreach generalizing l with
    | here a =>
      cases l with
      | nil => exact nomatch (show some a = none from hl)
      | cons x l =>
        rw [Option.some.inj hl.1]
        exact List.mem_cons_self ..
    | @next a b c hcell _ ih =>
      cases l with
      | nil => exact nomatch (show some a = none from hl)
      | cons x l =>
        rcases hl with ⟨hp, r, hx, hrest⟩
        cases hp
        rw [hx] at hcell
        cases hcell
        exact List.mem_cons_of_mem _ (ih hrest)
  · intro ha
    induction l generalizing p with
    | nil => cases ha
    | cons x l ih =>
      rcases hl with ⟨rfl, r, hx, hrest⟩
      rcases List.mem_cons.mp ha with rfl | ha
      · exact Reaches.here _
      · exact Reaches.next hx (ih hrest ha)

/-- A chain is no longer than the number of cells ever allocated. -/
theorem Chain.length_le (hl : Chain h p l) : l.length ≤ h.bound := by
  have hsub : l.map Prod.fst ⊆ List.range h.bound := by
    intro a ha
    obtain ⟨x, hx, rfl⟩ := List.mem_map.mp ha
    obtain ⟨r, hr⟩ := Seg.cell hl hx
    exact List.mem_range.mpr (Heap.lt_bound hr)
  have hlen := (List.subperm_of_subset hl.nodup hsub).length_le
  rw [List.length_map, List.length_range] at hlen
  exact hlen

end Chains

/-! ## Surgery -/

section Surgery

variable {α : Type} {h h' : Heap α} {p : Option Nat} {x y : Nat × α} {pre l : List (Nat × α)}

/-- The cells behind the head do not change when the head's cell does. -/
theorem Chain.tail_congr (hl : Chain h p (x :: l)) (hsame : ∀ b, b ≠ x.1 → h'.cells b = h.cells b) :
    ∀ z ∈ l, h'.cells z.1 = h.cells z.1 := by
  intro z hz
  have hnd := hl.nodup
  rw [List.map_cons, List.nodup_cons] at hnd
  exact hsame _ fun heq => hnd.1 (heq ▸ List.mem_map_of_mem hz)

/-- The head's value is overwritten. -/
theorem Chain.set_head (hl : Chain h p (x :: l)) {r : Option Nat} {v : α}
    (hx : ∃ w, h.cells x.1 = some ⟨w, r⟩) (hx' : h'.cells x.1 = some ⟨v, r⟩)
    (hsame : ∀ b, b ≠ x.1 → h'.cells b = h.cells b) : Chain h' p ((x.1, v) :: l) := by
  have htail := hl.tail_congr hsame
  obtain ⟨hp, s, hs, hrest⟩ := hl
  obtain ⟨w, hw⟩ := hx
  rw [hs] at hw
  cases hw
  exact ⟨hp, _, hx', Seg.congr hrest htail⟩

/-- A cell `a` is linked in behind the head. -/
theorem Chain.link_second (hl : Chain h p (x :: l)) {a : Nat} {r : Option Nat} {v : α}
    (hx : ∃ w, h.cells x.1 = some ⟨w, r⟩) (ha : h.cells a = none)
    (hx' : h'.cells x.1 = some ⟨x.2, some a⟩) (ha' : h'.cells a = some ⟨v, r⟩)
    (hsame : ∀ b, b ≠ x.1 → b ≠ a → h'.cells b = h.cells b) : Chain h' p (x :: (a, v) :: l) := by
  have htail : ∀ z ∈ l, h'.cells z.1 = h.cells z.1 := by
    intro z hz
    have hnd := hl.nodup
    rw [List.map_cons, List.nodup_cons] at hnd
    refine hsame _ (fun heq => hnd.1 (heq ▸ List.mem_map_of_mem hz)) fun heq => ?_
    obtain ⟨s, hs⟩ := Seg.cell hl (List.mem_cons_of_mem _ hz)
    rw [heq, ha] at hs
    cases hs
  obtain ⟨hp, s, hs, hrest⟩ := hl
  obtain ⟨w, hw⟩ := hx
  rw [hs] at hw
  cases hw
  exact ⟨hp, _, hx', rfl, _, ha', Seg.congr hrest htail⟩

/-- Neighbours in a chain are different cells. -/
theorem Chain.ne_next (hl : Chain h p (pre ++ x :: y :: l)) : x.1 ≠ y.1 := by
  have hnd := hl.nodup
  rw [List.map_append, List.map_cons, List.map_cons, List.nodup_append, List.nodup_cons] at hnd
  intro heq
  exact hnd.2.1.1 (heq ▸ List.mem_cons_self ..)

/-- The cell `y` is unlinked from behind `x`. -/
theorem Chain.unlink (hl : Chain h p (pre ++ x :: y :: l)) {r : Option Nat} {v : α}
    (hy : h.cells y.1 = some ⟨v, r⟩) (hx' : h'.cells x.1 = some ⟨x.2, r⟩)
    (hsame : ∀ b, b ≠ x.1 → b ≠ y.1 → h'.cells b = h.cells b) : Chain h' p (pre ++ x :: l) := by
  have hnd := hl.nodup
  rw [List.map_append, List.map_cons, List.map_cons, List.nodup_append, List.nodup_cons,
    List.nodup_cons] at hnd
  obtain ⟨-, ⟨hx, hy', -⟩, hdisj⟩ := hnd
  obtain ⟨s, hpre, hp, t, ht, hq, u, hu, hrest⟩ := seg_append.mp hl
  rw [hu] at hy
  cases hy
  refine seg_append.mpr ⟨s, hpre.congr fun z hz => ?_, hp, _, hx', hrest.congr fun z hz => ?_⟩
  · have hmem : z.1 ∈ pre.map Prod.fst := List.mem_map_of_mem hz
    exact hsame _ (hdisj _ hmem _ (List.mem_cons_self ..))
      (hdisj _ hmem _ (List.mem_cons_of_mem _ (List.mem_cons_self ..)))
  · have hmem : z.1 ∈ l.map Prod.fst := List.mem_map_of_mem hz
    exact hsame _ (fun heq => hx (List.mem_cons_of_mem _ (heq ▸ hmem))) fun heq => hy' (heq ▸ hmem)

end Surgery

end PtrChain
