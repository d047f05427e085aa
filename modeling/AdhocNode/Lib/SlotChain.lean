/-
  CHAINS OF SLOTS — lists whose nodes know the pointer that leads to them.

  1. **Slots** — a slot holds the address of a node, or nothing.  Each list has a slot that leads to its first
     node, each node one that leads to the next (`Layout`), and each node a pointer back to the slot
     that leads to it (`Links`): so it can be taken out without a search, and without knowing the list.

  2. **Chains** — `Path` follows the slots through nodes whose back pointers agree, `Chain` does so to the
     end; one splits at any place (`chain_append`).

  3. **Families** — the lists of a program, no node on two (`Family`), and what becomes of them when a node is
     put at a slot, taken out, or a list is hung on another's slot.  Each rule also says that a
     node that is on no list keeps what it holds (`Kept`).
-/
import Mathlib.Data.List.Basic
import Mathlib.Data.List.Nodup
import Mathlib.Logic.Function.Basic

namespace SlotChain

/-! ## Slots -/

/-- The slots of the lists `ι` and of the nodes `α`, all different. -/
structure Layout (ι α S : Type) where
  start : ι → S
  out : α → S
  start_inj : Function.Injective start
  out_inj : Function.Injective out
  start_ne_out : ∀ i x, start i ≠ out x

/-- What the slots hold, and the pointers back. -/
structure Links (S α : Type) where
  slot : S → Option α
  back : α → Option S

namespace Links

variable {ι α S : Type}

/-- The slot `s` is made to hold `p`. -/
def setSlot [DecidableEq S] (k : Links S α) (s : S) (p : Option α) : Links S α :=
  { k with slot := Function.update k.slot s p }

/-- The pointer back of `x` is made to be `s`. -/
def setBack [DecidableEq α] (k : Links S α) (x : α) (s : Option S) : Links S α :=
  { k with back := Function.update k.back x s }

/-- The pointer back of the node `p`, if there is one. -/
def setBackOf [DecidableEq α] (k : Links S α) (p : Option α) (s : Option S) : Links S α :=
  match p with
  | some x => k.setBack x s
  | none => k

/-- The node `x` is put at slot `t`. -/
def insertAt [DecidableEq α] [DecidableEq S] (L : Layout ι α S) (k : Links S α) (t : S) (x : α) : Links S α :=
  (((k.setSlot (L.out x) (k.slot t)).setBackOf (k.slot t) (some (L.out x))).setSlot t (some x)).setBack x
    (some t)

/-- The node `x` is taken out of slot `t`; then it holds `p` and `q`. -/
def takeOut [DecidableEq α] [DecidableEq S] (L : Layout ι α S) (k : Links S α) (t : S) (x : α) (p : Option α)
    (q : Option S) : Links S α :=
  (((k.setSlot t (k.slot (L.out x))).setBackOf (k.slot (L.out x)) (some t)).setSlot (L.out x) p).setBack x q

/-- What slot `s` leads to is hung on slot `t`. -/
def rehang [DecidableEq α] [DecidableEq S] (k : Links S α) (s t : S) : Links S α :=
  ((k.setSlot t (k.slot s)).setBackOf (k.slot s) (some t)).setSlot s none

variable {k : Links S α} {s : S} {x y : α} {p : Option α} {q q' : Option S}

section

variable [DecidableEq S]

theorem setSlot_slot : (k.setSlot s p).slot = Function.update k.slot s p := rfl

theorem setSlot_slot_self : (k.setSlot s p).slot s = p := Function.update_self ..

theorem setSlot_slot_of_ne {u : S} (hu : u ≠ s) : (k.setSlot s p).slot u = k.slot u :=
  Function.update_of_ne hu ..

theorem setSlot_back : (k.setSlot s p).back = k.back := rfl

end

variable [DecidableEq α]

theorem setBack_slot : (k.setBack x q).slot = k.slot := rfl

theorem setBack_back : (k.setBack x q).back = Function.update k.back x q := rfl

theorem setBack_back_self : (k.setBack x q).back x = q := Function.update_self ..

theorem setBack_back_of_ne (hy : y ≠ x) : (k.setBack x q).back y = k.back y := Function.update_of_ne hy ..

theorem setBackOf_slot : (k.setBackOf p q).slot = k.slot := by
  cases p with
  | none => rfl
  | some x => rfl

theorem setBackOf_back_self : (k.setBackOf (some y) q).back y = q := Function.update_self ..

theorem setBackOf_back_of_ne (hp : p ≠ some y) : (k.setBackOf p q).back y = k.back y := by
  cases p with
  | none => rfl
  | some x => exact Function.update_of_ne (fun heq => hp (congrArg some heq.symm)) ..

theorem setBackOf_setSlot [DecidableEq S] {p' : Option α} :
    (k.setSlot s p').setBackOf p q = (k.setBackOf p q).setSlot s p' := by
  cases p with
  | none => rfl
  | some x => rfl

/-- Pointers back of different nodes are written in any order. -/
theorem setBackOf_setBack (hp : p ≠ some x) :
    (k.setBack x q).setBackOf p q' = (k.setBackOf p q').setBack x q := by
  cases p with
  | none => rfl
  | some y =>
    have hyx : x ≠ y := fun heq => hp (congrArg some heq.symm)
    exact congrArg (Links.mk k.slot) (Function.update_comm hyx ..)

end Links

variable {ι α S : Type} {L : Layout ι α S} {k k' : Links S α} {s t : S} {x y z : α} {A B l : List α}
  {i j : ι}

/-! ## Chains -/

/-- From slot `s` through the nodes `l`. -/
def Path (L : Layout ι α S) (k : Links S α) : S → List α → Prop
  | _, [] => True
  | s, x :: l => k.slot s = some x ∧ k.back x = some s ∧ Path L k (L.out x) l

/-- The slot behind the nodes `l`. -/
def lastSlot (L : Layout ι α S) : S → List α → S
  | s, [] => s
  | _, x :: l => lastSlot L (L.out x) l

/-- From slot `s` through the nodes `l` to the end. -/
def Chain (L : Layout ι α S) (k : Links S α) (s : S) (l : List α) : Prop :=
  Path L k s l ∧ k.slot (lastSlot L s l) = none

theorem chain_cons :
    Chain L k s (x :: l) ↔ k.slot s = some x ∧ k.back x = some s ∧ Chain L k (L.out x) l := by
  unfold Chain
  rw [Path, and_assoc, and_assoc]
  rfl

/-- A chain splits at any place. -/
theorem chain_append : Chain L k s (A ++ B) ↔ Path L k s A ∧ Chain L k (lastSlot L s A) B := by
  induction A generalizing s with
  | nil => exact ⟨fun h => ⟨trivial, h⟩, fun h => h.2⟩
  | cons x A ih =>
    rw [List.cons_append, chain_cons, ih, Path, lastSlot, and_assoc, and_assoc]

/-- What the slot of a chain holds. -/
theorem Chain.head? (h : Chain L k s l) : k.slot s = l.head? := by
  cases l with
  | nil => exact h.2
  | cons x l => exact (chain_cons.mp h).1

/-- The slot behind `l` is the first one, or a node's. -/
theorem lastSlot_cases (L : Layout ι α S) (s : S) (l : List α) :
    lastSlot L s l = s ∨ ∃ x ∈ l, lastSlot L s l = L.out x := by
  induction l generalizing s with
  | nil => exact Or.inl rfl
  | cons x l ih =>
    refine Or.inr ?_
    rcases ih (L.out x) with heq | ⟨y, hy, heq⟩
    · exact ⟨x, List.mem_cons_self .., heq⟩
    · exact ⟨y, List.mem_cons_of_mem x hy, heq⟩

theorem lastSlot_concat (L : Layout ι α S) (s : S) (l : List α) (x : α) :
    lastSlot L s (l ++ [x]) = L.out x := by
  induction l generalizing s with
  | nil => rfl
  | cons y l ih => exact ih (L.out y)

/-- The slot behind nodes of a list is not that of another node. -/
theorem lastSlot_ne_out (hx : x ∉ A) : lastSlot L (L.start i) A ≠ L.out x := by
  rcases lastSlot_cases L (L.start i) A with heq | ⟨y, hy, heq⟩
  · rw [heq]
    exact L.start_ne_out i x
  · rw [heq]
    exact fun hxy => hx (L.out_inj hxy ▸ hy)

theorem lastSlot_eq_start_iff : lastSlot L (L.start i) A = L.start j ↔ i = j ∧ A = [] := by
  cases A with
  | nil => exact ⟨fun h => ⟨L.start_inj h, rfl⟩, fun h => congrArg L.start h.1⟩
  | cons x A =>
    refine iff_of_false (fun h => ?_) fun h => List.cons_ne_nil x A h.2
    rcases lastSlot_cases L (L.out x) A with heq | ⟨y, -, heq⟩
    · exact L.start_ne_out j x (h.symm.trans heq)
    · exact L.start_ne_out j y (h.symm.trans heq)

/-- **Frame**: a path depends on its slots, the last one excepted, and on its nodes. -/
theorem Path.congr (h : Path L k s A) (hnd : A.Nodup) (hs : ∀ x ∈ A, s ≠ L.out x)
    (hslot : ∀ u, u ≠ lastSlot L s A → (u = s ∨ ∃ x ∈ A, u = L.out x) → k'.slot u = k.slot u)
    (hback : ∀ x ∈ A, k'.back x = k.back x) : Path L k' s A := by
  induction A generalizing s with
  | nil => exact trivial
  | cons x A ih =>
    rcases h with ⟨hslot₀, hback₀, hrest⟩
    rw [List.nodup_cons] at hnd
    rw [List.forall_mem_cons] at hback
    have hne : s ≠ lastSlot L (L.out x) A := by
      rcases lastSlot_cases L (L.out x) A with heq | ⟨y, hy, heq⟩
      · rw [heq]
        exact hs x (List.mem_cons_self ..)
      · rw [heq]
        exact hs y (List.mem_cons_of_mem x hy)
    refine ⟨(hslot s hne (Or.inl rfl)).trans hslot₀, hback.1.trans hback₀, ?_⟩
    refine ih hrest hnd.2 (fun y hy heq => hnd.1 (L.out_inj heq ▸ hy)) (fun u hu huA => ?_) hback.2
    refine hslot u hu (Or.inr ?_)
    rcases huA with rfl | ⟨y, hy, rfl⟩
    · exact ⟨x, List.mem_cons_self .., rfl⟩
    · exact ⟨y, List.mem_cons_of_mem x hy, rfl⟩

/-- **Frame**: a chain depends on its slots and its nodes. -/
theorem Chain.congr (h : Chain L k s l) (hs : k'.slot s = k.slot s)
    (hl : ∀ x ∈ l, k'.slot (L.out x) = k.slot (L.out x) ∧ k'.back x = k.back x) : Chain L k' s l := by
  induction l generalizing s with
  | nil => exact ⟨trivial, hs.trans h.2⟩
  | cons x l ih =>
    rw [chain_cons] at h ⊢
    rw [List.forall_mem_cons] at hl
    exact ⟨hs.trans h.1, hl.1.2.trans h.2.1, ih h.2.2 hl.1.1 hl.2⟩

/-! ## Changes -/

/-- The node `x` has been put at slot `t`. -/
structure Inserted (L : Layout ι α S) (k k' : Links S α) (t : S) (x : α) : Prop where
  slot : k'.slot t = some x
  slot_out : k'.slot (L.out x) = k.slot t
  slot_of_ne : ∀ u, u ≠ t → u ≠ L.out x → k'.slot u = k.slot u
  back : k'.back x = some t
  back_next : ∀ y, k.slot t = some y → k'.back y = some (L.out x)
  back_of_ne : ∀ y, y ≠ x → k.slot t ≠ some y → k'.back y = k.back y

/-- The node `x` has been taken out of slot `t`; what it holds itself is left open. -/
structure Unlinked (L : Layout ι α S) (k k' : Links S α) (t : S) (x : α) : Prop where
  slot : k'.slot t = k.slot (L.out x)
  slot_of_ne : ∀ u, u ≠ t → u ≠ L.out x → k'.slot u = k.slot u
  back_next : ∀ y, y ≠ x → k.slot (L.out x) = some y → k'.back y = some t
  back_of_ne : ∀ y, y ≠ x → k.slot (L.out x) ≠ some y → k'.back y = k.back y

/-- What slot `s` led to has been hung on slot `t`. -/
structure Rehung (k k' : Links S α) (s t : S) : Prop where
  slot : k'.slot t = k.slot s
  slot_old : k'.slot s = none
  slot_of_ne : ∀ u, u ≠ s → u ≠ t → k'.slot u = k.slot u
  back_first : ∀ y, k.slot s = some y → k'.back y = some t
  back_of_ne : ∀ y, k.slot s ≠ some y → k'.back y = k.back y

/-- Four assignments put a node at a slot; the order is the usual one, the successor first. -/
theorem inserted_insertAt [DecidableEq α] [DecidableEq S] (hout : t ≠ L.out x) (hx : k.slot t ≠ some x) :
    Inserted L k (k.insertAt L t x) t x := by
  have hslot : (k.insertAt L t x).slot =
      Function.update (Function.update k.slot (L.out x) (k.slot t)) t (some x) := by
    rw [Links.insertAt, Links.setBack_slot, Links.setSlot_slot, Links.setBackOf_slot, Links.setSlot_slot]
  have hback : (k.insertAt L t x).back =
      Function.update (((k.setSlot (L.out x) (k.slot t)).setBackOf (k.slot t) (some (L.out x))).back) x
        (some t) := by
    rw [Links.insertAt, Links.setBack_back, Links.setSlot_back]
  refine ⟨?_, ?_, fun u hu hux => ?_, ?_, fun y hy => ?_, fun y hyx hy => ?_⟩
  · rw [hslot, Function.update_self]
  · rw [hslot, Function.update_of_ne (Ne.symm hout), Function.update_self]
  · rw [hslot, Function.update_of_ne hu, Function.update_of_ne hux]
  · rw [hback, Function.update_self]
  · have hyx : y ≠ x := fun heq => hx (heq ▸ hy)
    rw [hback, Function.update_of_ne hyx, hy, Links.setBackOf_back_self]
  · rw [hback, Function.update_of_ne hyx, Links.setBackOf_back_of_ne hy, Links.setSlot_back]

section

variable [DecidableEq α] [DecidableEq S] {p : Option α} {q : Option S}

theorem takeOut_slot : (k.takeOut L t x p q).slot =
    Function.update (Function.update k.slot t (k.slot (L.out x))) (L.out x) p := by
  rw [Links.takeOut, Links.setBack_slot, Links.setSlot_slot, Links.setBackOf_slot, Links.setSlot_slot]

theorem takeOut_back : (k.takeOut L t x p q).back =
    Function.update ((k.setSlot t (k.slot (L.out x))).setBackOf (k.slot (L.out x)) (some t)).back x q := by
  rw [Links.takeOut, Links.setBack_back, Links.setSlot_back]

/-- What is written into the node that was taken out does not matter to the others. -/
theorem unlinked_takeOut (hout : t ≠ L.out x) : Unlinked L k (k.takeOut L t x p q) t x where
  slot := by rw [takeOut_slot, Function.update_of_ne hout, Function.update_self]
  slot_of_ne u hu hux := by rw [takeOut_slot, Function.update_of_ne hux, Function.update_of_ne hu]
  back_next y hyx hy := by rw [takeOut_back, Function.update_of_ne hyx, hy, Links.setBackOf_back_self]
  back_of_ne y hyx hy := by
    rw [takeOut_back, Function.update_of_ne hyx, Links.setBackOf_back_of_ne hy, Links.setSlot_back]

/-- The old slot is emptied, so it has to be another one. -/
theorem rehung_rehang (hst : s ≠ t) : Rehung k (k.rehang s t) s t := by
  have hslot : (k.rehang s t).slot = Function.update (Function.update k.slot t (k.slot s)) s none := by
    rw [Links.rehang, Links.setSlot_slot, Links.setBackOf_slot, Links.setSlot_slot]
  refine ⟨?_, ?_, fun u hus hut => ?_, fun y hy => ?_, fun y hy => ?_⟩
  · rw [hslot, Function.update_of_ne hst.symm, Function.update_self]
  · rw [hslot, Function.update_self]
  · rw [hslot, Function.update_of_ne hus, Function.update_of_ne hut]
  · rw [Links.rehang, Links.setSlot_back, hy, Links.setBackOf_back_self]
  · rw [Links.rehang, Links.setSlot_back, Links.setBackOf_back_of_ne hy, Links.setSlot_back]

end

/-- **Insertion**: a node put behind `A` stands between `A` and what followed. -/
theorem Chain.insert (h : Chain L k (L.start i) (A ++ B)) (hnd : (A ++ B).Nodup) (hx : x ∉ A ++ B)
    (hk : Inserted L k k' (lastSlot L (L.start i) A) x) : Chain L k' (L.start i) (A ++ x :: B) := by
  rw [List.mem_append, not_or] at hx
  rw [chain_append] at h ⊢
  rcases h with ⟨hA, hB⟩
  rw [List.nodup_append] at hnd
  have hhead := hB.head?
  constructor
  · refine hA.congr hnd.1 (fun y _ => L.start_ne_out i y) (fun u hu huA => ?_) fun y hy => ?_
    · refine hk.slot_of_ne u hu ?_
      rcases huA with rfl | ⟨y, hy, rfl⟩
      · exact L.start_ne_out i x
      · exact fun heq => hx.1 (L.out_inj heq ▸ hy)
    · refine hk.back_of_ne y (fun heq => hx.1 (heq ▸ hy)) fun hslot => ?_
      rw [hhead] at hslot
      exact hnd.2.2 y hy y (List.mem_of_mem_head? hslot) rfl
  · refine chain_cons.mpr ⟨hk.slot, hk.back, ?_⟩
    cases B with
    | nil => exact ⟨trivial, hk.slot_out.trans hhead⟩
    | cons b B =>
      have hb := chain_cons.mp hB
      refine chain_cons.mpr ⟨hk.slot_out.trans hb.1, hk.back_next b hb.1, ?_⟩
      have hslot : ∀ y ∈ b :: B, k'.slot (L.out y) = k.slot (L.out y) := by
        intro y hy
        refine hk.slot_of_ne _ (Ne.symm (lastSlot_ne_out fun hyA => hnd.2.2 y hyA y hy rfl)) ?_
        exact fun heq => hx.2 (L.out_inj heq ▸ hy)
      refine hb.2.2.congr (hslot b (List.mem_cons_self ..)) fun y hy => ?_
      refine ⟨hslot y (List.mem_cons_of_mem b hy), hk.back_of_ne y ?_ ?_⟩
      · exact fun heq => hx.2 (heq ▸ List.mem_cons_of_mem b hy)
      · rw [hb.1]
        exact fun heq => (List.nodup_cons.mp hnd.2.1).1 (Option.some.inj heq ▸ hy)

/-- **Removal**: the node behind `A` is gone, and the others keep their order. -/
theorem Chain.unlink (h : Chain L k (L.start i) (A ++ x :: B)) (hnd : (A ++ x :: B).Nodup)
    (hk : Unlinked L k k' (lastSlot L (L.start i) A) x) : Chain L k' (L.start i) (A ++ B) := by
  rw [chain_append] at h ⊢
  rcases h with ⟨hA, hB⟩
  rw [List.nodup_append, List.nodup_cons] at hnd
  have hx := chain_cons.mp hB
  have hhead := hx.2.2.head?
  constructor
  · refine hA.congr hnd.1 (fun y _ => L.start_ne_out i y) (fun u hu huA => ?_) fun y hy => ?_
    · refine hk.slot_of_ne u hu ?_
      rcases huA with rfl | ⟨y, hy, rfl⟩
      · exact L.start_ne_out i x
      · exact fun heq => hnd.2.2 y hy x (List.mem_cons_self ..) (L.out_inj heq)
    · refine hk.back_of_ne y (hnd.2.2 y hy x (List.mem_cons_self ..)) fun hslot => ?_
      rw [hhead] at hslot
      exact hnd.2.2 y hy y (List.mem_cons_of_mem x (List.mem_of_mem_head? hslot)) rfl
  · have hslot : ∀ y ∈ B, k'.slot (L.out y) = k.slot (L.out y) := by
      intro y hy
      refine hk.slot_of_ne _ (Ne.symm (lastSlot_ne_out fun hyA => ?_)) fun heq => ?_
      · exact hnd.2.2 y hyA y (List.mem_cons_of_mem x hy) rfl
      · exact hnd.2.1.1 (L.out_inj heq ▸ hy)
    cases B with
    | nil => exact ⟨trivial, hk.slot.trans hhead⟩
    | cons b B =>
      have hb := chain_cons.mp hx.2.2
      have hne : ∀ y ∈ b :: B, y ≠ x := fun y hy heq => hnd.2.1.1 (heq ▸ hy)
      refine chain_cons.mpr ⟨hk.slot.trans hb.1, hk.back_next b (hne b (List.mem_cons_self ..)) hb.1, ?_⟩
      refine hb.2.2.congr (hslot b (List.mem_cons_self ..)) fun y hy => ?_
      refine ⟨hslot y (List.mem_cons_of_mem b hy), hk.back_of_ne y (hne y (List.mem_cons_of_mem b hy)) ?_⟩
      rw [hb.1]
      exact fun heq => (List.nodup_cons.mp hnd.2.1.2).1 (Option.some.inj heq ▸ hy)

/-- **Moving**: the whole list hangs on the other slot, in the same order. -/
theorem Chain.rehang (h : Chain L k (L.start i) l) (hnd : l.Nodup)
    (hk : Rehung k k' (L.start i) (L.start j)) : Chain L k' (L.start j) l := by
  have hslot : ∀ y, k'.slot (L.out y) = k.slot (L.out y) := fun y =>
    hk.slot_of_ne _ (Ne.symm (L.start_ne_out i y)) (Ne.symm (L.start_ne_out j y))
  cases l with
  | nil => exact ⟨trivial, hk.slot.trans h.2⟩
  | cons x l =>
    have hx := chain_cons.mp h
    refine chain_cons.mpr ⟨hk.slot.trans hx.1, hk.back_first x hx.1, ?_⟩
    refine hx.2.2.congr (hslot x) fun y hy => ⟨hslot y, hk.back_of_ne y ?_⟩
    rw [hx.1]
    exact fun heq => (List.nodup_cons.mp hnd).1 (Option.some.inj heq ▸ hy)

/-! ## Families -/

/-- A node holds what it held. -/
def Kept (L : Layout ι α S) (k k' : Links S α) (z : α) : Prop :=
  k'.slot (L.out z) = k.slot (L.out z) ∧ k'.back z = k.back z

/-- An insertion is not seen by the nodes outside of the list. -/
theorem Inserted.kept (h : Chain L k (L.start i) (A ++ B))
    (hk : Inserted L k k' (lastSlot L (L.start i) A) x) (hz : z ∉ A ++ B) (hne : z ≠ x) : Kept L k k' z := by
  rw [List.mem_append, not_or] at hz
  constructor
  · exact hk.slot_of_ne _ (Ne.symm (lastSlot_ne_out hz.1)) fun heq => hne (L.out_inj heq)
  · refine hk.back_of_ne z hne fun hslot => hz.2 ?_
    rw [(chain_append.mp h).2.head?] at hslot
    exact List.mem_of_mem_head? hslot

/-- Nor is a removal. -/
theorem Unlinked.kept (h : Chain L k (L.start i) (A ++ x :: B))
    (hk : Unlinked L k k' (lastSlot L (L.start i) A) x) (hz : z ∉ A ++ x :: B) : Kept L k k' z := by
  rw [List.mem_append, List.mem_cons, not_or, not_or] at hz
  constructor
  · exact hk.slot_of_ne _ (Ne.symm (lastSlot_ne_out hz.1)) fun heq => hz.2.1 (L.out_inj heq)
  · refine hk.back_of_ne z hz.2.1 fun hslot => hz.2.2 ?_
    rw [(chain_cons.mp (chain_append.mp h).2).2.2.head?] at hslot
    exact List.mem_of_mem_head? hslot

/-- Nor is a move. -/
theorem Rehung.kept (h : Chain L k (L.start i) l) (hk : Rehung k k' (L.start i) (L.start j)) (hz : z ∉ l) :
    Kept L k k' z := by
  constructor
  · exact hk.slot_of_ne _ (Ne.symm (L.start_ne_out i z)) (Ne.symm (L.start_ne_out j z))
  · refine hk.back_of_ne z fun hslot => hz ?_
    rw [h.head?] at hslot
    exact List.mem_of_mem_head? hslot

/-- The lists of a program; `none` is no list. -/
structure Family (L : Layout ι α S) (k : Links S α) (σ : ι → Option (List α)) : Prop where
  chain : ∀ i l, σ i = some l → Chain L k (L.start i) l
  nodup : ∀ i l, σ i = some l → l.Nodup
  apart : ∀ i j l l' x, σ i = some l → σ j = some l' → x ∈ l → x ∈ l' → i = j

/-- The node is on no list. -/
def Off (σ : ι → Option (List α)) (x : α) : Prop := ∀ i l, σ i = some l → x ∉ l

section Family

variable {σ τ : ι → Option (List α)}

/-- Forgetting lists. -/
theorem Family.mono (h : Family L k σ) (hτ : ∀ i l, τ i = some l → σ i = some l) : Family L k τ where
  chain i l hi := h.chain i l (hτ i l hi)
  nodup i l hi := h.nodup i l (hτ i l hi)
  apart i j l l' x hi hj := h.apart i j l l' x (hτ i l hi) (hτ j l' hj)

/-- Around an entry. -/
theorem Family.entry (h : Family L k σ) (hi : σ i = some (A ++ x :: B)) :
    k.slot (lastSlot L (L.start i) A) = some x ∧ k.back x = some (lastSlot L (L.start i) A) ∧
      k.slot (L.out x) = B.head? := by
  have hx := chain_cons.mp (chain_append.mp (h.chain i _ hi)).2
  exact ⟨hx.1, hx.2.1, hx.2.2.head?⟩

/-- **Frame**: what a node on no list holds does not matter. -/
theorem Family.congr (h : Family L k σ) (hx : Off σ x) (hslot : ∀ u, u ≠ L.out x → k'.slot u = k.slot u)
    (hback : ∀ y, y ≠ x → k'.back y = k.back y) : Family L k' σ where
  chain i l hi := by
    refine (h.chain i l hi).congr (hslot _ (L.start_ne_out i x)) fun y hy => ?_
    have hne : y ≠ x := fun heq => hx i l hi (heq ▸ hy)
    exact ⟨hslot _ fun heq => hne (L.out_inj heq), hback y hne⟩
  nodup := h.nodup
  apart := h.apart

variable [DecidableEq ι]

/-- The lists behind a change of one. -/
theorem update_cases {l' : List α} (hj : Function.update σ i (some l) j = some l') :
    j = i ∧ l' = l ∨ j ≠ i ∧ σ j = some l' := by
  by_cases hji : j = i
  · rw [hji, Function.update_self] at hj
    exact Or.inl ⟨hji, (Option.some.inj hj).symm⟩
  · rw [Function.update_of_ne hji] at hj
    exact Or.inr ⟨hji, hj⟩

theorem Off.update (hx : Off σ x) (hl : x ∉ l) : Off (Function.update σ i (some l)) x := by
  intro j l' hj
  rcases update_cases hj with ⟨-, rfl⟩ | ⟨-, hj⟩
  · exact hl
  · exact hx j l' hj

/-- The rule for a change of one list. -/
theorem Family.replace (h : Family L k σ) (hl : Chain L k' (L.start i) l) (hnd : l.Nodup)
    (hother : ∀ j l', j ≠ i → σ j = some l' → k'.slot (L.start j) = k.slot (L.start j) ∧
      ∀ z ∈ l', z ∉ l ∧ Kept L k k' z) : Family L k' (Function.update σ i (some l)) := by
  refine ⟨fun j l' hj => ?_, fun j l' hj => ?_, fun j j' l₁ l₂ z hj hj' hz hz' => ?_⟩
  · rcases update_cases hj with ⟨rfl, rfl⟩ | ⟨hne, hj⟩
    · exact hl
    · exact (h.chain j l' hj).congr (hother j l' hne hj).1 fun z hz => ((hother j l' hne hj).2 z hz).2
  · rcases update_cases hj with ⟨rfl, rfl⟩ | ⟨hne, hj⟩
    · exact hnd
    · exact h.nodup j l' hj
  · rcases update_cases hj with ⟨rfl, rfl⟩ | ⟨hne, hσj⟩
    · rcases update_cases hj' with ⟨rfl, -⟩ | ⟨hne', hσj'⟩
      · rfl
      · exact absurd hz ((hother j' l₂ hne' hσj').2 z hz').1
    · rcases update_cases hj' with ⟨rfl, rfl⟩ | ⟨hne', hσj'⟩
      · exact absurd hz' ((hother j l₁ hne hσj).2 z hz).1
      · exact h.apart j j' l₁ l₂ z hσj hσj' hz hz'

/-- A list is made empty; what was on it is on no list any more. -/
theorem Family.reset (h : Family L k σ) (hi : k'.slot (L.start i) = none)
    (hslot : ∀ u, u ≠ L.start i → k'.slot u = k.slot u) (hback : k'.back = k.back) :
    Family L k' (Function.update σ i (some [])) := by
  refine h.replace ⟨trivial, hi⟩ List.nodup_nil fun j l' hne _ => ⟨hslot _ ?_, fun z _ => ⟨List.not_mem_nil, ?_⟩⟩
  · exact fun heq => hne (L.start_inj heq)
  · exact ⟨hslot _ (Ne.symm (L.start_ne_out i z)), congrFun hback z⟩

/-- **A node is put at a slot** of a list. -/
theorem Family.insert (h : Family L k σ) (hi : σ i = some (A ++ B)) (hx : Off σ x)
    (hk : Inserted L k k' (lastSlot L (L.start i) A) x) :
    Family L k' (Function.update σ i (some (A ++ x :: B))) ∧ ∀ z, Off σ z → z ≠ x → Kept L k k' z := by
  have hc := h.chain i _ hi
  have hnd := h.nodup i _ hi
  have hxl := hx i _ hi
  refine ⟨h.replace (hc.insert hnd hxl hk) ?_ fun j l' hne hj => ⟨hk.slot_of_ne _ ?_ ?_, fun z hz => ?_⟩,
    fun z hz hne => hk.kept hc (hz i _ hi) hne⟩
  · exact (List.perm_middle.nodup_iff).mpr (List.nodup_cons.mpr ⟨hxl, hnd⟩)
  · exact fun heq => hne (lastSlot_eq_start_iff.mp heq.symm).1.symm
  · exact L.start_ne_out j x
  · have hzx : z ≠ x := fun heq => hx j l' hj (heq ▸ hz)
    have hzl : z ∉ A ++ B := fun hzl => hne (h.apart j i _ _ z hj hi hz hzl)
    refine ⟨fun hmem => ?_, hk.kept hc hzl hzx⟩
    rcases List.mem_cons.mp (List.perm_middle.mem_iff.mp hmem) with heq | hmem
    · exact hzx heq
    · exact hzl hmem

/-- **A node is taken out** of its list. -/
theorem Family.unlink (h : Family L k σ) (hi : σ i = some (A ++ x :: B))
    (hk : Unlinked L k k' (lastSlot L (L.start i) A) x) :
    Family L k' (Function.update σ i (some (A ++ B))) ∧ ∀ z, Off σ z → Kept L k k' z := by
  have hc := h.chain i _ hi
  have hnd := h.nodup i _ hi
  refine ⟨h.replace (hc.unlink hnd hk) ?_ fun j l' hne hj => ⟨hk.slot_of_ne _ ?_ ?_, fun z hz => ?_⟩,
    fun z hz => hk.kept hc (hz i _ hi)⟩
  · exact (List.nodup_cons.mp (List.perm_middle.nodup_iff.mp hnd)).2
  · exact fun heq => hne (lastSlot_eq_start_iff.mp heq.symm).1.symm
  · exact L.start_ne_out j x
  · have hzl : z ∉ A ++ x :: B := fun hzl => hne (h.apart j i _ _ z hj hi hz hzl)
    refine ⟨fun hmem => hzl (List.perm_middle.mem_iff.mpr (List.mem_cons_of_mem x hmem)), hk.kept hc hzl⟩

/-- The node that was taken out is on no list. -/
theorem Family.off_unlinked (h : Family L k σ) (hi : σ i = some (A ++ x :: B)) :
    Off (Function.update σ i (some (A ++ B))) x := by
  intro j l hj hx
  rcases update_cases hj with ⟨-, rfl⟩ | ⟨hji, hj⟩
  · exact (List.nodup_cons.mp (List.perm_middle.nodup_iff.mp (h.nodup i _ hi))).1 hx
  · exact hji (h.apart j i _ _ x hj hi hx (List.mem_append_right A (List.mem_cons_self ..)))

/-- **A list is hung on another's slot**; what was on that one is on no list any more. -/
theorem Family.rehang (h : Family L k σ) (hi : σ i = some l) (hne : i ≠ j)
    (hk : Rehung k k' (L.start i) (L.start j)) :
    Family L k' (Function.update (Function.update σ j (some l)) i (some [])) ∧
      ∀ z, Off σ z → Kept L k k' z := by
  have hc := h.chain i l hi
  have hforget : Family L k (Function.update σ i none) := by
    refine h.mono fun j' l' hj' => ?_
    by_cases hji : j' = i
    · rw [hji, Function.update_self] at hj'
      cases hj'
    · rwa [Function.update_of_ne hji] at hj'
  have hmoved : Family L k' (Function.update (Function.update σ i none) j (some l)) := by
    refine hforget.replace (hc.rehang (h.nodup i l hi) hk) (h.nodup i l hi) fun j' l' hj'j hj' => ?_
    have hj'i : j' ≠ i := by
      rintro rfl
      rw [Function.update_self] at hj'
      cases hj'
    rw [Function.update_of_ne hj'i] at hj'
    refine ⟨hk.slot_of_ne _ (fun heq => hj'i (L.start_inj heq)) fun heq => hj'j (L.start_inj heq), ?_⟩
    intro z hz
    have hzl : z ∉ l := fun hzl => hj'i (h.apart j' i l' l z hj' hi hz hzl)
    exact ⟨hzl, hk.kept hc hzl⟩
  have hlast := hmoved.reset (i := i) hk.slot_old (fun u _ => rfl) rfl
  rw [Function.update_comm hne, Function.update_idem] at hlast
  exact ⟨hlast, fun z hz => hk.kept hc (hz i l hi)⟩

end Family

end SlotChain
