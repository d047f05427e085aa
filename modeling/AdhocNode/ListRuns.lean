/-
  RUNS OF LIST OPERATIONS — that the rings in memory are, at any time, the lists of the program.

  1. **Abstract lists** — `ListStep live op σ ρ`: what the operation `op` is for, said of lists.  `σ` holds
     the lists of the program, each its head and then its entries, in no particular order; a program
     may give up a list at any time (`giveUp`).  Heads and entries are one type in the source, and a
     node may be an entry now and a head later.

  2. **Refinement** — whatever the abstract step does to the lists, the operation is defined on memory
     that holds them and leaves memory that holds the new ones (`ListStep.refines`); hence every run
     of steps is a run of operations (`ListRun.refines`).

  3. **Reading** — on memory that holds the lists the tests and the loops see them: `list_for_each`
     passes the entries, `list_for_each_prev` passes them backwards.
-/
import AdhocNode.ListRings
import AdhocNode.Lib.Runs
import Mathlib.Data.List.Rotate

namespace AdhocNode

open PtrRing Runs

/-! ## Abstract lists -/

/-- The calls of a program to the operations on lists. -/
inductive ListOp where
  | init (list : ListAddr)
  | add (new head : ListAddr)
  | addTail (new head : ListAddr)
  | del (entry : ListAddr)
  | delInit (entry : ListAddr)
  | replace (old new : ListAddr)
  | replaceInit (old new : ListAddr)
  | swap (entry1 entry2 : ListAddr)
  | move (list head : ListAddr)
  | moveTail (list head : ListAddr)
  | bulkMoveTail (head first last : ListAddr)
  | rotateLeft (head : ListAddr)
  | rotateToFront (list head : ListAddr)
  | splice (list head : ListAddr)
  | spliceTail (list head : ListAddr)
  | spliceInit (list head : ListAddr)
  | spliceTailInit (list head : ListAddr)
  | cutPosition (list head entry : ListAddr)
  | cutBefore (list head entry : ListAddr)
  deriving DecidableEq, Repr

/-- What a call does to the memory. -/
def ListOp.exec (poison : Poison) : ListOp → ListMem → Option ListMem
  | .init list => initListHead list
  | .add new head => listAdd new head
  | .addTail new head => listAddTail new head
  | .del entry => listDel poison entry
  | .delInit entry => listDelInit entry
  | .replace old new => listReplace old new
  | .replaceInit old new => listReplaceInit old new
  | .swap entry1 entry2 => listSwap poison entry1 entry2
  | .move list head => listMove list head
  | .moveTail list head => listMoveTail list head
  | .bulkMoveTail head first last => listBulkMoveTail head first last
  | .rotateLeft head => listRotateLeft head
  | .rotateToFront list head => listRotateToFront list head
  | .splice list head => listSplice list head
  | .spliceTail list head => listSpliceTail list head
  | .spliceInit list head => listSpliceInit list head
  | .spliceTailInit list head => listSpliceTailInit list head
  | .cutPosition list head entry => listCutPosition list head entry
  | .cutBefore list head entry => listCutBefore list head entry

section Abstract

variable {σ ρ τ : List (List ListAddr)} {A B l : List ListAddr} {x e head pos : ListAddr}

/-- `e` is taken out: it was an entry, or a list of its own. -/
inductive Removed (e : ListAddr) : List (List ListAddr) → List (List ListAddr) → Prop
  | entry {σ τ : List (List ListAddr)} {head : ListAddr} {A B : List ListAddr}
    (hσ : σ.Perm ((head :: A ++ e :: B) :: τ)) : Removed e σ ((head :: A ++ B) :: τ)
  | alone {σ τ : List (List ListAddr)} (hσ : σ.Perm ([e] :: τ)) : Removed e σ τ

/-- `x`, which is on no list, is put behind `pos`: a head or an entry. -/
inductive AddedAfter (x pos : ListAddr) : List (List ListAddr) → List (List ListAddr) → Prop
  | intro {σ τ : List (List ListAddr)} {A B : List ListAddr}
    (hσ : σ.Perm ((A ++ pos :: B) :: τ)) (hx : x ∉ σ.flatten) :
    AddedAfter x pos σ ((A ++ pos :: x :: B) :: τ)

/-- `x`, which is on no list, is put before `pos`: before a head is at the end. -/
inductive AddedBefore (x pos : ListAddr) : List (List ListAddr) → List (List ListAddr) → Prop
  | head {σ τ : List (List ListAddr)} {l : List ListAddr}
    (hσ : σ.Perm ((pos :: l) :: τ)) (hx : x ∉ σ.flatten) : AddedBefore x pos σ ((pos :: l ++ [x]) :: τ)
  | entry {σ τ : List (List ListAddr)} {head : ListAddr} {A B : List ListAddr}
    (hσ : σ.Perm ((head :: A ++ pos :: B) :: τ)) (hx : x ∉ σ.flatten) :
    AddedBefore x pos σ ((head :: A ++ x :: pos :: B) :: τ)

/-- `new`, which is on no list, takes the place of `old`: a head or an entry. -/
inductive Replaced (old new : ListAddr) : List (List ListAddr) → List (List ListAddr) → Prop
  | intro {σ τ : List (List ListAddr)} {A B : List ListAddr}
    (hσ : σ.Perm ((A ++ old :: B) :: τ)) (hnew : new ∉ σ.flatten) :
    Replaced old new σ ((A ++ new :: B) :: τ)

/-- Two entries change places: in one list, or between two. -/
inductive Swapped (entry1 entry2 : ListAddr) : List (List ListAddr) → List (List ListAddr) → Prop
  | within {σ τ : List (List ListAddr)} {head : ListAddr} {A B C : List ListAddr}
    (hσ : σ.Perm ((head :: A ++ entry1 :: B ++ entry2 :: C) :: τ)) :
    Swapped entry1 entry2 σ ((head :: A ++ entry2 :: B ++ entry1 :: C) :: τ)
  | within' {σ τ : List (List ListAddr)} {head : ListAddr} {A B C : List ListAddr}
    (hσ : σ.Perm ((head :: A ++ entry2 :: B ++ entry1 :: C) :: τ)) :
    Swapped entry1 entry2 σ ((head :: A ++ entry1 :: B ++ entry2 :: C) :: τ)
  | between {σ τ : List (List ListAddr)} {head₁ head₂ : ListAddr} {A B C D : List ListAddr}
    (hσ : σ.Perm ((head₁ :: A ++ entry1 :: B) :: (head₂ :: C ++ entry2 :: D) :: τ)) :
    Swapped entry1 entry2 σ ((head₁ :: A ++ entry2 :: B) :: (head₂ :: C ++ entry1 :: D) :: τ)

/-- The entries of `list` are put behind `pos`, and `left` remains of `list`: `[]` where it was
    emptied without being initialised. -/
inductive Spliced (list pos : ListAddr) (left : List (List ListAddr)) :
    List (List ListAddr) → List (List ListAddr) → Prop
  | empty {σ τ : List (List ListAddr)} (hσ : σ.Perm ([list] :: τ)) : Spliced list pos left σ σ
  | intro {σ τ : List (List ListAddr)} {a : ListAddr} {l A B : List ListAddr}
    (hσ : σ.Perm ((list :: a :: l) :: (A ++ pos :: B) :: τ)) :
    Spliced list pos left σ (left ++ (A ++ pos :: (a :: l ++ B)) :: τ)

/-- The entries of `list` are put at the end of the list of `head`. -/
inductive SplicedTail (list head : ListAddr) (left : List (List ListAddr)) :
    List (List ListAddr) → List (List ListAddr) → Prop
  | empty {σ τ : List (List ListAddr)} (hσ : σ.Perm ([list] :: τ)) : SplicedTail list head left σ σ
  | intro {σ τ : List (List ListAddr)} {a : ListAddr} {l k : List ListAddr}
    (hσ : σ.Perm ((list :: a :: l) :: (head :: k) :: τ)) :
    SplicedTail list head left σ (left ++ (head :: k ++ a :: l) :: τ)

/-- **The abstract step**: what an operation is for.  New nodes have to be live. -/
inductive ListStep (live : ListAddr → Bool) :
    ListOp → List (List ListAddr) → List (List ListAddr) → Prop
  | giveUp {op : ListOp} {σ ρ : List (List ListAddr)} (r : List ListAddr)
    (h : ListStep live op σ ρ) : ListStep live op (r :: σ) ρ
  | init {σ : List (List ListAddr)} {x : ListAddr} (hx : x ∉ σ.flatten) (hlive : live x = true) :
    ListStep live (.init x) σ ([x] :: σ)
  | add {σ ρ : List (List ListAddr)} {x pos : ListAddr} (h : AddedAfter x pos σ ρ)
    (hlive : live x = true) : ListStep live (.add x pos) σ ρ
  | addTail {σ ρ : List (List ListAddr)} {x pos : ListAddr} (h : AddedBefore x pos σ ρ)
    (hlive : live x = true) : ListStep live (.addTail x pos) σ ρ
  | del {σ ρ : List (List ListAddr)} {e : ListAddr} (h : Removed e σ ρ) : ListStep live (.del e) σ ρ
  | delInit {σ ρ : List (List ListAddr)} {e : ListAddr} (h : Removed e σ ρ) :
    ListStep live (.delInit e) σ ([e] :: ρ)
  | replace {σ ρ : List (List ListAddr)} {old new : ListAddr} (h : Replaced old new σ ρ)
    (hlive : live new = true) : ListStep live (.replace old new) σ ρ
  | replaceInit {σ ρ : List (List ListAddr)} {old new : ListAddr} (h : Replaced old new σ ρ)
    (hlive : live new = true) : ListStep live (.replaceInit old new) σ ([old] :: ρ)
  | swap {σ ρ : List (List ListAddr)} {e₁ e₂ : ListAddr} (h : Swapped e₁ e₂ σ ρ) :
    ListStep live (.swap e₁ e₂) σ ρ
  | move {σ ρ ρ' : List (List ListAddr)} {e pos : ListAddr} (h : Removed e σ ρ)
    (h' : AddedAfter e pos ρ ρ') : ListStep live (.move e pos) σ ρ'
  | moveTail {σ ρ ρ' : List (List ListAddr)} {e pos : ListAddr} (h : Removed e σ ρ)
    (h' : AddedBefore e pos ρ ρ') : ListStep live (.moveTail e pos) σ ρ'
  | bulkMoveTail {σ τ : List (List ListAddr)} {head first : ListAddr} {A l B : List ListAddr}
    (hσ : σ.Perm ((head :: A ++ first :: l ++ B) :: τ)) :
    ListStep live (.bulkMoveTail head first (l.getLastD first)) σ ((head :: A ++ B ++ first :: l) :: τ)
  | rotateLeft {σ τ : List (List ListAddr)} {head : ListAddr} {l : List ListAddr}
    (hσ : σ.Perm ((head :: l) :: τ)) : ListStep live (.rotateLeft head) σ ((head :: l.rotate 1) :: τ)
  | rotateToFront {σ τ : List (List ListAddr)} {head e : ListAddr} {A B : List ListAddr}
    (hσ : σ.Perm ((head :: A ++ e :: B) :: τ)) :
    ListStep live (.rotateToFront e head) σ ((head :: e :: (B ++ A)) :: τ)
  | splice {σ ρ : List (List ListAddr)} {list pos : ListAddr} (h : Spliced list pos [] σ ρ) :
    ListStep live (.splice list pos) σ ρ
  | spliceTail {σ ρ : List (List ListAddr)} {list head : ListAddr}
    (h : SplicedTail list head [] σ ρ) : ListStep live (.spliceTail list head) σ ρ
  | spliceInit {σ ρ : List (List ListAddr)} {list pos : ListAddr} (h : Spliced list pos [[list]] σ ρ) :
    ListStep live (.spliceInit list pos) σ ρ
  | spliceTailInit {σ ρ : List (List ListAddr)} {list head : ListAddr}
    (h : SplicedTail list head [[list]] σ ρ) : ListStep live (.spliceTailInit list head) σ ρ
  | cutPosition {σ τ : List (List ListAddr)} {list head e : ListAddr} {A B : List ListAddr}
    (hσ : σ.Perm ((head :: A ++ e :: B) :: τ)) (hx : list ∉ σ.flatten) (hlive : live list = true) :
    ListStep live (.cutPosition list head e) σ ((list :: A ++ [e]) :: (head :: B) :: τ)
  | cutPosition_head {σ τ : List (List ListAddr)} {list head a : ListAddr} {l : List ListAddr}
    (hσ : σ.Perm ((head :: a :: l) :: τ)) (hx : list ∉ σ.flatten) (hlive : live list = true) :
    ListStep live (.cutPosition list head head) σ ([list] :: σ)
  | cutPosition_empty {σ τ : List (List ListAddr)} {list head e : ListAddr}
    (hσ : σ.Perm ([head] :: τ)) : ListStep live (.cutPosition list head e) σ σ
  | cutBefore {σ τ : List (List ListAddr)} {list head e : ListAddr} {A B : List ListAddr}
    (hσ : σ.Perm ((head :: A ++ e :: B) :: τ)) (hx : list ∉ σ.flatten) (hlive : live list = true) :
    ListStep live (.cutBefore list head e) σ ((list :: A) :: (head :: e :: B) :: τ)
  | cutBefore_head {σ τ : List (List ListAddr)} {list head : ListAddr} {l : List ListAddr}
    (hσ : σ.Perm ((head :: l) :: τ)) (hx : list ∉ σ.flatten) (hlive : live list = true) :
    ListStep live (.cutBefore list head head) σ ((list :: l) :: [head] :: τ)

/-- A run of abstract steps. -/
inductive ListRun (live : ListAddr → Bool) :
    List ListOp → List (List ListAddr) → List (List ListAddr) → Prop
  | nil (σ : List (List ListAddr)) : ListRun live [] σ σ
  | cons {op : ListOp} {ops : List ListOp} {σ ρ σ' : List (List ListAddr)}
    (h : ListStep live op σ ρ) (hrest : ListRun live ops ρ σ') : ListRun live (op :: ops) σ σ'

end Abstract

/-! ## Reading -/

section Reading

variable {m : ListMem} {σ τ : List (List ListAddr)} {A B l : List ListAddr} {e head : ListAddr}

/-- What stands behind the head: the first entry, or the head itself. -/
theorem Rings.next_head (h : Rings m ((head :: l) :: τ)) :
    m.next head = some (l.headD head) ∧ (l.headD head = head ↔ l = []) := by
  have hring := h.ring _ (List.mem_cons_self ..)
  rw [next_eq (h.around (List.mem_cons_self ..)).1.1, hring.next_head]
  refine ⟨rfl, ?_⟩
  cases l with
  | nil => simp
  | cons a l =>
    have hne : a ≠ head := fun heq => (List.nodup_cons.mp hring.nodup).1 (by simp [heq])
    simp [hne]

/-- What stands before the head: the last entry, or the head itself. -/
theorem Rings.prev_head (h : Rings m ((head :: l) :: τ)) : m.prev head = some (l.getLastD head) := by
  rw [prev_eq (h.around (List.mem_cons_self ..)).1.1, (h.ring _ (List.mem_cons_self ..)).prev_head]

/-- `list_empty`. -/
theorem Rings.empty (h : Rings m ((head :: l) :: τ)) : listEmpty head m = some l.isEmpty := by
  rcases h.next_head with ⟨hnext, hself⟩
  show ((m.next head).bind fun a => some (a == head)) = _
  rw [hnext, Option.bind_some, Option.some_inj, Bool.eq_iff_iff, beq_iff_eq, hself,
    List.isEmpty_iff]

/-- `list_is_singular`. -/
theorem Rings.singular (h : Rings m ((head :: l) :: τ)) :
    listIsSingular head m = some (l.length == 1) := by
  have hring := h.ring _ (List.mem_cons_self ..)
  show ((listEmpty head m).bind fun z => (m.next head).bind fun a => (m.prev head).bind fun b =>
    some (!z && a == b)) = _
  rw [h.empty, Option.bind_some, h.next_head.1, Option.bind_some, h.prev_head, Option.bind_some]
  rcases l with _ | ⟨a, _ | ⟨b, l⟩⟩
  · simp
  · simp
  · have hne : a ≠ l.getLastD b := by
      intro heq
      have hnodup := (List.nodup_cons.mp (List.nodup_cons.mp hring.nodup).2).1
      exact hnodup (heq ▸ getLastD_mem_cons)
    rw [List.getLastD_cons, List.getLastD_cons]
    simpa using hne

/-- The walk along a chain that ends in the head. -/
theorem exists_forEach {follow : ListAddr → Option ListAddr} {k : List ListAddr}
    (hchain : (l ++ [head]).IsChain fun a b => follow a = some b) (hl : head ∉ l) :
    WhileLoop.Returns (forEachBody follow head) ⟨l.headD head, k⟩ ⟨head, k ++ l⟩ := by
  induction l generalizing k with
  | nil =>
    rw [List.append_nil]
    exact ⟨WhileLoop.Run.refl _, if_pos rfl⟩
  | cons a l ih =>
    rw [List.mem_cons, not_or] at hl
    have hstep : forEachBody follow head ⟨a, k⟩ = .next ⟨l.headD head, k ++ [a]⟩ := by
      have hnext : follow a = some (l.headD head) := by
        cases l with
        | nil => exact (List.isChain_cons_cons.mp hchain).1
        | cons b l => exact (List.isChain_cons_cons.mp hchain).1
      rw [forEachBody, if_neg (Ne.symm hl.1), hnext]
    have hrest : (l ++ [head]).IsChain fun a b => follow a = some b := hchain.tail
    rcases ih (k := k ++ [a]) hrest hl.2 with ⟨hrun, hexit⟩
    rw [List.append_assoc, List.singleton_append] at hrun hexit
    exact ⟨WhileLoop.Run.head hstep hrun, hexit⟩

/-- **`list_for_each` passes the entries**, in order. -/
theorem Rings.forEach (h : Rings m ((head :: l) :: τ)) : Passes m.next head l := by
  have hring := h.ring _ (List.mem_cons_self ..)
  refine ⟨_, h.next_head.1, ?_⟩
  have hlive := h.live _ (List.mem_cons_self ..)
  refine exists_forEach (k := []) ?_ (List.nodup_cons.mp hring.nodup).1
  cases l with
  | nil => exact List.isChain_singleton _
  | cons a l =>
    have hrot : Ring m.links (a :: l ++ [head]) := Ring.rotate (s := [head]) hring
    refine hrot.chain.imp_of_mem_imp fun x y hx _ hxy => ?_
    rw [next_eq (hlive x (by grind)), hxy.1]

end Reading

/-! ## Refinement -/

section Refinement

variable {m : ListMem} {σ ρ τ : List (List ListAddr)} {A B l : List ListAddr}
  {x e head pos old new list : ListAddr}

/-- A node that is taken out of a ring is on no list any more. -/
theorem Rings.notMem_removed (h : Rings m ((A ++ e :: B) :: τ)) : e ∉ ((A ++ B) :: τ).flatten := by
  have hring : Ring m.links (e :: (B ++ A)) := (h.ring _ (List.mem_cons_self ..)).rotate
  rw [List.flatten_cons, List.mem_append, not_or]
  refine ⟨fun hmem => (List.nodup_cons.mp hring.nodup).1 ?_, ?_⟩
  · exact List.mem_append.mpr (List.mem_append.mp hmem).symm
  · exact Rings.notMem (O := [A ++ e :: B]) h (by simp)

/-- `__list_del_entry`, in the terms of a removal: the node was live, and is on no list then. -/
theorem Rings.removed (h : Rings m σ) (hr : Removed e σ ρ) :
    ∃ k, listDelEntry e m = some (m.withLinks k) ∧ Rings (m.withLinks k) ρ ∧ e ∉ ρ.flatten ∧
      m.live e = true := by
  cases hr with
  | entry hσ =>
    have h' := h.perm hσ
    rcases h'.delEntry (by simp) with ⟨k, hk, hrings⟩
    exact ⟨k, hk, hrings, h'.notMem_removed, (h'.around (by simp)).1.1⟩
  | alone hσ =>
    have h' := h.perm hσ
    rcases h'.delEntry_alone with ⟨k, hk, hrings⟩
    exact ⟨k, hk, hrings, Rings.notMem (O := [[e]]) h' (by simp), (h'.around (by simp)).1.1⟩

/-- A node that is on no list is put behind another one, -/
theorem Rings.addedAfter (h : Rings m σ) (ha : AddedAfter x pos σ ρ) (hlive : m.live x = true) :
    ∃ k, listAdd x pos m = some (m.withLinks k) ∧ Rings (m.withLinks k) ρ := by
  rcases ha with ⟨hσ, hx⟩
  exact (h.perm hσ).add (fun hmem => hx (hσ.flatten.mem_iff.mpr hmem)) hlive

/-- or before it; before a head means at the tail. -/
theorem Rings.addedBefore (h : Rings m σ) (ha : AddedBefore x pos σ ρ) (hlive : m.live x = true) :
    ∃ k, listAddTail x pos m = some (m.withLinks k) ∧ Rings (m.withLinks k) ρ := by
  rcases ha with ⟨hσ, hx⟩ | ⟨hσ, hx⟩
  · exact (h.perm hσ).addTail_head (fun hmem => hx (hσ.flatten.mem_iff.mpr hmem)) hlive
  · exact (h.perm hσ).addTail (fun hmem => hx (hσ.flatten.mem_iff.mpr hmem)) hlive

/-- The replaced node is live, and on no list any more. -/
theorem Rings.replaced (h : Rings m σ) (hr : Replaced old new σ ρ) (hlive : m.live new = true) :
    ∃ k, listReplace old new m = some (m.withLinks k) ∧ Rings (m.withLinks k) ρ ∧
      old ∉ ρ.flatten ∧ m.live old = true := by
  rcases hr with ⟨hσ, hnew⟩
  have h' := h.perm hσ
  have hnew' := fun hmem => hnew (hσ.flatten.mem_iff.mpr hmem)
  rcases h'.replaceNode hnew' hlive with ⟨k, hk, hrings⟩
  refine ⟨k, hk, hrings, fun hmem => ?_, (h'.around (by simp)).1.1⟩
  have hne : old ≠ new := fun heq => hnew' (by simp [heq])
  refine h'.notMem_removed ?_
  simp only [List.flatten_cons, List.mem_append, List.mem_cons] at hmem ⊢
  tauto

/-- `list_del`: taken out, and poisoned. -/
theorem Rings.del (poison : Poison) (h : Rings m σ) (hr : Removed e σ ρ) :
    ∃ k, listDel poison e m = some (m.withLinks k) ∧ Rings (m.withLinks k) ρ := by
  rcases h.removed hr with ⟨k, hk, hrings, he, hlive⟩
  rcases hrings.poison he hlive poison with ⟨k', hk', hrings'⟩
  refine ⟨k', ?_, hrings'⟩
  show ((listDelEntry e m).bind fun m => (m.setNext e poison.poison1).bind fun m =>
    m.setPrev e poison.poison2) = _
  rw [hk, Option.bind_some]
  exact hk'

/-- Taken out, then made a list of its own. -/
theorem Rings.delInit (h : Rings m σ) (hr : Removed e σ ρ) :
    ∃ k, listDelInit e m = some (m.withLinks k) ∧ Rings (m.withLinks k) ([e] :: ρ) := by
  rcases h.removed hr with ⟨k, hk, hrings, he, hlive⟩
  rcases hrings.init he hlive with ⟨k', hk', hrings'⟩
  refine ⟨k', ?_, hrings'⟩
  show ((listDelEntry e m).bind fun m => initListHead e m) = _
  rw [hk, Option.bind_some]
  exact hk'

/-- `list_move` takes a node out and puts it behind another one, -/
theorem Rings.move (h : Rings m σ) (hr : Removed e σ ρ) (ha : AddedAfter e pos ρ τ) :
    ∃ k, listMove e pos m = some (m.withLinks k) ∧ Rings (m.withLinks k) τ := by
  rcases h.removed hr with ⟨k, hk, hrings, -, hlive⟩
  rcases hrings.addedAfter ha hlive with ⟨k', hk', hrings'⟩
  refine ⟨k', ?_, hrings'⟩
  show ((listDelEntry e m).bind fun m => listAdd e pos m) = _
  rw [hk, Option.bind_some]
  exact hk'

/-- and `list_move_tail` before it. -/
theorem Rings.moveTail (h : Rings m σ) (hr : Removed e σ ρ) (ha : AddedBefore e pos ρ τ) :
    ∃ k, listMoveTail e pos m = some (m.withLinks k) ∧ Rings (m.withLinks k) τ := by
  rcases h.removed hr with ⟨k, hk, hrings, -, hlive⟩
  rcases hrings.addedBefore ha hlive with ⟨k', hk', hrings'⟩
  refine ⟨k', ?_, hrings'⟩
  show ((listDelEntry e m).bind fun m => listAddTail e pos m) = _
  rw [hk, Option.bind_some]
  exact hk'

/-- `list_swap`, where `p` stands before the second entry: it is taken out, put in the place of the
    first, and the first is put behind `p`, or behind the second where `p` was the first itself. -/
theorem Rings.swap_at (poison : Poison) {p q e₁ e₂ : ListAddr} {P Q C D E F : List ListAddr}
    {ρ' : List (List ListAddr)} (h : Rings m ((P ++ [p] ++ e₂ :: Q) :: τ))
    (h₁ : ((P ++ [p] ++ Q) :: τ).Perm ((C ++ e₁ :: D) :: ρ))
    (h₂ : ((C ++ e₂ :: D) :: ρ).Perm ((E ++ q :: F) :: ρ')) (hq : q = if p = e₁ then e₂ else p) :
    ∃ k, listSwap poison e₁ e₂ m = some (m.withLinks k) ∧
      Rings (m.withLinks k) ((E ++ q :: e₁ :: F) :: ρ') := by
  rcases h.around (x := e₂) (by simp) with ⟨⟨he₂, -⟩, -⟩
  have hp : m.links.prev e₂ = p := by
    have hring : Ring m.links (P ++ [p] ++ e₂ :: Q) := h.ring _ (List.mem_cons_self ..)
    rw [List.append_assoc, List.singleton_append] at hring
    exact hring.linked.2
  have hpos : (if (p == e₁) = true then e₂ else p) = q := by
    rw [hq]
    simp only [beq_iff_eq]
  have hrem : Removed e₂ ((P ++ [p] ++ e₂ :: Q) :: τ) ((P ++ [p] ++ Q) :: τ) := by
    rcases List.exists_cons_of_ne_nil (List.concat_ne_nil p P) with ⟨y, B, hB⟩
    rw [hB]
    exact Removed.entry (List.Perm.refl _)
  rcases h.removed hrem with ⟨-, -, -, hout, -⟩
  rcases h.del poison hrem with ⟨k₁, hk₁, hrings₁⟩
  rcases (hrings₁.perm h₁).replaced
    (Replaced.intro (List.Perm.refl _) fun hmem => hout (h₁.flatten.mem_iff.mpr hmem)) he₂ with
    ⟨k₂, hk₂, hrings₂, hout₁, he₁⟩
  have hmem : e₁ ∉ ((E ++ q :: F) :: ρ').flatten := fun hmem => hout₁ (h₂.flatten.mem_iff.mpr hmem)
  rcases (hrings₂.perm h₂).addedAfter (AddedAfter.intro (List.Perm.refl _) hmem) he₁ with
    ⟨k₃, hk₃, hrings₃⟩
  refine ⟨k₃, ?_, hrings₃⟩
  show ((m.prev e₂).bind fun pos => (listDel poison e₂ m).bind fun m =>
    (listReplace e₁ e₂ m).bind fun m =>
      listAdd e₁ (if (pos == e₁) = true then e₂ else pos) m) = _
  rw [prev_eq he₂, Option.bind_some, hp, hk₁, Option.bind_some, hk₂, Option.bind_some, hpos]
  exact hk₃

/-- The node before the end of a list that is not empty. -/
theorem exists_concat (x : ListAddr) (l : List ListAddr) : ∃ P p, x :: l = P ++ [p] :=
  ⟨_, _, (List.dropLast_append_getLast (List.cons_ne_nil x l)).symm⟩

/-- **`list_swap`**: the second entry may stand behind the first one, right behind it included,
    before it, or on another list. -/
theorem Rings.swapped (poison : Poison) {e₁ e₂ : ListAddr} (h : Rings m σ) (hs : Swapped e₁ e₂ σ ρ) :
    ∃ k, listSwap poison e₁ e₂ m = some (m.withLinks k) ∧ Rings (m.withLinks k) ρ := by
  rcases hs with @⟨τ, head, A, B, C, hσ⟩ | @⟨τ, head, A, B, C, hσ⟩ | @⟨τ, head₁, head₂, A, B, C, D, hσ⟩
  · have h' := h.perm hσ
    rcases List.eq_nil_or_concat B with rfl | ⟨B, p, rfl⟩
    · -- the second entry stands right behind the first
      have h₁ : ((head :: A ++ [e₁] ++ C) :: τ).Perm ((head :: A ++ e₁ :: C) :: τ) := by simp
      have h₂ : ((head :: A ++ e₂ :: C) :: τ).Perm ((head :: A ++ e₂ :: C) :: τ) := List.Perm.refl _
      have hswap := Rings.swap_at poison h' h₁ h₂ (if_pos rfl).symm
      simpa using hswap
    · -- something stands between the two
      rw [List.concat_eq_append] at h' ⊢
      have hne : p ≠ e₁ := by
        have hnodup := (h'.ring _ (List.mem_cons_self ..)).nodup
        grind
      have h'' : Rings m ((head :: A ++ e₁ :: B ++ [p] ++ e₂ :: C) :: τ) := by simpa using h'
      have h₁ : ((head :: A ++ e₁ :: B ++ [p] ++ C) :: τ).Perm
          ((head :: A ++ e₁ :: (B ++ p :: C)) :: τ) := by simp
      have h₂ : ((head :: A ++ e₂ :: (B ++ p :: C)) :: τ).Perm
          ((head :: A ++ e₂ :: B ++ p :: C) :: τ) := by simp
      have hswap := Rings.swap_at poison h'' h₁ h₂ (if_neg hne).symm
      simpa using hswap
  · -- the second entry stands before the first, so there is a node before it at least: the head
    have h' := h.perm hσ
    rcases exists_concat head A with ⟨P, p, hP⟩
    rw [hP] at h' ⊢
    have hne : p ≠ e₁ := by
      have hnodup := (h'.ring _ (List.mem_cons_self ..)).nodup
      grind
    have h'' : Rings m ((P ++ [p] ++ e₂ :: (B ++ e₁ :: C)) :: τ) := by simpa using h'
    have h₁ : ((P ++ [p] ++ (B ++ e₁ :: C)) :: τ).Perm ((P ++ p :: B ++ e₁ :: C) :: τ) := by simp
    have h₂ : ((P ++ p :: B ++ e₂ :: C) :: τ).Perm ((P ++ p :: (B ++ e₂ :: C)) :: τ) := by simp
    have hswap := Rings.swap_at poison h'' h₁ h₂ (if_neg hne).symm
    simpa using hswap
  · -- they are on two lists
    have h' := (h.perm hσ).perm (List.Perm.swap ..)
    rcases exists_concat head₂ C with ⟨P, p, hP⟩
    rw [hP] at h' ⊢
    have hne : p ≠ e₁ := by
      rintro rfl
      exact Rings.notMem (O := [P ++ [p] ++ e₂ :: D]) (x := p) h' (by simp) (by simp)
    have h₁ : ((P ++ [p] ++ D) :: (head₁ :: A ++ e₁ :: B) :: τ).Perm
        ((head₁ :: A ++ e₁ :: B) :: (P ++ [p] ++ D) :: τ) := List.Perm.swap ..
    have h₂ : ((head₁ :: A ++ e₂ :: B) :: (P ++ [p] ++ D) :: τ).Perm
        ((P ++ p :: D) :: (head₁ :: A ++ e₂ :: B) :: τ) := by
      rw [List.append_assoc, List.singleton_append]
      exact List.Perm.swap ..
    rcases Rings.swap_at poison h' h₁ h₂ (if_neg hne).symm with ⟨k, hk, hrings⟩
    refine ⟨k, hk, ?_⟩
    have hback := hrings.perm (List.Perm.swap ..)
    simpa using hback

/-- A non-empty list, spliced in behind `pos`. -/
theorem Rings.splice {a : ListAddr} (h : Rings m ((list :: a :: l) :: (A ++ pos :: B) :: τ)) :
    ∃ k, listSpliceRaw list pos (m.links.next pos) m = some (m.withLinks k) ∧
      Rings (m.withLinks k) ((A ++ pos :: (a :: l ++ B)) :: τ) := by
  have hswap : Rings m ((A ++ pos :: B) :: (list :: a :: l) :: τ) := h.perm (List.Perm.swap ..)
  -- seen from `pos` on, the list goes on with what stands behind `pos`, or with `pos` again
  have hrot : Rings m ((pos :: (B ++ A)) :: (list :: a :: l) :: τ) := hswap.rotate
  have hring : Ring m.links (pos :: (B ++ A)) := hrot.ring _ (List.mem_cons_self ..)
  have hback : ∀ {k : Links ListAddr}, Rings (m.withLinks k) ((pos :: (a :: l ++ (B ++ A))) :: τ) →
      Rings (m.withLinks k) ((A ++ pos :: (a :: l ++ B)) :: τ) := by
    intro k hk
    have hk' : Rings (m.withLinks k) ((pos :: (a :: l ++ B) ++ A) :: τ) := by simpa using hk
    exact hk'.rotate
  cases hrest : B ++ A with
  | nil =>
    rw [hrest] at hring hrot hback
    have hnext : m.links.next pos = pos ∧ m.links.prev pos = pos := ring_singleton.mp hring
    rcases Rings.spliceRaw (A := []) (hrot.perm (List.Perm.swap ..)) with ⟨k, hk, hrings⟩
    rw [hnext.2] at hk
    rw [hnext.1]
    refine ⟨k, hk, hback ?_⟩
    have hrot' := Rings.rotate (A := a :: l) (B := [pos]) hrings
    simpa using hrot'
  | cons b C =>
    rw [hrest] at hring hrot hback
    have hlink : Linked m.links pos b := Ring.linked (s := []) hring
    rcases Rings.spliceRaw (A := [pos]) (hrot.perm (List.Perm.swap ..)) with ⟨k, hk, hrings⟩
    rw [hlink.2] at hk
    rw [hlink.1]
    exact ⟨k, hk, hback (by simpa using hrings)⟩

/-- A non-empty list, spliced in before a head. -/
theorem Rings.spliceTail {a : ListAddr} {C : List ListAddr}
    (h : Rings m ((list :: a :: l) :: (head :: C) :: τ)) :
    ∃ k, listSpliceRaw list (m.links.prev head) head m = some (m.withLinks k) ∧
      Rings (m.withLinks k) ((head :: C ++ a :: l) :: τ) := by
  rcases Rings.spliceRaw (A := []) h with ⟨k, hk, hrings⟩
  exact ⟨k, hk, Rings.rotate (A := a :: l) (B := head :: C) hrings⟩

/-- The head of the list that was spliced in is on no list. -/
theorem Rings.notMem_spliced {a : ListAddr} {C : List ListAddr}
    (h : Rings m ((list :: a :: l) :: C :: τ)) (hσ : (a :: l ++ C).Perm A) :
    list ∉ (A :: τ).flatten := by
  have hring := h.ring _ (List.mem_cons_self ..)
  have hout := Rings.notMem (O := [list :: a :: l]) (x := list) h (by simp)
  rw [List.flatten_cons, List.mem_append, not_or] at hout
  rw [List.flatten_cons, List.mem_append, not_or]
  refine ⟨fun hmem => ?_, hout.2⟩
  rcases List.mem_append.mp (hσ.mem_iff.mpr hmem) with hmem | hmem
  · exact (List.nodup_cons.mp hring.nodup).1 hmem
  · exact hout.1 hmem

/-- `list_splice`. -/
theorem Rings.spliced (h : Rings m σ) (hs : Spliced list pos [] σ ρ) :
    ∃ k, listSplice list pos m = some (m.withLinks k) ∧ Rings (m.withLinks k) ρ := by
  have hcode : ∀ z, listEmpty list m = some z → listSplice list pos m =
      if (!z) = true then (m.next pos).bind fun n => listSpliceRaw list pos n m else some m := by
    intro z hz
    show ((listEmpty list m).bind fun z => if (!z) = true then
      (m.next pos).bind fun n => listSpliceRaw list pos n m else some m) = _
    rw [hz]
    rfl
  rcases hs with hσ | @⟨τ, a, l, A, B, hσ⟩
  · refine ⟨m.links, ?_, h⟩
    rw [hcode _ (h.perm hσ).empty]
    rfl
  · have h' := h.perm hσ
    rcases h'.splice with ⟨k, hk, hrings⟩
    have hpos := ((h'.perm (List.Perm.swap ..)).around (x := pos) (by simp)).1.1
    refine ⟨k, ?_, hrings⟩
    rw [hcode _ h'.empty, next_eq hpos]
    exact hk

/-- `list_splice_tail`. -/
theorem Rings.splicedTail (h : Rings m σ) (hs : SplicedTail list head [] σ ρ) :
    ∃ k, listSpliceTail list head m = some (m.withLinks k) ∧ Rings (m.withLinks k) ρ := by
  have hcode : ∀ z, listEmpty list m = some z → listSpliceTail list head m =
      if (!z) = true then (m.prev head).bind fun p => listSpliceRaw list p head m else some m := by
    intro z hz
    show ((listEmpty list m).bind fun z => if (!z) = true then
      (m.prev head).bind fun p => listSpliceRaw list p head m else some m) = _
    rw [hz]
    rfl
  rcases hs with hσ | @⟨τ, a, l, C, hσ⟩
  · refine ⟨m.links, ?_, h⟩
    rw [hcode _ (h.perm hσ).empty]
    rfl
  · have h' := h.perm hσ
    rcases h'.spliceTail with ⟨k, hk, hrings⟩
    have hhead := ((h'.perm (List.Perm.swap ..)).around (x := head) (by simp)).1.1
    refine ⟨k, ?_, hrings⟩
    rw [hcode _ h'.empty, prev_eq hhead]
    exact hk

/-- `list_splice_init`. -/
theorem Rings.splicedInit (h : Rings m σ) (hs : Spliced list pos [[list]] σ ρ) :
    ∃ k, listSpliceInit list pos m = some (m.withLinks k) ∧ Rings (m.withLinks k) ρ := by
  have hcode : ∀ z, listEmpty list m = some z → listSpliceInit list pos m =
      if (!z) = true then (m.next pos).bind fun n => (listSpliceRaw list pos n m).bind fun m =>
        initListHead list m else some m := by
    intro z hz
    show ((listEmpty list m).bind fun z => if (!z) = true then (m.next pos).bind fun n =>
      (listSpliceRaw list pos n m).bind fun m => initListHead list m else some m) = _
    rw [hz]
    rfl
  rcases hs with hσ | @⟨τ, a, l, A, B, hσ⟩
  · refine ⟨m.links, ?_, h⟩
    rw [hcode _ (h.perm hσ).empty]
    rfl
  · have h' := h.perm hσ
    rcases h'.splice with ⟨k, hk, hrings⟩
    have hpos := ((h'.perm (List.Perm.swap ..)).around (x := pos) (by simp)).1.1
    have hlist := (h'.around (x := list) (by simp)).1.1
    have hout : list ∉ ((A ++ pos :: (a :: l ++ B)) :: τ).flatten := by
      refine h'.notMem_spliced ?_
      exact List.perm_append_comm_assoc (a :: l) A (pos :: B) |>.trans
        ((List.perm_middle).append_left A)
    rcases hrings.init hout hlist with ⟨k', hk', hrings'⟩
    refine ⟨k', ?_, hrings'⟩
    rw [hcode _ h'.empty, next_eq hpos]
    show (listSpliceRaw list pos (m.links.next pos) m).bind (initListHead list) = _
    rw [hk, Option.bind_some]
    exact hk'

/-- `list_splice_tail_init`. -/
theorem Rings.splicedTailInit (h : Rings m σ) (hs : SplicedTail list head [[list]] σ ρ) :
    ∃ k, listSpliceTailInit list head m = some (m.withLinks k) ∧ Rings (m.withLinks k) ρ := by
  have hcode : ∀ z, listEmpty list m = some z → listSpliceTailInit list head m =
      if (!z) = true then (m.prev head).bind fun p => (listSpliceRaw list p head m).bind fun m =>
        initListHead list m else some m := by
    intro z hz
    show ((listEmpty list m).bind fun z => if (!z) = true then (m.prev head).bind fun p =>
      (listSpliceRaw list p head m).bind fun m => initListHead list m else some m) = _
    rw [hz]
    rfl
  rcases hs with hσ | @⟨τ, a, l, C, hσ⟩
  · refine ⟨m.links, ?_, h⟩
    rw [hcode _ (h.perm hσ).empty]
    rfl
  · have h' := h.perm hσ
    rcases h'.spliceTail with ⟨k, hk, hrings⟩
    have hhead := ((h'.perm (List.Perm.swap ..)).around (x := head) (by simp)).1.1
    have hlist := (h'.around (x := list) (by simp)).1.1
    have hout : list ∉ ((head :: C ++ a :: l) :: τ).flatten := h'.notMem_spliced List.perm_append_comm
    rcases hrings.init hout hlist with ⟨k', hk', hrings'⟩
    refine ⟨k', ?_, hrings'⟩
    rw [hcode _ h'.empty, prev_eq hhead]
    show (listSpliceRaw list (m.links.prev head) head m).bind (initListHead list) = _
    rw [hk, Option.bind_some]
    exact hk'

/-- `list_rotate_left`. -/
theorem Rings.rotateLeft (h : Rings m ((head :: l) :: τ)) :
    ∃ k, listRotateLeft head m = some (m.withLinks k) ∧
      Rings (m.withLinks k) ((head :: l.rotate 1) :: τ) := by
  have hcode : listRotateLeft head m = if (!l.isEmpty) = true then
      (m.next head).bind fun first => listMoveTail first head m else some m := by
    show ((listEmpty head m).bind fun z => if (!z) = true then
      (m.next head).bind fun first => listMoveTail first head m else some m) = _
    rw [h.empty]
    rfl
  rw [hcode]
  cases l with
  | nil => exact ⟨m.links, rfl, h⟩
  | cons a l =>
    rw [List.isEmpty_cons, Bool.not_false, if_pos rfl, h.next_head.1, Option.bind_some,
      List.headD_cons, List.rotate_cons_succ, List.rotate_zero]
    have hout := Rings.notMem_removed (A := [head]) h
    exact h.moveTail (Removed.entry (A := []) (List.Perm.refl _))
      (AddedBefore.head (List.Perm.refl _) hout)

/-- `list_rotate_to_front`: the head is taken out and put before the entry. -/
theorem Rings.rotateToFront (h : Rings m ((head :: A ++ e :: B) :: τ)) :
    ∃ k, listRotateToFront e head m = some (m.withLinks k) ∧
      Rings (m.withLinks k) ((head :: e :: (B ++ A)) :: τ) := by
  rcases Rings.delEntry (A := []) h (by simp) with ⟨k, hk, hrings⟩
  have hout : head ∉ ((A ++ e :: B) :: τ).flatten := Rings.notMem_removed (A := []) h
  rcases hrings.addTail hout (h.around (by simp)).1.1 with ⟨k', hk', hrings'⟩
  refine ⟨k', ?_, hrings'.rotate⟩
  show ((listDelEntry head m).bind fun m => listAddTail head e m) = _
  rw [hk, Option.bind_some]
  exact hk'

/-- Cutting the first entries off: the last of them and the node behind it are known, the first is read
    off the head. -/
theorem Rings.cut_front {a : ListAddr} (h : Rings m ((head :: a :: l ++ B) :: τ))
    (hx : x ∉ ((head :: a :: l ++ B) :: τ).flatten) (hlive : m.live x = true) :
    m.links.next head = a ∧ m.links.next (l.getLastD a) = B.headD head ∧
      Rings (m.withLinks (((m.links.link x a).link (l.getLastD a) x).link head (B.headD head)))
        ((x :: a :: l) :: (head :: B) :: τ) := by
  have hring : Ring m.links (head :: a :: l ++ B) := h.ring _ (List.mem_cons_self ..)
  have hfirst : Linked m.links head a := Ring.linked (s := []) hring
  -- the rest starts behind the piece and ends with the head
  have hrot : Rings m ((a :: l ++ (B ++ [head])) :: τ) := by
    have hrot' : Rings m ((a :: l ++ B ++ [head]) :: τ) := Rings.rotate (A := [head]) h
    rw [List.append_assoc] at hrot'
    exact hrot'
  have hx' : x ∉ ((a :: l ++ (B ++ [head])) :: τ).flatten := by
    intro hmem
    refine hx ?_
    simp only [List.flatten_cons, List.mem_append, List.mem_cons] at hmem ⊢
    tauto
  have hkey : ∀ {b : ListAddr} {C : List ListAddr}, B ++ [head] = b :: C →
      m.links.next (l.getLastD a) = b ∧
        Rings (m.withLinks (((m.links.link x a).link (l.getLastD a) x).link head b))
          ((x :: a :: l) :: (B ++ [head]) :: τ) := by
    intro b C hbC
    rw [hbC] at hrot hx' ⊢
    have hring' := hrot.ring _ (List.mem_cons_self ..)
    refine ⟨hring'.seam.1, hrot.cut hx' hlive ?_⟩
    rw [hfirst.2]
  cases B with
  | nil =>
    rcases hkey rfl with ⟨hnext, hrings⟩
    exact ⟨hfirst.1, hnext, hrings⟩
  | cons b C =>
    rcases hkey rfl with ⟨hnext, hrings⟩
    refine ⟨hfirst.1, hnext, ?_⟩
    have hback := (hrings.perm (List.Perm.swap ..)).rotate
    exact hback.perm (List.Perm.swap ..)

/-- `list_cut_position`, at an entry. -/
theorem Rings.cutPosition (h : Rings m ((head :: A ++ e :: B) :: τ))
    (hx : list ∉ ((head :: A ++ e :: B) :: τ).flatten) (hlive : m.live list = true) :
    ∃ k, listCutPosition list head e m = some (m.withLinks k) ∧
      Rings (m.withLinks k) ((list :: A ++ [e]) :: (head :: B) :: τ) := by
  have hring := h.ring _ (List.mem_cons_self ..)
  have hne : e ≠ head := fun heq => (List.nodup_cons.mp hring.nodup).1 (by simp [heq])
  rcases h.around (x := head) (by simp) with ⟨⟨hhead, hfirst, -⟩, -⟩
  rcases h.around (x := e) (by simp) with ⟨⟨he, hnext, -⟩, -⟩
  have hempty : listEmpty head m = some false := by
    rw [Rings.empty (l := A ++ e :: B) h]
    simp
  -- where there is one entry only it is the one given, so the operation is not refused
  have hgiven : ((A ++ e :: B).length == 1 && (m.links.next head != e && head != e)) = false := by
    rcases A with _ | ⟨a, A⟩
    · have hlink : Linked m.links head e := Ring.linked (s := []) hring
      simp [hlink.1]
    · simp
  have hcode : listCutPosition list head e m = listCutPositionRaw list head e m := by
    show ((listEmpty head m).bind fun z => if z = true then some m else
      (listIsSingular head m).bind fun w => (m.next head).bind fun n =>
        if (w && (n != e && head != e)) = true then some m
        else if (e == head) = true then initListHead list m
        else listCutPositionRaw list head e m) = _
    rw [hempty, Option.bind_some, if_neg Bool.false_ne_true,
      Rings.singular (l := A ++ e :: B) h, Option.bind_some, next_eq hhead, Option.bind_some, hgiven,
      if_neg Bool.false_ne_true, if_neg (by simpa using hne)]
  refine ⟨_, hcode.trans (listCutPositionRaw_eq hlive hhead he hfirst hnext), ?_⟩
  rcases List.exists_cons_of_ne_nil (l := A ++ [e]) (by simp) with ⟨a, p, hpiece⟩
  have hlast : p.getLastD a = e := by
    have hconcat : (A ++ [e]).getLastD e = e := List.getLastD_concat
    rw [hpiece, List.getLastD_cons] at hconcat
    exact hconcat
  have hlist : head :: A ++ e :: B = head :: a :: p ++ B := by
    rw [List.append_cons, List.cons_append, hpiece]
  rw [hlist] at h hx
  rcases h.cut_front hx hlive with ⟨hfirst', hnext', hrings⟩
  rw [hlast] at hnext' hrings
  rw [hfirst', hnext', List.cons_append, hpiece]
  exact hrings

/-- `list_cut_before`, for a node behind which `B` follows: an entry, or the head itself. -/
theorem Rings.cutBefore {e : ListAddr} (h : Rings m ((head :: l ++ B) :: τ)) (he : e = B.headD head)
    (hx : list ∉ ((head :: l ++ B) :: τ).flatten) (hlive : m.live list = true) :
    ∃ k, listCutBefore list head e m = some (m.withLinks k) ∧
      Rings (m.withLinks k) ((list :: l) :: (head :: B) :: τ) := by
  have hring := h.ring _ (List.mem_cons_self ..)
  rcases h.around (x := head) (by simp) with ⟨⟨hhead, hfirst, -⟩, -⟩
  cases l with
  | nil =>
    have hcode : listCutBefore list head e m = initListHead list m := by
      show ((m.next head).bind fun n => if (n == e) = true then initListHead list m else _) = _
      rw [(Rings.next_head (l := B) h).1, Option.bind_some, if_pos (by simp [he])]
    rw [hcode]
    exact h.init hx hlive
  | cons a l =>
    rcases h.cut_front hx hlive with ⟨hfirst', hnext', hrings⟩
    have hlast : l.getLastD a ∈ head :: a :: l ++ B :=
      List.mem_append_left _ (List.mem_cons_of_mem _ getLastD_mem_cons)
    rcases hring.closed_under hlast with ⟨hmem, -, hback, -⟩
    rw [hnext', ← he] at hmem hback
    have hne : e ≠ m.links.next head := by
      -- the node before the first entry is the head, the one before `e` is an entry
      rw [hfirst']
      intro heq
      have hprev : m.links.prev a = head := (Ring.linked (s := []) hring).2
      rw [heq, hprev] at hback
      exact (List.nodup_cons.mp hring.nodup).1
        (hback ▸ List.mem_append_left _ getLastD_mem_cons)
    rcases h.around hmem with ⟨⟨helive, -, heprev⟩, -⟩
    refine ⟨_, listCutBefore_eq hlive hhead helive hfirst hne heprev, ?_⟩
    rw [hfirst', hback, he]
    exact hrings

/-- `list_cut_position`, at the head: nothing is cut off. -/
theorem Rings.cutPosition_head {a : ListAddr} (h : Rings m σ) (hσ : σ.Perm ((head :: a :: l) :: τ))
    (hx : list ∉ σ.flatten) (hlive : m.live list = true) :
    ∃ k, listCutPosition list head head m = some (m.withLinks k) ∧
      Rings (m.withLinks k) ([list] :: σ) := by
  have h' := h.perm hσ
  have hcode : listCutPosition list head head m = initListHead list m := by
    show ((listEmpty head m).bind fun z => if z = true then some m else
      (listIsSingular head m).bind fun w => (m.next head).bind fun n =>
        if (w && (n != head && head != head)) = true then some m
        else if (head == head) = true then initListHead list m
        else listCutPositionRaw list head head m) = _
    rw [h'.empty, h'.singular, h'.next_head.1]
    simp
  rw [hcode]
  exact h.init hx hlive

/-- **Refinement of one step**: on memory that holds the lists an operation is defined, and leaves
    memory that holds the lists of the abstract step. -/
theorem ListStep.refines {op : ListOp} (poison : Poison) (hstep : ListStep m.live op σ ρ)
    (h : Rings m σ) : ∃ k, op.exec poison m = some (m.withLinks k) ∧ Rings (m.withLinks k) ρ := by
  induction hstep with
  | giveUp r _ ih => exact ih h.tail
  | init hx hlive => exact h.init hx hlive
  | add hadd hlive => exact h.addedAfter hadd hlive
  | addTail hadd hlive => exact h.addedBefore hadd hlive
  | del hr => exact h.del poison hr
  | delInit hr => exact h.delInit hr
  | replace hr hlive =>
    rcases h.replaced hr hlive with ⟨k, hk, hrings, -⟩
    exact ⟨k, hk, hrings⟩
  | replaceInit hr hlive =>
    rcases h.replaced hr hlive with ⟨k, hk, hrings, hout, hold⟩
    rcases hrings.init hout hold with ⟨k', hk', hrings'⟩
    refine ⟨k', ?_, hrings'⟩
    show (listReplace _ _ m).bind _ = _
    rw [hk, Option.bind_some]
    exact hk'
  | swap hs => exact h.swapped poison hs
  | move hr hadd => exact h.move hr hadd
  | moveTail hr hadd => exact h.moveTail hr hadd
  | bulkMoveTail hσ => exact (h.perm hσ).bulkMoveTail
  | rotateLeft hσ => exact (h.perm hσ).rotateLeft
  | rotateToFront hσ => exact (h.perm hσ).rotateToFront
  | splice hs => exact h.spliced hs
  | spliceTail hs => exact h.splicedTail hs
  | spliceInit hs => exact h.splicedInit hs
  | spliceTailInit hs => exact h.splicedTailInit hs
  | cutPosition hσ hx hlive =>
    exact (h.perm hσ).cutPosition (fun hmem => hx (hσ.flatten.mem_iff.mpr hmem)) hlive
  | cutPosition_head hσ hx hlive => exact h.cutPosition_head hσ hx hlive
  | cutPosition_empty hσ =>
    refine ⟨m.links, ?_, h⟩
    show (listEmpty _ m).bind _ = _
    rw [(h.perm hσ).empty]
    rfl
  | cutBefore hσ hx hlive =>
    exact (h.perm hσ).cutBefore rfl (fun hmem => hx (hσ.flatten.mem_iff.mpr hmem)) hlive
  | @cutBefore_head _ τ list head l hσ hx hlive =>
    have h' := h.perm hσ
    rw [← List.append_nil l, ← List.cons_append] at h'
    refine h'.cutBefore rfl (fun hmem => hx (hσ.flatten.mem_iff.mpr ?_)) hlive
    simpa using hmem

/-- **Refinement of runs**: every run of abstract steps is a run of the operations. -/
theorem ListRun.refines {ops : List ListOp} {σ' : List (List ListAddr)} (poison : Poison)
    (hrun : ListRun m.live ops σ σ') (h : Rings m σ) :
    ∃ k, run (ListOp.exec poison) m ops = some (m.withLinks k) ∧ Rings (m.withLinks k) σ' := by
  generalize hlive : m.live = live at hrun
  induction hrun generalizing m with
  | nil => exact ⟨m.links, rfl, h⟩
  | cons hstep _ ih =>
    rw [← hlive] at hstep
    rcases hstep.refines poison h with ⟨k, hk, hrings⟩
    rcases ih hrings hlive with ⟨k', hk', hrings'⟩
    exact ⟨k', (run_cons hk).trans hk', hrings'⟩

end Refinement

/-! ## The lists of a program -/

end AdhocNode
