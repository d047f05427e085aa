/-
  RUNS OF HLIST OPERATIONS — what the operations on `struct hlist_head` mean to a program.

  1. **Operations** — at live heads and nodes every operation is defined, and changes the links as it is
     meant to (`hlistAddHead_spec`, `hlistDelRaw_spec`, ...).  The four ways to add a node are one change:
     the node is put at a slot.

  2. **Abstract lists** — a program has lists, and nodes on no list that were initialised or made a fake list
     (`Hlists`).  `HlistStep` says what an operation means to them, and when it may be called.

  3. **Refinement** (`HlistStep.refines`) — memory that holds the lists (`HlistRep`) holds those of the
     abstract step afterwards; by induction so does a run, and what a program can ask of its lists and
     nodes is answered as the abstract run says (`hlists_seen`).
-/
import AdhocNode.HlistHead
import AdhocNode.Lib.Runs

namespace AdhocNode

open SlotChain WhileLoop Runs

variable {m m' : HlistMem} {k k' : Links HlistSlot HlistAddr} {h h' n next prev : HlistAddr} {s : HlistSlot}

/-! ## Accesses -/

namespace HlistMem

section

variable (k : Links HlistSlot HlistAddr) {p : Option HlistAddr} {q : Option HlistSlot}

/-- What is live is read and written as the links say. -/
theorem load_withLinks (hs : m.live s = true) : (m.withLinks k).load s = some (k.slot s) := if_pos hs

theorem store_withLinks (hs : m.live s = true) :
    (m.withLinks k).store s p = some (m.withLinks (k.setSlot s p)) := if_pos hs

theorem pprev_withLinks (hn : m.node n = true) : (m.withLinks k).pprev n = some (k.back n) := if_pos hn

theorem setPprev_withLinks (hn : m.node n = true) :
    (m.withLinks k).setPprev n q = some (m.withLinks (k.setBack n q)) := if_pos hn

theorem storeAt_withLinks (hs : m.live s = true) :
    (m.withLinks k).storeAt (some s) p = some (m.withLinks (k.setSlot s p)) := if_pos hs

/-- `if (next) next->pprev = ...`: a null pointer is not followed. -/
theorem setPprevOf_withLinks (hp : ∀ x, p = some x → m.node x = true) :
    (m.withLinks k).setPprevOf p q = some (m.withLinks (k.setBackOf p q)) := by
  cases p with
  | none => rfl
  | some x => exact setPprev_withLinks k (hp x rfl)

end

end HlistMem

/-! ## Operations -/

section Operations

open HlistMem

/-- `hlist_add_head` puts the node at the slot of the head. -/
theorem hlistAddHead_eq (hh : m.head h = true) (hn : m.node n = true)
    (hfirst : ∀ x, m.links.slot (.first h) = some x → m.node x = true) :
    hlistAddHead n h m = some (m.withLinks (m.links.insertAt hlistLayout (.first h) n)) := by
  have hh' : m.live (.first h) = true := hh
  have hn' : m.live (.next n) = true := hn
  show (((m.withLinks m.links).load (.first h)).bind fun first =>
    ((m.withLinks m.links).store (.next n) first).bind fun m =>
      (m.setPprevOf first (some (.next n))).bind fun m => (m.store (.first h) (some n)).bind fun m =>
        m.setPprev n (some (.first h))) = _
  rw [load_withLinks _ hh', Option.bind_some, store_withLinks _ hn', Option.bind_some,
    setPprevOf_withLinks _ hfirst, Option.bind_some, store_withLinks _ hh', Option.bind_some,
    setPprev_withLinks _ hn]
  rfl

/-- `hlist_add_behind` puts it at the slot of `prev`; it reads `n->next` back after `prev->next` has
    been written, which is another slot as `prev` is not `n`. -/
theorem hlistAddBehind_eq (hprev : m.node prev = true) (hn : m.node n = true) (hne : prev ≠ n)
    (hnext : ∀ x, m.links.slot (.next prev) = some x → m.node x = true ∧ x ≠ n) :
    hlistAddBehind n prev m = some (m.withLinks (m.links.insertAt hlistLayout (.next prev) n)) := by
  have hprev' : m.live (.next prev) = true := hprev
  have hn' : m.live (.next n) = true := hn
  have hlive : ∀ x, m.links.slot (.next prev) = some x → m.node x = true := fun x hx => (hnext x hx).1
  have hnot : m.links.slot (.next prev) ≠ some n := fun hx => (hnext n hx).2 rfl
  have hread : Function.update (Function.update m.links.slot (.next n) (m.links.slot (.next prev)))
      (.next prev) (some n) (.next n) = m.links.slot (.next prev) := by
    rw [Function.update_of_ne fun heq => hne (HlistSlot.next.inj heq).symm, Function.update_self]
  show (((m.withLinks m.links).load (.next prev)).bind fun next =>
    ((m.withLinks m.links).store (.next n) next).bind fun m => (m.store (.next prev) (some n)).bind fun m =>
      (m.setPprev n (some (.next prev))).bind fun m => (m.load (.next n)).bind fun next =>
        m.setPprevOf next (some (.next n))) = _
  rw [load_withLinks _ hprev', Option.bind_some, store_withLinks _ hn', Option.bind_some,
    store_withLinks _ hprev', Option.bind_some, setPprev_withLinks _ hn, Option.bind_some,
    load_withLinks _ hn', Option.bind_some, Links.setBack_slot, Links.setSlot_slot, Links.setSlot_slot, hread,
    setPprevOf_withLinks _ hlive, Links.setBackOf_setBack hnot, Links.setBackOf_setSlot]
  rfl

/-- `hlist_add_before` puts it at the slot that `next` is behind: `*(n->pprev)` is that slot, whether a head
    or an entry. -/
theorem hlistAddBefore_eq (hnext : m.node next = true) (hn : m.node n = true) (hne : next ≠ n)
    (hs : m.live s = true) (hback : m.links.back next = some s) (hslot : m.links.slot s = some next) :
    hlistAddBefore n next m = some (m.withLinks (m.links.insertAt hlistLayout s n)) := by
  have hn' : m.live (.next n) = true := hn
  have hread : Function.update (Function.update m.links.back n (some s)) next (some (.next n)) n = some s := by
    rw [Function.update_of_ne hne.symm, Function.update_self]
  show (((m.withLinks m.links).pprev next).bind fun pprev =>
    ((m.withLinks m.links).setPprev n pprev).bind fun m => (m.store (.next n) (some next)).bind fun m =>
      (m.setPprev next (some (.next n))).bind fun m => (m.pprev n).bind fun pprev =>
        m.storeAt pprev (some n)) = _
  rw [pprev_withLinks _ hnext, Option.bind_some, setPprev_withLinks _ hn, Option.bind_some,
    store_withLinks _ hn', Option.bind_some, setPprev_withLinks _ hnext, Option.bind_some,
    pprev_withLinks _ hn, Option.bind_some, Links.setBack_back, Links.setSlot_back, Links.setBack_back, hback,
    hread, storeAt_withLinks _ hs, Links.insertAt, hslot]
  show some (m.withLinks ⟨_, Function.update (Function.update _ n _) next _⟩) = _
  rw [Function.update_comm hne.symm]
  rfl

section Delete

variable {poison : HlistPoison} (hn : m.node n = true) (hs : m.live s = true)
  (hback : m.links.back n = some s) (hnext : ∀ x, m.links.slot (.next n) = some x → m.node x = true)

include hn hs hback hnext

/-- `__hlist_del`, for a node behind slot `s`: the slot leads to the next node then, and that one back to
    the slot. -/
theorem hlistDelRaw_eq :
    hlistDelRaw n m = some (m.withLinks ((m.links.setSlot s (m.links.slot (.next n))).setBackOf
      (m.links.slot (.next n)) (some s))) := by
  have hn' : m.live (.next n) = true := hn
  show (((m.withLinks m.links).load (.next n)).bind fun next =>
    ((m.withLinks m.links).pprev n).bind fun pprev => ((m.withLinks m.links).storeAt pprev next).bind fun m =>
      m.setPprevOf next pprev) = _
  rw [load_withLinks _ hn', Option.bind_some, pprev_withLinks _ hn, Option.bind_some, hback,
    storeAt_withLinks _ hs, Option.bind_some, setPprevOf_withLinks _ hnext]

/-- `hlist_del` leaves the poison in the node, -/
theorem hlistDel_eq : hlistDel poison n m =
    some (m.withLinks (m.links.takeOut hlistLayout s n (some poison.poison1) (some poison.poison2))) := by
  have hn' : m.live (.next n) = true := hn
  show ((hlistDelRaw n m).bind fun m => (m.store (.next n) (some poison.poison1)).bind fun m =>
    m.setPprev n (some poison.poison2)) = _
  rw [hlistDelRaw_eq hn hs hback hnext, Option.bind_some, store_withLinks _ hn', Option.bind_some,
    setPprev_withLinks _ hn]
  rfl

/-- and `hlist_del_init` null pointers, if the node was on a list. -/
theorem hlistDelInit_eq :
    hlistDelInit n m = some (m.withLinks (m.links.takeOut hlistLayout s n none none)) := by
  have hn' : m.live (.next n) = true := hn
  show (((m.withLinks m.links).pprev n).bind fun p => some p.isNone).bind (fun unhashed =>
    if (!unhashed) = true then (hlistDelRaw n m).bind fun m => (m.store (.next n) none).bind fun m =>
      m.setPprev n none else some m) = _
  rw [pprev_withLinks _ hn, Option.bind_some, Option.bind_some, hback, Option.isNone_some,
    if_pos Bool.not_false, hlistDelRaw_eq hn hs hback hnext, Option.bind_some, store_withLinks _ hn', Option.bind_some,
    setPprev_withLinks _ hn]
  rfl

end Delete

/-- For a node on no list `hlist_del_init` does nothing. -/
theorem hlistDelInit_unhashed (hn : m.node n = true) (hback : m.links.back n = none) :
    hlistDelInit n m = some m := by
  show (((m.withLinks m.links).pprev n).bind fun p => some p.isNone).bind (fun unhashed =>
    if (!unhashed) = true then (hlistDelRaw n m).bind (initHlistNode n) else some m) = _
  rw [pprev_withLinks _ hn, hback]
  rfl

/-- `hlist_move_list` hangs the whole list on another head; the nodes behind the first are not
    touched. -/
theorem hlistMoveList_eq {old new : HlistAddr} (hold : m.head old = true) (hnew : m.head new = true)
    (hfirst : ∀ x, m.links.slot (.first old) = some x → m.node x = true) :
    hlistMoveList old new m = some (m.withLinks (m.links.rehang (.first old) (.first new))) := by
  have hold' : m.live (.first old) = true := hold
  have hnew' : m.live (.first new) = true := hnew
  show (((m.withLinks m.links).load (.first old)).bind fun first =>
    ((m.withLinks m.links).store (.first new) first).bind fun m => (m.load (.first new)).bind fun first =>
      (m.setPprevOf first (some (.first new))).bind fun m => m.store (.first old) none) = _
  rw [load_withLinks _ hold', Option.bind_some, store_withLinks _ hnew', Option.bind_some,
    load_withLinks _ hnew', Option.bind_some, Links.setSlot_slot, Function.update_self,
    setPprevOf_withLinks _ hfirst, Option.bind_some, store_withLinks _ hold']
  rfl

end Operations

/-! ## Abstract lists -/

/-- What is known of a node that is on no list. -/
inductive HlistMark where
  | unhashed
  | fake
  deriving DecidableEq, Repr

/-- Its `pprev`. -/
def HlistMark.pprev (n : HlistAddr) : HlistMark → Option HlistSlot
  | .unhashed => none
  | .fake => some (.next n)

/-- The lists of a program by their heads, and its other nodes. -/
structure Hlists where
  lists : HlistAddr → Option (List HlistAddr)
  mark : HlistAddr → Option HlistMark

/-- Nothing has been initialised. -/
def Hlists.nothing : Hlists := ⟨fun _ => none, fun _ => none⟩

/-- A call of one of the operations. -/
inductive HlistOp where
  | initHead (h : HlistAddr)
  | initNode (n : HlistAddr)
  | addHead (n h : HlistAddr)
  | addBefore (n next : HlistAddr)
  | addBehind (n prev : HlistAddr)
  | addFake (n : HlistAddr)
  | del (n : HlistAddr)
  | delInit (n : HlistAddr)
  | moveList (old new : HlistAddr)
  deriving DecidableEq, Repr

/-- What a call does to the memory. -/
def HlistOp.exec (poison : HlistPoison) : HlistOp → HlistMem → Option HlistMem
  | .initHead h => initHlistHead h
  | .initNode n => initHlistNode n
  | .addHead n h => hlistAddHead n h
  | .addBefore n next => hlistAddBefore n next
  | .addBehind n prev => hlistAddBehind n prev
  | .addFake n => hlistAddFake n
  | .del n => hlistDel poison n
  | .delInit n => hlistDelInit n
  | .moveList old new => hlistMoveList old new

/-- **What an operation means**, and when it may be called: only a node that is on no list is added or
    initialised, only an entry, or a node that is known to be on no list, is deleted. -/
inductive HlistStep (head node : HlistAddr → Bool) (σ : Hlists) : HlistOp → Hlists → Prop
  | initHead {h : HlistAddr} (hh : head h = true) :
    HlistStep head node σ (.initHead h) { σ with lists := Function.update σ.lists h (some []) }
  | initNode {n : HlistAddr} (hn : node n = true) (hoff : Off σ.lists n) :
    HlistStep head node σ (.initNode n) { σ with mark := Function.update σ.mark n (some .unhashed) }
  | addHead {n h : HlistAddr} {l : List HlistAddr} (hn : node n = true) (hoff : Off σ.lists n)
    (hl : σ.lists h = some l) : HlistStep head node σ (.addHead n h)
      ⟨Function.update σ.lists h (some (n :: l)), Function.update σ.mark n none⟩
  | addBefore {n h next : HlistAddr} {A B : List HlistAddr} (hn : node n = true) (hoff : Off σ.lists n)
    (hl : σ.lists h = some (A ++ next :: B)) : HlistStep head node σ (.addBefore n next)
      ⟨Function.update σ.lists h (some (A ++ n :: next :: B)), Function.update σ.mark n none⟩
  | addBehind {n h prev : HlistAddr} {A B : List HlistAddr} (hn : node n = true) (hoff : Off σ.lists n)
    (hl : σ.lists h = some (A ++ prev :: B)) : HlistStep head node σ (.addBehind n prev)
      ⟨Function.update σ.lists h (some (A ++ prev :: n :: B)), Function.update σ.mark n none⟩
  | addFake {n : HlistAddr} {mk : HlistMark} (hm : σ.mark n = some mk) :
    HlistStep head node σ (.addFake n) { σ with mark := Function.update σ.mark n (some .fake) }
  | del {n h : HlistAddr} {A B : List HlistAddr} (hl : σ.lists h = some (A ++ n :: B)) :
    HlistStep head node σ (.del n)
      ⟨Function.update σ.lists h (some (A ++ B)), Function.update σ.mark n none⟩
  | delFake {n : HlistAddr} (hm : σ.mark n = some .fake) :
    HlistStep head node σ (.del n) { σ with mark := Function.update σ.mark n none }
  | delInit {n h : HlistAddr} {A B : List HlistAddr} (hl : σ.lists h = some (A ++ n :: B)) :
    HlistStep head node σ (.delInit n)
      ⟨Function.update σ.lists h (some (A ++ B)), Function.update σ.mark n (some .unhashed)⟩
  | delInitMarked {n : HlistAddr} {mk : HlistMark} (hm : σ.mark n = some mk) :
    HlistStep head node σ (.delInit n) { σ with mark := Function.update σ.mark n (some .unhashed) }
  | moveList {old new : HlistAddr} {l : List HlistAddr} (hne : old ≠ new) (hl : σ.lists old = some l)
    (hh : head new = true) : HlistStep head node σ (.moveList old new)
      { σ with lists := Function.update (Function.update σ.lists new (some l)) old (some []) }

/-- A run of abstract steps. -/
inductive HlistRun (head node : HlistAddr → Bool) : List HlistOp → Hlists → Hlists → Prop
  | nil (σ : Hlists) : HlistRun head node [] σ σ
  | cons {op : HlistOp} {ops : List HlistOp} {σ ρ τ : Hlists} (hstep : HlistStep head node σ op ρ)
    (hrun : HlistRun head node ops ρ τ) : HlistRun head node (op :: ops) σ τ

/-! ## Refinement -/

/-- The memory holds the lists and the other nodes of `σ`. -/
structure HlistRep (m : HlistMem) (σ : Hlists) : Prop where
  family : Family hlistLayout m.links σ.lists
  head : ∀ h l, σ.lists h = some l → m.head h = true
  node : ∀ h l x, σ.lists h = some l → x ∈ l → m.node x = true
  marked : ∀ n mk, σ.mark n = some mk →
    Off σ.lists n ∧ m.node n = true ∧ m.links.slot (.next n) = none ∧ m.links.back n = mk.pprev n

section Refinement

variable {σ ρ : Hlists} {A B l : List HlistAddr} {mk : HlistMark} {v : Option HlistMark}

/-- Lists that are all empty or not there. -/
theorem hlistRep_nothing (m : HlistMem) : HlistRep m .nothing := ⟨⟨nofun, nofun, nofun⟩, nofun, nofun, nofun⟩

/-- One list is changed, and the mark of one node. -/
theorem HlistRep.update (hr : HlistRep m σ) (hfam : Family hlistLayout k (Function.update σ.lists h (some l)))
    (hh : m.head h = true) (hl : ∀ x ∈ l, m.node x = true)
    (hkept : ∀ z, Off σ.lists z → z ≠ n → z ∉ l ∧ Kept hlistLayout m.links k z)
    (hv : ∀ mk, v = some mk → Off (Function.update σ.lists h (some l)) n ∧ m.node n = true ∧
      k.slot (.next n) = none ∧ k.back n = mk.pprev n) :
    HlistRep (m.withLinks k) ⟨Function.update σ.lists h (some l), Function.update σ.mark n v⟩ where
  family := hfam
  head h' l' hl' := by
    rcases update_cases hl' with ⟨rfl, -⟩ | ⟨-, hl'⟩
    · exact hh
    · exact hr.head h' l' hl'
  node h' l' x hl' hx := by
    rcases update_cases hl' with ⟨-, rfl⟩ | ⟨-, hl'⟩
    · exact hl x hx
    · exact hr.node h' l' x hl' hx
  marked z mk hz := by
    have hmark : Function.update σ.mark n v z = some mk := hz
    by_cases hne : z = n
    · rw [hne, Function.update_self] at hmark
      rw [hne]
      exact hv mk hmark
    · rw [Function.update_of_ne hne] at hmark
      obtain ⟨hoff, hnode, hslot, hback⟩ := hr.marked z mk hmark
      obtain ⟨hzl, hslot', hback'⟩ := hkept z hoff hne
      exact ⟨hoff.update hzl, hnode, hslot'.trans hslot, hback'.trans hback⟩

/-- Only what node `n` holds is changed, and it is on no list. -/
theorem HlistRep.own (hr : HlistRep m σ) (hoff : Off σ.lists n)
    (hslot : ∀ u, u ≠ .next n → k.slot u = m.links.slot u) (hback : ∀ y, y ≠ n → k.back y = m.links.back y)
    (hv : ∀ mk, v = some mk → m.node n = true ∧ k.slot (.next n) = none ∧ k.back n = mk.pprev n) :
    HlistRep (m.withLinks k) { σ with mark := Function.update σ.mark n v } where
  family := hr.family.congr hoff hslot hback
  head := hr.head
  node := hr.node
  marked z mk hz := by
    have hmark : Function.update σ.mark n v z = some mk := hz
    by_cases hne : z = n
    · rw [hne, Function.update_self] at hmark
      rw [hne]
      exact ⟨hoff, hv mk hmark⟩
    · rw [Function.update_of_ne hne] at hmark
      obtain ⟨hoff', hnode, hslot', hback'⟩ := hr.marked z mk hmark
      have hnext : HlistSlot.next z ≠ .next n := fun heq => hne (HlistSlot.next.inj heq)
      exact ⟨hoff', hnode, (hslot _ hnext).trans hslot', (hback z hne).trans hback'⟩

/-- What the slot behind the nodes `A` of a list leads to. -/
theorem HlistRep.slot_eq (hr : HlistRep m σ) (hl : σ.lists h = some (A ++ B)) :
    m.links.slot (lastSlot hlistLayout (.first h) A) = B.head? :=
  (chain_append.mp (hr.family.chain h _ hl)).2.head?

/-- This slot is the head or an entry, so it is live, -/
theorem HlistRep.live_slot (hr : HlistRep m σ) (hl : σ.lists h = some (A ++ B)) :
    m.live (lastSlot hlistLayout (.first h) A) = true := by
  rcases lastSlot_cases hlistLayout (.first h) A with heq | ⟨x, hx, heq⟩
  · rw [heq]
    exact hr.head h _ hl
  · rw [heq]
    exact hr.node h _ x hl (List.mem_append_left B hx)

/-- and what it leads to is an entry. -/
theorem HlistRep.node_of_slot (hr : HlistRep m σ) (hl : σ.lists h = some (A ++ B)) {x : HlistAddr}
    (hx : m.links.slot (lastSlot hlistLayout (.first h) A) = some x) : m.node x = true ∧ x ∈ A ++ B := by
  rw [hr.slot_eq hl] at hx
  have hmem : x ∈ A ++ B := List.mem_append_right A (List.mem_of_mem_head? hx)
  exact ⟨hr.node h _ x hl hmem, hmem⟩

/-- **A node is added**, behind the nodes `A` of a list. -/
theorem HlistRep.insertAt (hr : HlistRep m σ) (hn : m.node n = true) (hoff : Off σ.lists n)
    (hl : σ.lists h = some (A ++ B)) :
    HlistRep (m.withLinks (m.links.insertAt hlistLayout (lastSlot hlistLayout (.first h) A) n))
      ⟨Function.update σ.lists h (some (A ++ n :: B)), Function.update σ.mark n none⟩ := by
  have hnl := hoff h _ hl
  have hnA : n ∉ A := fun hmem => hnl (List.mem_append_left B hmem)
  have hins : Inserted hlistLayout m.links _ (lastSlot hlistLayout (.first h) A) n :=
    inserted_insertAt (lastSlot_ne_out hnA) fun hx => hnl (hr.node_of_slot hl hx).2
  obtain ⟨hfam, hkept⟩ := hr.family.insert hl hoff hins
  have hmem : ∀ {x}, x ∈ A ++ n :: B → x = n ∨ x ∈ A ++ B := fun hx =>
    List.mem_cons.mp (List.perm_middle.mem_iff.mp hx)
  refine hr.update hfam (hr.head h _ hl) (fun x hx => ?_) (fun z hz hne => ⟨fun hx => ?_, hkept z hz hne⟩) nofun
  · rcases hmem hx with rfl | hx
    · exact hn
    · exact hr.node h _ x hl hx
  · exact (hmem hx).elim hne (hz h _ hl)

/-- **An entry is deleted**; then it holds `p` and `q`. -/
theorem HlistRep.takeOut {p : Option HlistAddr} {q : Option HlistSlot} (hr : HlistRep m σ)
    (hl : σ.lists h = some (A ++ n :: B)) (hv : ∀ mk, v = some mk → p = none ∧ q = mk.pprev n) :
    HlistRep (m.withLinks (m.links.takeOut hlistLayout (lastSlot hlistLayout (.first h) A) n p q))
      ⟨Function.update σ.lists h (some (A ++ B)), Function.update σ.mark n v⟩ := by
  have hnd := List.perm_middle.nodup_iff.mp (hr.family.nodup h _ hl)
  have hnA : n ∉ A := fun hmem => (List.nodup_cons.mp hnd).1 (List.mem_append_left B hmem)
  obtain ⟨hfam, hkept⟩ := hr.family.unlink hl (unlinked_takeOut (p := p) (q := q) (lastSlot_ne_out hnA))
  have hmem : ∀ {x}, x ∈ A ++ B → x ∈ A ++ n :: B := fun hx =>
    List.perm_middle.mem_iff.mpr (List.mem_cons_of_mem n hx)
  refine hr.update hfam (hr.head h _ hl) (fun x hx => hr.node h _ x hl (hmem hx))
    (fun z hz _ => ⟨fun hx => hz h _ hl (hmem hx), hkept z hz⟩) fun mk hmk => ?_
  obtain ⟨rfl, rfl⟩ := hv mk hmk
  refine ⟨hr.family.off_unlinked hl, hr.node h _ n hl (by simp), ?_, ?_⟩
  · rw [takeOut_slot]
    exact Function.update_self ..
  · rw [takeOut_back, Function.update_self]

/-- A head is initialised: its list is empty then, whatever it was. -/
theorem HlistRep.initHead (hr : HlistRep m σ) (hh : m.head h = true) :
    HlistRep (m.withLinks (m.links.setSlot (.first h) none))
      { σ with lists := Function.update σ.lists h (some []) } where
  family := hr.family.reset Links.setSlot_slot_self (fun u hu => Links.setSlot_slot_of_ne hu) rfl
  head h' l' hl' := by
    rcases update_cases hl' with ⟨rfl, -⟩ | ⟨-, hl'⟩
    · exact hh
    · exact hr.head h' l' hl'
  node h' l' x hl' hx := by
    rcases update_cases hl' with ⟨-, rfl⟩ | ⟨-, hl'⟩
    · cases hx
    · exact hr.node h' l' x hl' hx
  marked z mk hz := by
    obtain ⟨hoff, hnode, hslot, hback⟩ := hr.marked z mk hz
    have hne : HlistSlot.next z ≠ .first h := nofun
    exact ⟨hoff.update List.not_mem_nil, hnode, (Links.setSlot_slot_of_ne hne).trans hslot, hback⟩

/-- A list is moved to another head, whose own list is lost. -/
theorem HlistRep.moveList {old new : HlistAddr} (hr : HlistRep m σ) (hne : old ≠ new)
    (hl : σ.lists old = some l) (hh : m.head new = true) :
    HlistRep (m.withLinks (m.links.rehang (.first old) (.first new)))
      { σ with lists := Function.update (Function.update σ.lists new (some l)) old (some []) } := by
  have hst : HlistSlot.first old ≠ .first new := fun heq => hne (HlistSlot.first.inj heq)
  obtain ⟨hfam, hkept⟩ := hr.family.rehang hl hne (rehung_rehang hst)
  refine ⟨hfam, fun h' l' hl' => ?_, fun h' l' x hl' hx => ?_, fun z mk hz => ?_⟩
  · rcases update_cases hl' with ⟨rfl, -⟩ | ⟨-, hl'⟩
    · exact hr.head h' l hl
    · rcases update_cases hl' with ⟨rfl, -⟩ | ⟨-, hl'⟩
      · exact hh
      · exact hr.head h' l' hl'
  · rcases update_cases hl' with ⟨-, rfl⟩ | ⟨-, hl'⟩
    · cases hx
    · rcases update_cases hl' with ⟨-, rfl⟩ | ⟨-, hl'⟩
      · exact hr.node old l' x hl hx
      · exact hr.node h' l' x hl' hx
  · obtain ⟨hoff, hnode, hslot, hback⟩ := hr.marked z mk hz
    obtain ⟨hslot', hback'⟩ := hkept z hoff
    exact ⟨(hoff.update (hoff old l hl)).update List.not_mem_nil, hnode, hslot'.trans hslot,
      hback'.trans hback⟩

/-- An entry, and what is around it, is live. -/
theorem HlistRep.entry (hr : HlistRep m σ) (hl : σ.lists h = some (A ++ n :: B)) :
    m.node n = true ∧ m.live (lastSlot hlistLayout (.first h) A) = true ∧
      m.links.back n = some (lastSlot hlistLayout (.first h) A) ∧
      ∀ x, m.links.slot (.next n) = some x → m.node x = true := by
  obtain ⟨-, hback, hnext⟩ := hr.family.entry hl
  refine ⟨hr.node h _ n hl (by simp), hr.live_slot hl, hback, fun x hx => ?_⟩
  have hx' : B.head? = some x := hnext.symm.trans hx
  exact hr.node h _ x hl (by simp [List.mem_of_mem_head? hx'])

/-- A fake list is its node only. -/
theorem HlistRep.takeOut_fake {p : Option HlistAddr} {q : Option HlistSlot} (hr : HlistRep m σ)
    (hm : σ.mark n = some .fake) (hv : ∀ mk, v = some mk → p = none ∧ q = mk.pprev n) :
    HlistRep (m.withLinks (m.links.takeOut hlistLayout (.next n) n p q))
      { σ with mark := Function.update σ.mark n v } := by
  obtain ⟨hoff, hn, hslot, -⟩ := hr.marked n .fake hm
  have hout : m.links.slot (hlistLayout.out n) = none := hslot
  refine hr.own hoff (fun u hu => ?_) (fun y hy => ?_) fun mk hmk => ?_
  · rw [takeOut_slot]
    exact (Function.update_of_ne hu ..).trans (Function.update_of_ne hu ..)
  · rw [takeOut_back, Function.update_of_ne hy, hout]
    rfl
  · obtain ⟨rfl, rfl⟩ := hv mk hmk
    refine ⟨hn, ?_, ?_⟩
    · rw [takeOut_slot]
      exact Function.update_self ..
    · rw [takeOut_back, Function.update_self]

/-- **Refinement of one step**: on memory that holds the lists an operation is defined, and leaves memory
    that holds the lists of the abstract step. -/
theorem HlistStep.refines {op : HlistOp} (poison : HlistPoison) (hstep : HlistStep m.head m.node σ op ρ)
    (hr : HlistRep m σ) : ∃ k, op.exec poison m = some (m.withLinks k) ∧ HlistRep (m.withLinks k) ρ := by
  cases hstep with
  | initHead hh => exact ⟨_, HlistMem.store_withLinks m.links hh, hr.initHead hh⟩
  | @initNode n hn hoff =>
    refine ⟨(m.links.setSlot (.next n) none).setBack n none, ?_, hr.own hoff (fun u hu => ?_) (fun y hy => ?_) ?_⟩
    · show ((m.withLinks m.links).store (.next n) none).bind (HlistMem.setPprev n none) = _
      rw [HlistMem.store_withLinks m.links (s := .next n) hn, Option.bind_some,
        HlistMem.setPprev_withLinks _ hn]
    · exact Links.setSlot_slot_of_ne hu
    · exact Links.setBack_back_of_ne hy
    · rintro mk ⟨⟩
      exact ⟨hn, Links.setSlot_slot_self, Links.setBack_back_self⟩
  | @addHead n h l hn hoff hl =>
    exact ⟨_, hlistAddHead_eq (hr.head h l hl) hn fun x hx => (HlistRep.node_of_slot (A := []) hr hl hx).1,
      HlistRep.insertAt (A := []) hr hn hoff hl⟩
  | @addBefore n h next A B hn hoff hl =>
    obtain ⟨hslot, hback, -⟩ := hr.family.entry hl
    have hne : next ≠ n := fun heq => hoff h _ hl (by simp [heq])
    exact ⟨_, hlistAddBefore_eq (hr.node h _ next hl (by simp)) hn hne (hr.live_slot hl) hback hslot,
      hr.insertAt hn hoff hl⟩
  | @addBehind n h prev A B hn hoff hl =>
    have hl' : σ.lists h = some ((A ++ [prev]) ++ B) := by rw [hl, List.append_assoc]; rfl
    -- the slot of `prev` is the one behind the nodes up to `prev`
    have hlast : lastSlot hlistLayout (.first h) (A ++ [prev]) = .next prev := lastSlot_concat ..
    have hins := hr.insertAt hn hoff hl'
    rw [hlast, List.append_assoc] at hins
    have hslot : ∀ x, m.links.slot (.next prev) = some x → m.node x = true ∧ x ≠ n := by
      intro x hx
      rw [← hlast] at hx
      obtain ⟨hlive, hmem⟩ := hr.node_of_slot hl' hx
      exact ⟨hlive, fun heq => hoff h _ hl' (heq ▸ hmem)⟩
    have hne : prev ≠ n := fun heq => hoff h _ hl (by simp [heq])
    exact ⟨_, hlistAddBehind_eq (hr.node h _ prev hl (by simp)) hn hne hslot, hins⟩
  | @addFake n mk hm =>
    obtain ⟨hoff, hn, hslot, -⟩ := hr.marked n mk hm
    refine ⟨_, HlistMem.setPprev_withLinks m.links hn, hr.own hoff (fun u _ => rfl) (fun y hy => ?_) ?_⟩
    · exact Links.setBack_back_of_ne hy
    · rintro mk ⟨⟩
      exact ⟨hn, hslot, Links.setBack_back_self⟩
  | del hl =>
    obtain ⟨hn, hs, hback, hnext⟩ := hr.entry hl
    exact ⟨_, hlistDel_eq hn hs hback hnext, hr.takeOut hl nofun⟩
  | @delFake n hm =>
    obtain ⟨-, hn, hslot, hback⟩ := hr.marked n _ hm
    have hnext : ∀ x, m.links.slot (.next n) = some x → m.node x = true := fun x hx =>
      nomatch hslot.symm.trans hx
    exact ⟨_, hlistDel_eq (s := .next n) hn hn hback hnext, hr.takeOut_fake hm nofun⟩
  | delInit hl =>
    obtain ⟨hn, hs, hback, hnext⟩ := hr.entry hl
    exact ⟨_, hlistDelInit_eq hn hs hback hnext, hr.takeOut hl (by rintro mk ⟨⟩; exact ⟨rfl, rfl⟩)⟩
  | @delInitMarked n mk hm =>
    obtain ⟨hoff, hn, hslot, hback⟩ := hr.marked n mk hm
    -- `hlist_unhashed` decides: a fake list is taken off itself, an unhashed node is left alone
    cases mk with
    | unhashed =>
      refine ⟨m.links, hlistDelInit_unhashed hn hback, hr.own hoff (fun _ _ => rfl) (fun _ _ => rfl) ?_⟩
      rintro mk ⟨⟩
      exact ⟨hn, hslot, hback⟩
    | fake =>
      have hnext : ∀ x, m.links.slot (.next n) = some x → m.node x = true := fun x hx =>
        nomatch hslot.symm.trans hx
      exact ⟨_, hlistDelInit_eq (s := .next n) hn hn hback hnext,
        hr.takeOut_fake hm (by rintro mk ⟨⟩; exact ⟨rfl, rfl⟩)⟩
  | moveList hne hl hh =>
    exact ⟨_, hlistMoveList_eq (hr.head _ _ hl) hh fun x hx => (HlistRep.node_of_slot (A := []) hr hl hx).1,
      hr.moveList hne hl hh⟩

/-- **Refinement of runs**: every run of abstract steps is a run of the operations. -/
theorem HlistRun.refines {ops : List HlistOp} (poison : HlistPoison) (hrun : HlistRun m.head m.node ops σ ρ)
    (hr : HlistRep m σ) :
    ∃ k, run (HlistOp.exec poison) m ops = some (m.withLinks k) ∧ HlistRep (m.withLinks k) ρ := by
  generalize hhead : m.head = head at hrun
  generalize hnode : m.node = node at hrun
  induction hrun generalizing m with
  | nil => exact ⟨m.links, rfl, hr⟩
  | cons hstep _ ih =>
    rw [← hhead, ← hnode] at hstep
    rcases hstep.refines poison hr with ⟨k, hk, hr'⟩
    rcases ih hr' hhead hnode with ⟨k', hk', hr''⟩
    exact ⟨k', (run_cons hk).trans hk', hr''⟩

end Refinement

/-! ## What is seen -/

section Seen

variable {σ : Hlists} {A B l : List HlistAddr} {mk : HlistMark}

/-- What a program reads at a slot of a list, and in an entry, is what comes next there. -/
theorem HlistRep.load_slot (hr : HlistRep m σ) (hl : σ.lists h = some (A ++ B)) :
    m.load (lastSlot hlistLayout (.first h) A) = some B.head? :=
  (if_pos (hr.live_slot hl)).trans (congrArg some (hr.slot_eq hl))

theorem HlistRep.load_next (hr : HlistRep m σ) (hl : σ.lists h = some (A ++ n :: B)) :
    m.load (.next n) = some B.head? := by
  have hl' : σ.lists h = some ((A ++ [n]) ++ B) := by rw [hl, List.append_assoc]; rfl
  have hload := hr.load_slot hl'
  rwa [lastSlot_concat] at hload

/-- A loop that leaves the list alone. -/
theorem HlistRep.forEach (hr : HlistRep m σ) (hl : σ.lists h = some l) :
    HlistWalks (hlistForEachBody fun _ m => some m) h m l m := by
  have hkey : ∀ {A B : List HlistAddr}, σ.lists h = some (A ++ B) →
      Returns (hlistForEachBody fun _ m => some m) ⟨B.head?, A, m⟩ ⟨none, A ++ B, m⟩ := by
    intro A B hl
    induction B generalizing A with
    | nil =>
      rw [List.append_nil]
      exact ⟨Run.refl _, rfl⟩
    | cons n B ih =>
      have hl' : σ.lists h = some ((A ++ [n]) ++ B) := by rw [hl, List.append_assoc]; rfl
      have hrest := ih hl'
      rw [List.append_assoc] at hrest
      refine ⟨Run.head ?_ hrest.1, hrest.2⟩
      simp only [hlistForEachBody, List.head?_cons, hr.load_next hl]
  exact ⟨l.head?, HlistRep.load_slot (A := []) hr hl, hkey (A := []) hl⟩

/-- `hlist_empty` says whether the list is empty. -/
theorem HlistRep.empty (hr : HlistRep m σ) (hl : σ.lists h = some l) : hlistEmpty h m = some l.isEmpty := by
  have hload : m.load (.first h) = some l.head? := HlistRep.load_slot (A := []) hr hl
  show (m.load (.first h)).bind (fun first => some first.isNone) = _
  rw [hload]
  cases l with
  | nil => rfl
  | cons n l => rfl

/-- What the tests say of an entry. -/
theorem HlistRep.tests_entry (hr : HlistRep m σ) (hl : σ.lists h = some (A ++ n :: B)) :
    hlistUnhashed n m = some false ∧ hlistFake n m = some false ∧
      ∀ h', hlistIsSingularNode n h' m = some (decide (h' = h ∧ A ++ n :: B = [n])) := by
  obtain ⟨hn, -, hback, -⟩ := hr.entry hl
  have hpprev : m.pprev n = some (some (lastSlot hlistLayout (.first h) A)) :=
    (if_pos hn).trans (congrArg some hback)
  have hnA : n ∉ A := fun hmem =>
    (List.nodup_cons.mp (List.perm_middle.nodup_iff.mp (hr.family.nodup h _ hl))).1
      (List.mem_append_left B hmem)
  refine ⟨?_, ?_, fun h' => ?_⟩
  · show (m.pprev n).bind (fun p => some p.isNone) = _
    rw [hpprev]
    rfl
  · show (m.pprev n).bind (fun p => some (p == some (.next n))) = _
    have hne : lastSlot hlistLayout (.first h) A ≠ .next n := lastSlot_ne_out hnA
    rw [hpprev, Option.bind_some]
    simp [hne]
  · show (m.load (.next n)).bind (fun next => (m.pprev n).bind fun p =>
      some (next.isNone && p == some (.first h'))) = _
    have hfirst : lastSlot hlistLayout (.first h) A = .first h' ↔ h = h' ∧ A = [] := lastSlot_eq_start_iff
    rw [hr.load_next hl, hpprev, Option.bind_some, Option.bind_some]
    refine congrArg some ?_
    rw [Bool.eq_iff_iff, Bool.and_eq_true, beq_iff_eq, Option.some.injEq, hfirst, decide_eq_true_iff]
    cases B with
    | nil =>
      have hA : A ++ [n] = [n] ↔ A = [] := by simp
      rw [hA, @eq_comm _ h' h]
      simp
    | cons b B => cases A <;> simp

/-- What they say of a node that is known to be on no list. -/
theorem HlistRep.tests_marked (hr : HlistRep m σ) (hm : σ.mark n = some mk) :
    hlistUnhashed n m = some (decide (mk = .unhashed)) ∧ hlistFake n m = some (decide (mk = .fake)) ∧
      ∀ h, hlistIsSingularNode n h m = some false := by
  obtain ⟨-, hn, hslot, hback⟩ := hr.marked n mk hm
  have hpprev : m.pprev n = some (mk.pprev n) := (if_pos hn).trans (congrArg some hback)
  have hload : m.load (.next n) = some none := (if_pos hn).trans (congrArg some hslot)
  refine ⟨?_, ?_, fun h => ?_⟩
  · show (m.pprev n).bind (fun p => some p.isNone) = _
    rw [hpprev]
    cases mk <;> rfl
  · show (m.pprev n).bind (fun p => some (p == some (.next n))) = _
    rw [hpprev]
    cases mk <;> simp [HlistMark.pprev]
  · show (m.load (.next n)).bind (fun next => (m.pprev n).bind fun p =>
      some (next.isNone && p == some (.first h))) = _
    rw [hload, hpprev]
    cases mk <;> simp [HlistMark.pprev]

end Seen

/-- **What a program sees of its lists**: after any run of operations that starts without lists, the loops
    and the tests show the lists of the abstract run, and what it knows of its other nodes; no
    operation touched anything that is not live. -/
theorem hlists_seen (poison : HlistPoison) {ops : List HlistOp} {σ : Hlists}
    (hrun : HlistRun m.head m.node ops .nothing σ) :
    ∃ m', run (HlistOp.exec poison) m ops = some m' ∧
      (∀ h l, σ.lists h = some l → HlistWalks (hlistForEachBody fun _ m => some m) h m' l m' ∧
        hlistEmpty h m' = some l.isEmpty ∧
        ∀ n ∈ l, hlistUnhashed n m' = some false ∧ hlistFake n m' = some false ∧
          ∀ h', hlistIsSingularNode n h' m' = some (decide (h' = h ∧ l = [n]))) ∧
      ∀ n mk, σ.mark n = some mk → hlistUnhashed n m' = some (decide (mk = .unhashed)) ∧
        hlistFake n m' = some (decide (mk = .fake)) ∧ ∀ h, hlistIsSingularNode n h m' = some false := by
  rcases hrun.refines poison (hlistRep_nothing m) with ⟨k, hk, hr⟩
  refine ⟨_, hk, fun h l hl => ⟨hr.forEach hl, hr.empty hl, fun n hn => ?_⟩, fun n mk hm => hr.tests_marked hm⟩
  rcases List.append_of_mem hn with ⟨A, B, rfl⟩
  exact hr.tests_entry hl

/-- Heads 1 and 5 and nodes 2 to 4: three nodes are added, one is deleted, and the list is moved. -/
theorem hlists_seen_moved : ∃ m', run (HlistOp.exec ⟨256, .next 290⟩)
    ⟨fun a => decide (a ∈ [1, 5]), fun a => decide (a ∈ [2, 3, 4]), ⟨fun _ => some 2, fun _ => none⟩⟩
    [.initHead 1, .addHead 2 1, .addBehind 3 2, .addBefore 4 3, .del 2, .moveList 1 5] = some m' ∧
    HlistWalks (hlistForEachBody fun _ m => some m) 5 m' [4, 3] m' ∧ hlistEmpty 1 m' = some true := by
  have hnone : Off Hlists.nothing.lists 2 := nofun
  have hnone' : Off Hlists.nothing.lists 3 := nofun
  have hnone'' : Off Hlists.nothing.lists 4 := nofun
  have hrun : HlistRun (fun a => decide (a ∈ [1, 5])) (fun a => decide (a ∈ [2, 3, 4]))
      [.initHead 1, .addHead 2 1, .addBehind 3 2, .addBefore 4 3, .del 2, .moveList 1 5] .nothing _ :=
    .cons (.initHead (by decide))
      (.cons (.addHead (l := []) (by decide) (hnone.update (by decide)) rfl)
        (.cons (.addBehind (h := 1) (A := []) (B := []) (by decide)
            ((hnone'.update (by decide)).update (by decide)) rfl)
          (.cons (.addBefore (h := 1) (A := [2]) (B := []) (by decide)
              (((hnone''.update (by decide)).update (by decide)).update (by decide)) rfl)
            (.cons (.del (h := 1) (A := []) (B := [4, 3]) rfl)
              (.cons (.moveList (l := [4, 3]) (by decide) rfl (by decide)) (.nil _))))))
  rcases hlists_seen ⟨256, .next 290⟩ (m := ⟨fun a => decide (a ∈ [1, 5]), fun a => decide (a ∈ [2, 3, 4]),
    ⟨fun _ => some 2, fun _ => none⟩⟩) hrun with ⟨m', hm', hseen, -⟩
  exact ⟨m', hm', (hseen 5 [4, 3] rfl).1, (hseen 1 [] rfl).2.1⟩

end AdhocNode
