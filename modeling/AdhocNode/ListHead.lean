/-
  DOUBLY LINKED LISTS — `struct list_head` and the operations on it of `include/kernel_list.h`.

  1. **The memory** — `ListMem` says which addresses hold a `struct list_head`, and what `next` and
     `prev` are there.  Reading or writing a member is undefined (`none`) at any other address: at
     `NULL`, at the two poison values, or at a node that was given back.

  2. **The operations** — one definition for each function, in the order of its accesses.  A leading
     `__` of the source is `Raw` here.  `CONFIG_DEBUG_LIST` is not set, so `__list_add_valid` and
     `__list_del_entry_valid` are constant.  The values of `LIST_POISON1` and `LIST_POISON2` stand in
     `<linux/poison.h>`, which is not part of the repository; they are the parameter `poison`.

  3. **Walks** — `list_for_each` and `list_for_each_prev` as what the loop variable passes.
-/
import AdhocNode.Lib.Ring
import AdhocNode.Lib.WhileLoop
import Mathlib.Data.Option.Basic

namespace AdhocNode

open PtrRing WhileLoop

/-! ## The memory -/

/-- The address of a `struct list_head`. -/
abbrev ListAddr := Nat

/-- The addresses at which a `struct list_head` lives, and the links stored there. -/
structure ListMem where
  live : ListAddr → Bool
  links : Links ListAddr

/-- `LIST_POISON1` and `LIST_POISON2`. -/
structure Poison where
  poison1 : ListAddr
  poison2 : ListAddr

namespace ListMem

/-- `p->next`. -/
def next (m : ListMem) (p : ListAddr) : Option ListAddr :=
  if m.live p then some (m.links.next p) else none

/-- `p->prev`. -/
def prev (m : ListMem) (p : ListAddr) : Option ListAddr :=
  if m.live p then some (m.links.prev p) else none

/-- `p->next = q`. -/
def setNext (p q : ListAddr) (m : ListMem) : Option ListMem :=
  if m.live p then some { m with links := m.links.setNext p q } else none

/-- `p->prev = q`. -/
def setPrev (p q : ListAddr) (m : ListMem) : Option ListMem :=
  if m.live p then some { m with links := m.links.setPrev p q } else none

/-- The memory with other links. -/
def withLinks (m : ListMem) (k : Links ListAddr) : ListMem := { m with links := k }

end ListMem

/-! ## The operations -/

/-- `INIT_LIST_HEAD`. -/
def initListHead (list : ListAddr) (m : ListMem) : Option ListMem := do
  let m ← m.setNext list list
  m.setPrev list list

/-- `__list_add_valid`. -/
def listAddValid (_new _prev _next : ListAddr) : Bool := true

/-- `__list_del_entry_valid`. -/
def listDelEntryValid (_entry : ListAddr) : Bool := true

/-- `__list_add`. -/
def listAddRaw (new prev next : ListAddr) (m : ListMem) : Option ListMem := do
  if !listAddValid new prev next then
    return m
  let m ← m.setPrev next new
  let m ← m.setNext new next
  let m ← m.setPrev new prev
  m.setNext prev new

/-- `list_add`. -/
def listAdd (new head : ListAddr) (m : ListMem) : Option ListMem := do
  listAddRaw new head (← m.next head) m

/-- `list_add_tail`. -/
def listAddTail (new head : ListAddr) (m : ListMem) : Option ListMem := do
  listAddRaw new (← m.prev head) head m

/-- `__list_del`. -/
def listDelRaw (prev next : ListAddr) (m : ListMem) : Option ListMem := do
  let m ← m.setPrev next prev
  m.setNext prev next

/-- `__list_del_entry`. -/
def listDelEntry (entry : ListAddr) (m : ListMem) : Option ListMem := do
  if !listDelEntryValid entry then
    return m
  listDelRaw (← m.prev entry) (← m.next entry) m

/-- `list_del`. -/
def listDel (poison : Poison) (entry : ListAddr) (m : ListMem) : Option ListMem := do
  let m ← listDelEntry entry m
  let m ← m.setNext entry poison.poison1
  m.setPrev entry poison.poison2

/-- `list_replace`; `new->next` and `new->prev` are read back before they are followed. -/
def listReplace (old new : ListAddr) (m : ListMem) : Option ListMem := do
  let m ← m.setNext new (← m.next old)
  let m ← m.setPrev (← m.next new) new
  let m ← m.setPrev new (← m.prev old)
  m.setNext (← m.prev new) new

/-- `list_replace_init`. -/
def listReplaceInit (old new : ListAddr) (m : ListMem) : Option ListMem := do
  let m ← listReplace old new m
  initListHead old m

/-- `list_swap`. -/
def listSwap (poison : Poison) (entry1 entry2 : ListAddr) (m : ListMem) : Option ListMem := do
  let pos ← m.prev entry2
  let m ← listDel poison entry2 m
  let m ← listReplace entry1 entry2 m
  let pos := if pos == entry1 then entry2 else pos
  listAdd entry1 pos m

/-- `list_del_init`. -/
def listDelInit (entry : ListAddr) (m : ListMem) : Option ListMem := do
  let m ← listDelEntry entry m
  initListHead entry m

/-- `list_move`. -/
def listMove (list head : ListAddr) (m : ListMem) : Option ListMem := do
  let m ← listDelEntry list m
  listAdd list head m

/-- `list_move_tail`. -/
def listMoveTail (list head : ListAddr) (m : ListMem) : Option ListMem := do
  let m ← listDelEntry list m
  listAddTail list head m

/-- `list_bulk_move_tail`. -/
def listBulkMoveTail (head first last : ListAddr) (m : ListMem) : Option ListMem := do
  let m ← m.setNext (← m.prev first) (← m.next last)
  let m ← m.setPrev (← m.next last) (← m.prev first)
  let m ← m.setNext (← m.prev head) first
  let m ← m.setPrev first (← m.prev head)
  let m ← m.setNext last head
  m.setPrev head last

/-- `list_empty`. -/
def listEmpty (head : ListAddr) (m : ListMem) : Option Bool := do
  return (← m.next head) == head

/-- `list_rotate_left`. -/
def listRotateLeft (head : ListAddr) (m : ListMem) : Option ListMem := do
  if !(← listEmpty head m) then
    let first ← m.next head
    listMoveTail first head m
  else
    return m

/-- `list_rotate_to_front`: the head is moved, to the tail of the entry. -/
def listRotateToFront (list head : ListAddr) (m : ListMem) : Option ListMem :=
  listMoveTail head list m

/-- `list_is_singular`. -/
def listIsSingular (head : ListAddr) (m : ListMem) : Option Bool := do
  return !(← listEmpty head m) && (← m.next head) == (← m.prev head)

/-- `__list_cut_position`. -/
def listCutPositionRaw (list head entry : ListAddr) (m : ListMem) : Option ListMem := do
  let newFirst ← m.next entry
  let m ← m.setNext list (← m.next head)
  let m ← m.setPrev (← m.next list) list
  let m ← m.setPrev list entry
  let m ← m.setNext entry list
  let m ← m.setNext head newFirst
  m.setPrev newFirst head

/-- `list_cut_position`. -/
def listCutPosition (list head entry : ListAddr) (m : ListMem) : Option ListMem := do
  if ← listEmpty head m then
    return m
  if (← listIsSingular head m) && ((← m.next head) != entry && head != entry) then
    return m
  if entry == head then
    initListHead list m
  else
    listCutPositionRaw list head entry m

/-- `list_cut_before`. -/
def listCutBefore (list head entry : ListAddr) (m : ListMem) : Option ListMem := do
  if (← m.next head) == entry then
    initListHead list m
  else
    let m ← m.setNext list (← m.next head)
    let m ← m.setPrev (← m.next list) list
    let m ← m.setPrev list (← m.prev entry)
    let m ← m.setNext (← m.prev list) list
    let m ← m.setNext head entry
    m.setPrev entry head

/-- `__list_splice`. -/
def listSpliceRaw (list prev next : ListAddr) (m : ListMem) : Option ListMem := do
  let first ← m.next list
  let last ← m.prev list
  let m ← m.setPrev first prev
  let m ← m.setNext prev first
  let m ← m.setNext last next
  m.setPrev next last

/-- `list_splice`. -/
def listSplice (list head : ListAddr) (m : ListMem) : Option ListMem := do
  if !(← listEmpty list m) then
    listSpliceRaw list head (← m.next head) m
  else
    return m

/-- `list_splice_tail`. -/
def listSpliceTail (list head : ListAddr) (m : ListMem) : Option ListMem := do
  if !(← listEmpty list m) then
    listSpliceRaw list (← m.prev head) head m
  else
    return m

/-- `list_splice_init`. -/
def listSpliceInit (list head : ListAddr) (m : ListMem) : Option ListMem := do
  if !(← listEmpty list m) then
    let m ← listSpliceRaw list head (← m.next head) m
    initListHead list m
  else
    return m

/-- `list_splice_tail_init`. -/
def listSpliceTailInit (list head : ListAddr) (m : ListMem) : Option ListMem := do
  if !(← listEmpty list m) then
    let m ← listSpliceRaw list (← m.prev head) head m
    initListHead list m
  else
    return m

/-! ## Walks -/

/-- A loop variable, and the nodes the body was run for. -/
structure ListCursor where
  pos : ListAddr
  passed : List ListAddr

/-- The loop of `list_for_each` and `list_for_each_prev`, one iteration: `follow` is the member that
    leads on, and the body leaves the list alone. -/
def forEachBody (follow : ListAddr → Option ListAddr) (head : ListAddr) (c : ListCursor) : Step ListCursor :=
  if c.pos = head then .exit
  else
    match follow c.pos with
    | none => .fault
    | some next => .next ⟨next, c.passed ++ [c.pos]⟩

/-- The loop ends, and its body was run for the nodes `l`, in this order. -/
def Passes (follow : ListAddr → Option ListAddr) (head : ListAddr) (l : List ListAddr) : Prop :=
  ∃ first, follow head = some first ∧ Returns (forEachBody follow head) ⟨first, []⟩ ⟨head, l⟩

/-- The variables of a loop whose body changes the memory; `n` is the one that `list_for_each_safe`
    reads ahead. -/
structure MutCursor where
  pos : ListAddr
  n : ListAddr
  passed : List ListAddr
  mem : ListMem

/-- The loop of `list_for_each`, one iteration, with a body that changes the memory. -/
def forEachMutBody (body : ListAddr → ListMem → Option ListMem) (head : ListAddr) (c : MutCursor) :
    Step MutCursor :=
  if c.pos = head then .exit
  else
    match body c.pos c.mem with
    | none => .fault
    | some m =>
      match m.next c.pos with
      | none => .fault
      | some next => .next { c with pos := next, passed := c.passed ++ [c.pos], mem := m }

/-- The loop of `list_for_each_safe`, one iteration: `pos = n, n = pos->next`. -/
def forEachSafeBody (body : ListAddr → ListMem → Option ListMem) (head : ListAddr) (c : MutCursor) :
    Step MutCursor :=
  if c.pos = head then .exit
  else
    match body c.pos c.mem with
    | none => .fault
    | some m =>
      match m.next c.n with
      | none => .fault
      | some next => .next ⟨c.n, next, c.passed ++ [c.pos], m⟩

/-- `pos = head->next, n = pos->next`. -/
def forEachSafeInit (head : ListAddr) (m : ListMem) : Option MutCursor := do
  let pos ← m.next head
  return ⟨pos, ← m.next pos, [], m⟩

/-- A node is given back: nothing lives at its address any more. -/
def ListMem.free (p : ListAddr) (m : ListMem) : ListMem :=
  { m with live := Function.update m.live p false }

end AdhocNode
