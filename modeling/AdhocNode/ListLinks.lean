/-
  LIST OPERATIONS AS LINKS — what the operations on `struct list_head` do to live nodes.

  1. **Accesses** — at a live address a member is read and written; no access changes which addresses
     are live.

  2. **Operations** — on live nodes every operation is defined, and its writes are links: `list_add`
     makes the steps into and out of the new node, `__list_del` the step past the old one, and so on
     (`listAddRaw_eq`, `listDelRaw_eq`, `listReplace_eq`, ...).  The order of the writes matters where a
     member is read back that an earlier write of the same operation may have changed.
-/
import AdhocNode.ListHead

namespace AdhocNode

open PtrRing

variable {m : ListMem} {p q : ListAddr}

/-! ## Accesses -/

@[simp] theorem withLinks_live (k : Links ListAddr) : (m.withLinks k).live = m.live := rfl

@[simp] theorem withLinks_links (k : Links ListAddr) : (m.withLinks k).links = k := rfl

/-- A member of a live node is read where the links say, -/
theorem next_eq (hp : m.live p) : m.next p = some (m.links.next p) := if_pos hp

theorem prev_eq (hp : m.live p) : m.prev p = some (m.links.prev p) := if_pos hp

/-- and written there; nothing else changes. -/
theorem setNext_eq (hp : m.live p) : m.setNext p q =
    some (m.withLinks (m.links.setNext p q)) := if_pos hp

theorem setPrev_eq (hp : m.live p) : m.setPrev p q =
    some (m.withLinks (m.links.setPrev p q)) := if_pos hp

/-- The two writes that make a step. -/
theorem setPrev_setNext (hp : m.live p) (hq : m.live q) :
    (m.setPrev q p).bind (ListMem.setNext p q) = some (m.withLinks (m.links.link p q)) := by
  rw [setPrev_eq hq, Option.bind_some, setNext_eq (by exact hp)]
  rfl

/-- The same in the other order. -/
theorem setNext_setPrev (hp : m.live p) (hq : m.live q) :
    (m.setNext p q).bind (ListMem.setPrev q p) = some (m.withLinks (m.links.link p q)) := by
  rw [setNext_eq hp, Option.bind_some, setPrev_eq (by exact hq)]
  rfl

/-- Linking a node to what was read, in the order "write, read back, write". -/
theorem setNext_next_setPrev (hp : m.live p) (hq : m.live q) :
    (m.setNext p q).bind (fun m => (m.next p).bind fun n => m.setPrev n p) =
      some (m.withLinks (m.links.link p q)) := by
  rw [setNext_eq hp, Option.bind_some, next_eq (by exact hp), Option.bind_some, withLinks_links,
    setNext_next_self]
  exact setPrev_eq (by exact hq)

/-! ## Operations -/

section Operations

variable {list head entry old new first last : ListAddr}

/-- `INIT_LIST_HEAD` makes a step from the node to itself. -/
theorem initListHead_eq (h : m.live list) :
    initListHead list m = some (m.withLinks (m.links.link list list)) := setNext_setPrev h h

/-- `__list_add` makes the step out of the new node and the one into it. -/
theorem listAddRaw_eq {prev next : ListAddr} (hnew : m.live new) (hprev : m.live prev)
    (hnext : m.live next) :
    listAddRaw new prev next m = some (m.withLinks ((m.links.link new next).link prev new)) := by
  show ((m.setPrev next new).bind fun m => (m.setNext new next).bind fun m =>
    (m.setPrev new prev).bind fun m => m.setNext prev new) = _
  rw [← Option.bind_assoc, setPrev_setNext hnew hnext, Option.bind_some]
  exact setPrev_setNext (m := m.withLinks _) hprev hnew

/-- `list_add` reads the node behind the head first, -/
theorem listAdd_eq (hnew : m.live new) (hhead : m.live head) (hnext : m.live (m.links.next head)) :
    listAdd new head m =
      some (m.withLinks ((m.links.link new (m.links.next head)).link head new)) := by
  show (m.next head).bind (fun next => listAddRaw new head next m) = _
  rw [next_eq hhead]
  exact listAddRaw_eq hnew hhead hnext

/-- and `list_add_tail` the one before it. -/
theorem listAddTail_eq (hnew : m.live new) (hhead : m.live head)
    (hprev : m.live (m.links.prev head)) :
    listAddTail new head m =
      some (m.withLinks ((m.links.link new head).link (m.links.prev head) new)) := by
  show (m.prev head).bind (fun prev => listAddRaw new prev head m) = _
  rw [prev_eq hhead]
  exact listAddRaw_eq hnew hprev hhead

/-- `__list_del_entry` makes the step past the entry, whose own members stay as they are. -/
theorem listDelEntry_eq (h : m.live entry) (hprev : m.live (m.links.prev entry))
    (hnext : m.live (m.links.next entry)) :
    listDelEntry entry m =
      some (m.withLinks (m.links.link (m.links.prev entry) (m.links.next entry))) := by
  show (m.prev entry).bind (fun prev => (m.next entry).bind fun next => listDelRaw prev next m) = _
  rw [prev_eq h, next_eq h]
  exact setPrev_setNext hprev hnext

/-- `list_replace`: the step out of the new node is made first, and `old->prev` is read after it. 
    That matters for a list of one node, where the node before `old` is `old` itself. -/
theorem listReplace_eq (hold : m.live old) (hnew : m.live new) (hnext : m.live (m.links.next old))
    (hprev : m.live ((m.links.link new (m.links.next old)).prev old)) :
    listReplace old new m = some (m.withLinks ((m.links.link new (m.links.next old)).link
      ((m.links.link new (m.links.next old)).prev old) new)) := by
  have hread := setNext_next_setPrev hnew hnext
  show ((m.next old).bind fun n => (m.setNext new n).bind fun m => (m.next new).bind fun n =>
    (m.setPrev n new).bind fun m => (m.prev old).bind fun p => (m.setPrev new p).bind fun m =>
      (m.prev new).bind fun p => m.setNext p new) = _
  rw [next_eq hold, Option.bind_some]
  simp only [← Option.bind_assoc] at hread ⊢
  rw [hread, Option.bind_some, prev_eq (by exact hold), Option.bind_some,
    setPrev_eq (by exact hnew), Option.bind_some, prev_eq (by exact hnew), Option.bind_some,
    withLinks_links, withLinks_links, setPrev_prev_self]
  exact setNext_eq (by exact hprev)

/-- `list_bulk_move_tail` takes the nodes out and reads `head->prev` only then, so the tail is that
    of the list without them.  The writes read `first->prev` and `last->next` again, which `hne`
    keeps apart. -/
theorem listBulkMoveTail_eq (hhead : m.live head) (hfirst : m.live first) (hlast : m.live last)
    (hprev : m.live (m.links.prev first)) (hnext : m.live (m.links.next last))
    (hne : last ≠ m.links.prev first)
    (hend : m.live ((m.links.link (m.links.prev first) (m.links.next last)).prev head)) :
    listBulkMoveTail head first last m =
      some (m.withLinks (((m.links.link (m.links.prev first) (m.links.next last)).link
        ((m.links.link (m.links.prev first) (m.links.next last)).prev head) first).link
          last head)) := by
  have hout : (m.setNext (m.links.prev first) (m.links.next last)).bind (fun m =>
      (m.next last).bind fun n => (m.prev first).bind fun p => m.setPrev n p) =
      some (m.withLinks (m.links.link (m.links.prev first) (m.links.next last))) := by
    rw [setNext_eq hprev, Option.bind_some, next_eq (by exact hlast), Option.bind_some,
      prev_eq (by exact hfirst), Option.bind_some, withLinks_links, setNext_next_of_ne hne]
    exact setPrev_eq (by exact hnext)
  generalize hk : m.links.link (m.links.prev first) (m.links.next last) = k at hout hend ⊢
  -- `head->prev->next` is written before `first->prev` is, through a second reading of `head->prev`
  have hin : ((m.withLinks k).setNext (k.prev head) first).bind (fun m =>
      (m.prev head).bind fun p => m.setPrev first p) =
      some (m.withLinks (k.link (k.prev head) first)) := by
    rw [setNext_eq (by exact hend), Option.bind_some, prev_eq (by exact hhead), Option.bind_some]
    exact setPrev_eq (by exact hfirst)
  show ((m.prev first).bind fun p => (m.next last).bind fun n => (m.setNext p n).bind fun m =>
    (m.next last).bind fun n => (m.prev first).bind fun p => (m.setPrev n p).bind fun m =>
    (m.prev head).bind fun p => (m.setNext p first).bind fun m =>
    (m.prev head).bind fun p => (m.setPrev first p).bind fun m =>
      (m.setNext last head).bind fun m => m.setPrev head last) = _
  rw [prev_eq hfirst, Option.bind_some, next_eq hlast, Option.bind_some]
  simp only [← Option.bind_assoc] at hout hin ⊢
  rw [hout, Option.bind_some, prev_eq (by exact hhead), Option.bind_some, withLinks_links, hin,
    Option.bind_some]
  exact setNext_setPrev (m := m.withLinks _) hlast hhead

/-- `__list_splice` makes the steps into the first and out of the last of the nodes. -/
theorem listSpliceRaw_eq {prev next : ListAddr} (hlist : m.live list) (hprev : m.live prev)
    (hnext : m.live next) (hfirst : m.live (m.links.next list)) (hlast : m.live (m.links.prev list)) :
    listSpliceRaw list prev next m = some (m.withLinks
      ((m.links.link prev (m.links.next list)).link (m.links.prev list) next)) := by
  show ((m.next list).bind fun f => (m.prev list).bind fun e => (m.setPrev f prev).bind fun m =>
    (m.setNext prev f).bind fun m => (m.setNext e next).bind fun m => m.setPrev next e) = _
  rw [next_eq hlist, Option.bind_some, prev_eq hlist, Option.bind_some, ← Option.bind_assoc,
    setPrev_setNext hprev hfirst, Option.bind_some]
  exact setNext_setPrev (m := m.withLinks _) hlast hnext

/-- `__list_cut_position` makes the steps around the first nodes, up to `entry`, and the step past
    them. -/
theorem listCutPositionRaw_eq (hlist : m.live list) (hhead : m.live head) (hentry : m.live entry)
    (hfirst : m.live (m.links.next head)) (hnew : m.live (m.links.next entry)) :
    listCutPositionRaw list head entry m = some (m.withLinks
      (((m.links.link list (m.links.next head)).link entry list).link
        head (m.links.next entry))) := by
  have hin := setNext_next_setPrev hlist hfirst
  show ((m.next entry).bind fun n => (m.next head).bind fun f => (m.setNext list f).bind fun m =>
    (m.next list).bind fun f => (m.setPrev f list).bind fun m => (m.setPrev list entry).bind fun m =>
    (m.setNext entry list).bind fun m => (m.setNext head n).bind fun m => m.setPrev n head) = _
  rw [next_eq hentry, Option.bind_some, next_eq hhead, Option.bind_some]
  simp only [← Option.bind_assoc] at hin ⊢
  rw [hin, Option.bind_some, setPrev_setNext (by exact hentry) (by exact hlist), Option.bind_some]
  exact setNext_setPrev (m := m.withLinks _) hhead hnew

/-- `list_cut_before` does the same up to the node before `entry`; its branch for an `entry` that is
    the first node is excluded here (`hne`), for nothing is cut there. -/
theorem listCutBefore_eq (hlist : m.live list) (hhead : m.live head) (hentry : m.live entry)
    (hfirst : m.live (m.links.next head)) (hne : entry ≠ m.links.next head)
    (hprev : m.live (m.links.prev entry)) :
    listCutBefore list head entry m = some (m.withLinks
      (((m.links.link list (m.links.next head)).link (m.links.prev entry) list).link
        head entry)) := by
  have hin := setNext_next_setPrev hlist hfirst
  -- the writes before it leave `entry->prev` alone
  have hread : (m.links.link list (m.links.next head)).prev entry = m.links.prev entry := by
    rw [link_prev, if_neg hne]
  have hback : ((m.withLinks (m.links.link list (m.links.next head))).setPrev list
      (m.links.prev entry)).bind (fun m => (m.prev list).bind fun p => m.setNext p list) =
      some (m.withLinks
        ((m.links.link list (m.links.next head)).link (m.links.prev entry) list)) := by
    rw [setPrev_eq (by exact hlist), Option.bind_some, prev_eq (by exact hlist), Option.bind_some,
      withLinks_links, withLinks_links, setPrev_prev_self]
    exact setNext_eq (by exact hprev)
  have hbranch : (m.links.next head == entry) = false := beq_false_of_ne (Ne.symm hne)
  show ((m.next head).bind fun a => if (a == entry) = true then initListHead list m else
    (m.next head).bind fun f => (m.setNext list f).bind fun m =>
    (m.next list).bind fun f => (m.setPrev f list).bind fun m => (m.prev entry).bind fun p =>
    (m.setPrev list p).bind fun m => (m.prev list).bind fun p => (m.setNext p list).bind fun m =>
    (m.setNext head entry).bind fun m => m.setPrev entry head) = _
  rw [next_eq hhead, Option.bind_some, hbranch, if_neg Bool.false_ne_true, Option.bind_some]
  simp only [← Option.bind_assoc] at hin hback ⊢
  rw [hin, Option.bind_some, prev_eq (by exact hentry), Option.bind_some, withLinks_links, hread,
    hback, Option.bind_some]
  exact setNext_setPrev (m := m.withLinks _) hhead hentry

end Operations

end AdhocNode
