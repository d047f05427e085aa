/-
  LISTS WITH A SINGLE POINTER HEAD — `struct hlist_head`, `struct hlist_node` and the operations on them of
  `include/kernel_list.h`.

  1. **The memory** — `HlistMem` says where a head and where a node lives, and what `first`, `next` and
     `pprev` are there.  A `struct hlist_node **` points to the `first` of a head or to the `next` of a
     node (`HlistSlot`).  Reading or writing a member is undefined (`none`) where nothing lives, and
     so is what a null or a poisoned `pprev` points to.

  2. **The operations** — one definition for each function, in the order of its accesses.  A leading `__`
     of the source is `Raw` here.  The values of `LIST_POISON1` and `LIST_POISON2` stand in
     `<linux/poison.h>`, which is not part of the repository; they are the parameter `poison`.

  3. **Walks** — `hlist_for_each` and `hlist_for_each_safe`, with a body that may change the memory.
-/
import AdhocNode.Lib.SlotChain
import AdhocNode.Lib.WhileLoop
import Mathlib.Data.Option.Basic

namespace AdhocNode

open SlotChain WhileLoop

/-! ## The memory -/

/-- The address of a `struct hlist_head` or a `struct hlist_node`. -/
abbrev HlistAddr := Nat

/-- `&h->first` and `&n->next`. -/
inductive HlistSlot where
  | first (h : HlistAddr)
  | next (n : HlistAddr)
  deriving DecidableEq

/-- Where the slots of heads and nodes are. -/
def hlistLayout : Layout HlistAddr HlistAddr HlistSlot where
  start := .first
  out := .next
  start_inj _ _ h := HlistSlot.first.inj h
  out_inj _ _ h := HlistSlot.next.inj h
  start_ne_out _ _ := nofun

/-- The addresses at which a head or a node lives, and what is stored there. -/
structure HlistMem where
  head : HlistAddr → Bool
  node : HlistAddr → Bool
  links : Links HlistSlot HlistAddr

/-- `LIST_POISON1` and `LIST_POISON2`. -/
structure HlistPoison where
  poison1 : HlistAddr
  poison2 : HlistSlot

namespace HlistMem

/-- The memory with other links. -/
def withLinks (m : HlistMem) (k : Links HlistSlot HlistAddr) : HlistMem := { m with links := k }

/-- A head or a node lives where the slot is. -/
def live (m : HlistMem) : HlistSlot → Bool
  | .first h => m.head h
  | .next n => m.node n

/-- `h->first` or `n->next`. -/
def load (m : HlistMem) (s : HlistSlot) : Option (Option HlistAddr) :=
  if m.live s then some (m.links.slot s) else none

/-- `h->first = p` or `n->next = p`. -/
def store (s : HlistSlot) (p : Option HlistAddr) (m : HlistMem) : Option HlistMem :=
  if m.live s then some (m.withLinks (m.links.setSlot s p)) else none

/-- `n->pprev`. -/
def pprev (m : HlistMem) (n : HlistAddr) : Option (Option HlistSlot) :=
  if m.node n then some (m.links.back n) else none

/-- `n->pprev = s`. -/
def setPprev (n : HlistAddr) (s : Option HlistSlot) (m : HlistMem) : Option HlistMem :=
  if m.node n then some (m.withLinks (m.links.setBack n s)) else none

/-- `*pprev = p`. -/
def storeAt (pprev : Option HlistSlot) (p : Option HlistAddr) (m : HlistMem) : Option HlistMem := do
  m.store (← pprev) p

/-- `if (p) p->pprev = s`. -/
def setPprevOf (p : Option HlistAddr) (s : Option HlistSlot) (m : HlistMem) : Option HlistMem :=
  match p with
  | some p => m.setPprev p s
  | none => some m

end HlistMem

/-! ## The operations -/

/-- `INIT_HLIST_HEAD`. -/
def initHlistHead (h : HlistAddr) (m : HlistMem) : Option HlistMem := m.store (.first h) none

/-- `INIT_HLIST_NODE`. -/
def initHlistNode (h : HlistAddr) (m : HlistMem) : Option HlistMem := do
  let m ← m.store (.next h) none
  m.setPprev h none

/-- `hlist_unhashed`. -/
def hlistUnhashed (h : HlistAddr) (m : HlistMem) : Option Bool := do
  return (← m.pprev h).isNone

/-- `hlist_empty`. -/
def hlistEmpty (h : HlistAddr) (m : HlistMem) : Option Bool := do
  return (← m.load (.first h)).isNone

/-- `__hlist_del`. -/
def hlistDelRaw (n : HlistAddr) (m : HlistMem) : Option HlistMem := do
  let next ← m.load (.next n)
  let pprev ← m.pprev n
  let m ← m.storeAt pprev next
  m.setPprevOf next pprev

/-- `hlist_del`. -/
def hlistDel (poison : HlistPoison) (n : HlistAddr) (m : HlistMem) : Option HlistMem := do
  let m ← hlistDelRaw n m
  let m ← m.store (.next n) (some poison.poison1)
  m.setPprev n (some poison.poison2)

/-- `hlist_del_init`. -/
def hlistDelInit (n : HlistAddr) (m : HlistMem) : Option HlistMem := do
  if !(← hlistUnhashed n m) then
    let m ← hlistDelRaw n m
    initHlistNode n m
  else
    return m

/-- `hlist_add_head`. -/
def hlistAddHead (n h : HlistAddr) (m : HlistMem) : Option HlistMem := do
  let first ← m.load (.first h)
  let m ← m.store (.next n) first
  let m ← m.setPprevOf first (some (.next n))
  let m ← m.store (.first h) (some n)
  m.setPprev n (some (.first h))

/-- `hlist_add_before`; `n->pprev` is read back before it is followed. -/
def hlistAddBefore (n next : HlistAddr) (m : HlistMem) : Option HlistMem := do
  let m ← m.setPprev n (← m.pprev next)
  let m ← m.store (.next n) (some next)
  let m ← m.setPprev next (some (.next n))
  m.storeAt (← m.pprev n) (some n)

/-- `hlist_add_behind`; `n->next` is read back. -/
def hlistAddBehind (n prev : HlistAddr) (m : HlistMem) : Option HlistMem := do
  let m ← m.store (.next n) (← m.load (.next prev))
  let m ← m.store (.next prev) (some n)
  let m ← m.setPprev n (some (.next prev))
  m.setPprevOf (← m.load (.next n)) (some (.next n))

/-- `hlist_add_fake`. -/
def hlistAddFake (n : HlistAddr) (m : HlistMem) : Option HlistMem := m.setPprev n (some (.next n))

/-- `hlist_fake`. -/
def hlistFake (h : HlistAddr) (m : HlistMem) : Option Bool := do
  return (← m.pprev h) == some (.next h)

/-- `hlist_is_singular_node`. -/
def hlistIsSingularNode (n h : HlistAddr) (m : HlistMem) : Option Bool := do
  return (← m.load (.next n)).isNone && (← m.pprev n) == some (.first h)

/-- `hlist_move_list`; `new->first` is read back. -/
def hlistMoveList (old new : HlistAddr) (m : HlistMem) : Option HlistMem := do
  let m ← m.store (.first new) (← m.load (.first old))
  let m ← m.setPprevOf (← m.load (.first new)) (some (.first new))
  m.store (.first old) none

/-! ## Walks -/

/-- The loop variable, the nodes the body was run for, and the memory. -/
structure HlistCursor where
  pos : Option HlistAddr
  passed : List HlistAddr
  mem : HlistMem

section

variable (body : HlistAddr → HlistMem → Option HlistMem)

/-- The loop of `hlist_for_each`, one iteration: `pos->next` is read behind the body. -/
def hlistForEachBody (c : HlistCursor) : Step HlistCursor :=
  match c.pos with
  | none => .exit
  | some pos =>
    match body pos c.mem with
    | none => .fault
    | some m =>
      match m.load (.next pos) with
      | none => .fault
      | some next => .next ⟨next, c.passed ++ [pos], m⟩

/-- The loop of `hlist_for_each_safe`, one iteration: `n = pos->next` is read before the body. -/
def hlistForEachSafeBody (c : HlistCursor) : Step HlistCursor :=
  match c.pos with
  | none => .exit
  | some pos =>
    match c.mem.load (.next pos) with
    | none => .fault
    | some n =>
      match body pos c.mem with
      | none => .fault
      | some m => .next ⟨n, c.passed ++ [pos], m⟩

end

/-- The loop over the list of `h` ends; its body was run for the nodes `l`, in this order, and has made
    `m` to `m'`. -/
def HlistWalks (step : HlistCursor → Step HlistCursor) (h : HlistAddr) (m : HlistMem) (l : List HlistAddr)
    (m' : HlistMem) : Prop :=
  ∃ first, m.load (.first h) = some first ∧ Returns step ⟨first, [], m⟩ ⟨none, l, m'⟩

end AdhocNode
