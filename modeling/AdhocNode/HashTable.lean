/-
  THE HASH TABLE — `InitHashTable`, `HashFun`, `Insert`, `Get`, `Dorp` and `clearHashTable` of
  `src/c_STL.c`.

  1. **The state** — `HashTable` is the structure of the source together with the heap its nodes live
     in.  A node is a cell of that heap: its key and value, and `nextNode` as the link.  `malloc`
     takes an address that was never used and does not fail; the copy of the key belongs to the node.

  2. **The functions** — they return `none` where the code would touch a node that is not live, or
     would walk a chain for ever.  No chain has more nodes than were ever allocated, so that many
     iterations are enough for every walk that ends.

  `char` is signed and `unsigned long` has 64 bits, as on the x86-64 the program is built for.
-/
import AdhocNode.CString
import AdhocNode.Lib.CMem
import AdhocNode.Lib.PtrChain

namespace AdhocNode

open CMem PtrChain

/-! ## The state -/

/-- `MAX_TABLE_SIZE`. -/
def maxTableSize : Nat := 100

/-- What a node stores. -/
structure HashEntry where
  key : CString
  value : Int32

/-- `HashNode`; the link is `nextNode`. -/
abbrev HashNode := Cell HashEntry

/-- `HashTable`, and the heap of the nodes. -/
structure HashTable where
  hashNode : Fin maxTableSize → Option Nat
  currentIndex : Int
  heap : Heap HashEntry

/-! ## The functions -/

/-- `InitHashTable`. -/
def initHashTable (hashTable : HashTable) : HashTable :=
  { hashTable with hashNode := fun _ => none, currentIndex := 0 }

/-- A `char`, widened to `unsigned long`. -/
def charToULong (c : UInt8) : UInt64 := if c < 128 then c.toUInt64 else c.toUInt64 - 256

/-- `HashFun`; `len` is an `int`. -/
def hashFun (key : CString) : UInt64 :=
  let len := toInt32 key.bytes.length
  (key.bytes.take len.toNat).foldl (fun hash c => hash * 33 + charToULong c) 0

/-- `HashFun(key) % MAX_TABLE_SIZE`. -/
def hashPos (key : CString) : Fin maxTableSize :=
  ⟨(hashFun key).toNat % maxTableSize, Nat.mod_lt _ (by unfold maxTableSize; omega)⟩

/-- `Insert`. -/
def HashTable.insert (hashTable : HashTable) (key : CString) (value : Int32) : Option HashTable :=
  let pos := hashPos key
  let newNode := hashTable.heap.bound
  let heap := hashTable.heap.alloc ⟨⟨key, value⟩, none⟩
  match hashTable.hashNode pos with
  | none =>
    some {
      hashNode := Function.update hashTable.hashNode pos (some newNode)
      currentIndex := toInt32 (hashTable.currentIndex + 1)
      heap := heap }
  | some p => do
    let node ← heap.cells p
    if node.val.key = key then
      -- the new node is not linked anywhere, and not freed
      let heap ← heap.set p { node with val := { node.val with value := value } }
      return { hashTable with heap := heap }
    else
      let heap ← heap.set newNode ⟨⟨key, value⟩, node.next⟩
      let heap ← heap.set p { node with next := some newNode }
      return { hashTable with heap := heap }

/-- The loop of `Get`, at `q`. -/
def getLoop (heap : Heap HashEntry) (key : CString) : Nat → Option Nat → Option (Option Nat)
  | _, none => some none
  | 0, some _ => none
  | fuel + 1, some q => do
    let node ← heap.cells q
    if node.val.key = key then return some q
    else getLoop heap key fuel node.next

/-- `Get`: the node whose `value` the returned pointer points to, if it is not NULL. -/
def HashTable.get (hashTable : HashTable) (key : CString) : Option (Option Nat) :=
  getLoop hashTable.heap key hashTable.heap.bound (hashTable.hashNode (hashPos key))

/-- What a caller of `Get` reads through the returned pointer. -/
def HashTable.getValue (hashTable : HashTable) (key : CString) : Option (Option Int32) := do
  match ← hashTable.get key with
  | none => return none
  | some q => return some (← hashTable.heap.cells q).val.value

/-- The loop of `Dorp`, at `q` behind `last`: the heap behind it and the result. -/
def dorpLoop (heap : Heap HashEntry) (key : CString) :
    Nat → Nat → Option Nat → Option (Heap HashEntry × Int)
  | _, _, none => some (heap, 0)
  | 0, _, some _ => none
  | fuel + 1, last, some q => do
    let node ← heap.cells q
    if node.val.key = key then
      let lastNode ← heap.cells last
      let heap ← heap.set last { lastNode with next := node.next }
      let heap ← heap.free q
      return (heap, 1)
    else dorpLoop heap key fuel q node.next

/-- `Dorp`. -/
def HashTable.dorp (hashTable : HashTable) (key : CString) : Option (HashTable × Int) :=
  let pos := hashPos key
  match hashTable.hashNode pos with
  | none => some (hashTable, 0)
  | some p => do
    let node ← hashTable.heap.cells p
    if node.val.key = key then
      let heap ← hashTable.heap.free p
      return ({ hashTable with
        hashNode := Function.update hashTable.hashNode pos node.next, heap := heap }, 1)
    else
      let (heap, n) ← dorpLoop hashTable.heap key hashTable.heap.bound p node.next
      return ({ hashTable with heap := heap }, n)

/-- The inner loop of `clearHashTable`, at `head`. -/
def clearLoop : Nat → Option Nat → Heap HashEntry → Option (Heap HashEntry)
  | _, none, heap => some heap
  | 0, some _, _ => none
  | fuel + 1, some head, heap => do
    let node ← heap.cells head
    let heap ← heap.free head
    clearLoop fuel node.next heap

/-- `clearHashTable`. -/
def clearHashTable (hashTable : HashTable) : Option HashTable := do
  let heap ← (List.finRange maxTableSize).foldlM
    (fun heap i => clearLoop hashTable.heap.bound (hashTable.hashNode i) heap) hashTable.heap
  return { hashTable with heap := heap }

end AdhocNode
