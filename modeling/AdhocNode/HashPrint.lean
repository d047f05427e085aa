/-
  PRINTING THE HASH TABLE — `PrintHashTable` of `src/c_STL.c`, and the table as lists of entries.

  1. **The function** — it walks the buckets and their chains; `none` where the code would touch a node
     that is not live, or would walk a chain for ever.

  2. **The text** — `PrintHashTable` prints the entries of a represented table, bucket by bucket
     (`print_spec`).

  3. **Runs** — `table_lists`: whatever calls are made, the replies and the printed texts are those of
     lists of entries, one for each bucket, without any nodes.  `prints_map`: as long as no `Insert` misses
     its key the entries printed are those of the map, each key once.
-/
import AdhocNode.ConfFile
import AdhocNode.HashClear

namespace AdhocNode

open CMem PtrChain AssocList Runs

/-! ## The function -/

/-- The bytes of a string literal that is not ASCII. -/
def utf8Text (s : String) : List UInt8 := s.toUTF8.toList

/-- `(%s:%d)` -/
def entryText (e : HashEntry) : List UInt8 :=
  text "(" ++ e.key.bytes ++ text ":" ++ decimal e.value.toInt ++ text ")"

/-- A new line, and the text before the number of a bucket. -/
def bucketHead : List UInt8 := utf8Text "\n数组下标："

example : bucketHead.take 4 = [10, 0xE6, 0x95, 0xB0] := by decide +kernel

/-- The inner loop of `PrintHashTable`, at `head`. -/
def printLoop (heap : Heap HashEntry) : Nat → Option Nat → Option (List UInt8)
  | _, none => some []
  | 0, some _ => none
  | fuel + 1, some head => do
    let node ← heap.cells head
    return text "-->" ++ entryText node.val ++ (← printLoop heap fuel node.next)

/-- One pass of its outer loop. -/
def HashTable.printBucket (hashTable : HashTable) (i : Fin maxTableSize) : Option (List UInt8) :=
  match hashTable.hashNode i with
  | none => some []
  | some head => do
    let node ← hashTable.heap.cells head
    return bucketHead ++ decimal i.val ++ text " ==>" ++ entryText node.val ++
      (← printLoop hashTable.heap hashTable.heap.bound node.next)

/-- `PrintHashTable`: what it prints. -/
def printHashTable (hashTable : HashTable) : Option (List UInt8) :=
  (List.finRange maxTableSize).foldlM (fun out i => (hashTable.printBucket i).map (out ++ ·)) []

/-! ## The text -/

/-- The text of bucket `i` with these entries. -/
def bucketText (i : Fin maxTableSize) : List HashEntry → List UInt8
  | [] => []
  | e :: es => bucketHead ++ decimal i.val ++ text " ==>" ++ entryText e ++
    es.flatMap fun e => text "-->" ++ entryText e

/-- The entries of each bucket. -/
abbrev EntryLists := Fin maxTableSize → List (Unit × HashEntry)

/-- The text of all buckets. -/
def tableText (E : EntryLists) : List UInt8 :=
  (List.finRange maxTableSize).flatMap fun i => bucketText i ((E i).map Prod.snd)

section

variable {t : HashTable} {L : Buckets} {heap : Heap HashEntry}

theorem printLoop_spec {l : List (Nat × HashEntry)} : ∀ {fuel : Nat} {q : Option Nat},
    Chain heap q l → l.length ≤ fuel → printLoop heap fuel q =
      some ((l.map Prod.snd).flatMap fun e => text "-->" ++ entryText e) := by
  induction l with
  | nil =>
    intro fuel q hq _
    rw [show q = none from hq]
    cases fuel <;> rfl
  | cons x l ih =>
    intro fuel q hq hfuel
    rcases hq with ⟨rfl, r, hcell, hrest⟩
    rw [List.length_cons] at hfuel
    obtain ⟨fuel, rfl⟩ := Nat.exists_eq_succ_of_ne_zero (show fuel ≠ 0 by omega)
    simp [printLoop, hcell, ih hrest (Nat.le_of_succ_le_succ hfuel)]

theorem map_snd_entries (L : Buckets) (i : Fin maxTableSize) :
    (entries L i).map Prod.snd = (L i).map Prod.snd := by
  unfold entries rename
  rw [List.map_map]
  rfl

theorem printBucket_spec (h : Rep t L) (i : Fin maxTableSize) :
    t.printBucket i = some (bucketText i ((entries L i).map Prod.snd)) := by
  rw [map_snd_entries]
  unfold HashTable.printBucket
  cases hp : t.hashNode i with
  | none =>
    rw [h.hashNode_none hp]
    rfl
  | some p =>
    rcases h.hashNode_some hp with ⟨e, r, l, hL, hcell, hrest⟩
    simp [hcell, hL, printLoop_spec hrest (Chain.length_le hrest), bucketText]

/-- **`PrintHashTable` prints the entries**, bucket by bucket. -/
theorem print_spec (h : Rep t L) : printHashTable t = some (tableText (entries L)) := by
  have hloop : ∀ (is : List (Fin maxTableSize)) (out : List UInt8),
      is.foldlM (fun out i => (t.printBucket i).map (out ++ ·)) out =
        some (out ++ is.flatMap fun i => bucketText i ((entries L i).map Prod.snd)) := by
    intro is
    induction is with
    | nil => exact fun out => congrArg some (List.append_nil out).symm
    | cons i is ih =>
      intro out
      rw [List.foldlM_cons, printBucket_spec h, Option.map_some, Option.bind_eq_bind, Option.bind_some,
        ih, List.flatMap_cons, List.append_assoc]
  rw [printHashTable, hloop, List.nil_append, tableText]

end

/-! ## Runs -/

/-- A call on the table, or `PrintHashTable`. -/
inductive TableOp where
  | call (op : HashOp)
  | print

/-- What it gives: the reply, or the text. -/
inductive TableReply where
  | reply (r : HashReply)
  | printed (out : List UInt8)

/-- The calls on the table, and what they give. -/
def HashTable.outputs : HashTable → List TableOp → Option (List TableReply)
  | _, [] => some []
  | t, .call op :: ops => do
    let (t', r) ← t.call op
    return .reply r :: (← t'.outputs ops)
  | t, .print :: ops => do
    let out ← printHashTable t
    return .printed out :: (← t.outputs ops)

/-- A call on the entries: **the buckets are association lists with repeated keys**. -/
def listCall (E : EntryLists) : HashOp → EntryLists × HashReply
  | .insert key value =>
    (Function.update E (hashPos key) (put HashEntry.key () ⟨key, value⟩ (E (hashPos key))), .void)
  | .get key => (E, .value ((lookup HashEntry.key key (E (hashPos key))).map fun x => x.2.value))
  | .dorp key =>
    (Function.update E (hashPos key) (drop HashEntry.key key (E (hashPos key))),
      .int (if (lookup HashEntry.key key (E (hashPos key))).isSome then 1 else 0))

/-- What the same calls give on the entries. -/
def listOutputs : EntryLists → List TableOp → List TableReply
  | _, [] => []
  | E, .call op :: ops => .reply (listCall E op).2 :: listOutputs (listCall E op).1 ops
  | E, .print :: ops => .printed (tableText E) :: listOutputs E ops

/-- One call. -/
theorem call_lists {t : HashTable} {L : Buckets} (h : Rep t L) (op : HashOp) :
    ∃ t' L', t.call op = some (t', (listCall (entries L) op).2) ∧ Rep t' L' ∧
      entries L' = (listCall (entries L) op).1 := by
  have hlookup : ∀ {key : CString}, lookup HashEntry.key key (entries L (hashPos key)) =
      (lookup HashEntry.key key (L (hashPos key))).map fun x => ((), x.2) := lookup_rename
  cases op with
  | insert key value =>
    rcases insert_spec h key value with ⟨t', hcall, hrep⟩
    refine ⟨t', _, call_insert hcall, hrep, ?_⟩
    rw [entries_update, rename_put, listCall, entries]
  | get key =>
    refine ⟨t, L, ?_, h, rfl⟩
    rw [call_get (getValue_spec h key)]
    simp only [listCall, hlookup, Option.map_map]
    rfl
  | dorp key =>
    rcases dorp_spec h key with ⟨t', hcall, hrep⟩
    refine ⟨t', _, ?_, hrep, ?_⟩
    · rw [call_dorp hcall]
      simp only [listCall, hlookup, Option.isSome_map]
      rfl
    · rw [entries_update, rename_drop, listCall, entries]

theorem outputs_eq (ops : List TableOp) : ∀ {t : HashTable} {L : Buckets}, Rep t L →
    t.outputs ops = some (listOutputs (entries L) ops) := by
  induction ops with
  | nil => exact fun _ => rfl
  | cons op ops ih =>
    intro t L h
    cases op with
    | call op =>
      rcases call_lists h op with ⟨t', L', hcall, hrep, hentries⟩
      rw [HashTable.outputs, hcall]
      simp [listOutputs, ih hrep, hentries]
    | print =>
      rw [HashTable.outputs, print_spec h]
      simp [listOutputs, ih h]

/-- **The table is its lists of entries**: every sequence of `Insert`, `Get`, `Dorp` and
    `PrintHashTable` on an initialised table returns, and replies and prints what the lists do. -/
theorem table_lists (t : HashTable) (ops : List TableOp) :
    (initHashTable t).outputs ops = some (listOutputs (fun _ => []) ops) := outputs_eq ops (rep_init t)

/-! ## As a map -/

section

variable {t : HashTable} {L : Buckets} {M : KeyMap} {key : CString} {value : Int32}

theorem KeysNodup.count_le (hL : KeysNodup L) (i : Fin maxTableSize) (key : CString) :
    count HashEntry.key key (L i) ≤ 1 := by
  have hone : (keys HashEntry.key (L i)).count key ≤ 1 := List.nodup_iff_count_le_one.mp (hL i) key
  refine Nat.le_trans (Nat.le_of_eq ?_) hone
  rw [keys, List.count, List.countP_map, count]
  refine List.countP_congr fun x _ => ?_
  simp

theorem mem_of_lookup {l : List (Nat × HashEntry)} {x : Nat × HashEntry}
    (h : lookup HashEntry.key key l = some x) : x ∈ l ∧ x.2.key = key := by
  have hkey := List.find?_some (p := fun x : Nat × HashEntry => decide (x.2.key = key)) h
  exact ⟨List.mem_of_find?_eq_some h, of_decide_eq_true hkey⟩

/-- **An entry that some bucket holds** is the one that is found for its key, and the other way round. -/
theorem KeysNodup.mem_iff (h : Rep t L) (hL : KeysNodup L) :
    (∃ i, ((), (⟨key, value⟩ : HashEntry)) ∈ entries L i) ↔ found L key = some value := by
  have hmem : ∀ {i}, ((), (⟨key, value⟩ : HashEntry)) ∈ entries L i ↔
      ∃ a, (a, (⟨key, value⟩ : HashEntry)) ∈ L i := by
    intro i
    simp [entries, rename]
  constructor
  · rintro ⟨i, hi⟩
    rcases hmem.mp hi with ⟨a, ha⟩
    have hpos := h.home i _ ha
    dsimp only at hpos
    subst hpos
    unfold found
    cases hfind : lookup HashEntry.key key (L (hashPos key)) with
    | none => exact absurd (decide_eq_true rfl) (List.find?_eq_none.mp hfind _ ha)
    | some x =>
      rcases mem_of_lookup hfind with ⟨hx, hkey⟩
      rw [List.inj_on_of_nodup_map (hL _) hx ha hkey]
      rfl
  · intro hfound
    rcases Option.map_eq_some_iff.mp hfound with ⟨x, hx, rfl⟩
    rcases mem_of_lookup hx with ⟨hmemx, hkey⟩
    refine ⟨hashPos key, hmem.mpr ⟨x.1, ?_⟩⟩
    subst hkey
    exact hmemx

theorem exists_run_map {ops : List HashOp} (h : Rep t L) (hL : KeysNodup L) (hM : Agrees t M)
    (hops : InsertsOk t ops) : ∃ t' L', run tableStep t ops = some t' ∧ Rep t' L' ∧ KeysNodup L' ∧
      Agrees t' (mapCalls M ops) := by
  induction ops generalizing t L M with
  | nil => exact ⟨t, L, rfl, h, hL, hM⟩
  | cons op ops ih =>
    rcases hops with ⟨hok, hrest⟩
    rcases call_keysNodup h hL op with ⟨t₁, L₁, hstep, hrep, hkeys⟩
    rcases call_spec h hM op with ⟨t₂, L₂, hcall, -, hagrees⟩
    have hsame : t₁ = t₂ := by
      rw [tableStep, hcall] at hstep
      exact (Option.some.inj hstep).symm
    subst hsame
    have hop : OpOk t op := by
      cases op with
      | insert key value => trivial
      | get key => trivial
      | dorp key => exact (keyOnce_iff h).mpr (hL.count_le _ _)
    rcases ih hrep (hkeys.mpr hok) (hagrees.mpr hop) (hrest t₁ hstep) with ⟨t', L', hrun, hrest'⟩
    exact ⟨t', L', (run_cons hstep).trans hrun, hrest'⟩

end

/-- The keys that are printed, in that order. -/
def printedKeys (E : EntryLists) : List CString :=
  (List.finRange maxTableSize).flatMap fun i => (E i).map fun x => x.2.key

/-- A key is in its own bucket only, so it is printed at most once if no bucket has it twice. -/
theorem KeysNodup.nodup_printedKeys {t : HashTable} {L : Buckets} (h : Rep t L) (hL : KeysNodup L) :
    (printedKeys (entries L)).Nodup := by
  have hsame : ∀ i, (entries L i).map (fun x => x.2.key) = keys HashEntry.key (L i) := by
    intro i
    simp [entries, rename, keys]
  unfold printedKeys
  simp only [hsame]
  refine List.nodup_flatMap.mpr ⟨fun i _ => hL i, ?_⟩
  refine (List.nodup_finRange maxTableSize).imp fun {i j} hij => ?_
  intro key hi hj
  rcases List.mem_map.mp hi with ⟨x, hx, rfl⟩
  rcases List.mem_map.mp hj with ⟨y, hy, hkey⟩
  apply hij
  rw [← h.home i x hx, ← h.home j y hy, hkey]

/-- **What is printed is the map**: as long as no `Insert` misses its key behind the first node of the
    bucket, the entries that `PrintHashTable` prints are those of the map, no key twice. -/
theorem prints_map (t : HashTable) {ops : List HashOp} (h : InsertsOk (initHashTable t) ops) :
    ∃ t' E, run tableStep (initHashTable t) ops = some t' ∧ printHashTable t' = some (tableText E) ∧
      (∀ key value, (∃ i, ((), (⟨key, value⟩ : HashEntry)) ∈ E i) ↔
        mapCalls (fun _ => none) ops key = some value) ∧
      (printedKeys E).Nodup := by
  have hagrees : Agrees (initHashTable t) fun _ => none := (agrees_iff (rep_init t)).mpr fun _ => rfl
  rcases exists_run_map (rep_init t) (fun _ => List.nodup_nil) hagrees h with
    ⟨t', L, hrun, hrep, hkeys, hmap⟩
  refine ⟨t', entries L, hrun, print_spec hrep, fun key value => ?_, hkeys.nodup_printedKeys hrep⟩
  rw [hkeys.mem_iff hrep, (agrees_iff hrep).mp hmap]

/-- "b" gets a value, and another one. -/
theorem prints_map_twice : ∃ t' E,
    run tableStep (initHashTable .blank) [.insert keyB 1, .insert keyB 2] = some t' ∧
      printHashTable t' = some (tableText E) ∧ ∃ i, ((), (⟨keyB, 2⟩ : HashEntry)) ∈ E i := by
  have hok : InsertsOk (initHashTable .blank) [.insert keyB 1, .insert keyB 2] := by
    rcases insert_tableStep (rep_init .blank) keyB 1 with ⟨t₁, hstep₁, hrep₁⟩
    have hfirst : InsertOk (.insert keyB 1) (initHashTable .blank) :=
      (notBehind_iff (rep_init .blank)).mpr List.not_mem_nil
    refine ⟨hfirst, fun t₂ hstep₂ => ⟨?_, fun _ _ => trivial⟩⟩
    rw [hstep₁] at hstep₂
    cases hstep₂
    refine (notBehind_iff hrep₁).mpr ?_
    rw [Function.update_self]
    exact List.not_mem_nil
  rcases prints_map .blank hok with ⟨t', E, hrun, hprint, hmap, -⟩
  exact ⟨t', E, hrun, hprint, (hmap keyB 2).mpr rfl⟩

end AdhocNode
