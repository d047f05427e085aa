/-
  COLLECTING — the loop of `collect` and the loop of `thread_collect`, which share `g_collBuf`
  (`src/collectData.c`).

  `collect` runs in the thread that `thread_collect` starts.  A step of a party is one statement of its
  loop, so a list of parties is a schedule (`Runs`).  The runs start when `collect` has set `count`;
  until then the other loop finds it 0 and goes round.
-/
import AdhocNode.Lib.CMem

namespace AdhocNode

open CMem

/-! ## The shared state -/

/-- `ecollectDataType`, without its end mark: `collect` returns at once on that and above. -/
inductive CollectDataType where
  | noise
  | dpfs

/-- `sizeof(g_collBuf.data)`. -/
def collBufSize : Nat := 1000

/-- `stcollectBuf`. -/
structure CollectBuf where
  count : UInt32
  len : Int
  data : Mem

/-- A call on the collect file. -/
inductive FileCall where
  | fprintf (text : String)
  | fwrite (bytes : List UInt8)
  deriving DecidableEq

/-- `collectNoise`; the `len` bytes must be there. -/
def collectNoise (buf : CollectBuf) (fp : List FileCall) : Option (List FileCall) :=
  if 0 ≤ buf.len ∧ buf.len ≤ collBufSize then
    some (fp ++ [.fwrite (buf.data.slice 0 buf.len.toNat)])
  else none

/-- `collectDbfs`. -/
def collectDbfs (_ : CollectBuf) (fp : List FileCall) : Option (List FileCall) := some fp

/-- `collectFuncArr`, as `init_register_callback` leaves it. -/
def collectFuncArr : CollectDataType → CollectBuf → List FileCall → Option (List FileCall)
  | .noise => collectNoise
  | .dpfs => collectDbfs

/-- The bytes `thread_collect` appends, `arr`. -/
def arr : Mem := fun i => UInt8.ofNat i

/-! ## The parties -/

/-- The next statement of `collect`. -/
inductive CollectPc where
  | whileCount
  | fprintf
  | sleep
  | printf
  | testLen
  | callback
  | decrement
  | testZero
  | ended
  deriving DecidableEq

/-- The next statement of `thread_collect`. -/
inductive ThreadPc where
  | testCount
  | memcpy
  | addLen
  | decrement
  | testZero
  | ended
  deriving DecidableEq

/-- `g_collBuf`, the collect file, and where the parties are. -/
structure Collecting where
  collBuf : CollectBuf
  fp : List FileCall
  collect : CollectPc
  thread : ThreadPc

/-- `g_collBuf.count--`. -/
def CollectBuf.decrement (buf : CollectBuf) : CollectBuf := { buf with count := buf.count - 1 }

/-- `memcpy(g_collBuf.data + g_collBuf.len, arr, 80)`. -/
def CollectBuf.append (buf : CollectBuf) : Option CollectBuf := do
  if 0 ≤ buf.len then
    let data ← Mem.copyIn? collBufSize buf.data buf.len.toNat arr 80
    return { buf with data := data }
  else none

/-- A statement of the loop in `collect`; `sleep` and `printf` change nothing here. -/
def collectStep (type : CollectDataType) (s : Collecting) : Option Collecting :=
  match s.collect with
  | .whileCount => some { s with collect := if s.collBuf.count ≠ 0 then .fprintf else .ended }
  | .fprintf => some { s with fp := s.fp ++ [.fprintf "hello\n"], collect := .sleep }
  | .sleep => some { s with collect := .printf }
  | .printf => some { s with collect := .testLen }
  | .testLen => some { s with collect := if s.collBuf.len > 0 then .callback else .decrement }
  | .callback => do
    let fp ← collectFuncArr type s.collBuf s.fp
    return { s with fp := fp, collect := .decrement }
  | .decrement => some { s with collBuf := s.collBuf.decrement, collect := .testZero }
  | .testZero => some { s with collect := if s.collBuf.count = 0 then .ended else .whileCount }
  | .ended => some s

/-- A statement of the loop in `thread_collect`. -/
def threadStep (s : Collecting) : Option Collecting :=
  match s.thread with
  | .testCount => some { s with thread := if s.collBuf.count > 0 then .memcpy else .testCount }
  | .memcpy => do
    let buf ← s.collBuf.append
    return { s with collBuf := buf, thread := .addLen }
  | .addLen =>
    some { s with collBuf := { s.collBuf with len := s.collBuf.len + 80 }, thread := .decrement }
  | .decrement => some { s with collBuf := s.collBuf.decrement, thread := .testZero }
  | .testZero => some { s with thread := if s.collBuf.count = 0 then .ended else .testCount }
  | .ended => some s

/-- Whose statement is next. -/
inductive CollectParty where
  | collect
  | thread

/-- The next statement of a party. -/
def collectingStep (type : CollectDataType) : CollectParty → Collecting → Option Collecting
  | .collect => collectStep type
  | .thread => threadStep

/-- The state when `collect` has set `count`. -/
def collectStart (count : Int32) : Collecting where
  collBuf := ⟨count.toUInt32, 0, fun _ => 0⟩
  fp := []
  collect := .whileCount
  thread := .testCount

end AdhocNode
