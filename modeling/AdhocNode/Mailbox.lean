/-
  THE MAILBOX — the loops of `producer` and `customer`, which share one slot of text and a flag
  (`src/process_interactive.c`).

  A step of a party is one statement of its loop, and does one read or one write of the shared memory;
  a list of parties is a schedule (`Runs`).  The shared memory is new, so its bytes are 0.  Each party
  starts in front of its first access: `customer` sets the flag to 0 before its loop.
-/
import AdhocNode.CString
import AdhocNode.Lib.CStr

namespace AdhocNode

open CMem

/-! ## The state -/

/-- `TEXT_SZ`. -/
def textSz : Nat := 2048

/-- `stshared_use_st`. -/
structure SharedUse where
  writtenByYou : Int
  someText : Mem

/-- A line of the input, shorter than `TEXT_SZ`. -/
structure MailLine extends CString where
  short : bytes.length < textSz

/-- The next statement of `producer`. -/
inductive ProducerPc where
  | whileWritten
  | fgets
  | strncpy
  | setWritten
  | strncmp
  | ended
  deriving DecidableEq

/-- The next statement of `customer`. -/
inductive CustomerPc where
  | reset
  | ifWritten
  | printf
  | clear
  | strncmp
  | ended
  deriving DecidableEq

/-- The shared memory; `stdin` and `buffer` of the producer, which is not set before the first line is
    read; what the customer has printed; and where the two are. -/
structure Mailing where
  shared : SharedUse
  stdin : List MailLine
  buffer : Option MailLine
  printed : List (List UInt8)
  producer : ProducerPc
  customer : CustomerPc

/-! ## The parties -/

/-- `fgets(buffer, BUFSIZ, stdin)`; at the end of the input it leaves `buffer` alone. -/
def Mailing.fgets (s : Mailing) : Mailing :=
  match s.stdin with
  | [] => s
  | line :: rest => { s with stdin := rest, buffer := some line }

/-- A statement of the loop in `producer`. -/
def producerStep (s : Mailing) : Option Mailing :=
  match s.producer with
  | .whileWritten =>
    some { s with producer := if s.shared.writtenByYou = 1 then .whileWritten else .fgets }
  | .fgets => some { s.fgets with producer := .strncpy }
  | .strncpy => do
    let buffer ← s.buffer
    let someText := s.shared.someText.strncpy buffer.bytes textSz
    return { s with shared := { s.shared with someText := someText }, producer := .setWritten }
  | .setWritten =>
    some { s with shared := { s.shared with writtenByYou := 1 }, producer := .strncmp }
  | .strncmp => do
    let buffer ← s.buffer
    return { s with producer := if isEnd buffer.bytes then .ended else .whileWritten }
  | .ended => some s

/-- A statement of `customer`, the loop and the one before it; its `sleep` is left to the schedule. -/
def customerStep (s : Mailing) : Option Mailing :=
  match s.customer with
  | .reset =>
    some { s with shared := { s.shared with writtenByYou := 0 }, customer := .ifWritten }
  | .ifWritten =>
    some { s with customer := if s.shared.writtenByYou ≠ 0 then .printf else .ifWritten }
  | .printf => do
    let text ← s.shared.someText.str? 0 textSz
    return { s with printed := s.printed ++ [text], customer := .clear }
  | .clear =>
    some { s with shared := { s.shared with writtenByYou := 0 }, customer := .strncmp }
  | .strncmp =>
    some { s with customer := if s.shared.someText.slice 0 3 = endText then .ended else .ifWritten }
  | .ended => some s

/-- Whose statement is next. -/
inductive MailParty where
  | producer
  | customer

/-- The next statement of a party. -/
def mailingStep : MailParty → Mailing → Option Mailing
  | .producer => producerStep
  | .customer => customerStep

/-- Both parties in front of their first access, with the lines that will be typed. -/
def mailingStart (stdin : List MailLine) : Mailing where
  shared := ⟨0, fun _ => 0⟩
  stdin := stdin
  buffer := none
  printed := []
  producer := .whileWritten
  customer := .reset

end AdhocNode
