/-
  THE MESSAGE QUEUE — the loops of `msgqueue_send` and `msgqueue_recv`
  (`src/process_interactive.c`).

  A step of a party is one statement of its loop; a list of parties is a schedule (`Runs`).  The queue
  of the kernel hands the messages on in order and loses none.  `msgrcv` waits while it is empty; a
  sender that waits because it is full is one that the schedule leaves out.
-/
import AdhocNode.CString
import AdhocNode.Lib.CStr

namespace AdhocNode

open CMem

/-! ## The state -/

/-- `BUFSIZ`. -/
def bufsiz : Nat := 8192

/-- `MAX_TEXT`. -/
def maxText : Nat := 512

/-- A line of the input that `fgets` reads in one go. -/
structure InputLine extends CString where
  fits : bytes.length < bufsiz

/-- The next statement of `msgqueue_send`. -/
inductive MsgSendPc where
  | fgets
  | strcpy
  | msgsnd
  | strncmp
  | ended
  deriving DecidableEq

/-- The next statement of `msgqueue_recv`. -/
inductive MsgRecvPc where
  | msgrcv
  | printf
  | strncmp
  | ended
  deriving DecidableEq

/-- The sender; `buffer` is not set before the first line is read, and `some_text` holds anything. -/
structure MsgSender where
  stdin : List InputLine
  buffer : Option InputLine
  someText : Mem
  pc : MsgSendPc

/-- The receiver, and what it has printed. -/
structure MsgReceiver where
  someText : Mem
  printed : List (List UInt8)
  pc : MsgRecvPc

/-- The two, and the queue between them; a message is the bytes of `some_text`. -/
structure Messaging where
  sender : MsgSender
  queue : List (List UInt8)
  receiver : MsgReceiver

/-! ## The parties -/

/-- A statement of the loop in `msgqueue_send`: the sender behind it, and what it has put into the
    queue.  At the end of the input `fgets` leaves `buffer` alone. -/
def msgqueueSend (s : MsgSender) : Option (MsgSender × List (List UInt8)) :=
  match s.pc with
  | .fgets =>
    match s.stdin with
    | [] => some ({ s with pc := .strcpy }, [])
    | line :: rest => some ({ s with stdin := rest, buffer := some line, pc := .strcpy }, [])
  | .strcpy => do
    let buffer ← s.buffer
    let someText ← Mem.strcpy? maxText s.someText buffer.bytes
    return ({ s with someText := someText, pc := .msgsnd }, [])
  | .msgsnd => some ({ s with pc := .strncmp }, [s.someText.slice 0 maxText])
  | .strncmp => do
    let buffer ← s.buffer
    return ({ s with pc := if isEnd buffer.bytes then .ended else .fgets }, [])
  | .ended => some (s, [])

/-- A statement of the loop in `msgqueue_recv`: the receiver and the queue behind it. -/
def msgqueueRecv (s : MsgReceiver) (queue : List (List UInt8)) :
    Option (MsgReceiver × List (List UInt8)) :=
  match s.pc with
  | .msgrcv =>
    match queue with
    | [] => some (s, [])
    | msg :: rest =>
      some ({ s with someText := s.someText.copy 0 (Mem.ofList msg) maxText, pc := .printf }, rest)
  | .printf => do
    let text ← s.someText.str? 0 maxText
    return ({ s with printed := s.printed ++ [text], pc := .strncmp }, queue)
  | .strncmp =>
    some ({ s with pc := if s.someText.slice 0 3 = endText then .ended else .msgrcv }, queue)
  | .ended => some (s, queue)

/-- Whose statement is next. -/
inductive MsgParty where
  | send
  | recv

/-- The next statement of a party. -/
def messagingStep (party : MsgParty) (s : Messaging) : Option Messaging :=
  match party with
  | .send => do
    let (sender, msgs) ← msgqueueSend s.sender
    return { s with sender := sender, queue := s.queue ++ msgs }
  | .recv => do
    let (receiver, queue) ← msgqueueRecv s.receiver s.queue
    return { s with receiver := receiver, queue := queue }

/-- Both parties in front of their loops, with the lines that will be typed. -/
def messagingStart (stdin : List InputLine) (sendText recvText : Mem) : Messaging where
  sender := ⟨stdin, none, sendText, .fgets⟩
  queue := []
  receiver := ⟨recvText, [], .msgrcv⟩

end AdhocNode
