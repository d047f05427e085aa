/-
  WHAT THE MESSAGE QUEUE TRANSFERS — the lines that are typed, queued and printed.

  1. **Transfer** — `Transfers lines`: in every interleaving the lines up to the first that begins with
     "end" (`upToEnd`) are queued and printed, each once and in order, the two parties end behind it,
     and from every state on they can get there.

  2. **The condition** (`Sendable`) — a line begins with "end", and that one and those before it fit
     into `some_text`.  The sender looks at neither: it copies `buffer` with `strcpy`, and goes on with
     the old line when the input is at its end.

  3. **Exactness** — `transfers_iff`.  The invariant (`TransferInv`) splits the lines into those that
     the receiver has, those in the queue and those still to be queued.
-/
import AdhocNode.MsgQueue
import AdhocNode.Lib.Runs
import Mathlib.Data.List.Forall2

namespace AdhocNode

open CMem Runs

/-! ## Transfer -/

/-- The texts of the lines up to and including the first that begins with "end". -/
def upToEnd : List InputLine → List (List UInt8)
  | [] => []
  | line :: rest =>
    if isEnd line.bytes then [line.bytes] else line.bytes :: upToEnd rest

/-- The texts that the sender's next statement puts into the queue. -/
def MsgSender.texts (s : MsgSender) : List (List UInt8) :=
  if s.pc = .msgsnd then (s.someText.str? 0 maxText).toList else []

/-- The texts that the next statement of a party puts into the queue. -/
def queuesText : MsgParty → Messaging → List (List UInt8)
  | .send, s => s.sender.texts
  | .recv, _ => []

/-- The parties, and the texts queued so far. -/
def transferStep : MsgParty → Messaging × List (List UInt8) →
    Option (Messaging × List (List UInt8)) := logged messagingStep queuesText

/-- **The lines are transferred**, as far as the parties have come. -/
structure Transferred (lines : List InputLine) (s : Messaging) (queued : List (List UInt8)) :
    Prop where
  /-- Nothing else is queued, and nothing else is printed; -/
  queued_prefix : queued <+: upToEnd lines
  printed_prefix : s.receiver.printed <+: queued
  /-- a party that has ended has done its part; -/
  sendEnded : s.sender.pc = .ended → queued = upToEnd lines
  recvEnded : s.receiver.pc = .ended → s.receiver.printed = upToEnd lines ∧
    ∃ x, s.receiver.printed.getLast? = some x ∧ isEnd x
  /-- the receiver goes round again only while it has printed no "end". -/
  goesOn : s.receiver.pc = .msgrcv → ∀ x ∈ s.receiver.printed, isEnd x = false

/-- Everything is queued and printed, and the parties have ended if there was an "end". -/
structure AllTransferred (lines : List InputLine) (s : Messaging) (queued : List (List UInt8)) :
    Prop where
  queued_all : queued = upToEnd lines
  printed_all : s.receiver.printed = upToEnd lines
  ended : (∃ line ∈ lines, isEnd line.bytes) → s.sender.pc = .ended ∧ s.receiver.pc = .ended

/-- **Transfer**: in every state of every run what was queued and printed is right, every statement is
    defined, and from the end of the run the transfer can be completed. -/
def Transfers (lines : List InputLine) : Prop :=
  ∀ sendText recvText schedule,
    Always transferStep (fun x => Transferred lines x.1 x.2)
      (messagingStart lines sendText recvText, []) schedule ∧
    ∀ x, run transferStep (messagingStart lines sendText recvText, []) schedule = some x →
      ∃ more y, run transferStep x more = some y ∧ AllTransferred lines y.1 y.2

/-! ## The lines up to "end" -/

/-- **The condition on the lines.** -/
structure Sendable (lines : List InputLine) : Prop where
  hasEnd : ∃ line ∈ lines, isEnd line.bytes
  short : ∀ x ∈ upToEnd lines, x.length < maxText

section

variable {lines rest : List InputLine} {line : InputLine} {a b : List (List UInt8)}

theorem upToEnd_cons_of_end (h : isEnd line.bytes = true) : upToEnd (line :: rest) = [line.bytes] :=
  if_pos h

theorem upToEnd_cons_of_not_end (h : isEnd line.bytes = false) :
    upToEnd (line :: rest) = line.bytes :: upToEnd rest := if_neg (Bool.eq_false_iff.mp h)

theorem mem_upToEnd_cons : line.bytes ∈ upToEnd (line :: rest) := by
  rw [upToEnd]
  split
  · exact List.mem_singleton_self _
  · exact List.mem_cons_self ..

theorem Sendable.tail (h : Sendable (line :: rest)) (hend : isEnd line.bytes = false) :
    Sendable rest := by
  constructor
  · rcases h.hasEnd with ⟨l, hl, hlend⟩
    rcases List.mem_cons.mp hl with rfl | hl
    · rw [hend] at hlend
      exact nomatch hlend
    · exact ⟨l, hl, hlend⟩
  · intro x hx
    apply h.short
    rw [upToEnd_cons_of_not_end hend]
    exact List.mem_cons_of_mem _ hx

theorem exists_end_upToEnd (h : ∃ line ∈ lines, isEnd line.bytes) :
    ∃ x ∈ upToEnd lines, isEnd x = true := by
  induction lines with
  | nil =>
    rcases h with ⟨_, hmem, -⟩
    cases hmem
  | cons line rest ih =>
    by_cases hline : isEnd line.bytes = true
    · exact ⟨_, mem_upToEnd_cons, hline⟩
    · have hfalse := Bool.eq_false_iff.mpr hline
      rcases h with ⟨l, hl, hlend⟩
      rcases List.mem_cons.mp hl with rfl | hl
      · exact absurd hlend hline
      · rcases ih ⟨l, hl, hlend⟩ with ⟨x, hx, hxend⟩
        rw [upToEnd_cons_of_not_end hfalse]
        exact ⟨x, List.mem_cons_of_mem _ hx, hxend⟩

/-- Nothing comes behind an "end". -/
theorem eq_nil_of_end (h : upToEnd lines = a ++ b) (hend : ∃ x ∈ a, isEnd x = true) : b = [] := by
  induction lines generalizing a with
  | nil =>
    rcases List.append_eq_nil_iff.mp h.symm with ⟨-, hb⟩
    exact hb
  | cons line rest ih =>
    rcases hend with ⟨x, hx, hxend⟩
    cases a with
    | nil => cases hx
    | cons y a =>
      by_cases hline : isEnd line.bytes = true
      · rw [upToEnd_cons_of_end hline, List.cons_append] at h
        exact (List.append_eq_nil_iff.mp (List.cons.inj h).2.symm).2
      · have hfalse := Bool.eq_false_iff.mpr hline
        rw [upToEnd_cons_of_not_end hfalse, List.cons_append] at h
        rcases List.cons.inj h with ⟨hy, hrest⟩
        refine ih hrest ⟨x, ?_, hxend⟩
        rcases List.mem_cons.mp hx with rfl | hx
        · rw [← hy, hfalse] at hxend
          exact nomatch hxend
        · exact hx

end

/-! ## The parties -/

/-- The message holds the text, wherever it is received. -/
def Carries (msg text : List UInt8) : Prop :=
  ∀ dst : Mem, (dst.copy 0 (Mem.ofList msg) maxText).IsStr maxText text

/-- The sender has `todo` to queue. -/
inductive Sending (s : MsgSender) (todo : List (List UInt8)) : Prop
  | fgets (hpc : s.pc = .fgets) (hlines : Sendable s.stdin) (htodo : todo = upToEnd s.stdin)
  | strcpy (line : InputLine) (hpc : s.pc = .strcpy) (hline : s.buffer = some line)
      (hlines : Sendable (line :: s.stdin)) (htodo : todo = upToEnd (line :: s.stdin))
  | msgsnd (line : InputLine) (hpc : s.pc = .msgsnd) (hline : s.buffer = some line)
      (hlines : Sendable (line :: s.stdin)) (htodo : todo = upToEnd (line :: s.stdin))
      (htext : s.someText.IsStr maxText line.bytes)
  | strncmp (line : InputLine) (hpc : s.pc = .strncmp) (hline : s.buffer = some line)
      (hlines : Sendable (line :: s.stdin))
      (htodo : line.bytes :: todo = upToEnd (line :: s.stdin))
  | ended (hpc : s.pc = .ended) (htodo : todo = [])

/-- The receiver has taken `received` from the queue. -/
inductive Receiving (s : MsgReceiver) (received : List (List UInt8)) : Prop
  | msgrcv (hpc : s.pc = .msgrcv) (hreceived : received = s.printed)
      (hnone : ∀ x ∈ s.printed, isEnd x = false)
  | printf (text : List UInt8) (hpc : s.pc = .printf) (hreceived : received = s.printed ++ [text])
      (hnone : ∀ x ∈ s.printed, isEnd x = false) (htext : s.someText.IsStr maxText text)
  | strncmp (front : List (List UInt8)) (text : List UInt8) (hpc : s.pc = .strncmp)
      (hreceived : received = s.printed) (hprinted : s.printed = front ++ [text])
      (hnone : ∀ x ∈ front, isEnd x = false) (htext : s.someText.IsStr maxText text)
  | ended (front : List (List UInt8)) (text : List UInt8) (hpc : s.pc = .ended)
      (hreceived : received = s.printed) (hprinted : s.printed = front ++ [text])
      (hend : isEnd text = true)

/-- How far the sender is from its next line, or its end. -/
def MsgSendPc.rank : MsgSendPc → Nat
  | .strncmp => 4 | .fgets => 3 | .strcpy => 2 | .msgsnd => 1 | .ended => 0

/-- How far the receiver is from its next `msgrcv`. -/
def MsgRecvPc.rank : MsgRecvPc → Nat
  | .printf => 2 | .strncmp => 1 | .msgrcv | .ended => 0

section

variable {s : MsgSender} {r : MsgReceiver} {todo received inFlight queue : List (List UInt8)}

/-- **A statement of the sender**: it queues the next text, or gets nearer to that. -/
theorem Sending.step (h : Sending s todo) : ∃ s' msgs todo', msgqueueSend s = some (s', msgs) ∧
    todo = s.texts ++ todo' ∧ Sending s' todo' ∧ List.Forall₂ Carries msgs s.texts ∧
      (s.pc ≠ .ended → s'.pc.rank + 3 * msgs.length < s.pc.rank + 8 * s.texts.length) := by
  have hsame : s.pc ≠ .msgsnd → s.texts = [] := fun hne => if_neg hne
  cases h with
  | fgets hpc hlines htodo =>
    rw [hsame (by rw [hpc]; nofun), msgqueueSend, hpc]
    cases hstdin : s.stdin with
    | nil =>
      rw [hstdin] at hlines
      rcases hlines.hasEnd with ⟨_, hmem, -⟩
      cases hmem
    | cons line rest =>
      rw [hstdin] at hlines htodo
      refine ⟨_, _, todo, rfl, rfl, .strcpy line rfl rfl hlines htodo, .nil, fun _ => ?_⟩
      show 2 < 3
      omega
  | strcpy line hpc hline hlines htodo =>
    rw [hsame (by rw [hpc]; nofun), msgqueueSend, hpc]
    rcases Mem.strcpy?_of_fits (m := s.someText) line.noNul (hlines.short _ mem_upToEnd_cons) with
      ⟨someText, hcopy, htext⟩
    refine ⟨{ s with someText := someText, pc := .msgsnd }, [], todo, ?_, rfl,
      .msgsnd line rfl hline hlines htodo htext, .nil, fun _ => ?_⟩
    · simp only [hline, hcopy, Option.bind_eq_bind, Option.bind_some]
      rfl
    · show 1 < 2
      omega
  | msgsnd line hpc hline hlines htodo htext =>
    have htexts : s.texts = [line.bytes] := by
      rw [MsgSender.texts, if_pos hpc, htext.str]
      rfl
    rw [htexts, msgqueueSend, hpc]
    have hcarries : Carries (s.someText.slice 0 maxText) line.bytes := htext.transfer
    rcases hfirst : upToEnd (line :: s.stdin) with _ | ⟨x, todo'⟩
    · have hmem : line.bytes ∈ upToEnd (line :: s.stdin) := mem_upToEnd_cons
      rw [hfirst] at hmem
      cases hmem
    · have hx : x = line.bytes := by
        rw [upToEnd] at hfirst
        split at hfirst <;> exact (List.cons.inj hfirst).1.symm
      rw [hx] at hfirst
      refine ⟨_, _, todo', rfl, htodo.trans hfirst, .strncmp line rfl hline hlines hfirst.symm,
        .cons hcarries .nil, fun _ => ?_⟩
      show 4 + 3 < 1 + 8
      omega
  | strncmp line hpc hline hlines htodo =>
    rw [hsame (by rw [hpc]; nofun), msgqueueSend, hpc]
    refine ⟨{ s with pc := if isEnd line.bytes then .ended else .fgets }, [], todo, ?_, rfl, ?_, .nil,
      fun _ => ?_⟩
    · simp only [hline]
      rfl
    · by_cases hend : isEnd line.bytes = true
      · rw [upToEnd_cons_of_end hend] at htodo
        rw [if_pos hend]
        exact .ended rfl (List.cons.inj htodo).2
      · have hfalse := Bool.eq_false_iff.mpr hend
        rw [upToEnd_cons_of_not_end hfalse] at htodo
        rw [if_neg hend]
        exact .fgets rfl (hlines.tail hfalse) (List.cons.inj htodo).2
    · show (if isEnd line.bytes then MsgSendPc.ended else .fgets).rank + 0 < 4
      split <;> decide
  | ended hpc htodo =>
    rw [hsame (by rw [hpc]; nofun), msgqueueSend, hpc]
    exact ⟨s, [], todo, rfl, rfl, .ended hpc htodo, .nil, fun hne => absurd rfl hne⟩

/-- **A statement of the receiver**: it takes the next message, or gets nearer to that. -/
theorem Receiving.step (h : Receiving r received) (hqueue : List.Forall₂ Carries queue inFlight) :
    ∃ r' queue' taken inFlight', msgqueueRecv r queue = some (r', queue') ∧
      inFlight = taken ++ inFlight' ∧ Receiving r' (received ++ taken) ∧
      List.Forall₂ Carries queue' inFlight' ∧ (r.pc ≠ .ended → (r.pc = .msgrcv → queue ≠ []) →
        r'.pc.rank + 3 * queue'.length < r.pc.rank + 3 * queue.length) := by
  cases h with
  | msgrcv hpc hreceived hnone =>
    unfold msgqueueRecv
    rw [hpc]
    cases hqueue with
    | nil =>
      refine ⟨r, [], [], [], rfl, rfl, ?_, .nil, fun _ hne => absurd rfl (hne rfl)⟩
      rw [List.append_nil]
      exact .msgrcv hpc hreceived hnone
    | @cons msg text queue' inFlight' hcarries hrest =>
      refine ⟨_, queue', [text], inFlight', rfl, rfl,
        .printf text rfl (congrArg (· ++ [text]) hreceived) hnone (hcarries r.someText), hrest,
        fun _ _ => ?_⟩
      show 2 + 3 * queue'.length < 0 + 3 * (queue'.length + 1)
      omega
  | printf text hpc hreceived hnone htext =>
    unfold msgqueueRecv
    rw [hpc]
    refine ⟨{ r with printed := r.printed ++ [text], pc := .strncmp }, queue, [], inFlight, ?_, rfl,
      ?_, hqueue, fun _ _ => ?_⟩
    · simp only [htext.str]
      rfl
    · rw [List.append_nil]
      exact .strncmp r.printed text rfl hreceived rfl hnone htext
    · show 1 + 3 * queue.length < 2 + 3 * queue.length
      omega
  | strncmp front text hpc hreceived hprinted hnone htext =>
    unfold msgqueueRecv
    rw [hpc]
    refine ⟨_, queue, [], inFlight, rfl, rfl, ?_, hqueue, fun _ _ => ?_⟩
    · rw [List.append_nil]
      by_cases hend : isEnd text = true
      · rw [if_pos ((slice_eq_endText_iff htext).mpr hend)]
        exact .ended front text rfl hreceived hprinted hend
      · rw [if_neg fun heq => hend ((slice_eq_endText_iff htext).mp heq)]
        refine .msgrcv rfl hreceived fun x hx => ?_
        dsimp only at hx
        rw [hprinted] at hx
        rcases List.mem_append.mp hx with hx | hx
        · exact hnone x hx
        · rw [List.mem_singleton.mp hx]
          exact Bool.eq_false_iff.mpr hend
    · show (if _ then MsgRecvPc.ended else .msgrcv).rank + _ < 1 + 3 * queue.length
      split
      · show 0 + 3 * queue.length < _
        omega
      · show 0 + 3 * queue.length < _
        omega
  | ended front text hpc hreceived hprinted hend =>
    unfold msgqueueRecv
    rw [hpc]
    refine ⟨r, queue, [], inFlight, rfl, rfl, ?_, hqueue, fun hne => absurd rfl hne⟩
    rw [List.append_nil]
    exact .ended front text hpc hreceived hprinted hend

end

/-! ## The invariant -/

/-- The lines are those received, those in the queue and those still to be queued. -/
structure TransferInv (lines : List InputLine) (s : Messaging)
    (queued todo received inFlight : List (List UInt8)) : Prop where
  split : upToEnd lines = queued ++ todo
  queue : queued = received ++ inFlight
  carries : List.Forall₂ Carries s.queue inFlight
  sending : Sending s.sender todo
  receiving : Receiving s.receiver received

section

variable {lines : List InputLine} {s : Messaging}
  {queued todo received inFlight : List (List UInt8)}

/-- When the receiver has an "end", nothing else is on its way. -/
theorem TransferInv.of_end (h : TransferInv lines s queued todo received inFlight)
    (hend : ∃ x ∈ received, isEnd x = true) : todo = [] ∧ inFlight = [] := by
  have hsplit := h.split
  rw [h.queue, List.append_assoc] at hsplit
  rcases List.append_eq_nil_iff.mp (eq_nil_of_end hsplit hend) with ⟨hflight, htodo⟩
  exact ⟨htodo, hflight⟩

theorem TransferInv.transferred (h : TransferInv lines s queued todo received inFlight) :
    Transferred lines s queued := by
  constructor
  · exact ⟨todo, h.split.symm⟩
  · rw [h.queue]
    cases h.receiving with
    | msgrcv _ hreceived => rw [hreceived]; exact List.prefix_append _ _
    | printf _ _ hreceived =>
      rw [hreceived, List.append_assoc]
      exact List.prefix_append _ _
    | strncmp _ _ _ hreceived => rw [hreceived]; exact List.prefix_append _ _
    | ended _ _ _ hreceived => rw [hreceived]; exact List.prefix_append _ _
  · intro hpc
    cases h.sending with
    | fgets hpc' | strcpy _ hpc' | msgsnd _ hpc' | strncmp _ hpc' =>
      rw [hpc] at hpc'
      exact nomatch hpc'
    | ended _ htodo => rw [h.split, htodo, List.append_nil]
  · intro hpc
    cases h.receiving with
    | msgrcv hpc' | printf _ hpc' | strncmp _ _ hpc' =>
      rw [hpc] at hpc'
      exact nomatch hpc'
    | ended front text _ hreceived hprinted hend =>
      have hmem : text ∈ received := by
        rw [hreceived, hprinted]
        exact List.mem_append_right _ (List.mem_singleton_self _)
      rcases h.of_end ⟨text, hmem, hend⟩ with ⟨htodo, hflight⟩
      refine ⟨?_, text, ?_, hend⟩
      · rw [h.split, h.queue, htodo, hflight, List.append_nil, List.append_nil, hreceived]
      · rw [hprinted, List.getLast?_concat]
  · intro hpc
    cases h.receiving with
    | msgrcv _ _ hnone => exact hnone
    | printf _ hpc' | strncmp _ _ hpc' | ended _ _ hpc' =>
      rw [hpc] at hpc'
      exact nomatch hpc'

theorem transferInv_start (h : Sendable lines) (sendText recvText : Mem) :
    TransferInv lines (messagingStart lines sendText recvText) [] (upToEnd lines) [] [] where
  split := rfl
  queue := rfl
  carries := .nil
  sending := .fgets rfl h rfl
  receiving := .msgrcv rfl rfl nofun

/-- When the sender has ended, the receiver does not wait for ever. -/
theorem TransferInv.queue_ne_nil (h : TransferInv lines s queued todo received inFlight)
    (hend : ∃ line ∈ lines, isEnd line.bytes) (hsend : s.sender.pc = .ended)
    (hrecv : s.receiver.pc = .msgrcv) : s.queue ≠ [] := by
  intro hempty
  have hflight : inFlight = [] := by
    have hcarries := h.carries
    rw [hempty] at hcarries
    cases hcarries
    rfl
  have hqueued := h.transferred.sendEnded hsend
  rw [h.queue, hflight, List.append_nil] at hqueued
  rcases exists_end_upToEnd hend with ⟨x, hx, hxend⟩
  rw [← hqueued] at hx
  cases h.receiving with
  | msgrcv _ hreceived hnone =>
    rw [hnone x (hreceived ▸ hx)] at hxend
    exact nomatch hxend
  | printf _ hpc | strncmp _ _ hpc | ended _ _ hpc =>
    rw [hrecv] at hpc
    exact nomatch hpc

/-- What is left to do, counted in statements. -/
def transferRank (lines : List InputLine) (x : Messaging × List (List UInt8)) : Nat :=
  8 * ((upToEnd lines).length - x.2.length) + x.1.sender.pc.rank + 3 * x.1.queue.length +
    x.1.receiver.pc.rank

/-- **A step of the sender** keeps the invariant, and leaves less to do unless the sender has ended. -/
theorem TransferInv.send (h : TransferInv lines s queued todo received inFlight) :
    ∃ x, transferStep .send (s, queued) = some x ∧
      (∃ todo' inFlight', TransferInv lines x.1 x.2 todo' received inFlight') ∧
      (s.sender.pc ≠ .ended → transferRank lines x < transferRank lines (s, queued)) := by
  rcases h.sending.step with ⟨sender, msgs, todo', hstep, htodo, hsending, hcarries, hrank⟩
  refine ⟨(⟨sender, s.queue ++ msgs, s.receiver⟩, queued ++ s.sender.texts), ?_,
    ⟨todo', inFlight ++ s.sender.texts, ?_, ?_, ?_, hsending, h.receiving⟩, fun hne => ?_⟩
  · simp only [transferStep, logged, messagingStep, hstep, Option.bind_eq_bind, Option.bind_some,
      queuesText]
    rfl
  · rw [h.split, htodo, List.append_assoc]
  · rw [h.queue, List.append_assoc]
  · exact List.rel_append h.carries hcarries
  · have hless := hrank hne
    have hsplit := congrArg List.length h.split
    rw [htodo, List.length_append, List.length_append] at hsplit
    show 8 * ((upToEnd lines).length - (queued ++ s.sender.texts).length) + sender.pc.rank +
      3 * (s.queue ++ msgs).length + s.receiver.pc.rank < 8 * ((upToEnd lines).length - queued.length) +
        s.sender.pc.rank + 3 * s.queue.length + s.receiver.pc.rank
    rw [List.length_append, List.length_append]
    omega

/-- **A step of the receiver** keeps the invariant, and leaves less to do unless the receiver has ended
    or waits. -/
theorem TransferInv.recv (h : TransferInv lines s queued todo received inFlight) :
    ∃ x, transferStep .recv (s, queued) = some x ∧
      (∃ received' inFlight', TransferInv lines x.1 x.2 todo received' inFlight') ∧
      (s.receiver.pc ≠ .ended → (s.receiver.pc = .msgrcv → s.queue ≠ []) →
        transferRank lines x < transferRank lines (s, queued)) := by
  rcases h.receiving.step h.carries with
    ⟨receiver, queue, taken, inFlight', hstep, hflight, hreceiving, hcarries, hrank⟩
  refine ⟨(⟨s.sender, queue, receiver⟩, queued ++ []), ?_,
    ⟨received ++ taken, inFlight', ?_, ?_, hcarries, h.sending, hreceiving⟩, fun hne hwait => ?_⟩
  · simp only [transferStep, logged, messagingStep, hstep, Option.bind_eq_bind, Option.bind_some,
      queuesText]
    rfl
  · rw [List.append_nil]
    exact h.split
  · rw [List.append_nil, h.queue, hflight, List.append_assoc]
  · have hless := hrank hne hwait
    show 8 * ((upToEnd lines).length - (queued ++ []).length) + s.sender.pc.rank +
      3 * queue.length + receiver.pc.rank < 8 * ((upToEnd lines).length - queued.length) +
        s.sender.pc.rank + 3 * s.queue.length + s.receiver.pc.rank
    rw [List.append_nil]
    omega

end

/-! ## Runs -/

/-- The invariant, of the state with the log. -/
def TransferState (lines : List InputLine) (x : Messaging × List (List UInt8)) : Prop :=
  ∃ todo received inFlight, TransferInv lines x.1 x.2 todo received inFlight

section

variable {lines : List InputLine}

theorem TransferState.step {x : Messaging × List (List UInt8)} (h : TransferState lines x)
    (party : MsgParty) : ∃ y, transferStep party x = some y ∧ TransferState lines y := by
  rcases h with ⟨todo, received, inFlight, h⟩
  cases party with
  | send =>
    rcases h.send with ⟨y, hy, ⟨todo', inFlight', hinv⟩, -⟩
    exact ⟨y, hy, todo', received, inFlight', hinv⟩
  | recv =>
    rcases h.recv with ⟨y, hy, ⟨received', inFlight', hinv⟩, -⟩
    exact ⟨y, hy, todo, received', inFlight', hinv⟩

/-- **Progress**: from every state both parties can get to their ends. -/
theorem TransferState.exists_ended {x : Messaging × List (List UInt8)} (h : TransferState lines x)
    (hend : ∃ line ∈ lines, isEnd line.bytes) :
    ∃ more y, run transferStep x more = some y ∧ TransferState lines y ∧
      (y.1.sender.pc = .ended ∧ y.1.receiver.pc = .ended) := by
  refine exists_run_of_rank (transferRank lines) ?_ h
  rintro ⟨s, queued⟩ ⟨todo, received, inFlight, h⟩ hgoal
  by_cases hsend : s.sender.pc = .ended
  · rcases h.recv with ⟨y, hy, ⟨received', inFlight', hinv⟩, hrank⟩
    refine ⟨.recv, y, hy, ⟨todo, received', inFlight', hinv⟩, hrank (fun hrecv => ?_) fun hwait => ?_⟩
    · exact hgoal ⟨hsend, hrecv⟩
    · exact h.queue_ne_nil hend hsend hwait
  · rcases h.send with ⟨y, hy, ⟨todo', inFlight', hinv⟩, hrank⟩
    exact ⟨.send, y, hy, ⟨todo', received, inFlight', hinv⟩, hrank hsend⟩

/-- Under the condition the lines are transferred. -/
theorem transfers_of_sendable (h : Sendable lines) : Transfers lines := by
  intro sendText recvText schedule
  have hstart : TransferState lines (messagingStart lines sendText recvText, []) :=
    ⟨_, _, _, transferInv_start h sendText recvText⟩
  have hinv : Always transferStep (TransferState lines) (messagingStart lines sendText recvText, [])
      schedule := always_of_inv (fun _ hx => hx) (fun _ party hx => hx.step party) hstart
  constructor
  · refine always_of_inv ?_ (fun _ party hx => hx.step party) hstart
    rintro x ⟨todo, received, inFlight, hx⟩
    exact hx.transferred
  · intro x hrun
    rcases hinv.last with ⟨y, hy, hstate⟩
    rw [hrun] at hy
    cases hy
    rcases hstate.exists_ended h.hasEnd with ⟨more, y, hmore, ⟨_, _, _, hy⟩, hsend, hrecv⟩
    refine ⟨more, y, hmore, hy.transferred.sendEnded hsend, ?_, fun _ => ⟨hsend, hrecv⟩⟩
    exact (hy.transferred.recvEnded hrecv).1

end

/-! ## Exactness -/

section

variable {lines : List InputLine} {s : Messaging} {queued : List (List UInt8)}

theorem transferStep_send {x : Messaging × List (List UInt8)}
    (h : transferStep .send (s, queued) = some x) : ∃ sender msgs,
      msgqueueSend s.sender = some (sender, msgs) ∧
        x = (⟨sender, s.queue ++ msgs, s.receiver⟩, queued ++ s.sender.texts) := by
  rcases exists_of_logged h with ⟨s', hs', rfl⟩
  rcases Option.bind_eq_some_iff.mp hs' with ⟨⟨sender, msgs⟩, hsend, hret⟩
  cases hret
  exact ⟨sender, msgs, hsend, rfl⟩

/-- The sender goes on by itself, and what it queues is right. -/
def SendsRight (lines : List InputLine) (s : Messaging) (queued : List (List UInt8)) : Prop :=
  ∀ n, Always transferStep (fun x => Transferred lines x.1 x.2) (s, queued)
    (List.replicate n .send)

/-- The sender's next statement. -/
theorem SendsRight.next (h : SendsRight lines s queued) : ∃ sender msgs,
    msgqueueSend s.sender = some (sender, msgs) ∧
      SendsRight lines ⟨sender, s.queue ++ msgs, s.receiver⟩ (queued ++ s.sender.texts) := by
  rcases Always.next h with ⟨x, hx, hrest⟩
  rcases transferStep_send hx with ⟨sender, msgs, hsend, rfl⟩
  exact ⟨sender, msgs, hsend, hrest⟩

/-- A statement other than `msgsnd` queues nothing. -/
theorem SendsRight.quiet (h : SendsRight lines s queued) (hpc : s.sender.pc ≠ .msgsnd) :
    ∃ sender msgs, msgqueueSend s.sender = some (sender, msgs) ∧
      SendsRight lines ⟨sender, s.queue ++ msgs, s.receiver⟩ queued := by
  rcases h.next with ⟨sender, msgs, hsend, hrest⟩
  have hnone : s.sender.texts = [] := if_neg hpc
  rw [hnone, List.append_nil] at hrest
  exact ⟨sender, msgs, hsend, hrest⟩

/-- A line that is copied fits, and is queued. -/
theorem SendsRight.strcpy (h : SendsRight lines s queued) (hpc : s.sender.pc = .strcpy) :
    ∃ line s', s.sender.buffer = some line ∧ line.bytes.length < maxText ∧
      s'.sender.pc = .strncmp ∧ s'.sender.buffer = some line ∧ s'.sender.stdin = s.sender.stdin ∧
      SendsRight lines s' (queued ++ [line.bytes]) := by
  rcases h.quiet (by rw [hpc]; nofun) with ⟨sender, msgs, hsend, hcopied⟩
  rw [msgqueueSend, hpc] at hsend
  rcases Option.bind_eq_some_iff.mp hsend with ⟨line, hline, hsend⟩
  rcases Option.bind_eq_some_iff.mp hsend with ⟨someText, hcopy, hret⟩
  cases hret
  have hfits := Mem.fits_of_strcpy? hcopy
  rcases Mem.strcpy?_of_fits (m := s.sender.someText) line.noNul hfits with ⟨_, hcopy', htext⟩
  rw [hcopy] at hcopy'
  cases hcopy'
  rcases hcopied.next with ⟨sender', msgs', hsend', hqueued⟩
  cases hsend'
  have htexts : MsgSender.texts { s.sender with someText := someText, pc := .msgsnd } =
      [line.bytes] := by
    rw [MsgSender.texts, if_pos rfl, htext.str]
    rfl
  rw [show Messaging.sender _ = { s.sender with someText := someText, pc := .msgsnd } from rfl,
    htexts] at hqueued
  refine ⟨line, _, hline, hfits, ?_, ?_, ?_, hqueued⟩
  · rfl
  · exact hline
  · rfl

/-- **What the sender queues by itself is right only if the rest of the input can be sent.** -/
theorem sendable_of_sendsRight {stdin : List InputLine} :
    ∀ {s : Messaging} {queued : List (List UInt8)}, s.sender.pc = .fgets → s.sender.stdin = stdin →
      upToEnd lines = queued ++ upToEnd stdin → SendsRight lines s queued → Sendable stdin := by
  induction stdin with
  | nil =>
    intro s queued hpc hstdin hsplit h
    exfalso
    rcases h.quiet (by rw [hpc]; nofun) with ⟨sender, msgs, hsend, hread⟩
    rw [msgqueueSend, hpc, hstdin] at hsend
    cases hsend
    -- the old line is queued again
    rcases hread.strcpy rfl with ⟨line, s', -, -, -, -, -, hqueued⟩
    have hprefix := (hqueued 0).first.queued_prefix.length_le
    rw [hsplit, List.length_append, List.length_append] at hprefix
    exact absurd hprefix (by simp [upToEnd])
  | cons line rest ih =>
    intro s queued hpc hstdin hsplit h
    rcases h.quiet (by rw [hpc]; nofun) with ⟨sender, msgs, hsend, hread⟩
    rw [msgqueueSend, hpc, hstdin] at hsend
    cases hsend
    rcases hread.strcpy rfl with ⟨line', s', hbuffer, hfits, hpc', hbuffer', hstdin', hqueued⟩
    cases hbuffer
    by_cases hend : isEnd line.bytes = true
    · refine ⟨⟨line, List.mem_cons_self .., hend⟩, fun x hx => ?_⟩
      rw [upToEnd_cons_of_end hend] at hx
      rw [List.mem_singleton.mp hx]
      exact hfits
    · have hfalse := Bool.eq_false_iff.mpr hend
      rcases hqueued.quiet (by rw [hpc']; nofun) with ⟨sender', msgs', hsend', hround⟩
      rw [msgqueueSend, hpc'] at hsend'
      simp only [hbuffer', Option.bind_eq_bind, Option.bind_some, hfalse] at hsend'
      cases hsend'
      rw [upToEnd_cons_of_not_end hfalse] at hsplit
      have hsplit' : upToEnd lines = (queued ++ [line.bytes]) ++ upToEnd rest := by
        rw [hsplit, List.append_assoc]
        rfl
      have hrest : Sendable rest := by
        refine ih ?_ ?_ hsplit' hround
        · rfl
        · exact hstdin'
      rcases hrest.hasEnd with ⟨l, hl, hlend⟩
      refine ⟨⟨l, List.mem_cons_of_mem _ hl, hlend⟩, fun x hx => ?_⟩
      rw [upToEnd_cons_of_not_end hfalse] at hx
      rcases List.mem_cons.mp hx with rfl | hx
      · exact hfits
      · exact hrest.short x hx

end

/-- **The lines are transferred iff one of them begins with "end" and the lines up to it fit into
    `some_text`.** -/
theorem transfers_iff (lines : List InputLine) : Transfers lines ↔ Sendable lines := by
  constructor
  · intro h
    have hsends : SendsRight lines (messagingStart lines (fun _ => 0) fun _ => 0) [] :=
      fun n => (h _ _ _).1
    exact sendable_of_sendsRight rfl rfl rfl hsends
  · exact transfers_of_sendable

theorem nul_not_mem_onlyLine : (0 : UInt8) ∉ [97, 10] := by decide

/-- "a", the only line. -/
def onlyLine : InputLine := ⟨⟨[97, 10], nul_not_mem_onlyLine⟩, by decide⟩

/-- At the end of the input the line is queued again. -/
theorem not_transfers_onlyLine : ¬ Transfers [onlyLine] := by
  intro h
  rcases (h (fun _ => 0) (fun _ => 0) (List.replicate 7 .send)).1.last with ⟨⟨s, queued⟩, hrun, ht⟩
  have htwice : (run transferStep (messagingStart [onlyLine] (fun _ => 0) fun _ => 0, [])
      (List.replicate 7 .send)).map Prod.snd = some [[97, 10], [97, 10]] := by decide
  rw [hrun] at htwice
  have hqueued : queued = [[97, 10], [97, 10]] := Option.some.inj htwice
  have hlen := ht.queued_prefix.length_le
  rw [hqueued] at hlen
  exact absurd hlen (show ¬ 2 ≤ 1 by decide)

end AdhocNode
