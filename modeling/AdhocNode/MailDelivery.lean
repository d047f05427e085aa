/-
  WHAT THE MAILBOX DELIVERS — the lines that `producer` stores, and those that `customer` prints.

  1. **Delivery** — `Delivered s stored`: the lines stored so far are the lines printed so far, and at
     most one more, which is in the slot; and the customer leaves its loop on the line it printed.

  2. **The condition** (`MailOk`) — three statements must not come at the wrong time: the customer's
     reset of the flag behind the first line; its test for "end", which it makes behind the clearing of
     the flag, when a new line is in the slot already; and the producer's copy when nothing was read.

  3. **Runs** — `deliveredAlways_iff`: the mailbox delivers in every state of a run iff the statements of
     the run meet the condition.  The invariant is `MailInv`.
-/
import AdhocNode.Mailbox
import AdhocNode.Lib.Runs

namespace AdhocNode

open CMem Runs

/-! ## Delivery -/

/-- The line that the next statement of a party stores. -/
def storesLine : MailParty → Mailing → List (List UInt8)
  | .producer, s => if s.producer = .strncpy then s.buffer.toList.map fun b => b.bytes else []
  | .customer, _ => []

/-- The parties, and the lines stored so far. -/
def deliveryStep : MailParty → Mailing × List (List UInt8) → Option (Mailing × List (List UInt8)) :=
  logged mailingStep storesLine

/-- A line is in the slot that the customer has not printed. -/
def Mailing.unread (s : Mailing) : Bool :=
  s.producer = .setWritten ∨ s.shared.writtenByYou = 1 ∧ s.customer ≠ .clear

/-- **The stored lines are delivered**, each once and in order. -/
structure Delivered (s : Mailing) (stored : List (List UInt8)) : Prop where
  /-- What is printed is what was stored, but for a line in the slot; -/
  inOrder : if s.unread then ∃ x, s.shared.someText.str? 0 textSz = some x ∧ stored = s.printed ++ [x]
    else stored = s.printed
  /-- the customer has left its loop on a line that begins with "end", and printed everything; -/
  ended : s.customer = .ended → stored = s.printed ∧ ∃ x, s.printed.getLast? = some x ∧ isEnd x
  /-- it goes round again only on another line. -/
  goesOn : s.customer = .ifWritten → ∀ x, s.printed.getLast? = some x → isEnd x = false

/-- The stored lines are delivered in every state of the run, and every statement is defined. -/
def DeliveredAlways (stdin : List MailLine) (schedule : List MailParty) : Prop :=
  Always deliveryStep (fun x => Delivered x.1 x.2) (mailingStart stdin, []) schedule

/-! ## The condition -/

/-- **The condition of a step.** -/
def MailOk : MailParty → Mailing → Prop
  | .producer, s => s.producer = .strncpy → s.buffer.isSome
  | .customer, s => (s.customer = .reset → s.shared.writtenByYou = 0) ∧
    (s.customer = .strncmp → s.unread = true → s.shared.someText.slice 0 3 ≠ endText)

instance : ∀ (p : MailParty) (s : Mailing), Decidable (MailOk p s)
  | .producer, s => inferInstanceAs (Decidable (s.producer = .strncpy → s.buffer.isSome))
  | .customer, s => inferInstanceAs (Decidable ((s.customer = .reset → s.shared.writtenByYou = 0) ∧
      (s.customer = .strncmp → s.unread = true → s.shared.someText.slice 0 3 ≠ endText)))

/-! ## The invariant -/

/-- The producer has found the flag down, and not set it yet. -/
def ProducerPc.sending : ProducerPc → Bool
  | .fgets | .strncpy | .setWritten => true
  | .whileWritten | .strncmp | .ended => false

/-- The line in `buffer` has been stored. -/
def ProducerPc.hasStored : ProducerPc → Bool
  | .setWritten | .strncmp => true
  | .whileWritten | .fgets | .strncpy | .ended => false

/-- The producer is on its way to another line. -/
def ProducerPc.goesOn : ProducerPc → Bool
  | .whileWritten | .fgets | .strncpy => true
  | .setWritten | .strncmp | .ended => false

/-- What holds under the condition. -/
structure MailInv (s : Mailing) (stored : List (List UInt8)) : Prop where
  flag : s.shared.writtenByYou = 0 ∨ s.shared.writtenByYou = 1
  sending : s.producer.sending = true → s.shared.writtenByYou = 0
  buffer : s.producer.hasStored = true →
    ∃ b, s.buffer = some b ∧ stored.getLast? = some b.bytes
  /-- "end" is the last line stored, if any; -/
  goesOn : s.producer.goesOn = true → ∀ x ∈ stored, isEnd x = false
  endLast : ∀ x ∈ stored.dropLast, isEnd x = false
  slot : ∀ x, stored.getLast? = some x → s.shared.someText.IsStr textSz x
  inOrder : if s.unread then ∃ x, stored = s.printed ++ [x] else stored = s.printed
  /-- and the customer knows what it has printed. -/
  raised : s.customer = .printf ∨ s.customer = .clear → s.shared.writtenByYou = 1
  printed : s.customer = .strncmp ∨ s.customer = .clear → s.printed ≠ []
  start : s.customer = .reset → s.printed = []
  looping : s.customer = .ifWritten → ∀ x, s.printed.getLast? = some x → isEnd x = false
  ended : s.customer = .ended → stored = s.printed ∧ ∃ x, s.printed.getLast? = some x ∧ isEnd x

section

variable {s s' : Mailing} {stored : List (List UInt8)} {x : List UInt8}

/-- The invariant holds what was asked: everything stored is printed, up to a line on its way. -/
theorem MailInv.delivered (h : MailInv s stored) : Delivered s stored := by
  refine ⟨?_, h.ended, h.looping⟩
  have horder := h.inOrder
  split at horder
  · rename_i hunread
    rcases horder with ⟨x, hx⟩
    rw [if_pos hunread]
    refine ⟨x, (h.slot x ?_).str, hx⟩
    rw [hx, List.getLast?_concat]
  · rename_i hread
    rw [if_neg hread]
    exact horder

/-- Nothing is stored and nothing is printed before the first statement. -/
theorem mailInv_start (stdin : List MailLine) : MailInv (mailingStart stdin) [] where
  flag := Or.inl rfl
  sending := nofun
  buffer := nofun
  goesOn := nofun
  endLast := nofun
  slot := nofun
  inOrder := rfl
  raised := nofun
  printed := nofun
  start := fun _ => rfl
  looping := nofun
  ended := nofun

theorem unread_iff : s.unread = true ↔
    s.producer = .setWritten ∨ s.shared.writtenByYou = 1 ∧ s.customer ≠ .clear := decide_eq_true_iff

/-- A step that changes neither what is unread nor what was printed keeps the order. -/
theorem MailInv.inOrder_of (h : MailInv s stored) (hunread : s'.unread = true ↔ s.unread = true)
    (hprinted : s'.printed = s.printed) :
    if s'.unread then ∃ x, stored = s'.printed ++ [x] else stored = s'.printed := by
  rw [Bool.eq_iff_iff.mpr hunread, hprinted]
  exact h.inOrder

/-- With the flag down and nothing on its way, everything is printed. -/
theorem MailInv.printed_all (h : MailInv s stored) (hread : s.unread ≠ true) :
    stored = s.printed := by
  have horder := h.inOrder
  rw [if_neg hread] at horder
  exact horder

/-- With a line on its way, everything but this line is printed. -/
theorem MailInv.printed_but_one (h : MailInv s stored) (hunread : s.unread = true) :
    ∃ x, stored = s.printed ++ [x] := by
  have horder := h.inOrder
  rw [if_pos hunread] at horder
  exact horder

/-- While the producer is on its way to another line, the customer has not ended. -/
theorem MailInv.not_ended (h : MailInv s stored) (hgoes : s.producer.goesOn = true) :
    s.customer ≠ .ended := by
  intro hend
  rcases h.ended hend with ⟨hall, x, hx, hxend⟩
  have hmem : x ∈ stored := by
    rw [hall]
    exact List.mem_of_getLast? hx
  rw [h.goesOn hgoes x hmem] at hxend
  exact nomatch hxend

/-! ## A statement of the producer -/

/-- The wait of the producer ends only with the flag down. -/
theorem MailInv.whileWritten (h : MailInv s stored) (hpc : s.producer = .whileWritten) :
    MailInv { s with
      producer := if s.shared.writtenByYou = 1 then .whileWritten else .fgets } stored := by
  have hgoes := h.goesOn (by rw [hpc]; rfl)
  by_cases hflag : s.shared.writtenByYou = 1
  · rw [if_pos hflag, ← hpc]
    exact h
  · rw [if_neg hflag]
    have hunread : Mailing.unread { s with producer := .fgets } = true ↔ s.unread = true := by
      rw [unread_iff, unread_iff, hpc]
      exact or_congr_left ⟨nofun, nofun⟩
    exact { h with
      sending := fun _ => h.flag.resolve_right hflag
      buffer := nofun
      goesOn := fun _ => hgoes
      inOrder := h.inOrder_of hunread rfl }

/-- A failed `fgets` leaves the old line in the buffer, and the producer goes on with it. -/
theorem MailInv.fgets (h : MailInv s stored) (hpc : s.producer = .fgets) :
    MailInv { s.fgets with producer := .strncpy } stored := by
  have hgoes := h.goesOn (by rw [hpc]; rfl)
  have hlow := h.sending (by rw [hpc]; rfl)
  have hunread : ∀ b stdin, Mailing.unread
      { s with stdin := stdin, buffer := b, producer := .strncpy } = true ↔ s.unread = true := by
    intro b stdin
    rw [unread_iff, unread_iff, hpc]
    exact or_congr_left ⟨nofun, nofun⟩
  have hnew : ∀ b stdin, MailInv
      { s with stdin := stdin, buffer := b, producer := .strncpy } stored := by
    intro b stdin
    exact { h with
      sending := fun _ => hlow
      buffer := nofun
      goesOn := fun _ => hgoes
      inOrder := h.inOrder_of (hunread b stdin) rfl }
  rw [Mailing.fgets]
  split
  · exact hnew s.buffer s.stdin
  · exact hnew _ _

/-- The slot is overwritten while the flag is down, hence behind the customer. -/
theorem MailInv.strncpy (h : MailInv s stored) (hpc : s.producer = .strncpy) {line : MailLine}
    (hline : s.buffer = some line) :
    MailInv { s with
      shared := { s.shared with someText := s.shared.someText.strncpy line.bytes textSz }
      producer := .setWritten } (stored ++ [line.bytes]) := by
  have hgoes := h.goesOn (by rw [hpc]; rfl)
  have hlow := h.sending (by rw [hpc]; rfl)
  have hcustomer := h.not_ended (by rw [hpc]; rfl)
  have hread : s.unread ≠ true := by
    rw [Ne, unread_iff, hpc, hlow]
    rintro (hset | ⟨hone, -⟩)
    · exact nomatch hset
    · exact absurd hone (show ¬ (0 : Int) = 1 by decide)
  have hall := h.printed_all hread
  have hunread : ∀ shared, Mailing.unread { s with shared := shared, producer := .setWritten } = true :=
    fun shared => unread_iff.mpr (Or.inl rfl)
  exact { h with
    sending := fun _ => hlow
    buffer := fun _ => ⟨line, hline, List.getLast?_concat⟩
    goesOn := nofun
    endLast := by rw [List.dropLast_concat]; exact hgoes
    slot := by
      intro x hx
      rw [List.getLast?_concat] at hx
      cases hx
      exact Mem.isStr_strncpy _ line.noNul line.short
    inOrder := by rw [if_pos (hunread _), hall]; exact ⟨_, rfl⟩
    ended := fun hend => absurd hend hcustomer }

/-- The customer cannot be about to clear the flag: it would have to be up already. -/
theorem MailInv.setWritten (h : MailInv s stored) (hpc : s.producer = .setWritten) :
    MailInv { s with
      shared := { s.shared with writtenByYou := 1 }, producer := .strncmp } stored := by
  have hlow := h.sending (by rw [hpc]; rfl)
  have hbuffer := h.buffer (by rw [hpc]; rfl)
  have hclear : s.customer ≠ .clear := by
    intro hclear
    have hraised := h.raised (Or.inr hclear)
    rw [hlow] at hraised
    exact absurd hraised (by decide)
  have hunread : Mailing.unread { s with
      shared := { s.shared with writtenByYou := 1 }, producer := .strncmp } = true ↔
        s.unread = true := by
    rw [unread_iff, unread_iff]
    exact ⟨fun _ => Or.inl hpc, fun _ => Or.inr ⟨rfl, hclear⟩⟩
  exact { h with
    flag := Or.inr rfl
    sending := nofun
    buffer := fun _ => hbuffer
    goesOn := nofun
    inOrder := h.inOrder_of hunread rfl
    raised := fun _ => rfl }

/-- The producer tests the line it has stored, so that only the last one can begin with "end". -/
theorem MailInv.strncmp (h : MailInv s stored) (hpc : s.producer = .strncmp) : ∃ line,
    s.buffer = some line ∧ MailInv { s with
      producer := if isEnd line.bytes then .ended else .whileWritten } stored := by
  rcases h.buffer (by rw [hpc]; rfl) with ⟨line, hline, hlast⟩
  refine ⟨line, hline, ?_⟩
  have hunread : ∀ pc, pc ≠ .setWritten →
      (Mailing.unread { s with producer := pc } = true ↔ s.unread = true) := by
    intro pc hne
    rw [unread_iff, unread_iff, hpc]
    exact or_congr_left ⟨fun heq => absurd heq hne, nofun⟩
  split
  · exact { h with
      sending := nofun
      buffer := nofun
      goesOn := nofun
      inOrder := h.inOrder_of (hunread .ended nofun) rfl }
  · rename_i hend
    refine { h with
      sending := nofun
      buffer := nofun
      goesOn := fun _ x hx => ?_
      inOrder := h.inOrder_of (hunread .whileWritten nofun) rfl }
    rcases List.getLast?_eq_some_iff.mp hlast with ⟨front, hfront⟩
    have hold := h.endLast
    rw [hfront, List.dropLast_concat] at hold
    rw [hfront] at hx
    rcases List.mem_append.mp hx with hx | hx
    · exact hold x hx
    · rw [List.mem_singleton.mp hx]
      exact Bool.eq_false_iff.mpr hend

/-- **A statement of the producer**: it keeps the invariant, unless nothing was read to be stored. -/
theorem producerStep_inv (h : MailInv s stored) (hok : MailOk .producer s) :
    ∃ s', producerStep s = some s' ∧ MailInv s' (stored ++ storesLine .producer s) := by
  have hsame : s.producer ≠ .strncpy → stored ++ storesLine .producer s = stored := by
    intro hne
    rw [storesLine, if_neg hne, List.append_nil]
  rw [producerStep]
  cases hpc : s.producer with
  | whileWritten =>
    rw [hsame (by rw [hpc]; nofun)]
    exact ⟨_, rfl, h.whileWritten hpc⟩
  | fgets =>
    rw [hsame (by rw [hpc]; nofun)]
    exact ⟨_, rfl, h.fgets hpc⟩
  | strncpy =>
    rcases Option.isSome_iff_exists.mp (hok hpc) with ⟨line, hline⟩
    have hstored : storesLine .producer s = [line.bytes] := by
      rw [storesLine, if_pos hpc, hline]
      rfl
    rw [hstored]
    refine ⟨_, ?_, h.strncpy hpc hline⟩
    simp only [hline]
    rfl
  | setWritten =>
    rw [hsame (by rw [hpc]; nofun)]
    exact ⟨_, rfl, h.setWritten hpc⟩
  | strncmp =>
    rw [hsame (by rw [hpc]; nofun)]
    rcases h.strncmp hpc with ⟨line, hline, hinv⟩
    refine ⟨_, ?_, hinv⟩
    simp only [hline]
    rfl
  | ended =>
    rw [hsame (by rw [hpc]; nofun)]
    exact ⟨s, rfl, h⟩

/-! ## A statement of the customer -/

/-- The first statement of the customer may clear a flag; here it is required to find it down. -/
theorem MailInv.reset (h : MailInv s stored) (hpc : s.customer = .reset)
    (hlow : s.shared.writtenByYou = 0) :
    MailInv { s with
      shared := { s.shared with writtenByYou := 0 }, customer := .ifWritten } stored := by
  have hdown : ¬ (0 : Int) = 1 := by decide
  have hunread : Mailing.unread { s with
      shared := { s.shared with writtenByYou := 0 }, customer := .ifWritten } = true ↔
        s.unread = true := by
    rw [unread_iff, unread_iff, hlow]
    exact or_congr_right ⟨fun hone => absurd hone.1 hdown, fun hone => absurd hone.1 hdown⟩
  have hnone := h.start hpc
  exact { h with
    flag := Or.inl rfl
    sending := fun _ => rfl
    inOrder := h.inOrder_of hunread rfl
    raised := nofun
    printed := nofun
    start := nofun
    looping := by
      intro _ x hx
      rw [hnone] at hx
      exact nomatch hx
    ended := nofun }

/-- The customer reads only what was announced. -/
theorem MailInv.ifWritten (h : MailInv s stored) (hpc : s.customer = .ifWritten) :
    MailInv { s with
      customer := if s.shared.writtenByYou ≠ 0 then .printf else .ifWritten } stored := by
  by_cases hflag : s.shared.writtenByYou ≠ 0
  · rw [if_pos hflag]
    have hunread : Mailing.unread { s with customer := .printf } = true ↔ s.unread = true := by
      rw [unread_iff, unread_iff, hpc]
      exact or_congr_right (and_congr_right fun _ => ⟨nofun, nofun⟩)
    exact { h with
      inOrder := h.inOrder_of hunread rfl
      raised := fun _ => h.flag.resolve_left hflag
      printed := nofun
      start := nofun
      looping := nofun
      ended := nofun }
  · rw [if_neg hflag, ← hpc]
    exact h

/-- While the customer reads, the producer leaves the slot alone. -/
theorem MailInv.not_setWritten (h : MailInv s stored)
    (hreading : s.customer = .printf ∨ s.customer = .clear) : s.producer ≠ .setWritten := by
  intro hset
  have hraised := h.raised hreading
  rw [h.sending (by rw [hset]; rfl)] at hraised
  exact absurd hraised (by decide)

/-- The customer prints the line that was on its way. -/
theorem MailInv.printf (h : MailInv s stored) (hpc : s.customer = .printf) : ∃ text,
    s.shared.someText.str? 0 textSz = some text ∧
      MailInv { s with printed := s.printed ++ [text], customer := .clear } stored := by
  have hraised := h.raised (Or.inl hpc)
  have hset := h.not_setWritten (Or.inl hpc)
  rcases h.printed_but_one (unread_iff.mpr (Or.inr ⟨hraised, by rw [hpc]; nofun⟩)) with ⟨x, hx⟩
  have hslot := h.slot x (by rw [hx, List.getLast?_concat])
  refine ⟨x, hslot.str, ?_⟩
  have hread : Mailing.unread { s with printed := s.printed ++ [x], customer := .clear } ≠ true := by
    rw [Ne, unread_iff]
    rintro (heq | ⟨-, hne⟩)
    · exact hset heq
    · exact hne rfl
  exact { h with
    inOrder := by rw [if_neg hread]; exact hx
    raised := fun _ => hraised
    printed := fun _ => List.append_ne_nil_of_right_ne_nil _ (List.cons_ne_nil _ _)
    start := nofun
    looping := nofun
    ended := nofun }

/-- The flag goes down behind the line that was printed; from here on the producer may store. -/
theorem MailInv.clear (h : MailInv s stored) (hpc : s.customer = .clear) :
    MailInv { s with
      shared := { s.shared with writtenByYou := 0 }, customer := .strncmp } stored := by
  have hset := h.not_setWritten (Or.inr hpc)
  have hsome := h.printed (Or.inr hpc)
  have hbefore : s.unread ≠ true := by
    rw [Ne, unread_iff]
    rintro (heq | ⟨-, hne⟩)
    · exact hset heq
    · exact hne hpc
  have hread : Mailing.unread { s with
      shared := { s.shared with writtenByYou := 0 }, customer := .strncmp } ≠ true := by
    rw [Ne, unread_iff]
    rintro (heq | ⟨hone, -⟩)
    · exact hset heq
    · exact absurd hone (show ¬ (0 : Int) = 1 by decide)
  exact { h with
    flag := Or.inl rfl
    sending := fun _ => rfl
    inOrder := by rw [if_neg hread]; exact h.printed_all hbefore
    raised := nofun
    printed := fun _ => hsome
    start := nofun
    looping := nofun
    ended := nofun }

/-- The line printed last was stored, and it does not begin with "end" when another one follows. -/
theorem MailInv.last_of_unread (h : MailInv s stored) (hunread : s.unread = true)
    (hlast : s.printed.getLast? = some x) : isEnd x = false := by
  rcases h.printed_but_one hunread with ⟨y, hy⟩
  apply h.endLast
  rw [hy, List.dropLast_concat]
  exact List.mem_of_getLast? hlast

/-- **The test for "end"** looks at the line stored last, which need not be the one printed last. -/
theorem MailInv.test (h : MailInv s stored) (hpc : s.customer = .strncmp) : ∃ x y,
    s.printed.getLast? = some x ∧ (s.shared.someText.slice 0 3 = endText ↔ isEnd y = true) ∧
      (s.unread ≠ true → stored = s.printed ∧ y = x) := by
  have hsome := h.printed (Or.inl hpc)
  have hstored : stored ≠ [] := by
    by_cases hunread : s.unread = true
    · rcases h.printed_but_one hunread with ⟨y, hy⟩
      rw [hy]
      exact List.append_ne_nil_of_right_ne_nil _ (List.cons_ne_nil _ _)
    · rw [h.printed_all hunread]
      exact hsome
  have hx := List.getLast?_eq_some_getLast hsome
  have hy := List.getLast?_eq_some_getLast hstored
  refine ⟨_, _, hx, slice_eq_endText_iff (h.slot _ hy), fun hread => ?_⟩
  have hall := h.printed_all hread
  refine ⟨hall, ?_⟩
  rw [← Option.some_inj, ← hx, ← hy, hall]

/-- The customer ends at "end", provided that the slot still holds the printed line. -/
theorem MailInv.customerStrncmp (h : MailInv s stored) (hpc : s.customer = .strncmp)
    (hok : s.unread = true → s.shared.someText.slice 0 3 ≠ endText) :
    MailInv { s with
      customer := if s.shared.someText.slice 0 3 = endText then .ended else .ifWritten } stored := by
  rcases h.test hpc with ⟨x, y, hx, htest, hread⟩
  have hunread : ∀ pc, pc ≠ .clear →
      (Mailing.unread { s with customer := pc } = true ↔ s.unread = true) := by
    intro pc hne
    rw [unread_iff, unread_iff, hpc]
    exact or_congr_right (and_congr_right fun _ => ⟨fun _ => nofun, fun _ => hne⟩)
  split
  · rename_i hend
    rcases hread (fun hnew => hok hnew hend) with ⟨hall, hyx⟩
    exact { h with
      inOrder := h.inOrder_of (hunread .ended nofun) rfl
      raised := nofun
      printed := nofun
      start := nofun
      looping := nofun
      ended := fun _ => ⟨hall, x, hx, hyx ▸ htest.mp hend⟩ }
  · rename_i hgoes
    refine { h with
      inOrder := h.inOrder_of (hunread .ifWritten nofun) rfl
      raised := nofun
      printed := nofun
      start := nofun
      looping := fun _ z hz => ?_
      ended := nofun }
    have hzx : z = x := Option.some.inj (hz.symm.trans hx)
    by_cases hnew : s.unread = true
    · exact h.last_of_unread hnew hz
    · rcases hread hnew with ⟨-, hyx⟩
      rw [hzx, ← hyx]
      exact Bool.eq_false_iff.mpr fun hend => hgoes (htest.mpr hend)

/-- **A statement of the customer**: it keeps the invariant, unless it comes at a wrong time. -/
theorem customerStep_inv (h : MailInv s stored) (hok : MailOk .customer s) :
    ∃ s', customerStep s = some s' ∧ MailInv s' stored := by
  rcases hok with ⟨hreset, htest⟩
  rw [customerStep]
  cases hpc : s.customer with
  | reset => exact ⟨_, rfl, h.reset hpc (hreset hpc)⟩
  | ifWritten => exact ⟨_, rfl, h.ifWritten hpc⟩
  | printf =>
    rcases h.printf hpc with ⟨text, htext, hinv⟩
    refine ⟨_, ?_, hinv⟩
    simp only [htext]
    rfl
  | clear => exact ⟨_, rfl, h.clear hpc⟩
  | strncmp => exact ⟨_, rfl, h.customerStrncmp hpc (htest hpc)⟩
  | ended => exact ⟨s, rfl, h⟩

/-! ## At a wrong time -/

/-- The reset loses a line that the producer has announced. -/
theorem MailInv.not_delivered_reset (h : MailInv s stored) (hpc : s.customer = .reset)
    (hflag : s.shared.writtenByYou ≠ 0) : ¬ Delivered { s with
      shared := { s.shared with writtenByYou := 0 }, customer := .ifWritten } stored := by
  intro hdel
  have hraised := h.flag.resolve_left hflag
  rcases h.printed_but_one (unread_iff.mpr (Or.inr ⟨hraised, by rw [hpc]; nofun⟩)) with ⟨x, hx⟩
  have hread : Mailing.unread { s with
      shared := { s.shared with writtenByYou := 0 }, customer := .ifWritten } ≠ true := by
    rw [Ne, unread_iff]
    rintro (hset | ⟨hone, -⟩)
    · have hlow := h.sending (by rw [show s.producer = .setWritten from hset]; rfl)
      exact hflag hlow
    · exact absurd hone (show ¬ (0 : Int) = 1 by decide)
  have horder := hdel.inOrder
  rw [if_neg hread, hx] at horder
  have hlen := congrArg List.length horder
  rw [List.length_append] at hlen
  exact absurd hlen (by simp)

/-- The test for "end" on a line that was not printed ends the loop on another one. -/
theorem MailInv.not_delivered_test (h : MailInv s stored) (hunread : s.unread = true) :
    ¬ Delivered { s with customer := .ended } stored := by
  intro hdel
  rcases hdel.ended rfl with ⟨-, x, hx, hend⟩
  rw [h.last_of_unread hunread hx] at hend
  exact nomatch hend

/-- A step that does not meet the condition is undefined, or what it leaves is not delivered. -/
theorem mailOk_of_delivered (h : MailInv s stored) {party : MailParty}
    (hstep : mailingStep party s = some s')
    (hdel : Delivered s' (stored ++ storesLine party s)) : MailOk party s := by
  cases party with
  | producer =>
    intro hpc
    rw [mailingStep, producerStep, hpc] at hstep
    rcases Option.bind_eq_some_iff.mp hstep with ⟨line, hline, -⟩
    rw [hline]
    rfl
  | customer =>
    have hnone : stored ++ storesLine .customer s = stored := List.append_nil _
    rw [hnone] at hdel
    constructor
    · intro hpc
      by_contra hflag
      rw [mailingStep, customerStep, hpc] at hstep
      cases hstep
      exact h.not_delivered_reset hpc hflag hdel
    · intro hpc hunread hend
      rw [mailingStep, customerStep, hpc] at hstep
      cases hstep
      rw [if_pos hend] at hdel
      exact h.not_delivered_test hunread hdel

end

/-! ## Runs -/

/-- **The mailbox delivers in every state iff no statement of the run comes at a wrong time**: for every
    input and every interleaving. -/
theorem deliveredAlways_iff (stdin : List MailLine) (schedule : List MailParty) :
    DeliveredAlways stdin schedule ↔
      Meets deliveryStep (fun party x => MailOk party x.1) (mailingStart stdin, []) schedule := by
  refine always_iff_meets_of_partial (I := fun x => MailInv x.1 x.2) (fun x h => h.delivered) ?_
    (mailInv_start stdin)
  rintro ⟨s, stored⟩ party h
  constructor
  · intro hok
    cases party with
    | producer =>
      rcases producerStep_inv h hok with ⟨s', hs', hinv⟩
      refine ⟨(s', _), ?_, hinv⟩
      rw [deliveryStep, logged, mailingStep, hs']
      rfl
    | customer =>
      rcases customerStep_inv h hok with ⟨s', hs', hinv⟩
      refine ⟨(s', stored ++ []), ?_, by rw [List.append_nil]; exact hinv⟩
      rw [deliveryStep, logged, mailingStep, hs']
      rfl
  · rintro x hx hdel
    rcases exists_of_logged hx with ⟨s', hs', rfl⟩
    exact mailOk_of_delivered h hs' hdel

/-- "a", a line of its own. -/
def lineA : MailLine := ⟨⟨[97, 10], by decide⟩, by decide⟩

/-- "end" -/
def lineEnd : MailLine := ⟨⟨[101, 110, 100, 10], by decide⟩, by decide⟩

/-- The customer has printed "a" and cleared the flag, and the producer stores "end" before the
    customer looks for "end". -/
def mailEarly : List MailParty :=
  .customer :: List.replicate 5 .producer ++ List.replicate 3 .customer ++
    List.replicate 4 .producer ++ [.customer]

/-- The customer has ended, and "end" was never printed. -/
theorem not_deliveredAlways_early : ¬ DeliveredAlways [lineA, lineEnd] mailEarly := by
  intro h
  rcases h.last with ⟨⟨s, stored⟩, hrun, hdel⟩
  have hlost : (run deliveryStep (mailingStart [lineA, lineEnd], []) mailEarly).map
      (fun x => (x.1.customer, x.1.printed, x.2)) =
        some (.ended, [[97, 10]], [[97, 10], [101, 110, 100, 10]]) := by decide
  rw [hrun, Option.map_some, Option.some_inj, Prod.mk.injEq, Prod.mk.injEq] at hlost
  rcases hlost with ⟨hended, hprinted, hstored⟩
  dsimp only at hended hprinted hstored
  have hall := (hdel.ended hended).1
  dsimp only at hall
  rw [hprinted, hstored] at hall
  exact nomatch hall

end AdhocNode
