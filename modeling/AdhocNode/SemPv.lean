/-
  THE SEMAPHORE — the loops of the parent and the child in `sem_PV_handler`
  (`src/process_interactive.c`).

  1. **The system** — a step is one statement of a process; `P` and `V` take effect at once or fail.
     Both processes ignore what the two return: a process whose `P` has failed goes on to print.

  2. **Exclusion** — `Exclusive`: the processes are not both between their `P` and their `V`, the
     semaphore is at most 1, and the output is a sequence of undivided pairs.

  3. **Runs** — `sem_exclusive`: so it is in every state of a run in which no `P` fails that had
     something to wait for or to take.  The invariant counts tokens: one is in the semaphore or with
     the process that is inside.  `breaks_of_not_pvOk`: after any other failure of a `P` there are runs
     in which it is not so.
-/
import AdhocNode.Lib.Runs
import Mathlib.Logic.Function.Basic

namespace AdhocNode

open Runs

/-! ## The system -/

/-- The processes after `fork`. -/
inductive PvWho where
  | parent
  | child
  deriving DecidableEq

def PvWho.other : PvWho → PvWho
  | .parent => .child
  | .child => .parent

/-- What the process prints. -/
def PvWho.letter : PvWho → Char
  | .parent => 'B'
  | .child => 'A'

/-- The next statement of a loop. -/
inductive PvPc where
  | P
  | printf1
  | fflush1
  | usleep1
  | printf2
  | fflush2
  | usleep2
  | V
  deriving DecidableEq

/-- A process: where it is, and what it has printed and not flushed. -/
structure PvProcess where
  pc : PvPc
  stdout : List Char

/-- What `semop` does when the next statement is one; it fails when a signal comes in, say. -/
inductive SemopResult where
  | done
  | failed
  deriving DecidableEq

/-- The value of the semaphore, the processes, and what has been written to the terminal. -/
structure SemState where
  val : Nat
  proc : PvWho → PvProcess
  output : List Char

/-- A process has executed a statement that is no output. -/
def SemState.goto (s : SemState) (who : PvWho) (val : Nat) (pc : PvPc) : SemState :=
  { s with val := val, proc := Function.update s.proc who { s.proc who with pc := pc } }

/-- `printf` of the letter. -/
def SemState.printf (s : SemState) (who : PvWho) (pc : PvPc) : SemState :=
  { s with proc := Function.update s.proc who ⟨pc, (s.proc who).stdout ++ [who.letter]⟩ }

/-- `fflush(stdout)`. -/
def SemState.fflush (s : SemState) (who : PvWho) (pc : PvPc) : SemState :=
  { s with
    proc := Function.update s.proc who ⟨pc, []⟩
    output := s.output ++ (s.proc who).stdout }

/-- A statement of a process.  `P` blocks while the semaphore is 0; the results of `P` and `V` are not
    looked at. -/
def pvStep (act : PvWho × SemopResult) (s : SemState) : Option SemState :=
  let who := act.1
  match (s.proc who).pc with
  | .P =>
    match act.2 with
    | .failed => some (s.goto who s.val .printf1)
    | .done => if s.val = 0 then some s else some (s.goto who (s.val - 1) .printf1)
  | .printf1 => some (s.printf who .fflush1)
  | .fflush1 => some (s.fflush who .usleep1)
  | .usleep1 => some (s.goto who s.val .printf2)
  | .printf2 => some (s.printf who .fflush2)
  | .fflush2 => some (s.fflush who .usleep2)
  | .usleep2 => some (s.goto who s.val .V)
  | .V =>
    match act.2 with
    | .failed => some (s.goto who s.val .P)
    | .done => some (s.goto who (s.val + 1) .P)

/-- `initSem(semid, 0, 1)`, and both processes in front of their loops. -/
def semStart : SemState := ⟨1, fun _ => ⟨.P, []⟩, []⟩

/-! ## Exclusion -/

/-- The process is between its `P` and its `V`. -/
def SemState.inside (s : SemState) (who : PvWho) : Bool := (s.proc who).pc ≠ .P

/-- What the processes have written when they took these turns. -/
def pairs (turns : List PvWho) : List Char := turns.flatMap fun who => [who.letter, who.letter]

/-- **Mutual exclusion.** -/
structure Exclusive (s : SemState) : Prop where
  outside : ∀ who, s.inside who = true → s.inside who.other = false
  val_le : s.val ≤ 1
  /-- The last pair may be half written. -/
  undivided : ∃ turns half, s.output = pairs turns ++ half ∧
    (half = [] ∨ ∃ who : PvWho, half = [who.letter])

/-- **The condition of a step**: a `P` does not fail, unless the semaphore is 0 and the other process is
    not inside. -/
def PvOk (act : PvWho × SemopResult) (s : SemState) : Prop :=
  (s.proc act.1).pc = .P → act.2 = .failed → s.val = 0 ∧ s.inside act.1.other = false

instance (act : PvWho × SemopResult) (s : SemState) : Decidable (PvOk act s) :=
  inferInstanceAs (Decidable (_ → _ → _))

/-! ## The invariant -/

/-- What a process has printed and not flushed. -/
def PvPc.pending (who : PvWho) : PvPc → List Char
  | .fflush1 | .fflush2 => [who.letter]
  | .P | .printf1 | .usleep1 | .printf2 | .usleep2 | .V => []

/-- What a process has written of a pair that is not complete. -/
def PvPc.half (who : PvWho) : PvPc → List Char
  | .usleep1 | .printf2 | .fflush2 => [who.letter]
  | .P | .printf1 | .fflush1 | .usleep2 | .V => []

/-- The process may be inside, the other one is not: there is one token, in the semaphore or with the
    process, and what is printed and not flushed, or half written, is its own. -/
structure Alone (who : PvWho) (s : SemState) : Prop where
  outside : s.inside who.other = false
  tokens : s.val + (s.inside who).toNat ≤ 1
  stdout : (s.proc who).stdout = (s.proc who).pc.pending who
  stdoutOther : (s.proc who.other).stdout = []
  output : ∃ turns, s.output = pairs turns ++ (s.proc who).pc.half who

section

variable {s s' : SemState} {who : PvWho} {p : PvProcess} {act : PvWho × SemopResult}

theorem other_ne (who : PvWho) : who.other ≠ who := by cases who <;> decide

theorem other_other (who : PvWho) : who.other.other = who := by cases who <;> rfl

theorem eq_or_eq_other (who w : PvWho) : w = who ∨ w = who.other := by
  cases who <;> cases w <;> decide

theorem pc_of_outside (h : s.inside who = false) : (s.proc who).pc = .P := by
  simpa [SemState.inside] using h

theorem alone_start (who : PvWho) : Alone who semStart where
  outside := rfl
  tokens := Nat.le_refl 1
  stdout := rfl
  stdoutOther := rfl
  output := ⟨[], rfl⟩

theorem pairs_append (turns : List PvWho) (who : PvWho) :
    pairs (turns ++ [who]) = pairs turns ++ [who.letter] ++ [who.letter] := by
  rw [pairs, List.flatMap_append, List.append_assoc]
  rfl

/-- When both are outside, either of them may be the one that goes in. -/
theorem Alone.symm (h : Alone who s) (hout : s.inside who = false) : Alone who.other s := by
  have hpc := pc_of_outside hout
  have hpcOther := pc_of_outside h.outside
  have htokens := h.tokens
  rw [hout] at htokens
  refine ⟨by rw [other_other]; exact hout, by rw [h.outside]; exact htokens, ?_, ?_, ?_⟩
  · rw [hpcOther, h.stdoutOther]
    rfl
  · rw [other_other, h.stdout, hpc]
    rfl
  · rcases h.output with ⟨turns, hturns⟩
    rw [hpc] at hturns
    rw [hpcOther]
    exact ⟨turns, hturns⟩

theorem Alone.exclusive (h : Alone who s) : Exclusive s := by
  refine ⟨fun w hin => ?_, Nat.le_trans (Nat.le_add_right ..) h.tokens, ?_⟩
  · rcases eq_or_eq_other who w with rfl | rfl
    · exact h.outside
    · rw [h.outside] at hin
      exact nomatch hin
  · rcases h.output with ⟨turns, hturns⟩
    refine ⟨turns, _, hturns, ?_⟩
    cases (s.proc who).pc <;> first | exact Or.inl rfl | exact Or.inr ⟨who, rfl⟩

/-- The process moves on, by itself. -/
theorem Alone.move (h : Alone who s) {val : Nat} {output : List Char}
    (htokens : val + (decide (p.pc ≠ .P)).toNat ≤ 1) (hstdout : p.stdout = p.pc.pending who)
    (houtput : ∃ turns, output = pairs turns ++ p.pc.half who) :
    Alone who ⟨val, Function.update s.proc who p, output⟩ := by
  have hself : Function.update s.proc who p who = p := Function.update_self ..
  have hsame : Function.update s.proc who p who.other = s.proc who.other :=
    Function.update_of_ne (other_ne who) ..
  constructor
  · show decide ((Function.update s.proc who p who.other).pc ≠ .P) = false
    rw [hsame]
    exact h.outside
  · show val + (decide ((Function.update s.proc who p who).pc ≠ .P)).toNat ≤ 1
    rw [hself]
    exact htokens
  · dsimp only
    rw [hself]
    exact hstdout
  · dsimp only
    rw [hsame]
    exact h.stdoutOther
  · dsimp only
    rw [hself]
    exact houtput

/-- **A statement of the process that may be inside.** -/
theorem Alone.step (h : Alone who s) {r : SemopResult} (hok : PvOk (who, r) s) :
    ∃ s', pvStep (who, r) s = some s' ∧ Alone who s' := by
  have htokens := h.tokens
  have hstdout := h.stdout
  rcases h.output with ⟨turns, houtput⟩
  rw [SemState.inside] at htokens
  rw [pvStep]
  cases hpc : (s.proc who).pc with
  | P =>
    rw [hpc] at htokens hstdout houtput
    cases r with
    | failed =>
      rcases hok hpc rfl with ⟨hzero, -⟩
      refine ⟨_, rfl, h.move ?_ hstdout ⟨turns, houtput⟩⟩
      rw [hzero]
      exact Nat.le_refl 1
    | done =>
      by_cases hzero : s.val = 0
      · exact ⟨s, if_pos hzero, h⟩
      · refine ⟨_, if_neg hzero, h.move ?_ hstdout ⟨turns, houtput⟩⟩
        have hle : s.val ≤ 1 := htokens
        show s.val - 1 + 1 ≤ 1
        omega
  | printf1 =>
    rw [hpc] at htokens hstdout houtput
    refine ⟨_, rfl, h.move htokens ?_ ⟨turns, houtput⟩⟩
    rw [hstdout]
    rfl
  | fflush1 =>
    rw [hpc] at htokens hstdout houtput
    refine ⟨_, rfl, h.move htokens rfl ⟨turns, ?_⟩⟩
    rw [hstdout, houtput, List.append_assoc]
    rfl
  | usleep1 =>
    rw [hpc] at htokens hstdout houtput
    exact ⟨_, rfl, h.move htokens hstdout ⟨turns, houtput⟩⟩
  | printf2 =>
    rw [hpc] at htokens hstdout houtput
    refine ⟨_, rfl, h.move htokens ?_ ⟨turns, houtput⟩⟩
    rw [hstdout]
    rfl
  | fflush2 =>
    rw [hpc] at htokens hstdout houtput
    -- the pair is complete
    refine ⟨_, rfl, h.move htokens rfl ⟨turns ++ [who], ?_⟩⟩
    rw [hstdout, houtput, pairs_append]
    exact (List.append_nil _).symm
  | usleep2 =>
    rw [hpc] at htokens hstdout houtput
    exact ⟨_, rfl, h.move htokens hstdout ⟨turns, houtput⟩⟩
  | V =>
    rw [hpc] at htokens hstdout houtput
    have hzero : s.val + 1 ≤ 1 := htokens
    cases r with
    | failed =>
      refine ⟨_, rfl, h.move ?_ hstdout ⟨turns, houtput⟩⟩
      exact Nat.le_trans (Nat.le_succ _) hzero
    | done => exact ⟨_, rfl, h.move hzero hstdout ⟨turns, houtput⟩⟩

/-- While one process is inside, the other one waits in front of its `P`. -/
theorem Alone.step_other (h : Alone who s) (hin : s.inside who = true) {r : SemopResult}
    (hok : PvOk (who.other, r) s) : pvStep (who.other, r) s = some s := by
  have hpc := pc_of_outside h.outside
  have htokens := h.tokens
  rw [hin] at htokens
  have hzero : s.val = 0 := Nat.le_zero.mp (Nat.le_of_succ_le_succ htokens)
  cases r with
  | failed =>
    rcases hok hpc rfl with ⟨-, hout⟩
    rw [other_other, hin] at hout
    exact nomatch hout
  | done =>
    rw [pvStep, hpc]
    exact if_pos hzero

end

/-! ## Runs -/

/-- **Mutual exclusion** holds in every state of a run in which no `P` fails but for one with nothing
    to take and nobody to wait for: for every interleaving, and whatever becomes of the other calls. -/
theorem sem_exclusive (schedule : List (PvWho × SemopResult))
    (h : Meets pvStep PvOk semStart schedule) : Always pvStep Exclusive semStart schedule := by
  refine always_of_meets (I := fun s => ∃ who, Alone who s) ?_ ?_ ⟨.parent, alone_start _⟩ h
  · rintro s ⟨who, hs⟩
    exact hs.exclusive
  · rintro s ⟨w, r⟩ ⟨who, hs⟩ hok
    rcases eq_or_eq_other who w with rfl | rfl
    · rcases hs.step hok with ⟨s', hstep, hs'⟩
      exact ⟨s', hstep, w, hs'⟩
    · cases hin : s.inside who with
      | true => exact ⟨s, hs.step_other hin hok, who, hs⟩
      | false =>
        rcases (hs.symm hin).step hok with ⟨s', hstep, hs'⟩
        exact ⟨s', hstep, who.other, hs'⟩

/-- The child goes through its loop while a `V` of the parent fails. -/
def pvTurns : List (PvWho × SemopResult) :=
  List.replicate 8 (.parent, .done) ++ List.replicate 8 (.child, .done) ++
    List.replicate 7 (.parent, .done) ++ [(.parent, .failed), (.child, .done), (.child, .failed)]

theorem sem_exclusive_turns : Meets pvStep PvOk semStart pvTurns ∧
    Always pvStep Exclusive semStart pvTurns :=
  ⟨by decide, sem_exclusive pvTurns (by decide)⟩

/-- The child is inside when the parent's `P` fails. -/
def pvBoth : List (PvWho × SemopResult) := [(.child, .done), (.parent, .failed)]

/-- Both are inside. -/
theorem not_exclusive_both : ¬ Always pvStep Exclusive semStart pvBoth := by
  intro h
  rcases h.last with ⟨s, hrun, hs⟩
  have hboth : (run pvStep semStart pvBoth).map (fun s => (s.inside .parent, s.inside .child)) =
      some (true, true) := by decide
  rw [hrun, Option.map_some, Option.some_inj, Prod.mk.injEq] at hboth
  have hout := hs.outside .parent hboth.1
  rw [show PvWho.other .parent = .child from rfl, hboth.2] at hout
  exact nomatch hout

/-! ## The condition is exact -/

section

variable {s : SemState} {who : PvWho} {val : Nat} {pc : PvPc}

theorem proc_goto_self : (s.goto who val pc).proc who = { s.proc who with pc := pc } :=
  Function.update_self ..

theorem proc_goto_of_ne {w : PvWho} (h : w ≠ who) : (s.goto who val pc).proc w = s.proc w :=
  Function.update_of_ne h ..

theorem inside_goto_self (hpc : pc ≠ .P) : (s.goto who val pc).inside who = true := by
  simp only [SemState.inside, proc_goto_self, ne_eq, hpc, not_false_eq_true, decide_true]

theorem inside_goto_of_ne {w : PvWho} (h : w ≠ who) : (s.goto who val pc).inside w = s.inside w := by
  simp only [SemState.inside, proc_goto_of_ne h]

/-- A process whose `P` fails goes in. -/
theorem pvStep_failed (hpc : (s.proc who).pc = .P) :
    pvStep (who, .failed) s = some (s.goto who s.val .printf1) := by
  rw [pvStep, hpc]

/-- So does one that finds something to take. -/
theorem pvStep_done (hpc : (s.proc who).pc = .P) (hval : s.val ≠ 0) :
    pvStep (who, .done) s = some (s.goto who (s.val - 1) .printf1) := by
  rw [pvStep, hpc]
  exact if_neg hval

end

/-- **Any other failure of a `P` breaks the exclusion**: at once when the other process is inside, and
    otherwise as soon as the other one takes what is left in the semaphore. -/
theorem breaks_of_not_pvOk {s : SemState} {act : PvWho × SemopResult} (h : ¬ PvOk act s) :
    ∃ schedule, ¬ Always pvStep Exclusive s (act :: schedule) := by
  rcases act with ⟨who, r⟩
  rcases Classical.not_imp.mp h with ⟨hpc, hfail⟩
  rcases Classical.not_imp.mp hfail with ⟨hr, hbad⟩
  dsimp only at hpc hr hbad
  subst hr
  apply exists_not_always_cons
  intro s' hs'
  rw [pvStep_failed hpc] at hs'
  cases hs'
  have hin : (s.goto who s.val .printf1).inside who = true := inside_goto_self nofun
  cases hother : s.inside who.other with
  | true =>
    refine ⟨[], fun hexcl => ?_⟩
    have hout := hexcl.first.outside who hin
    rw [inside_goto_of_ne (other_ne who), hother] at hout
    exact nomatch hout
  | false =>
    have hval : s.val ≠ 0 := fun hzero => hbad ⟨hzero, hother⟩
    have hpcOther : ((s.goto who s.val .printf1).proc who.other).pc = .P := by
      rw [proc_goto_of_ne (other_ne who)]
      exact pc_of_outside hother
    refine ⟨[(who.other, .done)], ?_⟩
    rintro ⟨-, t, ht, hexcl⟩
    rw [pvStep_done hpcOther hval] at ht
    cases ht
    have hout := hexcl.first.outside who.other (inside_goto_self nofun)
    rw [other_other, inside_goto_of_ne (other_ne who).symm, hin] at hout
    exact nomatch hout

end AdhocNode
