/-
  WHILE LOOPS — one iteration of a C loop, and what follows for all of them.

  `body s : Step σ` is one evaluation of `while (cond) { … }` in state `s`: the condition fails and
  the loop is left (`exit`), the iteration is undefined behaviour (`fault`), or it ends in a new
  state (`next`).  `Run body s t` is "some number of iterations takes `s` to `t`", `Returns body s t`
  is "the loop, entered in `s`, is left in `t`".  A loop that faults or goes round for ever returns
  in no state at all.

  The rules: an invariant kept by one iteration holds along a run (`Run.invariant`); a loop whose
  iterations are defined and decrease a measure returns (`exists_returns`); and a loop that returns
  does so from every state on the way (`Returns.of_run`).  `Iterates` counts the iterations of a run:
  a measure bounds them (`Iterates.add_le`), also when the loop may stop in a fault
  (`exists_iterates_stopped`).  `exec` runs a loop with fuel; `exists_exec_iff` says that it finds the
  final state whenever there is one, and `exec_of_returns` and `Iterates.exec_add` how much fuel is
  enough.
-/
import Mathlib.Logic.Relation

namespace WhileLoop

/-- One evaluation of a loop: left, undefined, or one iteration further. -/
inductive Step (σ : Type) where
  | exit
  | fault
  | next (s : σ)

variable {σ : Type} {body : σ → Step σ}

/-- Some number of iterations. -/
def Run (body : σ → Step σ) : σ → σ → Prop := Relation.ReflTransGen fun s t => body s = .next t

/-- The loop is left in state `t`. -/
def Returns (body : σ → Step σ) (s t : σ) : Prop := Run body s t ∧ body t = .exit

theorem Run.refl (s : σ) : Run body s s := Relation.ReflTransGen.refl

theorem Run.step {s t u : σ} (h : Run body s t) (ht : body t = .next u) : Run body s u :=
  Relation.ReflTransGen.tail h ht

theorem Run.head {s t u : σ} (hs : body s = .next t) (h : Run body t u) : Run body s u :=
  Relation.ReflTransGen.head hs h

/-- **The invariant rule**: what one iteration preserves, a run preserves. -/
theorem Run.invariant {I : σ → Prop} (hstep : ∀ s t, I s → body s = .next t → I t) {s t : σ}
    (h : Run body s t) (hs : I s) : I t := by
  induction h with
  | refl => exact hs
  | tail _ hbc ih => exact hstep _ _ ih hbc

/-- Iteration is deterministic: of two runs from one state, one extends the other. -/
theorem Run.total {s t u : σ} (ht : Run body s t) (hu : Run body s u) :
    Run body t u ∨ Run body u t := by
  refine Relation.ReflTransGen.total_of_right_unique ?_ ht hu
  intro a b c hb hc
  have heq : Step.next b = Step.next c := hb.symm.trans hc
  cases heq
  rfl

/-- Nothing runs on from a state in which the loop is left. -/
theorem Run.eq_of_exit {s t : σ} (h : Run body s t) (hs : body s = .exit) : t = s := by
  rcases Relation.ReflTransGen.cases_head h with heq | ⟨u, hu, -⟩
  · exact heq.symm
  · rw [hs] at hu; cases hu

/-- A loop that returns returns from every state on the way. -/
theorem Returns.of_run {s t u : σ} (h : Returns body s u) (hrun : Run body s t) :
    Returns body t u := by
  rcases Run.total h.1 hrun with hut | htu
  · rw [Run.eq_of_exit hut h.2]
    exact ⟨Run.refl u, h.2⟩
  · exact ⟨htu, h.2⟩

/-- A loop that returns, but not at once, goes through an iteration. -/
theorem Returns.of_ne_exit {s u : σ} (h : Returns body s u) (hne : body s ≠ .exit) :
    ∃ t, body s = .next t ∧ Returns body t u := by
  rcases Relation.ReflTransGen.cases_head h.1 with rfl | ⟨t, ht, hrun⟩
  · exact absurd h.2 hne
  · exact ⟨t, ht, hrun, h.2⟩

/-- Exactly `n` iterations. -/
inductive Iterates (body : σ → Step σ) : Nat → σ → σ → Prop
  | refl (s : σ) : Iterates body 0 s s
  | tail {n : Nat} {s t u : σ} (h : Iterates body n s t) (ht : body t = .next u) :
    Iterates body (n + 1) s u

theorem Iterates.head {n : Nat} {s t u : σ} (hs : body s = .next t) (h : Iterates body n t u) :
    Iterates body (n + 1) s u := by
  induction h with
  | refl => exact (Iterates.refl s).tail hs
  | tail _ ht ih => exact (ih hs).tail ht

theorem Iterates.run {n : Nat} {s t : σ} (h : Iterates body n s t) : Run body s t := by
  induction h with
  | refl => exact Run.refl _
  | tail _ ht ih => exact ih.step ht

/-- **Counting**: a measure that every iteration decreases bounds the number of iterations. -/
theorem Iterates.add_le {I : σ → Prop} (μ : σ → Nat)
    (hstep : ∀ s t, I s → body s = .next t → I t ∧ μ t < μ s) {n : Nat} {s t : σ}
    (h : Iterates body n s t) (hs : I s) : I t ∧ n + μ t ≤ μ s := by
  induction h with
  | refl => exact ⟨hs, by omega⟩
  | tail _ ht ih =>
    rcases ih hs with ⟨hI, hle⟩
    rcases hstep _ _ hI ht with ⟨hI', hlt⟩
    exact ⟨hI', by omega⟩

/-- **The loop stops**, in an exit or a fault, if every iteration decreases a measure. -/
theorem exists_iterates_stopped {I : σ → Prop} (μ : σ → Nat)
    (hstep : ∀ s t, I s → body s = .next t → I t ∧ μ t < μ s) {s : σ} (hs : I s) :
    ∃ n t, Iterates body n s t ∧ ∀ u, body t ≠ .next u := by
  induction hn : μ s using Nat.strongRecOn generalizing s with
  | _ m ih =>
    by_cases hnext : ∃ t, body s = .next t
    · rcases hnext with ⟨t, ht⟩
      rcases hstep s t hs ht with ⟨hI, hlt⟩
      rcases ih (μ t) (by omega) hI rfl with ⟨n, u, hiter, hstop⟩
      exact ⟨n + 1, u, hiter.head ht, hstop⟩
    · exact ⟨0, s, .refl s, fun u hu => hnext ⟨u, hu⟩⟩

/-- The loop, executed: the final state, or `none` after `fuel` iterations or a fault. -/
def exec (body : σ → Step σ) : Nat → σ → Option σ
  | 0, _ => none
  | fuel + 1, s =>
    match body s with
    | .exit => some s
    | .fault => none
    | .next t => exec body fuel t

/-- Each iteration takes one unit of fuel. -/
theorem Iterates.exec_add {n : Nat} {s t : σ} (h : Iterates body n s t) (fuel : Nat) :
    exec body (n + fuel) s = exec body fuel t := by
  induction h generalizing fuel with
  | refl => rw [Nat.zero_add]
  | tail _ ht ih => rw [Nat.add_assoc, Nat.add_comm 1, ih, exec, ht]

/-- The executed loop finds exactly the states in which the loop returns. -/
theorem exists_exec_iff {s t : σ} : (∃ fuel, exec body fuel s = some t) ↔ Returns body s t := by
  constructor
  · rintro ⟨fuel, h⟩
    induction fuel generalizing s with
    | zero => cases h
    | succ fuel ih =>
      rw [exec] at h
      split at h
      · rename_i hexit
        cases h
        exact ⟨Run.refl _, hexit⟩
      · cases h
      · rename_i u hu
        obtain ⟨hrun, hexit⟩ := ih h
        exact ⟨Run.head hu hrun, hexit⟩
  · rintro ⟨hrun, hexit⟩
    induction hrun using Relation.ReflTransGen.head_induction_on with
    | refl => exact ⟨1, by simp only [exec, hexit]⟩
    | head hbody _ ih =>
      obtain ⟨fuel, hfuel⟩ := ih
      exact ⟨fuel + 1, by simp only [exec, hbody]; exact hfuel⟩

/-- **The variant rule**: if under an invariant every iteration is defined and decreases `μ`, the
    loop returns, in a state that satisfies the invariant. -/
theorem exists_returns {I : σ → Prop} (μ : σ → Nat)
    (hstep : ∀ s, I s → body s = .exit ∨ ∃ t, body s = .next t ∧ I t ∧ μ t < μ s) {s : σ}
    (hs : I s) : ∃ t, Returns body s t ∧ I t := by
  induction hn : μ s using Nat.strongRecOn generalizing s with
  | _ n ih =>
    rcases hstep s hs with hexit | ⟨t, ht, hIt, hlt⟩
    · exact ⟨s, ⟨Run.refl s, hexit⟩, hs⟩
    · obtain ⟨u, ⟨hrun, hexit⟩, hIu⟩ := ih (μ t) (by omega) hIt rfl
      exact ⟨u, ⟨Run.head ht hrun, hexit⟩, hIu⟩

/-- **Enough fuel**: a loop whose iterations decrease `μ` is executed to its end with more fuel than
    `μ` says. -/
theorem exec_of_returns {I : σ → Prop} (μ : σ → Nat)
    (hstep : ∀ s t, I s → body s = .next t → I t ∧ μ t < μ s) {s t : σ} (hs : I s)
    (h : Returns body s t) {fuel : Nat} (hfuel : μ s < fuel) : exec body fuel s = some t := by
  induction fuel generalizing s with
  | zero => exact absurd hfuel (Nat.not_lt_zero _)
  | succ fuel ih =>
    rw [exec]
    by_cases hexit : body s = .exit
    · rw [hexit, Run.eq_of_exit h.1 hexit]
    · obtain ⟨u, hu, hret⟩ := h.of_ne_exit hexit
      obtain ⟨hIu, hlt⟩ := hstep s u hs hu
      rw [hu]
      exact ih hIu hret (by omega)

end WhileLoop
