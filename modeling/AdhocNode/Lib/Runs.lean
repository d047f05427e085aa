/-
  RUNS OF A LABELLED SYSTEM — what a list of actions does to a state, and what holds along it.

  `step a s` is the state in which action `a` leaves `s`, or `none` where the action is undefined.  An
  action may be a call with its arguments, or the name of the party whose next atomic step it is: then
  a list of actions is a schedule, and all lists together are all interleavings.

  `Always step P s as` says that every step of the run is defined and `P` holds in every state of it,
  `Meets step ok s as` that every action is taken in a state that meets its condition.  The rules
  (`always_of_meets`, `always_iff_meets`) lead from one to the other through an invariant.  Where a
  property is about the end of a run only, `meets_or_spoiled` reads the condition off that end; that
  an end can be reached at all is shown with a rank (`exists_run_of_rank`).

  `logged step event` is the system together with a log of what its steps do.  The unwinding rule
  (`exists_run_logged_filter`) compares two runs: steps that are not seen can be left out.

  `partStep part f` is a system of parts each of whose steps is one of a single part: its runs are the
  runs of the parts, each with its own actions (`run_partStep_iff`), in whatever order they come.
-/
import Mathlib.Data.Option.Basic
import Mathlib.Logic.Function.Basic

namespace Runs

variable {σ α : Type} (step : α → σ → Option σ)

/-- The state behind the actions. -/
def run : σ → List α → Option σ
  | s, [] => some s
  | s, a :: as => (step a s).bind fun s' => run s' as

/-- Every step is defined, and `P` holds in every state, the first and the last included. -/
def Always (P : σ → Prop) : σ → List α → Prop
  | s, [] => P s
  | s, a :: as => P s ∧ ∃ s', step a s = some s' ∧ Always P s' as

/-- Every action of the run is taken in a state that meets its condition. -/
def Meets (ok : α → σ → Prop) : σ → List α → Prop
  | _, [] => True
  | s, a :: as => ok a s ∧ ∀ s', step a s = some s' → Meets ok s' as

/-- The system with a log, in which `event` writes down what there is to see of a step. -/
def logged {ε : Type} (event : α → σ → List ε) (a : α) (s : σ × List ε) : Option (σ × List ε) :=
  (step a s.1).map fun s' => (s', s.2 ++ event a s.1)

/-- How many actions of the run are taken in a state for which `c` holds. -/
def tally (c : α → σ → Bool) : σ → List α → Nat
  | _, [] => 0
  | s, a :: as => (if c a s then 1 else 0) +
    match step a s with
    | none => 0
    | some s' => tally c s' as

variable {step} {P I B : σ → Prop} {ok : α → σ → Prop} {s s' t : σ} {a : α} {as bs : List α}

instance decidableMeets [∀ a s, Decidable (ok a s)] :
    ∀ (s : σ) (as : List α), Decidable (Meets step ok s as)
  | _, [] => isTrue trivial
  | s, a :: as =>
    match hs : step a s with
    | none => decidable_of_iff (ok a s) (by simp [Meets, hs])
    | some s' =>
      have : Decidable (Meets step ok s' as) := decidableMeets s' as
      decidable_of_iff (ok a s ∧ Meets step ok s' as) (by simp [Meets, hs])

/-! ## Along a run -/

theorem run_cons (h : step a s = some s') : run step s (a :: as) = run step s' as := by
  rw [run, h, Option.bind_some]

theorem exists_of_run_cons (h : run step s (a :: as) = some t) :
    ∃ s', step a s = some s' ∧ run step s' as = some t := Option.bind_eq_some_iff.mp h

/-- A step of the logged system is a step of the system. -/
theorem exists_of_logged {ε : Type} {event : α → σ → List ε} {x y : σ × List ε}
    (h : logged step event a x = some y) :
    ∃ s', step a x.1 = some s' ∧ y = (s', x.2 ++ event a x.1) := by
  rcases Option.map_eq_some_iff.mp h with ⟨s', hstep, hy⟩
  exact ⟨s', hstep, hy.symm⟩

theorem Always.first (h : Always step P s as) : P s := by
  cases as with
  | nil => exact h
  | cons a as => exact h.1

/-- What holds along a run holds along the rest of it. -/
theorem Always.rest (h : Always step P s (a :: as)) (hs : step a s = some s') :
    Always step P s' as := by
  rcases h with ⟨-, t, ht, hrest⟩
  rw [hs] at ht
  cases ht
  exact hrest

/-- What holds along a run holds at its end, which is there. -/
theorem Always.last (h : Always step P s as) : ∃ s', run step s as = some s' ∧ P s' := by
  induction as generalizing s with
  | nil => exact ⟨s, rfl, h⟩
  | cons a as ih =>
    rcases h with ⟨-, t, hstep, hrest⟩
    rcases ih hrest with ⟨s', hrun, hs'⟩
    exact ⟨s', (run_cons hstep).trans hrun, hs'⟩

theorem run_append : run step s (as ++ bs) = (run step s as).bind fun t => run step t bs := by
  induction as generalizing s with
  | nil => rfl
  | cons a as ih =>
    rw [List.cons_append, run, run, Option.bind_assoc]
    exact congrArg _ (funext fun s' => ih)

theorem run_concat (hrun : run step s as = some t) (hstep : step a t = some s') :
    run step s (as ++ [a]) = some s' := by
  rw [run_append, hrun, Option.bind_some, run_cons hstep]
  rfl

/-- **Along a run** is at the end of every beginning of it. -/
theorem always_iff_run :
    Always step P s as ↔ ∀ bs, bs <+: as → ∃ t, run step s bs = some t ∧ P t := by
  constructor
  · intro h bs hbs
    rcases hbs with ⟨cs, rfl⟩
    induction bs generalizing s with
    | nil => exact ⟨s, rfl, h.first⟩
    | cons b bs ih =>
      rcases h with ⟨-, s', hs', hrest⟩
      rcases ih hrest with ⟨t, ht, hPt⟩
      exact ⟨t, (run_cons hs').trans ht, hPt⟩
  · intro h
    induction as generalizing s with
    | nil =>
      rcases h [] (List.prefix_refl _) with ⟨t, ht, hPt⟩
      cases ht
      exact hPt
    | cons a as ih =>
      rcases h [] (List.nil_prefix) with ⟨t, ht, hPt⟩
      cases ht
      rcases h [a] (List.prefix_append [a] as) with ⟨u, hu, -⟩
      rcases exists_of_run_cons hu with ⟨s', hs', -⟩
      refine ⟨hPt, s', hs', ih fun bs hbs => ?_⟩
      rcases h (a :: bs) ((List.prefix_cons_inj a).mpr hbs) with ⟨v, hv, hPv⟩
      exact ⟨v, (run_cons hs').symm.trans hv, hPv⟩

/-- A run leaves `P`, or gets stuck, when from every state behind its first step one can. -/
theorem exists_not_always_cons (h : ∀ s', step a s = some s' → ∃ as, ¬ Always step P s' as) :
    ∃ as, ¬ Always step P s (a :: as) := by
  cases hs : step a s with
  | none =>
    refine ⟨[], ?_⟩
    rintro ⟨-, s', hs', -⟩
    rw [hs] at hs'
    exact nomatch hs'
  | some s' =>
    rcases h s' hs with ⟨as, has⟩
    exact ⟨as, fun hall => has (hall.rest hs)⟩

/-- What holds along all repetitions of one action holds along those from the next state on. -/
theorem Always.next (h : ∀ n, Always step P s (List.replicate n a)) :
    ∃ s', step a s = some s' ∧ ∀ n, Always step P s' (List.replicate n a) := by
  rcases h 1 with ⟨-, s', hs', -⟩
  exact ⟨s', hs', fun n => (h (n + 1)).rest hs'⟩

/-! ## The rules -/

/-- **Conditional runs**: an invariant kept by the steps that meet their condition holds along the
    runs that do. -/
theorem always_of_meets (hP : ∀ s, I s → P s)
    (hstep : ∀ s a, I s → ok a s → ∃ s', step a s = some s' ∧ I s') (hs : I s)
    (h : Meets step ok s as) : Always step P s as := by
  induction as generalizing s with
  | nil => exact hP s hs
  | cons a as ih =>
    rcases h with ⟨hok, hrest⟩
    rcases hstep s a hs hok with ⟨s', hs', hI⟩
    exact ⟨hP s hs, s', hs', ih hI (hrest s' hs')⟩

/-- **Invariants**: what every step keeps holds along every run. -/
theorem always_of_inv (hP : ∀ s, I s → P s)
    (hstep : ∀ s a, I s → ∃ s', step a s = some s' ∧ I s') (hs : I s) : Always step P s as := by
  induction as generalizing s with
  | nil => exact hP s hs
  | cons a as ih =>
    rcases hstep s a hs with ⟨s', hs', hI⟩
    exact ⟨hP s hs, s', hs', ih hI⟩

/-- **Exact conditions**: when moreover a step that does not meet it is undefined or leads out of `P`,
    the runs along which `P` holds are those that meet it. -/
theorem always_iff_meets_of_partial (hP : ∀ s, I s → P s)
    (hstep : ∀ s a, I s → (ok a s → ∃ s', step a s = some s' ∧ I s') ∧
      ∀ s', step a s = some s' → P s' → ok a s) (hs : I s) :
    Always step P s as ↔ Meets step ok s as := by
  constructor
  · intro h
    induction as generalizing s with
    | nil => trivial
    | cons a as ih =>
      rcases h with ⟨-, t, ht, hrest⟩
      rcases hstep s a hs with ⟨hkeep, hmet⟩
      have hok : ok a s := hmet t ht hrest.first
      rcases hkeep hok with ⟨s', hs', hI⟩
      rw [ht] at hs'
      cases hs'
      refine ⟨hok, fun u hu => ?_⟩
      rw [ht] at hu
      cases hu
      exact ih hI hrest
  · exact always_of_meets hP (fun s a hI hok => (hstep s a hI).1 hok) hs

/-- The same, where every step is defined. -/
theorem always_iff_meets (hP : ∀ s, I s → P s)
    (hstep : ∀ s a, I s → ∃ s', step a s = some s' ∧ (ok a s → I s') ∧ (P s' → ok a s)) (hs : I s) :
    Always step P s as ↔ Meets step ok s as := by
  refine always_iff_meets_of_partial hP (fun s a hI => ?_) hs
  rcases hstep s a hI with ⟨s', hs', hkeep, hmet⟩
  refine ⟨fun hok => ⟨s', hs', hkeep hok⟩, fun t ht hPt => ?_⟩
  rw [hs'] at ht
  cases ht
  exact hmet hPt

/-- **Invariants of partial systems**: what every step that is defined keeps holds at the end of a run. -/
theorem inv_of_run (hstep : ∀ s a s', I s → step a s = some s' → I s') (hs : I s)
    (hrun : run step s as = some t) : I t := by
  induction as generalizing s with
  | nil =>
    cases hrun
    exact hs
  | cons a as ih =>
    rcases exists_of_run_cons hrun with ⟨s', hs', hrest⟩
    exact ih (hstep s a s' hs hs') hrest

/-- **Counting steps**: if each step takes `R n` to `R (n + 1)` or leaves `n`, according to `c`, then a
    run has added the steps of which `c` holds. -/
theorem tally_of_run {R : Nat → σ → Prop} {c : α → σ → Bool}
    (hstep : ∀ n s a s', R n s → step a s = some s' → R (n + if c a s then 1 else 0) s') {n : Nat}
    (hs : R n s) (hrun : run step s as = some t) : R (n + tally step c s as) t := by
  induction as generalizing n s with
  | nil =>
    cases hrun
    exact hs
  | cons a as ih =>
    rcases exists_of_run_cons hrun with ⟨s', hs', hrest⟩
    have hrec := ih (hstep n s a s' hs hs') hrest
    rw [tally, hs', ← Nat.add_assoc]
    exact hrec

/-- The rule for a system that is written as a fold. -/
theorem exists_foldlM {f : σ → α → Option σ}
    (hstep : ∀ s, ∀ a ∈ as, I s → ∃ s', f s a = some s' ∧ I s') (hs : I s) :
    ∃ s', as.foldlM f s = some s' ∧ I s' := by
  induction as generalizing s with
  | nil => exact ⟨s, rfl, hs⟩
  | cons a as ih =>
    rcases hstep s a (List.mem_cons_self ..) hs with ⟨t, ht, hI⟩
    rcases ih (fun s b hb => hstep s b (List.mem_cons_of_mem _ hb)) hI with ⟨s', hs', hI'⟩
    refine ⟨s', ?_, hI'⟩
    rw [List.foldlM_cons, ht]
    exact hs'

/-- **Progress**: where some step that keeps the invariant lowers a rank, unless the goal is reached, a
    run reaches it. -/
theorem exists_run_of_rank {goal : σ → Prop} (rank : σ → Nat)
    (hstep : ∀ s, I s → ¬ goal s → ∃ a s', step a s = some s' ∧ I s' ∧ rank s' < rank s)
    (hs : I s) : ∃ as t, run step s as = some t ∧ I t ∧ goal t := by
  induction hn : rank s using Nat.strongRecOn generalizing s with
  | _ n ih =>
    by_cases hgoal : goal s
    · exact ⟨[], s, rfl, hs, hgoal⟩
    · rcases hstep s hs hgoal with ⟨a, s', hs', hI, hless⟩
      rcases ih (rank s') (by omega) hI rfl with ⟨as, t, hrun, ht⟩
      exact ⟨a :: as, t, (run_cons hs').trans hrun, ht⟩

/-- **Sound or spoiled**: when every step that meets its condition keeps `I`, every other step spoils
    the state (`B`), and a spoiled state stays so, the end of a run shows whether all its steps met
    their conditions. -/
theorem meets_or_spoiled (hstep : ∀ s a s', I s → step a s = some s' →
      (ok a s → I s') ∧ (¬ ok a s → B s'))
    (hspoiled : ∀ s a s', B s → step a s = some s' → B s') (hs : I s)
    (hrun : run step s as = some t) : Meets step ok s as ∧ I t ∨ ¬ Meets step ok s as ∧ B t := by
  have hrest : ∀ (as : List α) (s : σ), B s → run step s as = some t → B t := by
    intro as
    induction as with
    | nil =>
      intro s hB hrun
      cases hrun
      exact hB
    | cons a as ih =>
      intro s hB hrun
      rcases exists_of_run_cons hrun with ⟨s', hs', hrun'⟩
      exact ih s' (hspoiled s a s' hB hs') hrun'
  induction as generalizing s with
  | nil =>
    cases hrun
    exact Or.inl ⟨trivial, hs⟩
  | cons a as ih =>
    rcases exists_of_run_cons hrun with ⟨s', hs', hrun'⟩
    rcases hstep s a s' hs hs' with ⟨hkeep, hspoil⟩
    by_cases hok : ok a s
    · rcases ih (hkeep hok) hrun' with ⟨hmeets, ht⟩ | ⟨hnot, ht⟩
      · refine Or.inl ⟨⟨hok, fun u hu => ?_⟩, ht⟩
        rw [hs'] at hu
        cases hu
        exact hmeets
      · exact Or.inr ⟨fun hmeets => hnot (hmeets.2 s' hs'), ht⟩
    · exact Or.inr ⟨fun hmeets => hok hmeets.1, hrest as s' (hspoil hok) hrun'⟩

/-! ## Two runs -/

/-- **Unwinding**: when the hidden steps are defined, leave nothing in the log and keep their state
    related to the other run's, and the other steps do the same to related states, a run leaves the
    log that it leaves without its hidden steps. -/
theorem exists_run_logged_filter {ε : Type} {event : α → σ → List ε} {R : σ → σ → Prop}
    {hidden : α → Bool}
    (hhidden : ∀ s t a, R s t → hidden a = true →
      ∃ s', step a s = some s' ∧ R s' t ∧ event a s = [])
    (hshown : ∀ s t a, R s t → hidden a = false →
      ∃ s' t', step a s = some s' ∧ step a t = some t' ∧ R s' t' ∧ event a s = event a t)
    (hR : R s t) (as : List α) (log : List ε) :
    ∃ s' t' log', run (logged step event) (s, log) as = some (s', log') ∧
      run (logged step event) (t, log) (as.filter fun a => !hidden a) = some (t', log') ∧
      R s' t' := by
  induction as generalizing s t log with
  | nil => exact ⟨s, t, log, rfl, rfl, hR⟩
  | cons a as ih =>
    cases ha : hidden a with
    | true =>
      rcases hhidden s t a hR ha with ⟨s', hs', hR', hnone⟩
      rcases ih hR' log with ⟨u, v, log', hu, hv, huv⟩
      refine ⟨u, v, log', ?_, ?_, huv⟩
      · have hstep : logged step event a (s, log) = some (s', log) := by
          rw [logged, hs', hnone, List.append_nil]
          rfl
        rw [run_cons hstep, hu]
      · rw [List.filter_cons_of_neg (by simp [ha]), hv]
    | false =>
      rcases hshown s t a hR ha with ⟨s', t', hs', ht', hR', hsame⟩
      rcases ih hR' (log ++ event a t) with ⟨u, v, log', hu, hv, huv⟩
      refine ⟨u, v, log', ?_, ?_, huv⟩
      · have hstep : logged step event a (s, log) = some (s', log ++ event a t) := by
          rw [logged, hs', hsame]
          rfl
        rw [run_cons hstep, hu]
      · have hstep : logged step event a (t, log) = some (t', log ++ event a t) := by
          rw [logged, ht']
          rfl
        rw [List.filter_cons_of_pos (by simp [ha]), run_cons hstep, hv]

/-! ## Independent parts -/

/-- A run, seen through a function. -/
theorem map_run {τ : Type} {step' : α → τ → Option τ} {g : σ → τ}
    (h : ∀ a s, (step a s).map g = step' a (g s)) (as : List α) (s : σ) :
    (run step s as).map g = run step' (g s) as := by
  induction as generalizing s with
  | nil => rfl
  | cons a as ih =>
    have hstep := h a s
    cases hs : step a s with
    | none =>
      rw [hs, Option.map_none] at hstep
      rw [run, run, hs, ← hstep]
      rfl
    | some s' =>
      rw [hs, Option.map_some] at hstep
      rw [run_cons hs, run_cons hstep.symm]
      exact ih s'

section Parts

variable {ι : Type} [DecidableEq ι]

/-- A step of the part that the action belongs to; undefined when it belongs to none. -/
def partStep (part : α → Option ι) (f : α → σ → Option σ) (a : α) (s : ι → σ) : Option (ι → σ) :=
  (part a).bind fun i => (f a (s i)).map (Function.update s i)

/-- The actions of one part. -/
def actionsOf (part : α → Option ι) (i : ι) (as : List α) : List α :=
  as.filter fun a => decide (part a = some i)

variable {part : α → Option ι} {f : α → σ → Option σ} {u v : ι → σ} {i j : ι}

theorem actionsOf_cons_of_eq (ha : part a = some i) :
    actionsOf part i (a :: as) = a :: actionsOf part i as :=
  List.filter_cons_of_pos (decide_eq_true ha)

theorem actionsOf_cons_of_ne (ha : part a = some j) (hij : i ≠ j) :
    actionsOf part i (a :: as) = actionsOf part i as := by
  refine List.filter_cons_of_neg fun hdec => hij ?_
  exact (Option.some.inj (ha.symm.trans (of_decide_eq_true hdec))).symm

/-- **A run of the parts** is a run of each of them. -/
theorem run_partStep_iff :
    run (partStep part f) u as = some v ↔ (∀ a ∈ as, part a ≠ none) ∧
      ∀ i, run f (u i) (actionsOf part i as) = some (v i) := by
  induction as generalizing u with
  | nil =>
    constructor
    · intro h
      cases h
      exact ⟨nofun, fun i => rfl⟩
    · rintro ⟨-, h⟩
      exact congrArg some (funext fun i => Option.some.inj (h i))
  | cons a as ih =>
    rw [run, List.forall_mem_cons, partStep]
    cases ha : part a with
    | none =>
      constructor
      · intro h
        cases h
      · intro h
        exact absurd rfl h.1.1
    | some j =>
      rw [Option.bind_some]
      constructor
      · intro h
        rcases Option.bind_eq_some_iff.mp h with ⟨w, hw, hrun⟩
        rcases Option.map_eq_some_iff.mp hw with ⟨x, hx, rfl⟩
        rcases ih.mp hrun with ⟨hparts, hruns⟩
        refine ⟨⟨nofun, hparts⟩, fun i => ?_⟩
        have hi := hruns i
        by_cases hij : i = j
        · subst hij
          rw [Function.update_self] at hi
          rw [actionsOf_cons_of_eq ha, run_cons hx, hi]
        · rw [Function.update_of_ne hij] at hi
          rw [actionsOf_cons_of_ne ha hij, hi]
      · rintro ⟨⟨-, hparts⟩, hruns⟩
        have hj := hruns j
        rw [actionsOf_cons_of_eq ha] at hj
        rcases exists_of_run_cons hj with ⟨x, hx, hrun⟩
        rw [hx, Option.map_some, Option.bind_some]
        refine ih.mpr ⟨hparts, fun i => ?_⟩
        by_cases hij : i = j
        · subst hij
          rw [Function.update_self]
          exact hrun
        · have hi := hruns i
          rw [actionsOf_cons_of_ne ha hij] at hi
          rw [Function.update_of_ne hij]
          exact hi

end Parts

end Runs
