/-
  `route_main` ENDS — from every state that it can be in, in any order of steps.

  1. **Weights** — each process has a weight, and a step is paid for by the process that executes it:
     the sub processes that the parent still has to fork are in its weight.

  2. **A bound** — besides the seconds that pass there are at most 33 steps in a run
     (`route_main_steps`).

  3. **No deadlock** — as long as the parent has not exited some process can go on, at once or after some
     seconds (`route_main_ends`).
-/
import AdhocNode.RouteMain

namespace AdhocNode

open Runs

variable {terminal : Bool} {root pid i q : Nat} {earlier lines : List String} {since : Nat → Nat}
  {results : List (Option Nat)} {result : Option Nat} {s s' : ProcSys} {p p' x : Process}
  {l : List Process} {f : Process → Nat}

/-! ## Weights -/

/-- The weight of some processes. -/
def weight (f : Process → Nat) (l : List Process) : Nat := l.foldr (fun p n => f p + n) 0

theorem weight_cons (f : Process → Nat) (p : Process) (l : List Process) :
    weight f (p :: l) = f p + weight f l := rfl

/-- Weights add up. -/
theorem weight_append (f : Process → Nat) (l l' : List Process) :
    weight f (l ++ l') = weight f l + weight f l' := by
  induction l with
  | nil => exact (Nat.zero_add _).symm
  | cons p l ih =>
    rw [List.cons_append, weight_cons, weight_cons, ih]
    omega

/-- A list whose processes weigh no more weighs no more, -/
theorem weight_le {g : Process → Nat} (h : ∀ x ∈ l, g x ≤ f x) : weight g l ≤ weight f l := by
  induction l with
  | nil => exact Nat.le_refl _
  | cons x l ih =>
    rcases List.forall_mem_cons.mp h with ⟨hx, hrest⟩
    exact Nat.add_le_add hx (ih hrest)

/-- and less if one of them weighs less. -/
theorem weight_lt {g : Process → Nat} (h : ∀ x ∈ l, g x ≤ f x) (hp : p ∈ l) (hlt : g p < f p) :
    weight g l < weight f l := by
  rcases List.append_of_mem hp with ⟨l₁, l₂, rfl⟩
  rw [List.forall_mem_append, List.forall_mem_cons] at h
  have h₁ := weight_le h.1
  have h₂ := weight_le h.2.2
  rw [weight_append, weight_append, weight_cons, weight_cons]
  omega

/-- A process weighs no more than all of them. -/
theorem weight_le_of_mem (hp : p ∈ l) : f p ≤ weight f l := by
  rcases List.append_of_mem hp with ⟨l₁, l₂, rfl⟩
  rw [weight_append, weight_cons]
  omega

/-- No two processes have the same number. -/
def PidsNodup (l : List Process) : Prop := (l.map Process.pid).Nodup

/-- Then a process is the only one of its number. -/
theorem PidsNodup.ne {l₁ l₂ : List Process} (h : PidsNodup (l₁ ++ p :: l₂)) (hx : x ∈ l₁ ++ l₂) :
    x.pid ≠ p.pid := by
  have hperm : ((l₁ ++ p :: l₂).map Process.pid).Perm (p.pid :: (l₁ ++ l₂).map Process.pid) :=
    List.perm_middle.map _
  have hnotMem := (List.nodup_cons.mp (hperm.nodup_iff.mp h)).1
  intro heq
  exact hnotMem (heq ▸ List.mem_map_of_mem hx)

/-- A process that changes and keeps its number leaves the numbers as they are. -/
theorem map_pid_put (p' : Process) (hpid : p'.pid = pid) (l : List Process) :
    (l.map fun x => if x.pid = pid then p' else x).map Process.pid = l.map Process.pid := by
  rw [List.map_map]
  refine List.map_congr_left fun x _ => ?_
  show (if x.pid = pid then p' else x).pid = x.pid
  split
  · rename_i heq
    rw [hpid, heq]
  · rfl

/-- One process has changed: so has its weight. -/
theorem weight_put (hl : PidsNodup l) (hp : p ∈ l) :
    weight f (l.map fun x => if x.pid = p.pid then p' else x) + f p = weight f l + f p' := by
  rcases List.append_of_mem hp with ⟨l₁, l₂, rfl⟩
  have hother : ∀ {m : List Process}, (∀ x ∈ m, x ∈ l₁ ++ l₂) →
      (m.map fun x => if x.pid = p.pid then p' else x) = m := by
    intro m hm
    refine (List.map_congr_left fun x hx => ?_).trans (List.map_id' m)
    exact if_neg (hl.ne (hm x hx))
  rw [List.map_append, List.map_cons, if_pos rfl, hother fun x hx => List.mem_append_left _ hx,
    hother fun x hx => List.mem_append_right _ hx, weight_append, weight_append, weight_cons, weight_cons]
  omega

/-- One process is taken out: so is its weight. -/
theorem weight_filter (hl : PidsNodup l) (hp : p ∈ l) :
    weight f (l.filter fun x => decide (x.pid ≠ p.pid)) + f p = weight f l := by
  rcases List.append_of_mem hp with ⟨l₁, l₂, rfl⟩
  have hother : ∀ {m : List Process}, (∀ x ∈ m, x ∈ l₁ ++ l₂) →
      m.filter (fun x => decide (x.pid ≠ p.pid)) = m := by
    intro m hm
    exact List.filter_eq_self.mpr fun x hx => decide_eq_true (hl.ne (hm x hx))
  rw [List.filter_append, List.filter_cons_of_neg (by simp), hother fun x hx => List.mem_append_left _ hx,
    hother fun x hx => List.mem_append_right _ hx, weight_append, weight_append, weight_cons]
  omega

/-- A process keeps its number. -/
theorem Moved.pid_eq (h : Moved terminal result s p p' lines) : p'.pid = p.pid := by
  cases h <;> rfl

/-- **What a step does to the weight**: the change of the process that executes it, and the new process
    or the one that is taken out. -/
theorem procStep_weight (hl : PidsNodup s.procs)
    (h : procStep terminal (.sched pid result) s = some s') : PidsNodup s'.procs ∧
      s'.clock = s.clock ∧ ∃ p ∈ s.procs, p.pid = pid ∧
        ((∃ p' lines, Moved terminal result s p p' lines ∧ p' ∈ s'.procs ∧
            ∀ f, weight f s'.procs + f p = weight f s.procs + f p') ∨
          (∃ i q, p.pc = .fork i ∧ i < subProcNum ∧ ∀ f, weight f s'.procs + f p = weight f s.procs +
            f { p with pc := .fork (i + 1) } + f { p with pid := q, ppid := p.pid, pc := .register i }) ∨
          ∃ x ∈ s.procs, x.pc = .exited ∧ ∀ f, weight f s'.procs + f x = weight f s.procs) := by
  rcases procStep_cases h with ⟨p, hp, hpid, hmove⟩
  cases hmove with
  | @own p' lines _ hmoved hch =>
    -- the process is replaced where it stands
    have hpid' := hmoved.pid_eq
    have hprocs : s'.procs = s.procs.map fun x => if x.pid = p.pid then p' else x := by
      rw [hch.procs, ← hpid']
      rfl
    refine ⟨?_, hch.clock, p, hp, hpid, Or.inl ⟨p', lines, hmoved, ?_, fun f => ?_⟩⟩
    · unfold PidsNodup
      rw [hprocs, map_pid_put p' hpid']
      exact hl
    · exact (hch.mem_iff hp hpid').mpr (Or.inl rfl)
    · rw [hprocs]
      exact weight_put hl hp
  | @forked i q hpc hi _ hfresh =>
    -- the parent is replaced and the new process comes last, with a number that nobody has
    refine ⟨?_, rfl, p, hp, hpid, Or.inr (Or.inl ⟨i, q, hpc, hi, fun f => ?_⟩)⟩
    · have hput := map_pid_put { p with pc := .fork (i + 1) } rfl s.procs
      show ((s.procs.map fun x => if x.pid = p.pid then { p with pc := .fork (i + 1) } else x) ++
        _).map Process.pid |>.Nodup
      rw [List.map_append, hput]
      refine List.nodup_append.mpr ⟨hl, List.pairwise_singleton _ _, ?_⟩
      rintro _ ha _ hb rfl
      rcases List.mem_map.mp ha with ⟨x, hx, hxq⟩
      exact hfresh x hx (hxq.trans (List.mem_singleton.mp hb))
    · show weight f ((s.procs.map fun x => if x.pid = p.pid then { p with pc := .fork (i + 1) } else x) ++
        _) + f p = _
      rw [weight_append, Nat.add_right_comm, weight_put hl hp]
      rfl
  | @waited x _ _ hx _ hexited =>
    refine ⟨?_, rfl, p, hp, hpid, Or.inr (Or.inr ⟨x, hx, hexited, fun f => weight_filter hl hx⟩)⟩
    exact hl.sublist (List.filter_sublist.map _)

/-! ## A bound -/

/-- What a process can still cost: a sub process takes 4 steps and the parent one to wait for it, and
    it is paid for by the fork; then the parent has 3 steps left. -/
def pcSteps : SubProcPc → Nat
  | .fork i => 6 * (subProcNum - i) + 4
  | .register _ => 5
  | .loop _ => 4
  | .idle _ _ => 0
  | .timer _ => 3
  | .wait => 3
  | .exit => 2
  | .exited => 1

/-- The weight of all processes bounds the steps that are still to come. -/
def ProcSys.steps (s : ProcSys) : Nat := weight (fun p => pcSteps p.pc) s.procs

/-- A move lowers the weight, if `sleep(1)` is never called. -/
theorem Moved.steps (h : Moved terminal result s p p' lines) (hp : ∀ i wake, p.pc ≠ .idle i wake)
    (hp' : ∀ i wake, p'.pc ≠ .idle i wake) : pcSteps p'.pc < pcSteps p.pc := by
  cases h with
  | @forkFailed i heq hi =>
    rw [heq]
    show 6 * (subProcNum - (i + 1)) + 4 < 6 * (subProcNum - i) + 4
    omega
  | @forksDone i heq =>
    rw [heq]
    show 3 < 6 * (subProcNum - i) + 4
    omega
  | idle => exact absurd rfl (hp' _ _)
  | idled heq => exact absurd heq (hp _ _)
  | register heq => rw [heq]; exact Nat.lt_succ_self 4
  | call heq => rw [heq]; exact Nat.lt_succ_self 3
  | timerExit heq => rw [heq]; exact Nat.lt_succ_self 2
  | parentExit heq => rw [heq]; exact Nat.lt_succ_self 2
  | exit heq => rw [heq]; exact Nat.lt_succ_self 1

/-- The function of each sub process is set before its loop. -/
theorem RouteInv.not_idle (h : RouteInv terminal root earlier since results s) (hp : p ∈ s.procs)
    (i wake : Nat) : p.pc ≠ .idle i wake := by
  intro heq
  by_cases hroot : p.pid = root
  · rcases h.parent with ⟨r, hr, hi⟩
    have hpc := hi.pc
    rw [h.unique r hr p hp (hi.pid.trans hroot.symm), heq] at hpc
    exact hpc
  · rcases h.child p hp hroot with ⟨j, -, hc⟩
    have hpc := hc.pc
    rw [heq] at hpc
    exact hpc

/-- **One step** that is no second costs at least one. -/
theorem RouteInv.steps_lt (h : RouteInv terminal root earlier since results s) (hl : PidsNodup s.procs)
    (hstep : procStep terminal (.sched pid result) s = some s') :
    PidsNodup s'.procs ∧ s'.steps < s.steps := by
  have h' := h.step hstep
  rcases procStep_weight hl hstep with ⟨hl', -, p, hp, -, hcases⟩
  refine ⟨hl', ?_⟩
  unfold ProcSys.steps
  rcases hcases with ⟨p', lines, hmoved, hp', hweight⟩ | ⟨i, q, hpc, hi, hweight⟩ |
    ⟨x, -, hexited, hweight⟩
  · have hlt := hmoved.steps (h.not_idle hp) (h'.not_idle hp')
    have heq := hweight fun p => pcSteps p.pc
    omega
  · have heq := hweight fun p => pcSteps p.pc
    simp only [hpc] at heq
    -- a round of the loop pays for itself, the sub process and the wait for it
    have hcost : pcSteps (.fork i) = pcSteps (.fork (i + 1)) + 5 + 1 := by
      show 6 * (subProcNum - i) + 4 = 6 * (subProcNum - (i + 1)) + 4 + 5 + 1
      omega
    have hnew : pcSteps (.register i) = 5 := rfl
    omega
  · have heq := hweight fun p => pcSteps p.pc
    simp only [hexited] at heq
    have hone : pcSteps .exited = 1 := rfl
    omega

/-- The steps of a run that are no seconds. -/
def schedsOf (acts : List ProcAct) : List ProcAct := acts.filter fun act => decide (act ≠ .tick)

/-- **A run** costs as many as it has such steps. -/
theorem RouteInv.run_steps {acts : List ProcAct} (h : RouteInv terminal root earlier since results s)
    (hl : PidsNodup s.procs) (hrun : Runs.run (procStep terminal) s acts = some s') :
    PidsNodup s'.procs ∧ s'.steps + (schedsOf acts).length ≤ s.steps := by
  induction acts generalizing s results with
  | nil =>
    cases hrun
    exact ⟨hl, Nat.le_refl _⟩
  | cons act acts ih =>
    rcases exists_of_run_cons hrun with ⟨t, hstep, hrest⟩
    cases act with
    | tick =>
      cases hstep
      have hkeep := ih h.tick hl hrest
      exact hkeep
    | sched pid result =>
      rcases h.steps_lt hl hstep with ⟨hl', hlt⟩
      rcases ih (h.step hstep) hl' hrest with ⟨hl'', hle⟩
      refine ⟨hl'', ?_⟩
      show s'.steps + ((schedsOf acts).length + 1) ≤ s.steps
      omega

/-- The parent is always there, and each place it can be at has a weight. -/
theorem RouteInv.steps_pos (h : RouteInv terminal root earlier since results s) : 0 < s.steps := by
  rcases h.parent with ⟨p, hp, hi⟩
  have hle : pcSteps p.pc ≤ s.steps := weight_le_of_mem (f := fun p => pcSteps p.pc) hp
  refine Nat.lt_of_lt_of_le ?_ hle
  have hpc := hi.pc
  revert hpc
  cases p.pc with
  | idle => exact False.elim
  | _ => exact fun _ => Nat.succ_pos _

/-! ## No deadlock -/

/-- A process is found by its number. -/
theorem RouteInv.find (h : RouteInv terminal root earlier since results s) (hp : p ∈ s.procs) :
    (s.procs.find? fun x => decide (x.pid = p.pid)) = some p := by
  cases hfind : s.procs.find? fun x => decide (x.pid = p.pid) with
  | none => exact absurd (decide_eq_true rfl) (List.find?_eq_none.mp hfind p hp)
  | some x =>
    have hx : x.pid = p.pid := by simpa using List.find?_some hfind
    rw [h.unique x (List.mem_of_find?_eq_some hfind) p hp hx]

/-- What a process can execute is a step of the system. -/
theorem RouteInv.exists_step (h : RouteInv terminal root earlier since results s) (hp : p ∈ s.procs)
    (result : Option Nat) (hexec : (procExec terminal result p s).isSome = true) :
    ∃ pid result s', procStep terminal (.sched pid result) s = some s' := by
  rcases Option.isSome_iff_exists.mp hexec with ⟨s', hs'⟩
  refine ⟨p.pid, result, s', ?_⟩
  rw [← hs', procStep, h.find hp]

/-- A sub process that has not exited goes on, or it sleeps. -/
theorem ChildInv.enabled (hc : ChildInv terminal root earlier since results i s p) (hi : i < subProcNum)
    (hexited : p.pc ≠ .exited) : (procExec terminal none p s).isSome = true ∨
      ∃ wake, p.pc = .timer wake ∧ s.clock < wake := by
  have hpc := hc.pc
  unfold procExec
  cases heq : p.pc with
  | register j =>
    rw [heq] at hpc
    rcases hpc with ⟨rfl, htable⟩
    have hlen : j < p.subproclist.length := by
      rw [htable]
      exact Nat.lt_trans hi (by decide)
    simp [hlen]
  | loop j =>
    rw [heq] at hpc
    rcases hpc with ⟨rfl, htable⟩
    simp [htable, ownTable_getElem? hi]
  | timer wake =>
    by_cases hwake : wake ≤ s.clock
    · simp [hwake]
    · exact Or.inr ⟨wake, rfl, Nat.lt_of_not_le hwake⟩
  | exit => exact Or.inl rfl
  | exited => exact absurd heq hexited
  | _ =>
    rw [heq] at hpc
    exact hpc.elim

/-- **As long as the parent has not exited**, somebody can go on at once, or sleeps. -/
theorem RouteInv.enabled (h : RouteInv terminal root earlier since results s)
    (hgoal : ¬ ParentExited root s) :
    (∃ pid result s', procStep terminal (.sched pid result) s = some s') ∨
      ∃ p ∈ s.procs, ∃ wake, p.pc = .timer wake ∧ s.clock < wake := by
  rcases h.parent with ⟨r, hr, hi⟩
  have hpc := hi.pc
  cases heq : r.pc with
  | fork i =>
    refine Or.inl (h.exists_step hr none ?_)
    simp only [procExec, heq, procRegister]
    split <;> rfl
  | wait =>
    by_cases hchild : ∃ x ∈ s.procs, x.ppid = r.pid
    · rcases hchild with ⟨x, hx, hppid⟩
      have hne : x.pid ≠ root := by
        intro hxr
        have hxp : x = r := h.unique x hx r hr (hxr.trans hi.pid.symm)
        exact hi.ppid ((hxp ▸ hppid).trans hi.pid)
      by_cases hexited : x.pc = .exited
      · refine Or.inl (h.exists_step hr (some x.pid) ?_)
        have hany : (s.procs.any fun y =>
            decide (y.pid = x.pid ∧ y.ppid = r.pid ∧ y.pc = .exited)) = true :=
          List.any_eq_true.mpr ⟨x, hx, decide_eq_true ⟨rfl, hppid, hexited⟩⟩
        simp only [procExec, heq, procWait, hany]
        rfl
      · rcases h.child x hx hne with ⟨i, hstarted, hc⟩
        rcases hc.enabled hstarted.lt.1 hexited with hexec | hsleeps
        · exact Or.inl (h.exists_step hx none hexec)
        · exact Or.inr ⟨x, hx, hsleeps⟩
    · refine Or.inl (h.exists_step hr none ?_)
      have hany : (s.procs.any fun y => decide (y.ppid = r.pid)) = false := by
        refine List.any_eq_false.mpr fun x hx hdec => ?_
        exact hchild ⟨x, hx, of_decide_eq_true hdec⟩
      simp only [procExec, heq, procWait, hany]
      rfl
  | exit =>
    refine Or.inl (h.exists_step hr none ?_)
    simp only [procExec, heq]
    rfl
  | exited => exact absurd ⟨r, hr, hi.pid, heq⟩ hgoal
  | _ =>
    rw [heq] at hpc
    exact hpc.elim

/-- The seconds for which processes still sleep. -/
def sleeping (clock : Nat) (p : Process) : Nat :=
  match p.pc with
  | .timer wake => wake - clock
  | _ => 0

/-- A process that begins to sleep pays for it. -/
def patienceOf (clock : Nat) (p : Process) : Nat := 26 * pcSteps p.pc + sleeping clock p

/-- The seconds and the steps together: every step lowers it, and so does a second in which somebody
    sleeps. -/
def patience (s : ProcSys) : Nat := weight (patienceOf s.clock) s.procs

/-- Nobody begins to sleep for more than 25 seconds. -/
theorem RouteInv.sleeping_lt (h : RouteInv terminal root earlier since results s) (hp : p ∈ s.procs)
    (hmoved : Moved terminal result s p p' lines) : sleeping s.clock p' < 26 := by
  cases hmoved with
  | @call i entry heq hentry =>
    have hroot : p.pid ≠ root := by
      intro hroot
      rcases h.parent with ⟨r, hr, hi⟩
      have hpc := hi.pc
      rw [h.unique r hr p hp (hi.pid.trans hroot.symm), heq] at hpc
      exact hpc
    rcases h.child p hp hroot with ⟨j, hstarted, hc⟩
    have hpc := hc.pc
    rw [heq] at hpc
    rcases hpc with ⟨rfl, htable⟩
    have hj := hstarted.lt.1
    rw [htable, ownTable_getElem? hj] at hentry
    cases hentry
    show s.clock + 5 * (i + 1) - s.clock < 26
    have hnum : subProcNum = 5 := rfl
    omega
  | _ => exact Nat.succ_pos _

/-- A step lowers the patience: what it adds in seconds it pays for with its weight. -/
theorem RouteInv.patience_lt (h : RouteInv terminal root earlier since results s) (hl : PidsNodup s.procs)
    (hstep : procStep terminal (.sched pid result) s = some s') : patience s' < patience s := by
  have h' := h.step hstep
  rcases procStep_weight hl hstep with ⟨-, hclock, p, hp, -, hcases⟩
  unfold patience
  rw [hclock]
  rcases hcases with ⟨p', lines, hmoved, hp', hweight⟩ | ⟨i, q, hpc, hi, hweight⟩ |
    ⟨x, -, hexited, hweight⟩
  · have hlt := hmoved.steps (h.not_idle hp) (h'.not_idle hp')
    have hsleeping := h.sleeping_lt hp hmoved
    have hpays : patienceOf s.clock p' < patienceOf s.clock p := by
      unfold patienceOf
      omega
    have heq := hweight (patienceOf s.clock)
    omega
  · have heq := hweight (patienceOf s.clock)
    have hpays : patienceOf s.clock p = 26 * (6 * (subProcNum - i) + 4) := by
      simp [patienceOf, sleeping, hpc, pcSteps]
    have hparent : patienceOf s.clock { p with pc := .fork (i + 1) } =
        26 * (6 * (subProcNum - (i + 1)) + 4) := rfl
    have hchild : patienceOf s.clock { p with pid := q, ppid := p.pid, pc := .register i } = 26 * 5 := rfl
    omega
  · have heq := hweight (patienceOf s.clock)
    have hpays : patienceOf s.clock x = 26 := by
      simp [patienceOf, sleeping, hexited, pcSteps]
    omega

/-- A second lowers it as long as somebody sleeps. -/
theorem patience_tick (hp : p ∈ s.procs) {wake : Nat} (hpc : p.pc = .timer wake)
    (hwake : s.clock < wake) : patience { s with clock := s.clock + 1 } < patience s := by
  refine weight_lt (p := p) (fun x _ => Nat.add_le_add_left ?_ _) hp (Nat.add_lt_add_left ?_ _)
  · unfold sleeping
    split
    · exact Nat.sub_le_sub_left (Nat.le_succ _) _
    · exact Nat.le_refl _
  · simp only [sleeping, hpc]
    omega

/-- **`route_main` ends**: whatever has happened so far, in any order, the parent can still come to its
    exit, and no run takes more than 33 steps besides the seconds that pass. -/
theorem route_main_ends {ppid : Nat} {acts : List ProcAct} (hppid : ppid ≠ root)
    (hrun : run (procStep terminal) (procStart terminal root ppid earlier) acts = some s) :
    (schedsOf acts).length ≤ 33 ∧
      ∃ rest t, run (procStep terminal) s rest = some t ∧ ParentExited root t := by
  have hstart := routeInv_start terminal earlier hppid
  have hnodup : PidsNodup (procStart terminal root ppid earlier).procs := List.pairwise_singleton _ _
  have h := hstart.run hrun
  rcases hstart.run_steps hnodup hrun with ⟨hl, hsteps⟩
  constructor
  · have hpos := h.steps_pos
    have hmax : (procStart terminal root ppid earlier).steps = 34 := rfl
    omega
  · have hstep : ∀ s : ProcSys, (PidsNodup s.procs ∧ ∃ results, RouteInv terminal root earlier sleeps results s) →
        ¬ ParentExited root s → ∃ act s', procStep terminal act s = some s' ∧
          (PidsNodup s'.procs ∧ ∃ results, RouteInv terminal root earlier sleeps results s') ∧
          patience s' < patience s := by
      rintro s ⟨hl, results, h⟩ hgoal
      rcases h.enabled hgoal with ⟨pid, result, s', hs'⟩ | ⟨p, hp, wake, hpc, hwake⟩
      · exact ⟨_, s', hs', ⟨(h.steps_lt hl hs').1, _, h.step hs'⟩, h.patience_lt hl hs'⟩
      · exact ⟨.tick, _, rfl, ⟨hl, _, h.tick⟩, patience_tick hp hpc hwake⟩
    rcases exists_run_of_rank patience hstep ⟨hl, _, h⟩ with ⟨rest, t, hrest, -, hgoal⟩
    exact ⟨rest, t, hrest, hgoal⟩

/-- While the one sub process sleeps. -/
theorem route_main_ends_one : ∃ s rest t,
    run (procStep true) (procStart true 100 1 []) (oneSubProc.take 8) = some s ∧
      run (procStep true) s rest = some t ∧ ParentExited 100 t := by
  have hrun : ∃ s, run (procStep true) (procStart true 100 1 []) (oneSubProc.take 8) = some s := ⟨_, rfl⟩
  rcases hrun with ⟨s, hs⟩
  rcases route_main_ends (by decide) hs with ⟨-, rest, t, hrest, hexited⟩
  exact ⟨s, rest, t, hs, hrest, hexited⟩

end AdhocNode
