/-
  RUNS OF `route_main` — five sub processes and their parent, in any order, with any of the forks failing.

  1. **The invariant** — `RouteInv`: only the first process forks; a sub process knows its own entry of
     `s_subproclist` and no other, its parent none; and for every process, what it has written and what
     it has printed and not written are the lines of the statements it has executed.

  2. **One step** keeps it (`RouteInv.step`): it says what each process can do from what it has done.

  3. **Runs** — `route_main_output`: in no state a sub process has said that it exits before its time, and
     when the parent has exited there is nobody else left, every sub process has said that it
     starts and that it exits, and the last line written is the parent's; `route_main_ends`: every run gets there, in at most 33 steps besides
     the seconds that pass.
-/
import AdhocNode.SubProc

namespace AdhocNode

open Runs

/-! ## The invariant -/

/-- What `fork` and `wait` have returned to a process. -/
def resultsOf (pid : Nat) (acts : List ProcAct) : List (Option Nat) :=
  acts.filterMap fun
    | .tick => none
    | .sched p result => if p = pid then some result else none

/-- The results of `fork` among them. -/
def forksOf (results : List (Option Nat)) : List (Option Nat) := results.take subProcNum

/-- Sub process `i` has number `q`. -/
def Started (results : List (Option Nat)) (i q : Nat) : Prop := (forksOf results)[i]? = some (some q)

/-- One line for each of them that failed. -/
def failLines (forks : List (Option Nat)) : List String :=
  List.replicate (forks.count none) createFailLine

/-- What the parent has printed when it comes to `pc`. -/
def parentLines (root : Nat) (results : List (Option Nat)) : SubProcPc → List String
  | .fork _ => failLines (forksOf results)
  | .wait => failLines (forksOf results) ++ [parentPidLine root]
  | _ => failLines (forksOf results) ++ [parentPidLine root, parentExitLine]

/-- What sub process `i` has printed itself when it comes to `pc`. -/
def subProcLines (root i q : Nat) : SubProcPc → List String
  | .register _ => []
  | .loop _ => [subProcessLine i q root]
  | .timer _ => [subProcessLine i q root]
  | _ => [subProcessLine i q root, timerExitLine q]

/-- The table of sub process `i`. -/
def ownTable (i q : Nat) : List StSubProc := sSubproclist.set i (subProcEntry i q)

/-- The seconds that sub process `i` sleeps. -/
def sleeps (i : Nat) : Nat := 5 * (i + 1)

section Route

variable (terminal : Bool) (root : Nat) (earlier : List String) (since : Nat → Nat)

/-- What is printed and not written when `route_main` is called. -/
def unwritten : List String := if terminal then [] else earlier

/-- What sub process `i` has not written of what its parent printed. -/
def inherited (results : List (Option Nat)) (i : Nat) : List String :=
  if terminal then [] else earlier ++ failLines ((forksOf results).take i)

/-- The parent, after the steps that returned `results`. -/
structure ParentInv (results : List (Option Nat)) (s : ProcSys) (p : Process) : Prop where
  pid : p.pid = root
  ppid : p.ppid ≠ root
  table : p.subproclist = sSubproclist
  said : s.written root ++ p.stdout = unwritten terminal earlier ++ parentLines root results p.pc
  stdout : terminal = true → p.stdout = []
  silent : terminal = false → p.pc ≠ .exited → s.written root = []
  pc : match p.pc with
    | .fork i => i = results.length ∧ i ≤ subProcNum
    | .wait => subProcNum < results.length
    | .exit => subProcNum < results.length ∧ (∀ x ∈ s.procs, x = p) ∧
        (terminal = true → s.output.getLast? = some (root, parentExitLine))
    | .exited => subProcNum < results.length ∧ (∀ x ∈ s.procs, x = p) ∧ p.stdout = [] ∧
        s.output.getLast? = some (root, parentExitLine)
    | _ => False

/-- Sub process `i`, which does not come to its exit line before time `since i`. -/
structure ChildInv (results : List (Option Nat)) (i : Nat) (s : ProcSys) (p : Process) : Prop where
  ppid : p.ppid = root
  said : s.written p.pid ++ p.stdout =
    inherited terminal earlier results i ++ subProcLines root i p.pid p.pc
  stdout : terminal = true → p.stdout = []
  silent : terminal = false → p.pc ≠ .exited → s.written p.pid = []
  pc : match p.pc with
    | .register j => j = i ∧ p.subproclist = sSubproclist
    | .loop j => j = i ∧ p.subproclist = ownTable i p.pid
    | .timer wake => since i ≤ wake ∧ p.subproclist = ownTable i p.pid
    | .exit => since i ≤ s.clock ∧ p.subproclist = ownTable i p.pid
    | .exited => since i ≤ s.clock ∧ p.subproclist = ownTable i p.pid ∧ p.stdout = []
    | _ => False

/-- Sub process `i` has had the number `q` and is gone. -/
structure SubProcGone (results : List (Option Nat)) (i q : Nat) (s : ProcSys) : Prop where
  waited : subProcNum < results.length
  clock : since i ≤ s.clock
  written : s.written q = inherited terminal earlier results i ++
    [subProcessLine i q root, timerExitLine q]

/-- **What holds of the processes** after the steps that returned `results` to the first of them. -/
structure RouteInv (results : List (Option Nat)) (s : ProcSys) : Prop where
  unique : ∀ x ∈ s.procs, ∀ y ∈ s.procs, x.pid = y.pid → x = y
  parent : ∃ p ∈ s.procs, ParentInv terminal root earlier results s p
  child : ∀ p ∈ s.procs, p.pid ≠ root →
    ∃ i, Started results i p.pid ∧ ChildInv terminal root earlier since results i s p
  started : ∀ i q, Started results i q → q ≠ root ∧
    ((∃ p ∈ s.procs, p.pid = q) ∨ SubProcGone terminal root earlier since results i q s)
  once : ∀ i j q, Started results i q → Started results j q → i = j
  silent : ∀ q, q ≠ root → (∀ i, ¬ Started results i q) → s.written q = []
  clock : ∀ i, since i ≤ s.clock + sleeps i

end Route

variable {terminal : Bool} {root pid i j q : Nat} {earlier lines : List String} {since : Nat → Nat}
  {results : List (Option Nat)} {result : Option Nat} {s s' : ProcSys} {p p' x : Process}

/-- The results after the forks are not results of `fork`. -/
theorem forksOf_concat (h : subProcNum ≤ results.length) :
    forksOf (results ++ [result]) = forksOf results := List.take_append_of_le_length h

/-- Each of the first results is the result of a fork. -/
theorem forksOf_concat_fork (h : results.length < subProcNum) :
    forksOf (results ++ [result]) = forksOf results ++ [result] := by
  unfold forksOf
  rw [List.take_of_length_le (by simp; omega), List.take_of_length_le (by omega)]

/-- A sub process is one of those that were forked so far. -/
theorem Started.lt (h : Started results i q) : i < subProcNum ∧ i < (forksOf results).length := by
  have hlt : i < (forksOf results).length := (List.getElem?_eq_some_iff.mp h).1
  have hle : (forksOf results).length ≤ subProcNum := List.length_take_le ..
  exact ⟨Nat.lt_of_lt_of_le hlt hle, hlt⟩

/-- A fork adds nothing to those before it. -/
theorem started_concat_iff : Started (results ++ [result]) i q ↔
    Started results i q ∨ results.length < subProcNum ∧ i = results.length ∧ result = some q := by
  unfold Started
  by_cases h : subProcNum ≤ results.length
  · rw [forksOf_concat h]
    constructor
    · intro hs
      exact Or.inl hs
    · rintro (hs | ⟨hlt, -⟩)
      · exact hs
      · omega
  · have hlt : results.length < subProcNum := by omega
    have hlen : (forksOf results).length = results.length := by
      simp [forksOf]
      omega
    rw [forksOf_concat_fork hlt, List.getElem?_append, hlen]
    split
    case isTrue hi =>
      constructor
      · intro hs
        exact Or.inl hs
      · rintro (hs | ⟨-, heq, -⟩)
        · exact hs
        · omega
    case isFalse hi =>
      have hnone : (forksOf results)[i]? = none := List.getElem?_eq_none_iff.mpr (by omega)
      rw [hnone, List.getElem?_singleton]
      split
      case isTrue heq => simp [hlt, show i = results.length by omega]
      case isFalse hne => simp [show i ≠ results.length by omega]

/-- Nor to what the sub processes before it have got from their parent. -/
theorem inherited_concat (h : Started results i q) :
    inherited terminal earlier (results ++ [result]) i = inherited terminal earlier results i := by
  have hle := h.lt.2
  unfold inherited
  by_cases hn : subProcNum ≤ results.length
  · rw [forksOf_concat hn]
  · rw [forksOf_concat_fork (by omega), List.take_append_of_le_length (by omega)]

/-! ## One step -/

/-- What a sub process puts into its entry. -/
theorem subProcEntry_eq (hi : i < subProcNum) :
    subProcEntry i q = ⟨true, q, some .timerTest, sleeps i⟩ := by
  match i, hi with
  | 0, _ => rfl
  | 1, _ => rfl
  | 2, _ => rfl
  | 3, _ => rfl
  | 4, _ => rfl

/-- So the loop of sub process `i` finds its function and its seconds there. -/
theorem ownTable_getElem? (hi : i < subProcNum) :
    (ownTable i q)[i]? = some ⟨true, q, some .timerTest, sleeps i⟩ := by
  have hlen : i < sSubproclist.length := Nat.lt_trans hi (by decide)
  rw [ownTable, List.getElem?_set_self hlen, subProcEntry_eq hi]

/-- A fork that fails adds a line, another one none. -/
theorem failLines_concat (forks : List (Option Nat)) (result : Option Nat) :
    failLines (forks ++ [result]) = failLines forks ++ if result = none then [createFailLine] else [] := by
  unfold failLines
  rw [List.count_append, List.replicate_add]
  cases result with
  | none => rfl
  | some q => simp

section Frames

variable {results' : List (Option Nat)}

/-- A sub process looks at the clock and at what it has written itself. -/
theorem ChildInv.frame (h : ChildInv terminal root earlier since results i s p)
    (hinherited : inherited terminal earlier results' i = inherited terminal earlier results i)
    (hwritten : s'.written p.pid = s.written p.pid) (hclock : s.clock ≤ s'.clock) :
    ChildInv terminal root earlier since results' i s' p where
  ppid := h.ppid
  said := by rw [hwritten, hinherited, h.said]
  stdout := h.stdout
  silent hterminal hpc := by rw [hwritten, h.silent hterminal hpc]
  pc := by
    have hpc := h.pc
    revert hpc
    cases p.pc with
    | exit => exact fun h => ⟨Nat.le_trans h.1 hclock, h.2⟩
    | exited => exact fun h => ⟨Nat.le_trans h.1 hclock, h.2⟩
    | _ => exact id

/-- So it is for a sub process that is gone, -/
theorem SubProcGone.frame (h : SubProcGone terminal root earlier since results i q s)
    (hinherited : inherited terminal earlier results' i = inherited terminal earlier results i)
    (hlen : results.length ≤ results'.length)
    (hwritten : s'.written q = s.written q) (hclock : s.clock ≤ s'.clock) :
    SubProcGone terminal root earlier since results' i q s' where
  waited := Nat.lt_of_lt_of_le h.waited hlen
  clock := Nat.le_trans h.clock hclock
  written := by rw [hwritten, hinherited, h.written]

/-- A parent that has sub processes has not come to its `exit`. -/
theorem ParentInv.not_exit (h : ParentInv terminal root earlier results s p) (hx : x ∈ s.procs)
    (hne : x.pid ≠ root) : p.pc ≠ .exit ∧ p.pc ≠ .exited := by
  have hpc := h.pc
  constructor
  · intro heq
    rw [heq] at hpc
    exact hne (hpc.2.1 x hx ▸ h.pid)
  · intro heq
    rw [heq] at hpc
    exact hne (hpc.2.1 x hx ▸ h.pid)

/-- and for the parent, while a sub process changes: it looks at the others only when it exits. -/
theorem ParentInv.frame (h : ParentInv terminal root earlier results s p) (hx : x ∈ s.procs)
    (hne : x.pid ≠ root) (hwritten : s'.written root = s.written root) :
    ParentInv terminal root earlier results s' p where
  pid := h.pid
  ppid := h.ppid
  table := h.table
  said := by rw [hwritten, h.said]
  stdout := h.stdout
  silent hterminal hpc := by rw [hwritten, h.silent hterminal hpc]
  pc := by
    have hpc := h.pc
    have hexit := h.not_exit hx hne
    revert hpc hexit
    cases p.pc with
    | exit => exact fun _ hexit => absurd rfl hexit.1
    | exited => exact fun _ hexit => absurd rfl hexit.2
    | _ => exact fun hpc _ => hpc

end Frames

/-- While a process has its parent, `getppid` is that. -/
theorem RouteInv.getppid (h : RouteInv terminal root earlier since results s) (hp : p ∈ s.procs)
    (hne : p.pid ≠ root) (hppid : p.ppid = root) : s.getppid p = root := by
  rcases h.parent with ⟨r, hr, hrinv⟩
  have halive : s.alive p.ppid = true := by
    refine List.any_eq_true.mpr ⟨r, hr, decide_eq_true ⟨?_, ?_⟩⟩
    · rw [hrinv.pid, hppid]
    · exact (hrinv.not_exit hp hne).2
  rw [ProcSys.getppid, if_pos halive, hppid]

/-- Where stdout is no terminal, a process that prints a line still writes nothing. -/
theorem silent_print {line : String} (h : terminal = false → p.pc ≠ .exited → s.written q = [])
    (hpc : p.pc ≠ .exited) (hwritten : s'.written q = s.written q ++ shown terminal line)
    (hterminal : terminal = false) : s'.written q = [] := by
  rw [hwritten, h hterminal hpc, hterminal]
  rfl

/-- **A sub process moves.** -/
theorem Moved.child (h : Moved terminal result s p p' lines) (hch : Changed s p' lines s')
    (hi : i < subProcNum) (hgetppid : s.getppid p = root) (hsince : since i ≤ s.clock + sleeps i)
    (hc : ChildInv terminal root earlier since results i s p) :
    p'.pid = p.pid ∧ ChildInv terminal root earlier since results i s' p' := by
  have hpc := hc.pc
  cases h with
  | forkFailed heq => rw [heq] at hpc; exact hpc.elim
  | forksDone heq => rw [heq] at hpc; exact hpc.elim
  | idled heq => rw [heq] at hpc; exact hpc.elim
  | parentExit heq => rw [heq] at hpc; exact hpc.elim
  | @register j heq =>
    rw [heq] at hpc
    rcases hpc with ⟨rfl, htable⟩
    have hsaid := said_print (subProcessLine j p.pid root) hc.stdout (s.written p.pid)
    refine ⟨rfl, ⟨hc.ppid, ?_, ?_, ?_, rfl, ?_⟩⟩
    · rw [hch.written_self, hgetppid]
      refine hsaid.1.trans ?_
      rw [hc.said, heq]
      simp [subProcLines, Process.print]
    · rw [hgetppid]
      exact hsaid.2
    · have hpc' : p.pc ≠ .exited := by rw [heq]; exact SubProcPc.noConfusion
      exact fun hterminal _ => silent_print hc.silent hpc' hch.written_self hterminal
    · show p.subproclist.set j _ = _
      rw [htable]
      rfl
  | idle heq hentry hfunc =>
    rw [heq] at hpc
    rcases hpc with ⟨rfl, htable⟩
    rw [htable, ownTable_getElem? hi] at hentry
    cases hentry
    cases hfunc
  | call heq hentry hfunc =>
    rw [heq] at hpc
    rcases hpc with ⟨rfl, htable⟩
    rw [htable, ownTable_getElem? hi] at hentry
    cases hentry
    refine ⟨rfl, ⟨hc.ppid, ?_, hc.stdout, ?_, hsince, htable⟩⟩
    have hsaid := hc.said
    rw [heq] at hsaid
    · rw [hch.written_self, List.append_nil]
      exact hsaid
    · intro hterminal _
      have hpc' : p.pc ≠ .exited := by rw [heq]; exact SubProcPc.noConfusion
      rw [hch.written_self, List.append_nil]
      exact hc.silent hterminal hpc'
  | timerExit heq hwake =>
    rw [heq] at hpc
    have hsaid := said_print (timerExitLine p.pid) hc.stdout (s.written p.pid)
    refine ⟨rfl, ⟨hc.ppid, ?_, hsaid.2, ?_, ?_, hpc.2⟩⟩
    · rw [hch.written_self]
      refine hsaid.1.trans ?_
      rw [hc.said, heq]
      simp [subProcLines, Process.print]
    · have hpc' : p.pc ≠ .exited := by rw [heq]; exact SubProcPc.noConfusion
      exact fun hterminal _ => silent_print hc.silent hpc' hch.written_self hterminal
    · rw [hch.clock]
      exact Nat.le_trans hpc.1 hwake
  | exit heq =>
    rw [heq] at hpc
    refine ⟨rfl, ⟨hc.ppid, ?_, fun _ => rfl, fun _ hne => absurd rfl hne, ?_, hpc.2, rfl⟩⟩
    · have hsaid := hc.said
      rw [heq] at hsaid
      rw [hch.written_self, List.append_nil]
      exact hsaid
    · rw [hch.clock]
      exact hpc.1

section Prints

variable {line : String} {pc : SubProcPc} {results' : List (Option Nat)}

/-- The parent prints a line. -/
theorem ParentInv.said_print (h : ParentInv terminal root earlier results s p)
    (hwritten : s'.written root = s.written root ++ shown terminal line)
    (hlines : parentLines root results' pc = parentLines root results p.pc ++ [line]) :
    s'.written root ++ (p.print terminal line).stdout =
      unwritten terminal earlier ++ parentLines root results' pc := by
  have hsaid := AdhocNode.said_print line h.stdout (s.written root)
  rw [hwritten, hsaid.1, h.said, hlines, List.append_assoc]

end Prints

/-- A process that is alone stays alone. -/
theorem Changed.alone (h : Changed s p' lines s') (hp : p ∈ s.procs) (hpid : p'.pid = p.pid)
    (halone : ∀ x ∈ s.procs, x = p) : ∀ x ∈ s'.procs, x = p' := by
  intro x hx
  rcases (h.mem_iff hp hpid).mp hx with rfl | ⟨hx, hne⟩
  · rfl
  · exact absurd (congrArg Process.pid (halone x hx)) hne

/-- **The parent moves** otherwise than by forking a sub process or by waiting for one. -/
theorem Moved.parent (h : Moved terminal result s p p' lines) (hch : Changed s p' lines s')
    (hp : p ∈ s.procs) (hothers : ∀ x ∈ s.procs, x.pid ≠ root → x.ppid = root)
    (hunique : ∀ x ∈ s.procs, x.pid = root → x = p)
    (hi : ParentInv terminal root earlier results s p) :
    p'.pid = p.pid ∧ ParentInv terminal root earlier (results ++ [result]) s' p' ∧
      (results.length < subProcNum → result = none) := by
  have hpc := hi.pc
  have hlen : (results ++ [result]).length = results.length + 1 := List.length_append
  -- after the last fork nothing is added to the forks
  have hforks : subProcNum ≤ results.length → forksOf (results ++ [result]) = forksOf results :=
    forksOf_concat
  have hroot : p.pid = root := hi.pid
  have hstdout : ∀ {line}, terminal = true → (p.print terminal line).stdout = [] := fun hterminal =>
    (said_print _ hi.stdout []).2 hterminal
  have hwritten : s'.written root = s.written root ++ lines := by
    have hpid : p'.pid = root := by
      cases h <;> exact hroot
    rw [← hpid]
    exact hch.written_self
  cases h with
  | register heq => rw [heq] at hpc; exact hpc.elim
  | idle heq => rw [heq] at hpc; exact hpc.elim
  | call heq => rw [heq] at hpc; exact hpc.elim
  | idled heq => rw [heq] at hpc; exact hpc.elim
  | timerExit heq => rw [heq] at hpc; exact hpc.elim
  | @forkFailed n heq hn hresult =>
    rw [heq] at hpc
    rcases hpc with ⟨rfl, -⟩
    refine ⟨rfl, ⟨hroot, hi.ppid, hi.table, hi.said_print hwritten ?_, hstdout, ?_, ?_⟩,
      fun _ => hresult⟩
    · rw [heq]
      show failLines (forksOf (results ++ [result])) = failLines (forksOf results) ++ _
      rw [forksOf_concat_fork hn, failLines_concat, hresult]
      rfl
    · have hpc' : p.pc ≠ .exited := by rw [heq]; exact SubProcPc.noConfusion
      exact fun hterminal _ => silent_print hi.silent hpc' hwritten hterminal
    · exact ⟨hlen.symm, hn⟩
  | @forksDone n heq hn =>
    rw [heq] at hpc
    rcases hpc with ⟨rfl, -⟩
    rw [hroot] at hch hwritten ⊢
    refine ⟨rfl, ⟨rfl, hi.ppid, hi.table, hi.said_print hwritten ?_, hstdout, ?_, ?_⟩,
      fun hlt => absurd hlt (by omega)⟩
    · rw [heq]
      show failLines (forksOf _) ++ _ = failLines (forksOf results) ++ _
      rw [hforks hn]
    · have hpc' : p.pc ≠ .exited := by rw [heq]; exact SubProcPc.noConfusion
      exact fun hterminal _ => silent_print hi.silent hpc' hwritten hterminal
    · show subProcNum < (results ++ [result]).length
      omega
  | parentExit heq hresult hnone =>
    -- `wait` has returned -1: nobody is a child of the parent, so nobody else is left
    rw [heq] at hpc
    have hn : subProcNum < results.length := hpc
    have halone : ∀ x ∈ s.procs, x = p := by
      intro x hx
      by_cases hxr : x.pid = root
      · exact hunique x hx hxr
      · exact absurd ((hothers x hx hxr).trans hroot.symm) (hnone x hx)
    refine ⟨rfl, ⟨hroot, hi.ppid, hi.table, hi.said_print hwritten ?_, hstdout, ?_, ?_,
      hch.alone hp rfl halone, ?_⟩, fun hlt => absurd hlt (by omega)⟩
    · rw [heq]
      show failLines (forksOf _) ++ _ = failLines (forksOf results) ++ _ ++ _
      rw [hforks (by omega), List.append_assoc]
      rfl
    · have hpc' : p.pc ≠ .exited := by rw [heq]; exact SubProcPc.noConfusion
      exact fun hterminal _ => silent_print hi.silent hpc' hwritten hterminal
    · omega
    · rintro rfl
      rw [hch.output]
      simp [shown, Process.print, hroot]
  | exit heq =>
    rw [heq] at hpc
    rcases hpc with ⟨hn, halone, hlast⟩
    have hsaid := hi.said
    rw [heq] at hsaid
    refine ⟨rfl, ⟨hroot, hi.ppid, hi.table, ?_, fun _ => rfl, ?_, ?_, hch.alone hp rfl halone, rfl,
      ?_⟩, fun hlt => absurd hlt (by omega)⟩
    · rw [hwritten, List.append_nil, hsaid]
      show _ ++ (failLines (forksOf results) ++ _) = _ ++ (failLines (forksOf _) ++ _)
      rw [hforks (by omega)]
    · intro _ hne
      exact absurd rfl hne
    · omega
    · rw [hch.output]
      cases terminal with
      | true => simp [hi.stdout rfl, hlast rfl]
      | false =>
        have hpc' : p.pc ≠ .exited := by rw [heq]; exact SubProcPc.noConfusion
        rw [hi.silent rfl hpc', List.nil_append] at hsaid
        rw [hsaid]
        simp [parentLines, hroot]

/-- Every other process is a child of the first one. -/
theorem RouteInv.ppid (h : RouteInv terminal root earlier since results s) (hx : x ∈ s.procs)
    (hne : x.pid ≠ root) : x.ppid = root := by
  rcases h.child x hx hne with ⟨i, -, hc⟩
  exact hc.ppid

/-- A process that changes only itself keeps the invariant, if it keeps its own part of it. -/
theorem RouteInv.changed {results' : List (Option Nat)}
    (h : RouteInv terminal root earlier since results s) (hp : p ∈ s.procs)
    (hpid : p'.pid = p.pid) (hch : Changed s p' lines s')
    (hstarted : ∀ i q, Started results' i q ↔ Started results i q)
    (hinherited : ∀ i q, Started results i q →
      inherited terminal earlier results' i = inherited terminal earlier results i)
    (hlen : results.length ≤ results'.length)
    (hparent : p.pid = root → ParentInv terminal root earlier results' s' p')
    (hchild : p.pid ≠ root → results' = results ∧ ∀ i, Started results i p.pid →
      ChildInv terminal root earlier since results i s p → ChildInv terminal root earlier since results i s' p') :
    RouteInv terminal root earlier since results' s' := by
  have hmem : ∀ {x}, x ∈ s'.procs ↔ x = p' ∨ x ∈ s.procs ∧ x.pid ≠ p.pid := hch.mem_iff hp hpid
  have hwritten : ∀ {q}, q ≠ p.pid → s'.written q = s.written q :=
    fun hq => hch.written_of_ne (hpid ▸ hq)
  have hclock : s.clock ≤ s'.clock := Nat.le_of_eq hch.clock.symm
  refine ⟨?_, ?_, ?_, ?_, ?_, ?_, ?_⟩
  -- the numbers are the same as before
  · intro x hx y hy hxy
    rcases hmem.mp hx with rfl | ⟨hx, hxp⟩
    · rcases hmem.mp hy with rfl | ⟨hy, hyp⟩
      · rfl
      · exact absurd (hxy.symm.trans hpid) hyp
    · rcases hmem.mp hy with rfl | ⟨hy, hyp⟩
      · exact absurd (hxy.trans hpid) hxp
      · exact h.unique x hx y hy hxy
  -- the parent has moved itself, or looks at nothing of what has changed
  · by_cases hroot : p.pid = root
    · exact ⟨p', hmem.mpr (Or.inl rfl), hparent hroot⟩
    · rcases h.parent with ⟨r, hr, hrinv⟩
      have hne : r.pid ≠ p.pid := fun heq => hroot (heq.symm.trans hrinv.pid)
      refine ⟨r, hmem.mpr (Or.inr ⟨hr, hne⟩), ?_⟩
      rw [(hchild hroot).1]
      exact hrinv.frame hp hroot (hwritten (hrinv.pid ▸ hne))
  · intro x hx hne
    rcases hmem.mp hx with rfl | ⟨hx, hxp⟩
    · rcases h.child p hp (hpid ▸ hne) with ⟨i, hi, hc⟩
      rw [(hchild (hpid ▸ hne)).1]
      exact ⟨i, hpid ▸ hi, (hchild (hpid ▸ hne)).2 i hi hc⟩
    · rcases h.child x hx hne with ⟨i, hi, hc⟩
      exact ⟨i, (hstarted i _).mpr hi, hc.frame (hinherited i _ hi) (hwritten hxp) hclock⟩
  · intro i q hi
    rw [hstarted] at hi
    rcases h.started i q hi with ⟨hne, ⟨x, hx, rfl⟩ | hgone⟩
    · refine ⟨hne, Or.inl ?_⟩
      by_cases hxp : x.pid = p.pid
      · exact ⟨p', hmem.mpr (Or.inl rfl), hpid.trans hxp.symm⟩
      · exact ⟨x, hmem.mpr (Or.inr ⟨hx, hxp⟩), rfl⟩
    · refine ⟨hne, ?_⟩
      by_cases hqp : q = p.pid
      · exact Or.inl ⟨p', hmem.mpr (Or.inl rfl), hpid.trans hqp.symm⟩
      · exact Or.inr (hgone.frame (hinherited i q hi) hlen (hwritten hqp) hclock)
  · intro i j q hi hj
    exact h.once i j q ((hstarted i q).mp hi) ((hstarted j q).mp hj)
  · intro q hne hnone
    have hnone' : ∀ i, ¬ Started results i q := fun i hi => hnone i ((hstarted i q).mpr hi)
    have hqp : q ≠ p.pid := by
      rintro rfl
      rcases h.child p hp hne with ⟨i, hi, -⟩
      exact hnone' i hi
    rw [hwritten hqp]
    exact h.silent q hne hnone'
  · intro i
    rw [hch.clock]
    exact h.clock i

/-- **A fork**: the new process has a copy of what its parent has. -/
theorem RouteInv.forked (h : RouteInv terminal root earlier since results s) (hp : p ∈ s.procs)
    (hi : ParentInv terminal root earlier results s p) (hpc : p.pc = .fork i) (hn : i < subProcNum)
    (hfresh : ∀ x ∈ s.procs, x.pid ≠ q)
    (hprocs : ∀ x, x ∈ s'.procs ↔ x = { p with pc := .fork (i + 1) } ∨
      (x ∈ s.procs ∧ x.pid ≠ p.pid) ∨ x = { p with pid := q, ppid := p.pid, pc := .register i })
    (hclock : s'.clock = s.clock) (houtput : s'.output = s.output) :
    RouteInv terminal root earlier since (results ++ [some q]) s' := by
  have hlt := hi.pc
  rw [hpc] at hlt
  rcases hlt with ⟨rfl, -⟩
  have hwritten : ∀ {q}, s'.written q = s.written q := by
    intro q
    rw [ProcSys.written, houtput]
    rfl
  -- the number is new: as long as there are forks nobody has been waited for
  have hq : q ≠ root := fun heq => hfresh p hp (hi.pid.trans heq.symm)
  have hnone : ∀ j, ¬ Started results j q := by
    intro j hj
    rcases (h.started j q hj).2 with ⟨x, hx, hxq⟩ | hgone
    · exact hfresh x hx hxq
    · exact absurd hgone.waited (by omega)
  have hnew : ∀ {j x}, Started (results ++ [some q]) j x ↔
      Started results j x ∨ j = results.length ∧ q = x := by
    intro j x
    rw [started_concat_iff, and_iff_right hn, Option.some.injEq]
  have hpc' : p.pc ≠ .exited := by rw [hpc]; exact SubProcPc.noConfusion
  have hsilent : terminal = false → s'.written root = [] := by
    intro hterminal
    rw [hwritten, hi.silent hterminal hpc']
  refine ⟨?_, ?_, ?_, ?_, ?_, ?_, ?_⟩
  · intro x hx y hy hxy
    rcases (hprocs x).mp hx with rfl | ⟨hx, hxp⟩ | rfl
    · rcases (hprocs y).mp hy with rfl | ⟨hy, hyp⟩ | rfl
      · rfl
      · exact absurd hxy.symm hyp
      · exact absurd hxy (hfresh p hp)
    · rcases (hprocs y).mp hy with rfl | ⟨hy, hyp⟩ | rfl
      · exact absurd hxy hxp
      · exact h.unique x hx y hy hxy
      · exact absurd hxy (hfresh x hx)
    · rcases (hprocs y).mp hy with rfl | ⟨hy, hyp⟩ | rfl
      · exact absurd hxy.symm (hfresh p hp)
      · exact absurd hxy.symm (hfresh y hy)
      · rfl
  · refine ⟨_, (hprocs _).mpr (Or.inl rfl), ⟨hi.pid, hi.ppid, hi.table, ?_, hi.stdout, ?_, ?_⟩⟩
    · have hsaid := hi.said
      rw [hpc] at hsaid
      rw [hwritten]
      refine hsaid.trans ?_
      show _ ++ failLines (forksOf results) = _ ++ failLines (forksOf (results ++ [some q]))
      rw [forksOf_concat_fork hn, failLines_concat]
      simp
    · intro hterminal _
      exact hsilent hterminal
    · have hlen : (results ++ [some q]).length = results.length + 1 := List.length_append
      exact ⟨hlen.symm, hn⟩
  · intro x hx hne
    rcases (hprocs x).mp hx with rfl | ⟨hx, hxp⟩ | rfl
    · exact absurd hi.pid hne
    · rcases h.child x hx hne with ⟨j, hj, hc⟩
      exact ⟨j, hnew.mpr (Or.inl hj), hc.frame (inherited_concat hj) hwritten (Nat.le_of_eq hclock.symm)⟩
    -- the new sub process has written nothing, and what it has printed is what its parent has not written
    · have hempty : s'.written q = [] := hwritten.trans (h.silent q hq hnone)
      refine ⟨results.length, hnew.mpr (Or.inr ⟨rfl, rfl⟩),
        ⟨hi.pid, ?_, hi.stdout, fun _ _ => hempty, rfl, hi.table⟩⟩
      rw [hempty]
      show p.stdout = inherited terminal earlier _ results.length ++ []
      rw [List.append_nil, inherited, forksOf_concat_fork hn]
      cases terminal with
      | true => exact hi.stdout rfl
      | false =>
        have hsaid := hi.said
        rw [hpc, hi.silent rfl hpc', List.nil_append] at hsaid
        have hlen : (forksOf results).length = results.length := by
          simp [forksOf]
          omega
        rw [hsaid, ← hlen, List.take_left]
        rfl
  · intro j x hj
    rcases hnew.mp hj with hj | ⟨-, rfl⟩
    · rcases h.started j x hj with ⟨hne, ⟨y, hy, rfl⟩ | hgone⟩
      · refine ⟨hne, Or.inl ⟨y, (hprocs y).mpr (Or.inr (Or.inl ⟨hy, fun heq => ?_⟩)), rfl⟩⟩
        exact hne (heq.trans hi.pid)
      · exact absurd hgone.waited (by omega)
    · exact ⟨hq, Or.inl ⟨_, (hprocs _).mpr (Or.inr (Or.inr rfl)), rfl⟩⟩
  · intro j k x hj hk
    rcases hnew.mp hj with hj | ⟨rfl, rfl⟩
    · rcases hnew.mp hk with hk | ⟨rfl, rfl⟩
      · exact h.once j k x hj hk
      · exact absurd hj (hnone j)
    · rcases hnew.mp hk with hk | ⟨rfl, -⟩
      · exact absurd hk (hnone k)
      · rfl
  · intro x hne hx
    rw [hwritten]
    exact h.silent x hne fun j hj => hx j (hnew.mpr (Or.inl hj))
  · intro j
    rw [hclock]
    exact h.clock j

/-- **A wait**: a sub process that has exited is taken out of the table. -/
theorem RouteInv.waited (h : RouteInv terminal root earlier since results s) (hp : p ∈ s.procs)
    (hi : ParentInv terminal root earlier results s p) (hpc : p.pc = .wait) (hx : x ∈ s.procs)
    (hppid : x.ppid = root) (hexited : x.pc = .exited) :
    RouteInv terminal root earlier since (results ++ [some x.pid])
      { s with procs := s.procs.filter fun y => decide (y.pid ≠ x.pid) } := by
  have hn := hi.pc
  rw [hpc] at hn
  have hforks : forksOf (results ++ [some x.pid]) = forksOf results := forksOf_concat (Nat.le_of_lt hn)
  have hstarted : ∀ {j q}, Started (results ++ [some x.pid]) j q ↔ Started results j q := by
    intro j q
    rw [Started, hforks]
    rfl
  have hne : x.pid ≠ root := by
    intro heq
    have hxp : x = p := h.unique x hx p hp (heq.trans hi.pid.symm)
    exact hi.ppid (hxp ▸ hppid)
  have hmem : ∀ {y}, y ∈ s.procs.filter (fun y => decide (y.pid ≠ x.pid)) ↔
      y ∈ s.procs ∧ y.pid ≠ x.pid := by
    intro y
    rw [List.mem_filter, decide_eq_true_iff]
  refine ⟨?_, ?_, ?_, ?_, ?_, ?_, h.clock⟩
  · intro y hy z hz hyz
    exact h.unique y (hmem.mp hy).1 z (hmem.mp hz).1 hyz
  · have hpx : p.pid ≠ x.pid := fun heq => hne (heq.symm.trans hi.pid)
    refine ⟨p, hmem.mpr ⟨hp, hpx⟩, ⟨hi.pid, hi.ppid, hi.table, ?_, hi.stdout, hi.silent, ?_⟩⟩
    · have hsaid := hi.said
      rw [hpc] at hsaid ⊢
      show s.written root ++ p.stdout = _ ++ (failLines (forksOf _) ++ _)
      rw [hforks, hsaid]
      rfl
    · rw [hpc]
      show subProcNum < (results ++ [some x.pid]).length
      rw [List.length_append]
      exact Nat.lt_succ_of_lt hn
  · intro y hy hyne
    rcases h.child y (hmem.mp hy).1 hyne with ⟨j, hj, hc⟩
    exact ⟨j, hstarted.mpr hj, hc.frame (inherited_concat hj) rfl (Nat.le_refl _)⟩
  · intro j q hj
    rw [hstarted] at hj
    rcases h.started j q hj with ⟨hqne, ⟨y, hy, rfl⟩ | hgone⟩
    · refine ⟨hqne, ?_⟩
      by_cases hyx : y.pid = x.pid
      · -- the process that is taken out
        have heq : y = x := h.unique y hy x hx hyx
        subst heq
        rcases h.child y hy hqne with ⟨k, hk, hc⟩
        have hkj : k = j := h.once k j y.pid hk hj
        subst hkj
        have hcpc := hc.pc
        rw [hexited] at hcpc
        have hsaid := hc.said
        rw [hexited, hcpc.2.2, List.append_nil] at hsaid
        refine Or.inr ⟨?_, hcpc.1, ?_⟩
        · rw [List.length_append]
          exact Nat.lt_succ_of_lt hn
        · rw [inherited_concat hj]
          exact hsaid
      · exact Or.inl ⟨y, hmem.mpr ⟨hy, hyx⟩, rfl⟩
    · refine ⟨hqne, Or.inr (hgone.frame (inherited_concat hj) ?_ rfl (Nat.le_refl _))⟩
      rw [List.length_append]
      exact Nat.le_succ _
  · intro j k q hj hk
    exact h.once j k q (hstarted.mp hj) (hstarted.mp hk)
  · intro q hqne hq
    exact h.silent q hqne fun j hj => hq j (hstarted.mpr hj)

/-- A second passes. -/
theorem RouteInv.tick (h : RouteInv terminal root earlier since results s) :
    RouteInv terminal root earlier since results { s with clock := s.clock + 1 } := by
  refine ⟨h.unique, ?_, ?_, ?_, h.once, h.silent, fun i => ?_⟩
  · rcases h.parent with ⟨p, hp, hi⟩
    exact ⟨p, hp, ⟨hi.pid, hi.ppid, hi.table, hi.said, hi.stdout, hi.silent, hi.pc⟩⟩
  · intro x hx hne
    rcases h.child x hx hne with ⟨i, hi, hc⟩
    exact ⟨i, hi, hc.frame rfl rfl (Nat.le_succ _)⟩
  · intro i q hi
    rcases h.started i q hi with ⟨hne, hx | hgone⟩
    · exact ⟨hne, Or.inl hx⟩
    · exact ⟨hne, Or.inr (hgone.frame rfl (Nat.le_refl _) rfl (Nat.le_succ _))⟩
  · exact Nat.le_trans (h.clock i) (Nat.add_le_add_right (Nat.le_succ _) _)

/-- **One step keeps the invariant.** -/
theorem RouteInv.step {act : ProcAct} (h : RouteInv terminal root earlier since results s)
    (hstep : procStep terminal act s = some s') :
    RouteInv terminal root earlier since (results ++ resultsOf root [act]) s' := by
  cases act with
  | tick =>
    cases hstep
    rw [show resultsOf root [.tick] = [] from rfl, List.append_nil]
    exact h.tick
  | sched pid result =>
    rcases procStep_cases hstep with ⟨p, hp, rfl, hmove⟩
    by_cases hroot : p.pid = root
    · have hresults : resultsOf root [.sched p.pid result] = [result] := by simp [resultsOf, hroot]
      rw [hresults]
      rcases h.parent with ⟨r, hr, hi⟩
      have hrp : r = p := h.unique r hr p hp (hi.pid.trans hroot.symm)
      subst hrp
      have hunique : ∀ x ∈ s.procs, x.pid = root → x = r :=
        fun x hx hxr => h.unique x hx r hp (hxr.trans hroot.symm)
      cases hmove with
      | own hmoved hch =>
        rcases hmoved.parent hch hp (fun x => h.ppid) hunique hi with ⟨hpid, hi', hresult⟩
        refine h.changed hp hpid hch (fun i q => ?_) (fun i q => inherited_concat) ?_ (fun _ => hi')
          (fun hne => absurd hroot hne)
        · rw [started_concat_iff]
          constructor
          · rintro (hs | ⟨hlt, -, hsome⟩)
            · exact hs
            · rw [hresult hlt] at hsome
              cases hsome
          · intro hs
            exact Or.inl hs
        · rw [List.length_append]
          exact Nat.le_succ _
      | forked hpc hn hresult hfresh =>
        rw [hresult]
        refine h.forked hp hi hpc hn hfresh (fun x => ?_) rfl rfl
        rw [List.mem_append, List.mem_singleton, ← or_assoc]
        exact or_congr_left (mem_put_iff hp rfl)
      | waited hpc hresult hx hppid hexited =>
        rw [hresult]
        exact h.waited hp hi hpc hx (hppid.trans hroot) hexited
    · have hresults : resultsOf root [.sched p.pid result] = [] := by simp [resultsOf, hroot]
      rw [hresults, List.append_nil]
      rcases h.child p hp hroot with ⟨i, hi, hc⟩
      have hpc := hc.pc
      cases hmove with
      | @own p' _ _ hmoved hch =>
        have hkeep : ∀ j, Started results j p.pid → ChildInv terminal root earlier since results j s p →
            p'.pid = p.pid ∧ ChildInv terminal root earlier since results j s' p' :=
          fun j hj hc => hmoved.child hch hj.lt.1 (h.getppid hp hroot hc.ppid) (h.clock j) hc
        exact h.changed hp (hkeep i hi hc).1 hch (fun _ _ => Iff.rfl) (fun _ _ _ => rfl) (Nat.le_refl _)
          (fun heq => absurd heq hroot) (fun _ => ⟨rfl, fun j hj hc => (hkeep j hj hc).2⟩)
      | forked heq => rw [heq] at hpc; exact hpc.elim
      | waited heq => rw [heq] at hpc; exact hpc.elim

/-! ## Runs -/

/-- At the start there is the parent only. -/
theorem routeInv_start (terminal : Bool) (earlier : List String) {root ppid : Nat} (h : ppid ≠ root) :
    RouteInv terminal root earlier sleeps [] (procStart terminal root ppid earlier) := by
  have hnone : ∀ {i q}, ¬ Started [] i q := by
    intro i q hi
    exact absurd hi.lt.2 (Nat.not_lt_zero i)
  refine ⟨?_, ⟨_, List.mem_singleton_self _, rfl, h, rfl, ?_, ?_, fun _ _ => rfl, rfl, Nat.zero_le _⟩,
    ?_, fun i q hi => absurd hi hnone, fun i j q hi => absurd hi hnone, fun _ _ _ => rfl,
    fun i => Nat.le_add_left _ _⟩
  · intro x hx y hy _
    rw [List.mem_singleton.mp hx, List.mem_singleton.mp hy]
  · exact (List.append_nil _).symm
  · rintro rfl
    rfl
  · intro x hx hne
    rw [List.mem_singleton.mp hx] at hne
    exact absurd rfl hne

/-- The results are those of the steps, one after the other. -/
theorem resultsOf_cons (root : Nat) (act : ProcAct) (acts : List ProcAct) :
    resultsOf root (act :: acts) = resultsOf root [act] ++ resultsOf root acts := by
  rw [resultsOf, resultsOf, resultsOf, ← List.filterMap_append]
  rfl

/-- A whole run keeps the invariant. -/
theorem RouteInv.run {acts : List ProcAct} (h : RouteInv terminal root earlier since results s)
    (hrun : run (procStep terminal) s acts = some s') :
    RouteInv terminal root earlier since (results ++ resultsOf root acts) s' := by
  induction acts generalizing s results with
  | nil =>
    cases hrun
    rw [show resultsOf root [] = [] from rfl, List.append_nil]
    exact h
  | cons act acts ih =>
    rcases exists_of_run_cons hrun with ⟨t, hstep, hrest⟩
    rw [resultsOf_cons, ← List.append_assoc]
    exact ih (h.step hstep) hrest

/-- The first process has exited. -/
def ParentExited (root : Nat) (s : ProcSys) : Prop := ∃ p ∈ s.procs, p.pid = root ∧ p.pc = .exited

instance (root : Nat) (s : ProcSys) : Decidable (ParentExited root s) :=
  inferInstanceAs (Decidable (∃ p ∈ s.procs, p.pid = root ∧ p.pc = .exited))

/-- The line of its start begins with a digit, that of its exit with a letter. -/
theorem subProcessLine_ne (i q root j : Nat) : subProcessLine i q root ≠ timerExitLine j := by
  intro heq
  have hne : (toString i).toList ≠ [] := by
    rw [Nat.toString_eq_repr, Nat.toList_repr]
    exact Nat.toDigits_ne_nil
  have hstart : (subProcessLine i q root).toList.head? = (toString i).toList.head? := by
    have hline : subProcessLine i q root =
        toString i ++ (", sub process pid:" ++ toString q ++ ", ppid:" ++ toString root ++ ".\n") := by
      simp only [subProcessLine, String.append_assoc]
      rfl
    rw [hline, String.toList_append, List.head?_append_of_ne_nil _ hne]
  have hexit : (timerExitLine j).toList.head? = some 'p' := by
    have hline : timerExitLine j = "pid:" ++ (toString j ++ ", timer_test, exit.\n") := by
      simp only [timerExitLine, String.append_assoc]
      rfl
    rw [hline, String.toList_append]
    rfl
  rw [heq, hexit, Nat.toString_eq_repr, Nat.toList_repr] at hstart
  have hdigit := Nat.isDigit_of_mem_toDigits (by decide) (by decide) (List.mem_of_mem_head? hstart.symm)
  exact absurd hdigit (by decide)

/-- A sub process whose exit line is written has slept: off the terminal nothing is written before it has
    exited, and on it the line is printed behind the `sleep`. -/
theorem RouteInv.slept (h : RouteInv terminal root earlier since results s) (hstart : Started results i q)
    (hexit : timerExitLine q ∈ s.written q) : since i ≤ s.clock := by
  rcases h.started i q hstart with ⟨hne, ⟨x, hx, rfl⟩ | hgone⟩
  · rcases h.child x hx hne with ⟨j, hj, hc⟩
    have hij : j = i := h.once j i x.pid hj hstart
    subst hij
    -- before the exit line has been printed it is not written either
    have hbefore : x.pc ≠ .exited →
        subProcLines root j x.pid x.pc ⊆ [subProcessLine j x.pid root] → False := by
      intro hpc hlines
      cases terminal with
      | false =>
        rw [hc.silent rfl hpc] at hexit
        cases hexit
      | true =>
        have hsaid := hc.said
        rw [hc.stdout rfl, List.append_nil] at hsaid
        rw [hsaid] at hexit
        exact subProcessLine_ne _ _ _ _ (List.mem_singleton.mp (hlines hexit)).symm
    have hpc := hc.pc
    cases heq : x.pc with
    | register => exact absurd (List.nil_subset _) (heq ▸ hbefore (heq ▸ SubProcPc.noConfusion))
    | loop => exact absurd (List.Subset.refl _) (heq ▸ hbefore (heq ▸ SubProcPc.noConfusion))
    | timer => exact absurd (List.Subset.refl _) (heq ▸ hbefore (heq ▸ SubProcPc.noConfusion))
    | exit =>
      rw [heq] at hpc
      exact hpc.1
    | exited =>
      rw [heq] at hpc
      exact hpc.1
    | _ =>
      rw [heq] at hpc
      exact hpc.elim
  · exact hgone.clock

/-- The times may be counted from now on for the sub processes that are still to be forked. -/
theorem RouteInv.rebase {since' : Nat → Nat} (h : RouteInv terminal root earlier since results s)
    (heq : ∀ i q, Started results i q → since' i = since i)
    (hclock : ∀ i, since' i ≤ s.clock + sleeps i) :
    RouteInv terminal root earlier since' results s := by
  refine ⟨h.unique, h.parent, fun p hp hne => ?_, fun i q hi => ?_, h.once, h.silent, hclock⟩
  · rcases h.child p hp hne with ⟨i, hi, hc⟩
    refine ⟨i, hi, ⟨hc.ppid, hc.said, hc.stdout, hc.silent, ?_⟩⟩
    rw [heq i p.pid hi]
    exact hc.pc
  · rcases h.started i q hi with ⟨hne, hx | hgone⟩
    · exact ⟨hne, Or.inl hx⟩
    · exact ⟨hne, Or.inr ⟨hgone.waited, (heq i q hi).symm ▸ hgone.clock, hgone.written⟩⟩

/-- A fork that is done has the result that it has. -/
theorem started_of_append {later : List (Option Nat)} (h : Started (results ++ later) i q)
    (hi : i < (forksOf results).length) : Started results i q := by
  rw [forksOf, List.length_take] at hi
  have hboth := Nat.lt_min.mp hi
  rw [Started, forksOf, List.getElem?_take_of_lt hboth.1, List.getElem?_append_left hboth.2] at h
  rw [Started, forksOf, List.getElem?_take_of_lt hboth.1, h]

/-- **What a run of `route_main` writes**, on a terminal or not, with any results of the forks.  In every
    state, a sub process whose exit line is written has slept its 5 to 25 seconds since any moment
    before its fork.  When the parent has exited no process is left, each sub process has written
    that it starts and that it exits, nobody else has written anything, and the parent's last line is the
    last of all.  Off the terminal each sub process has also written, for a second time, what its parent
    had printed and not written. -/
theorem route_main_output {ppid : Nat} {acts : List ProcAct} (hppid : ppid ≠ root)
    (hrun : run (procStep terminal) (procStart terminal root ppid earlier) acts = some s) :
    (∀ before after t, acts = before ++ after →
      run (procStep terminal) (procStart terminal root ppid earlier) before = some t →
      ∀ i q, Started (resultsOf root acts) i q → ¬ Started (resultsOf root before) i q →
        timerExitLine q ∈ s.written q → t.clock + sleeps i ≤ s.clock) ∧
    (ParentExited root s →
      (forksOf (resultsOf root acts)).length = subProcNum ∧ (∀ x ∈ s.procs, x.pid = root) ∧
      s.written root = unwritten terminal earlier ++
        (failLines (forksOf (resultsOf root acts)) ++ [parentPidLine root, parentExitLine]) ∧
      s.output.getLast? = some (root, parentExitLine) ∧
      (∀ i q, Started (resultsOf root acts) i q → sleeps i ≤ s.clock ∧
        s.written q = inherited terminal earlier (resultsOf root acts) i ++
          [subProcessLine i q root, timerExitLine q]) ∧
      ∀ q, q ≠ root → (∀ i, ¬ Started (resultsOf root acts) i q) → s.written q = []) := by
  have hstart := routeInv_start terminal earlier hppid
  constructor
  · rintro before after t rfl hbefore i q hi hnot hexit
    have h := hstart.run hbefore
    rw [List.nil_append] at h
    -- the forks that are done at `t` keep their times, and the others are after it
    have hrebased : RouteInv terminal root earlier
        (fun i => if i < (forksOf (resultsOf root before)).length then sleeps i else t.clock + sleeps i)
        (resultsOf root before) t := by
      refine h.rebase (fun i q hi => if_pos hi.lt.2) fun i => ?_
      split
      · exact Nat.le_add_left _ _
      · exact Nat.le_refl _
    rw [run_append, hbefore, Option.bind_some] at hrun
    have hresults : resultsOf root (before ++ after) = resultsOf root before ++ resultsOf root after :=
      List.filterMap_append
    rw [hresults] at hi
    have hslept := (hrebased.run hrun).slept hi hexit
    rwa [if_neg fun hlt => hnot (started_of_append hi hlt)] at hslept
  · rintro ⟨p, hp, hroot, hexited⟩
    have h := hstart.run hrun
    rw [List.nil_append] at h
    rcases h.parent with ⟨r, hr, hi⟩
    have hrp : r = p := h.unique r hr p hp (hi.pid.trans hroot.symm)
    subst hrp
    have hpc := hi.pc
    rw [hexited] at hpc
    rcases hpc with ⟨hn, halone, hstdout, hlast⟩
    have hsaid := hi.said
    rw [hexited, hstdout, List.append_nil] at hsaid
    refine ⟨?_, ?_, hsaid, hlast, ?_, h.silent⟩
    · rw [forksOf, List.length_take]
      exact Nat.min_eq_left (Nat.le_of_lt hn)
    · intro x hx
      rw [halone x hx]
      exact hroot
    · intro i q hstart
      rcases h.started i q hstart with ⟨hne, ⟨x, hx, rfl⟩ | hgone⟩
      · exact absurd (halone x hx ▸ hroot) hne
      · exact ⟨hgone.clock, hgone.written⟩

/-- The first fork succeeds and the others fail; the sub process sleeps for 5 seconds. -/
def oneSubProc : List ProcAct :=
  [.sched 100 (some 101), .sched 100 none, .sched 101 none, .sched 100 none, .sched 101 none,
    .sched 100 none, .tick, .tick, .tick, .tick, .tick, .sched 101 none, .sched 100 none,
    .sched 101 none, .sched 100 none, .sched 100 (some 101), .sched 100 none, .sched 100 none]

theorem route_main_output_one : ∃ s,
    run (procStep false) (procStart false 100 1 ["compile time\n"]) oneSubProc = some s ∧
      s.written 101 = ["compile time\n", subProcessLine 0 101 100, timerExitLine 101] ∧
      s.written 100 = "compile time\n" :: (List.replicate 4 createFailLine ++
        [parentPidLine 100, parentExitLine]) ∧
      0 + 5 ≤ s.clock := by
  have hrun : ∃ s, run (procStep false) (procStart false 100 1 ["compile time\n"]) oneSubProc = some s ∧
      ParentExited 100 s := ⟨_, rfl, by decide⟩
  rcases hrun with ⟨s, hs, hexited⟩
  rcases route_main_output (by decide) hs with ⟨hsleeps, hexit⟩
  rcases hexit hexited with ⟨-, -, hparent, -, hchild, -⟩
  have hwritten := (hchild 0 101 rfl).2
  have hmem : timerExitLine 101 ∈ s.written 101 := by
    rw [hwritten]
    exact List.mem_append_right _ (List.mem_cons_of_mem _ (List.mem_singleton_self _))
  exact ⟨s, hs, hwritten, hparent, hsleeps [] _ _ rfl rfl 0 101 rfl nofun hmem⟩

/-- **Who knows what of `s_subproclist`**, in every state: the parent's copy stays as it was, and a sub
    process has set its own entry and no other.  No two sub processes have the same entry. -/
theorem sub_proc_tables {ppid : Nat} {acts : List ProcAct} (hppid : ppid ≠ root)
    (hrun : run (procStep terminal) (procStart terminal root ppid earlier) acts = some s) :
    (∀ p ∈ s.procs, p.pid = root → p.subproclist = sSubproclist) ∧
      (∀ p ∈ s.procs, p.pid ≠ root → p.ppid = root ∧ ∃ i < subProcNum,
        Started (resultsOf root acts) i p.pid ∧
          p.subproclist = if p.pc = .register i then sSubproclist else ownTable i p.pid) ∧
      ∀ i j q, Started (resultsOf root acts) i q → Started (resultsOf root acts) j q → i = j := by
  have h := (routeInv_start terminal earlier hppid).run hrun
  rw [List.nil_append] at h
  refine ⟨fun p hp hroot => ?_, fun p hp hne => ?_, h.once⟩
  · rcases h.parent with ⟨r, hr, hi⟩
    rw [← h.unique r hr p hp (hi.pid.trans hroot.symm)]
    exact hi.table
  · rcases h.child p hp hne with ⟨i, hstarted, hc⟩
    refine ⟨hc.ppid, i, hstarted.lt.1, hstarted, ?_⟩
    have hpc := hc.pc
    cases heq : p.pc with
    | register j =>
      rw [heq] at hpc
      rw [hpc.1, if_pos rfl]
      exact hpc.2
    | loop j =>
      rw [heq] at hpc
      rw [if_neg SubProcPc.noConfusion]
      exact hpc.2
    | timer wake =>
      rw [heq] at hpc
      rw [if_neg SubProcPc.noConfusion]
      exact hpc.2
    | exit =>
      rw [heq] at hpc
      rw [if_neg SubProcPc.noConfusion]
      exact hpc.2
    | exited =>
      rw [heq] at hpc
      rw [if_neg SubProcPc.noConfusion]
      exact hpc.2.1
    | _ =>
      rw [heq] at hpc
      exact hpc.elim

/-- After the registration of the one sub process. -/
theorem sub_proc_tables_one : ∃ s,
    run (procStep false) (procStart false 100 1 []) (oneSubProc.take 3) = some s ∧
      ∀ p ∈ s.procs, p.pid = 100 → p.subproclist = sSubproclist := by
  have hrun : ∃ s, run (procStep false) (procStart false 100 1 []) (oneSubProc.take 3) = some s :=
    ⟨_, rfl⟩
  rcases hrun with ⟨s, hs⟩
  exact ⟨s, hs, (sub_proc_tables (by decide) hs).1⟩

end AdhocNode
