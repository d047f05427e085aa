/-
  SUB PROCESSES — `proc_register_init`, `sub_proc_exec_func`, `timer_test` and `proc_wait_handle`
  (`src/process_interactive.c`), run one after the other by `route_main` (`src/route_algo.c`).

  1. **The processes** — each has its own copy of `s_subproclist` and of what it has printed and not
     written yet: `fork` copies both.  On a terminal a line is written at once; into a file or a pipe all
     of them are written at `exit`.

  2. **The system** — a step is one process executing up to its next system call, or a second that
     passes; which process comes next, what `fork` returns and which child `wait` finds is open.

  3. **Statements as changes of the table** — what a step can do (`procStep_cases`).
-/
import AdhocNode.Lib.Runs
import Mathlib.Data.List.Basic

namespace AdhocNode

open Runs

/-! ## The processes -/

/-- The functions that are stored as a `subproc_callback_func`. -/
inductive SubprocCallback where
  | timerTest
  deriving DecidableEq

/-- `st_sub_proc`; a null `func` is `none`. -/
structure StSubProc where
  valid : Bool
  pid : Nat
  func : Option SubprocCallback
  data : Nat
  deriving DecidableEq

def maxSubProcNum : Nat := 20

/-- `SUB_PROC_NUM`, behind `SUB_PROC_0` to `SUB_PROC_4`. -/
def subProcNum : Nat := 5

/-- `s_subproclist[MAX_SUB_PROC_NUM] = {0}`. -/
def sSubproclist : List StSubProc := List.replicate maxSubProcNum ⟨false, 0, none, 0⟩

/-- Where a process is. -/
inductive SubProcPc where
  /-- the loop of `proc_register_init` -/
  | fork (i : Nat)
  /-- `sub_proc_exec_func`, up to its loop -/
  | register (i : Nat)
  /-- the `while (1)` of `sub_proc_exec_func` -/
  | loop (i : Nat)
  /-- `sleep(1)` in that loop -/
  | idle (i wake : Nat)
  /-- `sleep(data)` in `timer_test` -/
  | timer (wake : Nat)
  /-- the loop of `proc_wait_handle` -/
  | wait
  /-- `exit(0)` -/
  | exit
  | exited
  deriving DecidableEq

/-- A process; `stdout` is what it has printed and not written. -/
structure Process where
  pid : Nat
  ppid : Nat
  pc : SubProcPc
  subproclist : List StSubProc
  stdout : List String
  deriving DecidableEq

/-- What `sub_proc_exec_func` puts into entry `i`. -/
def subProcEntry (i pid : Nat) : StSubProc :=
  match i with
  | 0 => ⟨true, pid, some .timerTest, 5⟩
  | 1 => ⟨true, pid, some .timerTest, 10⟩
  | 2 => ⟨true, pid, some .timerTest, 15⟩
  | 3 => ⟨true, pid, some .timerTest, 20⟩
  | 4 => ⟨true, pid, some .timerTest, 25⟩
  | _ => ⟨true, pid, none, 0⟩

/-- The lines that the processes print, with the `%d`s filled in. -/
def createFailLine : String := "parent process create pid fail.\n"

def parentPidLine (pid : Nat) : String := s!"parent process pid:{pid}.\n"

def subProcessLine (i pid ppid : Nat) : String := s!"{i}, sub process pid:{pid}, ppid:{ppid}.\n"

def timerExitLine (pid : Nat) : String := s!"pid:{pid}, timer_test, exit.\n"

def parentExitLine : String := "parent exit.\n"

/-! ## The system -/

/-- The processes there are, those that have exited and are not waited for included; the seconds
    passed; and the lines written, with the process that wrote them. -/
structure ProcSys where
  procs : List Process
  clock : Nat
  output : List (Nat × String)

/-- A process has changed. -/
def ProcSys.put (p : Process) (s : ProcSys) : ProcSys :=
  { s with procs := s.procs.map fun x => if x.pid = p.pid then p else x }

/-- Lines go to the file or the terminal, behind those of whoever was first. -/
def ProcSys.write (pid : Nat) (lines : List String) (s : ProcSys) : ProcSys :=
  { s with output := s.output ++ lines.map fun line => (pid, line) }

/-- `printf` of a line. -/
def ProcSys.printf (terminal : Bool) (p : Process) (line : String) (s : ProcSys) : ProcSys :=
  if terminal then (s.put p).write p.pid [line] else s.put { p with stdout := p.stdout ++ [line] }

/-- A process of that number lives. -/
def ProcSys.alive (pid : Nat) (s : ProcSys) : Bool :=
  s.procs.any fun x => decide (x.pid = pid ∧ x.pc ≠ .exited)

/-- `getppid`: an orphan is a child of process 1. -/
def ProcSys.getppid (p : Process) (s : ProcSys) : Nat := if s.alive p.ppid then p.ppid else 1

/-- Another pass of the loop of `proc_register_init`; `pid` is what `fork` returns to the parent, `none`
    if it fails.  The child has left the loop and is in `sub_proc_exec_func`. -/
def procRegister (terminal : Bool) (i : Nat) (pid : Option Nat) (p : Process) (s : ProcSys) :
    Option ProcSys :=
  if i < subProcNum then
    match pid with
    | none => some (s.printf terminal { p with pc := .fork (i + 1) } createFailLine)
    | some q =>
      if q = 0 ∨ s.procs.any (fun x => decide (x.pid = q)) then none
      else
        let child := { p with pid := q, ppid := p.pid, pc := .register i }
        some { s.put { p with pc := .fork (i + 1) } with
          procs := (s.put { p with pc := .fork (i + 1) }).procs ++ [child] }
  else some (s.printf terminal { p with pc := .wait } (parentPidLine p.pid))

/-- `wait(NULL)`; `pid` is the child it returns, `none` for -1, which is returned when there are no
    children. -/
def procWait (terminal : Bool) (pid : Option Nat) (p : Process) (s : ProcSys) : Option ProcSys :=
  match pid with
  | none =>
    if s.procs.any fun x => decide (x.ppid = p.pid) then none
    else some (s.printf terminal { p with pc := .exit } parentExitLine)
  | some q =>
    if s.procs.any fun x => decide (x.pid = q ∧ x.ppid = p.pid ∧ x.pc = .exited) then
      some { s with procs := s.procs.filter fun x => decide (x.pid ≠ q) }
    else none

/-- A process executes up to its next system call.  Outside the bounds of `s_subproclist` nothing is
    defined. -/
def procExec (terminal : Bool) (result : Option Nat) (p : Process) (s : ProcSys) : Option ProcSys :=
  match p.pc with
  | .fork i => procRegister terminal i result p s
  | .register i =>
    if i < p.subproclist.length then
      let table := p.subproclist.set i (subProcEntry i p.pid)
      some (s.printf terminal { p with pc := .loop i, subproclist := table }
        (subProcessLine i p.pid (s.getppid p)))
    else none
  | .loop i =>
    match p.subproclist[i]? with
    | none => none
    | some entry =>
      match entry.func with
      | none => some (s.put { p with pc := .idle i (s.clock + 1) })
      | some .timerTest => some (s.put { p with pc := .timer (s.clock + entry.data) })
  | .idle i wake => if wake ≤ s.clock then some (s.put { p with pc := .loop i }) else none
  | .timer wake =>
    if wake ≤ s.clock then some (s.printf terminal { p with pc := .exit } (timerExitLine p.pid))
    else none
  | .wait => procWait terminal result p s
  | .exit => some ((s.put { p with pc := .exited, stdout := [] }).write p.pid p.stdout)
  | .exited => none

/-- A second passes, or a process goes on, with what `fork` or `wait` returns to it. -/
inductive ProcAct where
  | tick
  | sched (pid : Nat) (result : Option Nat)
  deriving DecidableEq

/-- A step; `none` where the process cannot go on, or the system would not return that result. -/
def procStep (terminal : Bool) (act : ProcAct) (s : ProcSys) : Option ProcSys :=
  match act with
  | .tick => some { s with clock := s.clock + 1 }
  | .sched pid result =>
    match s.procs.find? fun x => decide (x.pid = pid) with
    | none => none
    | some p => procExec terminal result p s

/-- Before `route_main`: one process, which may have printed something that is not written. -/
def procStart (terminal : Bool) (pid ppid : Nat) (earlier : List String) : ProcSys :=
  ⟨[⟨pid, ppid, .fork 0, sSubproclist, if terminal then [] else earlier⟩], 0, []⟩

/-- The lines that a process has written. -/
def ProcSys.written (pid : Nat) (s : ProcSys) : List String :=
  (s.output.filter fun line => decide (line.1 = pid)).map Prod.snd

/-! ## Statements as changes of the table -/

/-- What a process has after it printed a line, and what is written then. -/
def Process.print (terminal : Bool) (line : String) (p : Process) : Process :=
  { p with stdout := if terminal then p.stdout else p.stdout ++ [line] }

def shown (terminal : Bool) (line : String) : List String := if terminal then [line] else []

/-- One process has become `p` and written `lines`; nothing else has changed. -/
structure Changed (s : ProcSys) (p : Process) (lines : List String) (s' : ProcSys) : Prop where
  procs : s'.procs = (s.put p).procs
  clock : s'.clock = s.clock
  output : s'.output = s.output ++ lines.map fun line => (p.pid, line)

variable {terminal : Bool} {s s' : ProcSys} {p p' x : Process} {pid q : Nat} {result : Option Nat}
  {line : String} {lines : List String}

/-- A statement that prints nothing, -/
theorem changed_put (p : Process) (s : ProcSys) : Changed s p [] (s.put p) where
  procs := rfl
  clock := rfl
  output := (List.append_nil _).symm

/-- a `printf`, -/
theorem changed_printf (terminal : Bool) (p : Process) (line : String) (s : ProcSys) :
    Changed s (p.print terminal line) (shown terminal line) (s.printf terminal p line) := by
  cases terminal with
  | true => exact ⟨rfl, rfl, rfl⟩
  | false => exact ⟨rfl, rfl, (List.append_nil _).symm⟩

/-- and the `exit`, which writes what was printed and not written. -/
theorem changed_exit (p : Process) (s : ProcSys) :
    Changed s { p with pc := .exited, stdout := [] } p.stdout
      ((s.put { p with pc := .exited, stdout := [] }).write p.pid p.stdout) := ⟨rfl, rfl, rfl⟩

/-- The statements in which a process changes only itself: what it becomes, and what it writes. -/
inductive Moved (terminal : Bool) (result : Option Nat) (s : ProcSys) (p : Process) :
    Process → List String → Prop where
  | forkFailed {i : Nat} : p.pc = .fork i → i < subProcNum → result = none →
      Moved terminal result s p ({ p with pc := .fork (i + 1) }.print terminal createFailLine)
        (shown terminal createFailLine)
  | forksDone {i : Nat} : p.pc = .fork i → subProcNum ≤ i →
      Moved terminal result s p ({ p with pc := .wait }.print terminal (parentPidLine p.pid))
        (shown terminal (parentPidLine p.pid))
  | register {i : Nat} : p.pc = .register i → i < p.subproclist.length →
      Moved terminal result s p
        ({ p with
            pc := .loop i
            subproclist := p.subproclist.set i (subProcEntry i p.pid) }.print terminal
          (subProcessLine i p.pid (s.getppid p)))
        (shown terminal (subProcessLine i p.pid (s.getppid p)))
  | idle {i : Nat} {entry : StSubProc} : p.pc = .loop i → p.subproclist[i]? = some entry →
      entry.func = none → Moved terminal result s p { p with pc := .idle i (s.clock + 1) } []
  | call {i : Nat} {entry : StSubProc} : p.pc = .loop i → p.subproclist[i]? = some entry →
      entry.func = some .timerTest →
      Moved terminal result s p { p with pc := .timer (s.clock + entry.data) } []
  | idled {i wake : Nat} : p.pc = .idle i wake → wake ≤ s.clock →
      Moved terminal result s p { p with pc := .loop i } []
  | timerExit {wake : Nat} : p.pc = .timer wake → wake ≤ s.clock →
      Moved terminal result s p ({ p with pc := .exit }.print terminal (timerExitLine p.pid))
        (shown terminal (timerExitLine p.pid))
  | parentExit : p.pc = .wait → result = none → (∀ x ∈ s.procs, x.ppid ≠ p.pid) →
      Moved terminal result s p ({ p with pc := .exit }.print terminal parentExitLine)
        (shown terminal parentExitLine)
  | exit : p.pc = .exit →
      Moved terminal result s p { p with pc := .exited, stdout := [] } p.stdout

/-- **What a process can do**: change itself, fork, or wait for a child that has exited. -/
inductive ProcMove (terminal : Bool) (result : Option Nat) (s : ProcSys) (p : Process) :
    ProcSys → Prop where
  | own {p' : Process} {lines : List String} {s' : ProcSys} : Moved terminal result s p p' lines →
      Changed s p' lines s' → ProcMove terminal result s p s'
  | forked {i q : Nat} : p.pc = .fork i → i < subProcNum → result = some q →
      (∀ x ∈ s.procs, x.pid ≠ q) →
      ProcMove terminal result s p { s.put { p with pc := .fork (i + 1) } with
        procs := (s.put { p with pc := .fork (i + 1) }).procs ++
          [{ p with pid := q, ppid := p.pid, pc := .register i }] }
  | waited {x : Process} : p.pc = .wait → result = some x.pid → x ∈ s.procs → x.ppid = p.pid →
      x.pc = .exited →
      ProcMove terminal result s p
        { s with procs := s.procs.filter fun y => decide (y.pid ≠ x.pid) }

/-- A pass of the loop of `proc_register_init` is one of the moves, -/
theorem procRegister_cases {i : Nat} (hpc : p.pc = .fork i)
    (h : procRegister terminal i result p s = some s') : ProcMove terminal result s p s' := by
  unfold procRegister at h
  split at h
  case isTrue hi =>
    cases result with
    | none =>
      cases h
      exact .own (.forkFailed hpc hi rfl) (changed_printf ..)
    | some q =>
      simp only at h
      split at h
      case isTrue => cases h
      case isFalse hq =>
        cases h
        refine .forked hpc hi rfl fun x hx heq => hq (Or.inr ?_)
        exact List.any_eq_true.mpr ⟨x, hx, decide_eq_true heq⟩
  case isFalse hi =>
    cases h
    exact .own (.forksDone hpc (Nat.le_of_not_lt hi)) (changed_printf ..)

/-- so is a `wait`, -/
theorem procWait_cases (hpc : p.pc = .wait) (h : procWait terminal result p s = some s') :
    ProcMove terminal result s p s' := by
  unfold procWait at h
  cases result with
  | none =>
    simp only at h
    split at h
    case isTrue => cases h
    case isFalse hnone =>
      cases h
      refine .own (.parentExit hpc rfl fun x hx heq => hnone ?_) (changed_printf ..)
      exact List.any_eq_true.mpr ⟨x, hx, decide_eq_true heq⟩
  | some q =>
    simp only at h
    split at h
    case isFalse => cases h
    case isTrue hany =>
      cases h
      rcases List.any_eq_true.mp hany with ⟨x, hx, hdec⟩
      rcases of_decide_eq_true hdec with ⟨rfl, hppid, hexited⟩
      exact .waited hpc rfl hx hppid hexited

/-- **and every other step of a process.** -/
theorem procStep_cases (h : procStep terminal (.sched pid result) s = some s') :
    ∃ p ∈ s.procs, p.pid = pid ∧ ProcMove terminal result s p s' := by
  unfold procStep at h
  simp only at h
  split at h
  case h_1 => cases h
  case h_2 p hp =>
    refine ⟨p, List.mem_of_find?_eq_some hp, by simpa using List.find?_some hp, ?_⟩
    unfold procExec at h
    split at h
    case h_1 i hpc => exact procRegister_cases hpc h
    case h_2 i hpc =>
      split at h
      case isTrue hi =>
        cases h
        exact .own (.register hpc hi) (changed_printf ..)
      case isFalse => cases h
    case h_3 i hpc =>
      split at h
      case h_1 => cases h
      case h_2 entry hentry =>
        split at h
        case h_1 hfunc =>
          cases h
          exact .own (.idle hpc hentry hfunc) (changed_put ..)
        case h_2 hfunc =>
          cases h
          exact .own (.call hpc hentry hfunc) (changed_put ..)
    case h_4 i wake hpc =>
      split at h
      case isTrue hwake =>
        cases h
        exact .own (.idled hpc hwake) (changed_put ..)
      case isFalse => cases h
    case h_5 wake hpc =>
      split at h
      case isTrue hwake =>
        cases h
        exact .own (.timerExit hpc hwake) (changed_printf ..)
      case isFalse => cases h
    case h_6 hpc => exact procWait_cases hpc h
    case h_7 hpc =>
      cases h
      exact .own (.exit hpc) (changed_exit ..)
    case h_8 => cases h

/-! ## The table -/

/-- After a change of `p'` the table holds `p'` and the processes with other numbers. -/
theorem mem_put_iff (hp : p ∈ s.procs) (hpid : p'.pid = p.pid) :
    x ∈ (s.put p').procs ↔ x = p' ∨ x ∈ s.procs ∧ x.pid ≠ p.pid := by
  show x ∈ s.procs.map (fun y => if y.pid = p'.pid then p' else y) ↔ _
  rw [List.mem_map, hpid]
  constructor
  · rintro ⟨y, hy, hx⟩
    by_cases hyp : y.pid = p.pid
    · rw [if_pos hyp] at hx
      exact Or.inl hx.symm
    · rw [if_neg hyp] at hx
      subst hx
      exact Or.inr ⟨hy, hyp⟩
  · rintro (rfl | ⟨hx, hne⟩)
    · exact ⟨p, hp, if_pos rfl⟩
    · exact ⟨x, hx, if_neg hne⟩

/-- Who is there after a change. -/
theorem Changed.mem_iff (h : Changed s p' lines s') (hp : p ∈ s.procs) (hpid : p'.pid = p.pid) :
    x ∈ s'.procs ↔ x = p' ∨ x ∈ s.procs ∧ x.pid ≠ p.pid := by
  rw [h.procs, mem_put_iff hp hpid]

/-- What is written is written by the process that has changed, -/
theorem Changed.written_self (h : Changed s p' lines s') :
    s'.written p'.pid = s.written p'.pid ++ lines := by
  simp [ProcSys.written, h.output, List.filter_map, Function.comp_def]

/-- and by nobody else. -/
theorem Changed.written_of_ne (h : Changed s p' lines s') (hq : q ≠ p'.pid) :
    s'.written q = s.written q := by
  simp [ProcSys.written, h.output, List.filter_map, Function.comp_def, hq.symm]

/-- **Printing**: what has been written and what is still to be written, one behind the other, grow by
    the line. -/
theorem said_print (line : String) (hterminal : terminal = true → p.stdout = [])
    (lines : List String) :
    lines ++ shown terminal line ++ (p.print terminal line).stdout = lines ++ p.stdout ++ [line] ∧
      (terminal = true → (p.print terminal line).stdout = []) := by
  cases terminal with
  | true => simp [shown, Process.print, hterminal rfl]
  | false => simp [shown, Process.print]

end AdhocNode
