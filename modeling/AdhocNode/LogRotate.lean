/-
  THE LOG — `main_log` and `now_time` of `src/logging.c`.

  1. **The program** — a call appends one line to `debug.log`, the time; if the file has 50 bytes or
     more, it first becomes `debug_bak.log`, in place of the one there.  What the system does in a call is
     its `LogCall`: `fopen` and `mv` may fail, and of the line only a part may reach the disk (nobody
     looks at the result of `fprintf` and `fclose`).

  2. **The files** — of all that has been appended they hold the last part, in order and without a gap:
     only what was in the old backup is ever lost (`Kept`).  As long as `mv` works they stay small.

  3. **Lines** — up to the year 9999 a line has 20 bytes, so a full disk apart the backup has exactly three
     lines and the log at most three (`main_log_kept`).
-/
import AdhocNode.ConfFile
import AdhocNode.Lib.CMem

namespace AdhocNode

open CFile CMem

/-! ## The program -/

/-- `struct tm`, as `localtime` fills it in up to the year 9999. -/
structure Tm where
  year : Int
  mon : Fin 12
  mday : Fin 32
  hour : Fin 24
  min : Fin 60
  sec : Fin 61
  fourDigits : 0 ≤ 1900 + year ∧ 1900 + year < 10000

/-- `now_time`. -/
def nowTime (p : Tm) : List UInt8 :=
  (decimal (1900 + p.year)).leftpad 4 32 ++ text "-" ++ (decimal (1 + p.mon.val)).leftpad 2 48 ++
    text "-" ++ (decimal p.mday.val).leftpad 2 48 ++ text " " ++ (decimal p.hour.val).leftpad 2 48 ++
    text ":" ++ (decimal p.min.val).leftpad 2 48 ++ text ":" ++ (decimal p.sec.val).leftpad 2 48

/-- `debug.log` and `debug_bak.log`, where they exist. -/
structure LogFiles where
  log : Option (List UInt8)
  bak : Option (List UInt8)
  deriving DecidableEq

/-- A call of `main_log`: whether the files can be opened and moved, how many bytes of the line reach the disk,
    and the time. -/
structure LogCall where
  fopen : Bool
  mv : Bool
  fopenAgain : Bool
  room : Nat
  tm : Tm

/-- What reaches the disk of the line. -/
def LogCall.chunk (c : LogCall) : List UInt8 := (nowTime c.tm ++ [newline]).take c.room

/-- What there is in a file. -/
def contentOf (file : Option (List UInt8)) : List UInt8 := file.getD []

/-- The line is written to the end of the log, which `fopen` creates. -/
def LogFiles.append (c : LogCall) (s : LogFiles) : LogFiles :=
  { s with log := some (contentOf s.log ++ c.chunk) }

/-- `main_log`. -/
def mainLog (c : LogCall) (s : LogFiles) : LogFiles × Int :=
  if c.fopen then
    let debug := contentOf s.log
    let s := { s with log := some debug }
    let val := toInt32 debug.length
    if 50 ≤ val then
      let s := if c.mv then ⟨none, some debug⟩ else s
      if c.fopenAgain then (s.append c, 0) else (s, -1)
    else (s.append c, 0)
  else (s, -1)

/-- Several calls, and what those that returned 0 have appended. -/
def mainLogs : List LogCall → LogFiles → LogFiles × List (List UInt8)
  | [], s => (s, [])
  | c :: cs, s =>
    let (s, ret) := mainLog c s
    let (t, chunks) := mainLogs cs s
    (t, if ret = 0 then c.chunk :: chunks else chunks)

/-! ## A line -/

theorem length_decimal_leftpad {n : Int} (h0 : 0 ≤ n) {w : Nat} (hw : 0 < w) (hn : n < 10 ^ w) (a : UInt8) :
    ((decimal n).leftpad w a).length = w := by
  have hdigits : (Nat.toDigits 10 n.natAbs).length ≤ w := by
    apply (Nat.length_toDigits_le_iff (by omega) hw).mpr
    rcases Int.eq_ofNat_of_zero_le h0 with ⟨m, rfl⟩
    have hm : ((m : Nat) : Int) < ((10 ^ w : Nat) : Int) := by
      rw [Int.natCast_pow]
      exact hn
    exact Int.ofNat_lt.mp hm
  have hlen : (decimal n).length = (Nat.toDigits 10 n.natAbs).length := by
    rw [decimal, if_neg (by omega), List.nil_append, List.length_map]
  rw [List.length_leftpad, hlen]
  omega

/-- **The time has 19 characters.** -/
theorem length_nowTime (p : Tm) : (nowTime p).length = 19 := by
  have htwo {n : Nat} (hn : n < 100) : ((decimal n).leftpad 2 48).length = 2 :=
    length_decimal_leftpad (by omega) (by omega) (by omega) 48
  have hmon : ((decimal (1 + (p.mon.val : Int))).leftpad 2 48).length = 2 :=
    length_decimal_leftpad (by omega) (by omega) (by omega) 48
  have hyear : ((decimal (1900 + p.year)).leftpad 4 32).length = 4 :=
    length_decimal_leftpad p.fourDigits.1 (by omega) (by have := p.fourDigits.2; omega) 32
  have hdash : (text "-").length = 1 := by decide
  have hblank : (text " ").length = 1 := by decide
  have hcolon : (text ":").length = 1 := by decide
  unfold nowTime
  simp only [List.length_append]
  rw [hyear, hmon, hdash, hblank, hcolon, htwo (by omega), htwo (by omega), htwo (by omega), htwo (by omega)]

theorem LogCall.length_chunk (c : LogCall) : c.chunk.length = min c.room 20 := by
  rw [LogCall.chunk, List.length_take, List.length_append, length_nowTime]
  rfl

/-- **What a call can do**: fail, append, or move the log out of the way first, if `mv` works. -/
theorem mainLog_cases (c : LogCall) (s : LogFiles) :
    (c.fopen = false ∧ mainLog c s = (s, -1)) ∨
    (toInt32 (contentOf s.log).length < 50 ∧ mainLog c s = (s.append c, 0)) ∨
    (50 ≤ toInt32 (contentOf s.log).length ∧ ∃ s',
      (c.mv = true ∧ s' = ⟨none, some (contentOf s.log)⟩ ∨
        c.mv ≠ true ∧ s' = { s with log := some (contentOf s.log) }) ∧
      (mainLog c s = (s', -1) ∨ mainLog c s = (s'.append c, 0))) := by
  unfold mainLog
  dsimp only
  generalize toInt32 (contentOf s.log).length = val
  by_cases hfopen : c.fopen = true
  · rw [if_pos hfopen]
    by_cases hval : 50 ≤ val
    · rw [if_pos hval]
      refine Or.inr (Or.inr ⟨hval, if c.mv then ⟨none, some (contentOf s.log)⟩ else
        { s with log := some (contentOf s.log) }, ?_, ?_⟩)
      · by_cases hmv : c.mv = true
        · exact Or.inl ⟨hmv, if_pos hmv⟩
        · exact Or.inr ⟨hmv, if_neg hmv⟩
      · by_cases hagain : c.fopenAgain = true
        · exact Or.inr (if_pos hagain)
        · exact Or.inl (if_neg hagain)
    · rw [if_neg hval]
      exact Or.inr (Or.inl ⟨by omega, rfl⟩)
  · exact Or.inl ⟨by simpa using hfopen, if_neg hfopen⟩

/-! ## The files -/

/-- The files hold the last part of what has been appended; as long as there is no `debug_bak.log` nothing
    is lost, and where there is one it holds some chunk. -/
structure Kept (chunks lost bak log : List (List UInt8)) (s : LogFiles) : Prop where
  all : lost ++ bak ++ log = chunks
  inBak : contentOf s.bak = bak.flatten
  inLog : contentOf s.log = log.flatten
  first : bak = [] → lost = []
  noBak : s.bak = none ↔ bak = []

/-- The files are small. -/
structure SmallFiles (s : LogFiles) : Prop where
  log : (contentOf s.log).length < 70
  bak : s.bak = none ∨ 50 ≤ (contentOf s.bak).length ∧ (contentOf s.bak).length < 70

section

variable {chunks lost bak log : List (List UInt8)} {s : LogFiles}

/-- A line is appended. -/
theorem Kept.append (h : Kept chunks lost bak log s) (c : LogCall) :
    Kept (chunks ++ [c.chunk]) lost bak (log ++ [c.chunk]) (s.append c) where
  all := by rw [← List.append_assoc, h.all]
  inBak := h.inBak
  inLog := by
    show contentOf s.log ++ c.chunk = _
    rw [h.inLog, List.flatten_append, List.flatten_singleton]
  first := h.first
  noBak := h.noBak

/-- The log becomes the backup. -/
theorem Kept.mv (h : Kept chunks lost bak log s) (hlog : contentOf s.log ≠ []) :
    Kept chunks (lost ++ bak) log [] ⟨none, some (contentOf s.log)⟩ where
  all := by rw [List.append_nil, h.all]
  inBak := h.inLog
  inLog := rfl
  first hnil := absurd (by rw [h.inLog, hnil]; rfl) hlog
  noBak := iff_of_false nofun fun hnil => hlog (by rw [h.inLog, hnil]; rfl)

/-- `fopen` makes no difference to what there is. -/
theorem Kept.fopen (h : Kept chunks lost bak log s) :
    Kept chunks lost bak log { s with log := some (contentOf s.log) } :=
  ⟨h.all, h.inBak, h.inLog, h.first, h.noBak⟩

theorem ne_nil_of_rotates (hval : 50 ≤ toInt32 (contentOf s.log).length) : contentOf s.log ≠ [] := by
  intro hnil
  rw [hnil] at hval
  exact absurd hval (by decide)

/-- **One call.** -/
theorem Kept.step (h : Kept chunks lost bak log s) (c : LogCall) : ∃ lost' bak' log',
    Kept (chunks ++ if (mainLog c s).2 = 0 then [c.chunk] else []) lost' bak' log' (mainLog c s).1 := by
  have hfailed : ∀ {s' : LogFiles} {lost' bak' log' : List (List UInt8)},
      Kept chunks lost' bak' log' s' → Kept (chunks ++ if (-1 : Int) = 0 then [c.chunk] else [])
        lost' bak' log' s' := fun h' => (List.append_nil chunks).symm ▸ h'
  rcases mainLog_cases c s with ⟨-, heq⟩ | ⟨-, heq⟩ | ⟨hval, s', hs', heq⟩
  · rw [heq]
    exact ⟨lost, bak, log, hfailed h⟩
  · rw [heq]
    exact ⟨lost, bak, log ++ [c.chunk], h.append c⟩
  · have hmoved : ∃ lost' bak' log', Kept chunks lost' bak' log' s' := by
      rcases hs' with ⟨-, rfl⟩ | ⟨-, rfl⟩
      · exact ⟨lost ++ bak, log, [], h.mv (ne_nil_of_rotates hval)⟩
      · exact ⟨lost, bak, log, h.fopen⟩
    rcases hmoved with ⟨lost', bak', log', hkept⟩
    rcases heq with heq | heq
    · rw [heq]
      exact ⟨lost', bak', log', hfailed hkept⟩
    · rw [heq]
      exact ⟨lost', bak', log' ++ [c.chunk], hkept.append c⟩

theorem SmallFiles.append (hbak : s.bak = none ∨ 50 ≤ (contentOf s.bak).length ∧ (contentOf s.bak).length < 70)
    (hlog : (contentOf s.log).length < 50) (c : LogCall) : SmallFiles (s.append c) := by
  refine ⟨?_, hbak⟩
  show (contentOf s.log ++ c.chunk).length < 70
  rw [List.length_append, c.length_chunk]
  omega

/-- One call in which `mv` works if it comes to that. -/
theorem SmallFiles.step (h : SmallFiles s) (c : LogCall) (hmv : c.mv = true) :
    SmallFiles (mainLog c s).1 := by
  have hlen : toInt32 (contentOf s.log).length = (contentOf s.log).length :=
    toInt32_of_lt (by omega) (by have := h.log; omega)
  rcases mainLog_cases c s with ⟨-, heq⟩ | ⟨hval, heq⟩ | ⟨hval, s', hs', heq⟩
  · rw [heq]
    exact h
  · rw [hlen] at hval
    rw [heq]
    exact SmallFiles.append h.bak (by omega) c
  · rw [hlen] at hval
    rcases hs' with ⟨-, rfl⟩ | ⟨hnot, -⟩
    · have hbak : 50 ≤ (contentOf s.log).length ∧ (contentOf s.log).length < 70 := ⟨by omega, h.log⟩
      rcases heq with heq | heq
      · rw [heq]
        exact ⟨show 0 < 70 by omega, Or.inr hbak⟩
      · rw [heq]
        apply SmallFiles.append
        · exact Or.inr hbak
        · show 0 < 50
          omega
    · exact absurd hmv hnot

/-! ## Runs -/

theorem mainLogs_cons (c : LogCall) (cs : List LogCall) (s : LogFiles) :
    mainLogs (c :: cs) s = ((mainLogs cs (mainLog c s).1).1,
      if (mainLog c s).2 = 0 then c.chunk :: (mainLogs cs (mainLog c s).1).2
      else (mainLogs cs (mainLog c s).1).2) := rfl

theorem Kept.run (h : Kept chunks lost bak log s) (cs : List LogCall) : ∃ lost' bak' log',
    Kept (chunks ++ (mainLogs cs s).2) lost' bak' log' (mainLogs cs s).1 := by
  induction cs generalizing chunks lost bak log s with
  | nil =>
    refine ⟨lost, bak, log, ?_⟩
    exact (List.append_nil chunks).symm ▸ h
  | cons c cs ih =>
    rcases h.step c with ⟨lost', bak', log', hstep⟩
    rcases ih hstep with ⟨lost'', bak'', log'', hrest⟩
    refine ⟨lost'', bak'', log'', ?_⟩
    rw [List.append_assoc] at hrest
    have hchunks : (mainLogs (c :: cs) s).2 = (if (mainLog c s).2 = 0 then [c.chunk] else []) ++
        (mainLogs cs (mainLog c s).1).2 := by
      rw [mainLogs_cons]
      dsimp only
      split <;> rfl
    rw [hchunks]
    exact hrest

theorem SmallFiles.run (h : SmallFiles s) (cs : List LogCall) (hmv : ∀ c ∈ cs, c.mv = true) :
    SmallFiles (mainLogs cs s).1 := by
  induction cs generalizing s with
  | nil => exact h
  | cons c cs ih =>
    rw [List.forall_mem_cons] at hmv
    exact ih (h.step c hmv.1) hmv.2

theorem mem_appended {cs : List LogCall} {x : List UInt8} (hx : x ∈ (mainLogs cs s).2) :
    ∃ c ∈ cs, x = c.chunk := by
  induction cs generalizing s with
  | nil => exact absurd hx List.not_mem_nil
  | cons c cs ih =>
    rw [mainLogs_cons] at hx
    dsimp only at hx
    split at hx
    · rcases List.mem_cons.mp hx with rfl | hx
      · exact ⟨c, List.mem_cons_self .., rfl⟩
      · rcases ih hx with ⟨c', hc', heq⟩
        exact ⟨c', List.mem_cons_of_mem _ hc', heq⟩
    · rcases ih hx with ⟨c', hc', heq⟩
      exact ⟨c', List.mem_cons_of_mem _ hc', heq⟩

theorem length_flatten_lines {l : List (List UInt8)} (h : ∀ x ∈ l, x.length = 20) :
    l.flatten.length = 20 * l.length := by
  induction l with
  | nil => rfl
  | cons x l ih =>
    rw [List.forall_mem_cons] at h
    rw [List.flatten_cons, List.length_append, h.1, ih h.2, List.length_cons]
    omega

end

/-- **What the log keeps**: after any calls, `debug_bak.log` and `debug.log` together are the last part of what
    has been appended, and nothing is lost before there is a backup.  If `mv` has always worked neither
    file has 70 bytes; if the disk was never full besides, the backup has three lines and the log
    at most three. -/
theorem main_log_kept (cs : List LogCall) : ∃ lost bak log,
    Kept (mainLogs cs ⟨none, none⟩).2 lost bak log (mainLogs cs ⟨none, none⟩).1 ∧
      ((∀ c ∈ cs, c.mv = true) → SmallFiles (mainLogs cs ⟨none, none⟩).1 ∧
        ((∀ c ∈ cs, 20 ≤ c.room) → log.length ≤ 3 ∧ (bak = [] ∨ bak.length = 3))) := by
  have hstart : Kept [] [] [] [] ⟨none, none⟩ := ⟨rfl, rfl, rfl, fun _ => rfl, iff_of_true rfl rfl⟩
  rcases hstart.run cs with ⟨lost, bak, log, hkept⟩
  rw [List.nil_append] at hkept
  refine ⟨lost, bak, log, hkept, fun hmv => ?_⟩
  have hsmall : SmallFiles (mainLogs cs ⟨none, none⟩).1 := SmallFiles.run ⟨by decide, Or.inl rfl⟩ cs hmv
  refine ⟨hsmall, fun hroom => ?_⟩
  have hlines : ∀ x ∈ lost ++ bak ++ log, x.length = 20 := by
    intro x hx
    rw [hkept.all] at hx
    rcases mem_appended hx with ⟨c, hc, rfl⟩
    rw [c.length_chunk]
    exact Nat.min_eq_right (hroom c hc)
  rw [List.forall_mem_append, List.forall_mem_append] at hlines
  have hlog := hsmall.log
  rw [hkept.inLog, length_flatten_lines hlines.2] at hlog
  refine ⟨by omega, ?_⟩
  rcases hsmall.bak with hnone | hsize
  · have hempty := hkept.inBak
    rw [hnone] at hempty
    have hzero := length_flatten_lines hlines.1.2
    rw [← hempty] at hzero
    have hlen : 0 = 20 * bak.length := hzero
    exact Or.inl (List.eq_nil_of_length_eq_zero (by omega))
  · rw [hkept.inBak, length_flatten_lines hlines.1.2] at hsize
    exact Or.inr (by omega)

end AdhocNode
