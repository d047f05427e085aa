/-
  THE MAPPED FILE — `mmap_write` and `mmap_read` of `src/process_interactive.c`, in two processes.

  1. **The page** — both processes map the first page of `mmap_mem.txt`.  The file has the 4 bytes that
     `mmap_write` puts into an empty file, and stores to the page do not make it longer; so the page
     behind them lives only as long as the kernel keeps it (`reclaim`).  To touch the page of an empty
     file is fatal (SIGBUS).

  2. **The parties** — a step of a process is a system call, one access to the page, or one byte of its
     `strcpy`; the system calls may fail.  Once both are through, the program may be started again.

  3. **What is read** — the base value of the file is 1, which is what `mmap_read` waits for, so it does
     not wait for the text: it may print any part of it, from nothing on (`mmap_reads`).
-/
import AdhocNode.Lib.CStr
import AdhocNode.Lib.Runs
import AdhocNode.ConfFile
import AdhocNode.Mailbox

namespace AdhocNode

open CMem Runs

/-! ## The state -/

/-- The next statement of `mmap_write`; `stSize` is what `fstat` said. -/
inductive MmapWritePc where
  | open
  | fstat
  | write (stSize : Nat)
  | mmap
  | printf
  | setWritten
  | setData
  | strcpy (i : Nat)
  | ended
  | killed
  deriving DecidableEq

/-- The next statement of `mmap_read`. -/
inductive MmapReadPc where
  | open
  | mmap
  | test
  | printf
  | ended
  | killed
  deriving DecidableEq

/-- What is printed. -/
inductive MmapSaid where
  | openFail
  | fstatFail
  | fileSize (size : Nat)
  | mmapFail
  | mapped (writtenByYou data : Int) (someText : List UInt8)
  | read (someText : List UInt8)
  deriving DecidableEq

/-- The file and its page, the two processes, and what they have printed. -/
structure Mmapping where
  present : Bool
  stSize : Nat
  page : Mem
  writer : MmapWritePc
  reader : MmapReadPc
  said : List MmapSaid

/-! ## The page -/

/-- Where `some_text` is in `stshared_use_st`. -/
def someTextOff : Nat := 8

/-- "hello yx.\n" -/
def helloText : List UInt8 := text "hello yx.\n"

/-- An `int` of the page. -/
def intAt (page : Mem) (off : Nat) : Int := toInt32 (leVal (page.slice off 4))

/-- A store to one. -/
def setInt (page : Mem) (off v : Nat) : Mem := page.copy off (leBytes v) 4

/-- The page is read again from the file. -/
def reclaimed (stSize : Nat) (page : Mem) : Mem := fun i => if i < stSize then page i else 0

/-! ## The parties -/

def Mmapping.say (s : Mmapping) (said : MmapSaid) : Mmapping := { s with said := s.said ++ [said] }

/-- A statement of `mmap_write`; `ok` says whether a system call succeeds. -/
def mmapWriteStep (ok : Bool) (s : Mmapping) : Option Mmapping :=
  match s.writer with
  | .open =>
    if ok then
      some { s with present := true, writer := .fstat }
    else some { s.say .openFail with writer := .ended }
  | .fstat =>
    if ok then some { s with writer := .write s.stSize }
    else some { s.say .fstatFail with writer := .ended }
  | .write stSize =>
    -- nobody looks at the result of `write`
    let s := if stSize = 0 ∧ ok = true then
      { s with page := setInt s.page 0 1, stSize := max s.stSize 4 } else s
    some { s.say (.fileSize stSize) with writer := .mmap }
  | .mmap =>
    if ok then some { s with writer := .printf }
    else some { s.say .mmapFail with writer := .ended }
  | .printf =>
    if s.stSize = 0 then some { s with writer := .killed }
    else do
      let someText ← s.page.str? someTextOff textSz
      return { s.say (.mapped (intAt s.page 0) (intAt s.page 4) someText) with writer := .setWritten }
  | .setWritten =>
    if s.stSize = 0 then some { s with writer := .killed }
    else some { s with page := setInt s.page 0 1, writer := .setData }
  | .setData =>
    if s.stSize = 0 then some { s with writer := .killed }
    else some { s with page := setInt s.page 4 2, writer := .strcpy 0 }
  | .strcpy i =>
    if s.stSize = 0 then some { s with writer := .killed }
    else
      let page := Function.update s.page (someTextOff + i) (helloText.getD i 0)
      some { s with page := page, writer := if i < helloText.length then .strcpy (i + 1) else .ended }
  | .ended => some s
  | .killed => some s

/-- A statement of `mmap_read`. -/
def mmapReadStep (ok : Bool) (s : Mmapping) : Option Mmapping :=
  match s.reader with
  | .open =>
    if ok = true ∧ s.present = true then some { s with reader := .mmap }
    else some { s.say .openFail with reader := .ended }
  | .mmap =>
    if ok then some { s with reader := .test }
    else some { s.say .mmapFail with reader := .ended }
  | .test =>
    if s.stSize = 0 then some { s with reader := .killed }
    else some { s with reader := if intAt s.page 0 = 1 then .printf else .test }
  | .printf =>
    if s.stSize = 0 then some { s with reader := .killed }
    else do
      let someText ← s.page.str? someTextOff textSz
      return { s.say (.read someText) with reader := .ended }
  | .ended => some s
  | .killed => some s

/-- What can happen. -/
inductive MmapAct where
  | writer (ok : Bool)
  | reader (ok : Bool)
  | reclaim
  | again
  deriving DecidableEq

/-- Both processes are through. -/
def Mmapping.over (s : Mmapping) : Bool :=
  (s.writer = .ended || s.writer = .killed) && (s.reader = .ended || s.reader = .killed)

/-- One of them. -/
def mmapStep : MmapAct → Mmapping → Option Mmapping
  | .writer ok, s => mmapWriteStep ok s
  | .reader ok, s => mmapReadStep ok s
  | .reclaim, s => some { s with page := reclaimed s.stSize s.page }
  | .again, s => if s.over then some { s with writer := .open, reader := .open } else none

/-- There is no file yet. -/
def mmapStart : Mmapping := ⟨false, 0, fun _ => 0, .open, .open, []⟩

/-! ## What is in the page -/

/-- The file is empty, or says that the text is written; of the text there are some bytes. -/
structure MmapInv (s : Mmapping) : Prop where
  size : s.stSize = 0 ∨ s.stSize = 4
  flag : s.stSize ≠ 0 → intAt s.page 0 = 1
  someText : s.page.Torn someTextOff helloText
  said : ∀ t, MmapSaid.read t ∈ s.said → ∃ k ≤ helloText.length, t = helloText.take k

section

variable {s s' : Mmapping} {page page' : Mem}

theorem intAt_setInt (page : Mem) : intAt (setInt page 0 1) 0 = 1 := by
  unfold intAt setInt
  rw [Mem.slice_copy_self, leVal_slice_leBytes]
  rfl

theorem intAt_congr (h : ∀ i < 4, page' i = page i) : intAt page' 0 = intAt page 0 := by
  have hslice : page'.slice 0 4 = page.slice 0 4 := by
    apply Mem.slice_congr
    intro i hi
    rw [Nat.zero_add]
    exact h i hi
  unfold intAt
  rw [hslice]

theorem torn_setInt (h : page.Torn someTextOff helloText) {off : Nat} (hoff : off + 4 ≤ someTextOff)
    (v : Nat) : (setInt page off v).Torn someTextOff helloText := by
  intro i
  unfold setInt
  rw [Mem.copy_apply_of_ge (by omega)]
  exact h i

/-- A store to the page. -/
inductive PageStore (page : Mem) : Mem → Prop
  | kept : PageStore page page
  | written : PageStore page (setInt page 0 1)
  | data : PageStore page (setInt page 4 2)
  | byte (i : Nat) : PageStore page (Function.update page (someTextOff + i) (helloText.getD i 0))

theorem PageStore.flag (h : PageStore page page') (hflag : intAt page 0 = 1) : intAt page' 0 = 1 := by
  cases h with
  | kept => exact hflag
  | written => exact intAt_setInt page
  | data =>
    rw [← hflag]
    apply intAt_congr
    intro i hi
    exact Mem.copy_apply_of_lt hi
  | byte i =>
    rw [← hflag]
    apply intAt_congr
    intro j hj
    unfold someTextOff
    exact Function.update_of_ne (by omega) _ _

theorem PageStore.torn (h : PageStore page page') (htorn : page.Torn someTextOff helloText) :
    page'.Torn someTextOff helloText := by
  cases h with
  | kept => exact htorn
  | written => exact torn_setInt htorn (by decide) 1
  | data => exact torn_setInt htorn (by decide) 2
  | byte i =>
    intro j
    by_cases hj : j = i
    · rw [hj, Function.update_self]
      exact Or.inr rfl
    · rw [Function.update_of_ne (by omega)]
      exact htorn j

/-- **What a statement of `mmap_write` does**: it stores to the page, unless it makes the file. -/
theorem mmapWriteStep_cases {ok : Bool} (hstep : mmapWriteStep ok s = some s') :
    PageStore s.page s'.page ∧
      (s'.stSize = s.stSize ∨ s'.stSize = max s.stSize 4 ∧ intAt s'.page 0 = 1) ∧
      ∃ said, s'.said = s.said ++ said ∧ ∀ t, MmapSaid.read t ∉ said := by
  unfold mmapWriteStep at hstep
  cases hpc : s.writer with
  | «open» =>
    rw [hpc] at hstep
    cases ok <;> cases hstep
    · exact ⟨.kept, Or.inl rfl, [.openFail], rfl, by simp⟩
    · exact ⟨.kept, Or.inl rfl, [], (List.append_nil _).symm, by simp⟩
  | fstat =>
    rw [hpc] at hstep
    cases ok <;> cases hstep
    · exact ⟨.kept, Or.inl rfl, [.fstatFail], rfl, by simp⟩
    · exact ⟨.kept, Or.inl rfl, [], (List.append_nil _).symm, by simp⟩
  | write stSize =>
    rw [hpc] at hstep
    dsimp only at hstep
    split at hstep
    · cases hstep
      exact ⟨.written, Or.inr ⟨rfl, intAt_setInt s.page⟩, [.fileSize stSize], rfl, by simp⟩
    · cases hstep
      exact ⟨.kept, Or.inl rfl, [.fileSize stSize], rfl, by simp⟩
  | mmap =>
    rw [hpc] at hstep
    cases ok <;> cases hstep
    · exact ⟨.kept, Or.inl rfl, [.mmapFail], rfl, by simp⟩
    · exact ⟨.kept, Or.inl rfl, [], (List.append_nil _).symm, by simp⟩
  | printf =>
    rw [hpc] at hstep
    dsimp only at hstep
    split at hstep
    · cases hstep
      exact ⟨.kept, Or.inl rfl, [], (List.append_nil _).symm, by simp⟩
    · rcases Option.bind_eq_some_iff.mp hstep with ⟨someText, -, heq⟩
      cases heq
      exact ⟨.kept, Or.inl rfl, [.mapped _ _ someText], rfl, by simp⟩
  | setWritten =>
    rw [hpc] at hstep
    dsimp only at hstep
    split at hstep <;> cases hstep
    · exact ⟨.kept, Or.inl rfl, [], (List.append_nil _).symm, by simp⟩
    · exact ⟨.written, Or.inl rfl, [], (List.append_nil _).symm, by simp⟩
  | setData =>
    rw [hpc] at hstep
    dsimp only at hstep
    split at hstep <;> cases hstep
    · exact ⟨.kept, Or.inl rfl, [], (List.append_nil _).symm, by simp⟩
    · exact ⟨.data, Or.inl rfl, [], (List.append_nil _).symm, by simp⟩
  | strcpy i =>
    rw [hpc] at hstep
    dsimp only at hstep
    split at hstep <;> cases hstep
    · exact ⟨.kept, Or.inl rfl, [], (List.append_nil _).symm, by simp⟩
    · exact ⟨.byte i, Or.inl rfl, [], (List.append_nil _).symm, by simp⟩
  | ended =>
    rw [hpc] at hstep
    cases hstep
    exact ⟨.kept, Or.inl rfl, [], (List.append_nil _).symm, by simp⟩
  | killed =>
    rw [hpc] at hstep
    cases hstep
    exact ⟨.kept, Or.inl rfl, [], (List.append_nil _).symm, by simp⟩

/-- **What a statement of `mmap_read` does**: it leaves the file alone, and reads the text at most. -/
theorem mmapReadStep_cases {ok : Bool} (hstep : mmapReadStep ok s = some s') :
    s'.page = s.page ∧ s'.stSize = s.stSize ∧ ∃ said, s'.said = s.said ++ said ∧
      ∀ t, MmapSaid.read t ∈ said → s.page.str? someTextOff textSz = some t := by
  unfold mmapReadStep at hstep
  cases hpc : s.reader with
  | «open» =>
    rw [hpc] at hstep
    dsimp only at hstep
    split at hstep <;> cases hstep
    · exact ⟨rfl, rfl, [], (List.append_nil _).symm, by simp⟩
    · exact ⟨rfl, rfl, [.openFail], rfl, by simp⟩
  | mmap =>
    rw [hpc] at hstep
    cases ok <;> cases hstep
    · exact ⟨rfl, rfl, [.mmapFail], rfl, by simp⟩
    · exact ⟨rfl, rfl, [], (List.append_nil _).symm, by simp⟩
  | test =>
    rw [hpc] at hstep
    dsimp only at hstep
    split at hstep <;> cases hstep
    · exact ⟨rfl, rfl, [], (List.append_nil _).symm, by simp⟩
    · exact ⟨rfl, rfl, [], (List.append_nil _).symm, by simp⟩
  | printf =>
    rw [hpc] at hstep
    dsimp only at hstep
    split at hstep
    · cases hstep
      exact ⟨rfl, rfl, [], (List.append_nil _).symm, by simp⟩
    · rcases Option.bind_eq_some_iff.mp hstep with ⟨someText, hread, heq⟩
      cases heq
      refine ⟨rfl, rfl, [.read someText], rfl, fun t ht => ?_⟩
      cases List.mem_singleton.mp ht
      exact hread
  | ended =>
    rw [hpc] at hstep
    cases hstep
    exact ⟨rfl, rfl, [], (List.append_nil _).symm, by simp⟩
  | killed =>
    rw [hpc] at hstep
    cases hstep
    exact ⟨rfl, rfl, [], (List.append_nil _).symm, by simp⟩

/-- **Whatever happens.** -/
theorem MmapInv.step (h : MmapInv s) {act : MmapAct} (hstep : mmapStep act s = some s') : MmapInv s' := by
  cases act with
  | writer ok =>
    rcases mmapWriteStep_cases hstep with ⟨hstore, hsize, said, hsaid, hno⟩
    refine ⟨?_, fun hne => ?_, hstore.torn h.someText, fun t ht => ?_⟩
    · rcases hsize with hsize | ⟨hsize, -⟩
      · rw [hsize]
        exact h.size
      · have := h.size
        omega
    · rcases hsize with hsize | ⟨-, hflag⟩
      · exact hstore.flag (h.flag (hsize ▸ hne))
      · exact hflag
    · rw [hsaid] at ht
      exact h.said t ((List.mem_append.mp ht).resolve_right (hno t))
  | reader ok =>
    rcases mmapReadStep_cases hstep with ⟨hpage, hsize, said, hsaid, hread⟩
    refine ⟨hsize ▸ h.size, ?_, hpage ▸ h.someText, fun t ht => ?_⟩
    · rw [hsize, hpage]
      exact h.flag
    · rw [hsaid] at ht
      rcases List.mem_append.mp ht with ht | ht
      · exact h.said t ht
      · rcases Mem.str?_of_torn h.someText (show helloText.length < textSz by decide) with ⟨k, hk, hstr⟩
        exact ⟨k, hk, Option.some.inj ((hread t ht).symm.trans hstr)⟩
  | reclaim =>
    cases hstep
    refine ⟨h.size, fun hne => ?_, fun i => ?_, h.said⟩
    · rw [← h.flag hne]
      apply intAt_congr
      intro i hi
      have hfour : s.stSize = 4 := h.size.resolve_left hne
      exact if_pos (by rw [hfour]; exact hi)
    · show reclaimed s.stSize s.page (someTextOff + i) = 0 ∨
        reclaimed s.stSize s.page (someTextOff + i) = helloText.getD i 0
      unfold reclaimed
      split
      · exact h.someText i
      · exact Or.inl rfl
  | again =>
    rw [mmapStep] at hstep
    split at hstep <;> cases hstep
    exact ⟨h.size, h.flag, h.someText, h.said⟩

theorem mmapInv_start : MmapInv mmapStart :=
  ⟨Or.inl rfl, fun h => absurd rfl h, fun _ => Or.inl rfl, nofun⟩

end

/-! ## What is read -/

/-- `mmap_write` stores `k` bytes of the text, and `mmap_read` comes in between. -/
def readBehind (k : Nat) : List MmapAct :=
  List.replicate (7 + k) (.writer true) ++ List.replicate 4 (.reader true)

theorem run_readBehind : ∀ k : Fin 11, ((run mmapStep mmapStart (readBehind k)).map fun s =>
    decide (MmapSaid.read (helloText.take k) ∈ s.said)) = some true := by
  decide +kernel

/-- **`mmap_read` prints any first part of the text**, from nothing to all of it, and nothing else, however often
    the program runs and whatever the kernel does with the page. -/
theorem mmap_reads (t : List UInt8) :
    (∃ acts s, run mmapStep mmapStart acts = some s ∧ MmapSaid.read t ∈ s.said) ↔
      ∃ k ≤ helloText.length, t = helloText.take k := by
  constructor
  · rintro ⟨acts, s, hrun, ht⟩
    have h : MmapInv s := inv_of_run (fun _ _ _ h => h.step) mmapInv_start hrun
    exact h.said t ht
  · rintro ⟨k, hk, rfl⟩
    have hten : helloText.length = 10 := by decide
    have hlt : k < 11 := by omega
    rcases Option.map_eq_some_iff.mp (run_readBehind ⟨k, hlt⟩) with ⟨s, hs, hmem⟩
    exact ⟨readBehind k, s, hs, of_decide_eq_true hmem⟩

end AdhocNode
