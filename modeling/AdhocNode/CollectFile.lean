/-
  WHAT REACHES THE COLLECT FILE — the blocks that `thread_collect` appends and the bytes that
  `collectNoise` writes.

  1. **Recorded once** — `RecordedOnce blocks fp`: the bytes of the `fwrite` calls are the blocks one
     after the other, and each block is in exactly one of the calls.

  2. **The condition** (`RecordOk`) — `collectNoise` writes all of `g_collBuf` whenever it is called,
     and `len` is never set back.  So there must be one call only: behind the last append, and before
     `collect` leaves its loop.

  3. **Runs** — `recordedOnce_iff`: of the interleavings in which both loops end, those that meet the
     condition are the ones that record every block once.  `Recording` is what the steps under the
     condition keep, `Spoiled` what any other step leaves behind for good.
-/
import AdhocNode.Collect
import AdhocNode.Lib.Runs

namespace AdhocNode

open CMem Runs

/-! ## Recorded once -/

/-- The blocks that the next statement of a party appends to `g_collBuf`. -/
def appendsBlock : CollectParty → Collecting → List (List UInt8)
  | .collect, _ => []
  | .thread, s => if s.thread = .memcpy then [arr.slice 0 80] else []

/-- What `collectNoise` has written to the file, call by call. -/
def noiseWrites (fp : List FileCall) : List (List UInt8) :=
  fp.filterMap fun
    | .fwrite bytes => some bytes
    | .fprintf _ => none

/-- **Every block is recorded exactly once**, in order.  `collectNoise` writes from the start of the
    buffer, so block `j` is in the writes of `80 * (j + 1)` bytes and more. -/
structure RecordedOnce (blocks : List (List UInt8)) (fp : List FileCall) : Prop where
  bytes : (noiseWrites fp).flatten = blocks.flatten
  once : ∀ j, j < blocks.length →
    ((noiseWrites fp).filter fun w => 80 * (j + 1) ≤ w.length).length = 1

/-- `collect` is about to see that `count` is 0, and to leave its loop. -/
def Collecting.leaving (s : Collecting) : Bool :=
  (s.collect = .whileCount ∨ s.collect = .testZero) ∧ s.collBuf.count = 0

/-- **The condition of a step**: `collectNoise` is called once, nothing is added to the buffer behind
    that call, and `collect` does not leave before it. -/
def RecordOk : CollectParty → Collecting → Prop
  | .collect, s => (s.collect = .callback → noiseWrites s.fp = []) ∧
    (s.leaving = true → noiseWrites s.fp ≠ [])
  | .thread, s => s.thread = .addLen → noiseWrites s.fp = []

instance : ∀ (p : CollectParty) (s : Collecting), Decidable (RecordOk p s)
  | .collect, s => inferInstanceAs (Decidable ((s.collect = .callback → noiseWrites s.fp = []) ∧
      (s.leaving = true → noiseWrites s.fp ≠ [])))
  | .thread, s => inferInstanceAs (Decidable (s.thread = .addLen → noiseWrites s.fp = []))

/-! ## What a statement does to buffer and file -/

section

variable {s s' : Collecting} {blocks : List (List UInt8)}

theorem noiseWrites_fprintf (fp : List FileCall) (text : String) :
    noiseWrites (fp ++ [.fprintf text]) = noiseWrites fp := by
  rw [noiseWrites, List.filterMap_append]
  exact List.append_nil _

theorem noiseWrites_fwrite (fp : List FileCall) (bytes : List UInt8) :
    noiseWrites (fp ++ [.fwrite bytes]) = noiseWrites fp ++ [bytes] := by
  rw [noiseWrites, List.filterMap_append]
  rfl

/-- The bytes in use. -/
def CollectBuf.bytes (buf : CollectBuf) : List UInt8 := buf.data.slice 0 buf.len.toNat

/-- What a statement of `collect` does. -/
structure CollectMove (s s' : Collecting) : Prop where
  thread : s'.thread = s.thread
  len : s'.collBuf.len = s.collBuf.len
  data : s'.collBuf.data = s.collBuf.data
  callback : s'.collect = .callback → 0 < s.collBuf.len
  writes : noiseWrites s'.fp =
    noiseWrites s.fp ++ if s.collect = .callback then [s.collBuf.bytes] else []
  ended : s'.collect = .ended ↔ s.collect = .ended ∨ s.leaving = true

/-- A statement of `collect` other than the callback. -/
theorem collectMove_of_ne {pc : CollectPc} {fp : List FileCall} {count : UInt32}
    (hpc : s.collect ≠ .callback) (hcallback : pc = .callback → 0 < s.collBuf.len)
    (hfp : noiseWrites fp = noiseWrites s.fp)
    (hended : pc = .ended ↔ s.collect = .ended ∨ s.leaving = true) :
    CollectMove s { s with collBuf := { s.collBuf with count := count }, fp := fp, collect := pc } where
  thread := rfl
  len := rfl
  data := rfl
  callback := hcallback
  writes := by rw [if_neg hpc, List.append_nil]; exact hfp
  ended := hended

theorem leaving_iff : s.leaving = true ↔
    (s.collect = .whileCount ∨ s.collect = .testZero) ∧ s.collBuf.count = 0 := decide_eq_true_iff

/-- Neither ended nor at a test of `count`, `collect` does not end. -/
theorem not_ended_or_leaving {pc : CollectPc} (hpc : s.collect = pc)
    (hne : pc ≠ .ended ∧ pc ≠ .whileCount ∧ pc ≠ .testZero) :
    ¬ (s.collect = .ended ∨ s.leaving = true) := by
  subst hpc
  rcases hne with ⟨hended, hwhile, htest⟩
  rintro (h | h)
  · exact hended h
  · rcases (leaving_iff.mp h).1 with h | h
    · exact hwhile h
    · exact htest h

theorem collectStep_move (h : collectStep .noise s = some s') : CollectMove s s' := by
  rw [collectStep] at h
  cases hpc : s.collect with
  | whileCount =>
    rw [hpc] at h
    cases h
    apply collectMove_of_ne (by rw [hpc]; nofun) ?_ rfl
    · rw [leaving_iff, hpc]
      by_cases hcount : s.collBuf.count = 0
      · rw [if_neg (not_not.mpr hcount)]
        exact ⟨fun _ => Or.inr ⟨Or.inl rfl, hcount⟩, fun _ => rfl⟩
      · rw [if_pos hcount]
        exact ⟨nofun, fun hor => absurd (hor.resolve_left nofun).2 hcount⟩
    · intro hcall
      split at hcall <;> exact nomatch hcall
  | fprintf =>
    rw [hpc] at h
    cases h
    have hnot := not_ended_or_leaving hpc (by decide)
    exact collectMove_of_ne (by rw [hpc]; nofun) nofun (noiseWrites_fprintf ..)
      ⟨nofun, fun hor => absurd hor hnot⟩
  | sleep | printf | decrement =>
    rw [hpc] at h
    cases h
    have hnot := not_ended_or_leaving hpc (by decide)
    exact collectMove_of_ne (by rw [hpc]; nofun) nofun rfl ⟨nofun, fun hor => absurd hor hnot⟩
  | testLen =>
    rw [hpc] at h
    cases h
    have hnot := not_ended_or_leaving hpc (by decide)
    apply collectMove_of_ne (by rw [hpc]; nofun) ?_ rfl
    · refine ⟨fun hend => ?_, fun hor => absurd hor hnot⟩
      split at hend <;> exact nomatch hend
    · intro hcall
      split at hcall
      · assumption
      · exact nomatch hcall
  | callback =>
    rw [hpc] at h
    rcases Option.bind_eq_some_iff.mp h with ⟨fp, hfp, hs'⟩
    cases hs'
    have hwrite : fp = s.fp ++ [.fwrite s.collBuf.bytes] := by
      rw [collectFuncArr, collectNoise] at hfp
      split at hfp
      · cases hfp
        rfl
      · exact nomatch hfp
    have hnot := not_ended_or_leaving hpc (by decide)
    refine ⟨rfl, rfl, rfl, nofun, ?_, nofun, fun hor => absurd hor hnot⟩
    rw [if_pos hpc]
    show noiseWrites fp = _
    rw [hwrite]
    exact noiseWrites_fwrite ..
  | testZero =>
    rw [hpc] at h
    cases h
    apply collectMove_of_ne (by rw [hpc]; nofun) ?_ rfl
    · rw [leaving_iff, hpc]
      by_cases hcount : s.collBuf.count = 0
      · rw [if_pos hcount]
        exact ⟨fun _ => Or.inr ⟨Or.inr rfl, hcount⟩, fun _ => rfl⟩
      · rw [if_neg hcount]
        exact ⟨nofun, fun hor => absurd (hor.resolve_left nofun).2 hcount⟩
    · intro hcall
      split at hcall <;> exact nomatch hcall
  | ended =>
    rw [hpc] at h
    cases h
    refine ⟨rfl, rfl, rfl, ?_, ?_, fun _ => Or.inl hpc, fun _ => hpc⟩
    · rw [hpc]
      nofun
    · rw [if_neg (by rw [hpc]; nofun), List.append_nil]

/-- `thread_collect` has appended in this round. -/
def ThreadPc.behindAppend : ThreadPc → Bool
  | .decrement | .testZero | .ended => true
  | .testCount | .memcpy | .addLen => false

/-- What a statement of `thread_collect` does. -/
inductive ThreadMove (s : Collecting) : Collecting → Prop
  | memcpy (hpc : s.thread = .memcpy) (hlen : 0 ≤ s.collBuf.len) : ThreadMove s
      { s with
        collBuf := { s.collBuf with data := s.collBuf.data.copy s.collBuf.len.toNat arr 80 }
        thread := .addLen }
  | addLen (hpc : s.thread = .addLen) : ThreadMove s
      { s with collBuf := { s.collBuf with len := s.collBuf.len + 80 }, thread := .decrement }
  | other {count : UInt32} {pc : ThreadPc} (hmemcpy : s.thread ≠ .memcpy)
      (haddLen : s.thread ≠ .addLen) (hpc : pc ≠ .addLen)
      (hbehind : pc.behindAppend = true → s.thread.behindAppend = true) : ThreadMove s
      { s with collBuf := { s.collBuf with count := count }, thread := pc }

theorem threadStep_move (h : threadStep s = some s') : ThreadMove s s' := by
  rw [threadStep] at h
  cases hpc : s.thread with
  | testCount =>
    rw [hpc] at h
    cases h
    apply ThreadMove.other (by rw [hpc]; nofun) (by rw [hpc]; nofun)
    · split <;> nofun
    · intro hbehind
      split at hbehind <;> exact nomatch hbehind
  | memcpy =>
    rw [hpc] at h
    rcases Option.bind_eq_some_iff.mp h with ⟨buf, hbuf, hs'⟩
    cases hs'
    rw [CollectBuf.append] at hbuf
    split at hbuf
    · rename_i hlen
      rcases Option.bind_eq_some_iff.mp hbuf with ⟨data, hdata, hsome⟩
      cases hsome
      rcases Mem.copyIn?_eq_some.mp hdata with ⟨-, -, rfl⟩
      exact ThreadMove.memcpy hpc hlen
    · exact nomatch hbuf
  | addLen =>
    rw [hpc] at h
    cases h
    exact ThreadMove.addLen hpc
  | decrement =>
    rw [hpc] at h
    cases h
    exact ThreadMove.other (by rw [hpc]; nofun) (by rw [hpc]; nofun) nofun fun _ => by rw [hpc]; rfl
  | testZero =>
    rw [hpc] at h
    cases h
    apply ThreadMove.other (by rw [hpc]; nofun) (by rw [hpc]; nofun)
    · split <;> nofun
    · intro _
      rw [hpc]
      rfl
  | ended =>
    rw [hpc] at h
    cases h
    exact ThreadMove.other (by rw [hpc]; nofun) (by rw [hpc]; nofun) (by rw [hpc]; nofun) id

/-! ## The invariant, and what spoils it -/

/-- What holds in any case: the blocks lie in the buffer in order, `len` counts all of them but one
    that was just copied, and every write is one of a block at least. -/
structure Appending (s : Collecting) (blocks : List (List UInt8)) : Prop where
  len : s.collBuf.len + (if s.thread = .addLen then 80 else 0) = 80 * blocks.length
  len_nonneg : 0 ≤ s.collBuf.len
  data : s.collBuf.data.slice 0 (80 * blocks.length) = blocks.flatten
  behind : s.thread.behindAppend = true → 0 < blocks.length
  callback : s.collect = .callback → 0 < s.collBuf.len
  writes : ∀ w ∈ noiseWrites s.fp, 80 ≤ w.length

/-- What holds under the condition: nothing has been written, or exactly what is in use. -/
structure Recording (s : Collecting) (blocks : List (List UInt8)) : Prop where
  appending : Appending s blocks
  writes : noiseWrites s.fp = [] ∨ noiseWrites s.fp = [s.collBuf.bytes]
  ended : s.collect = .ended → noiseWrites s.fp ≠ []

/-- What a step that does not meet it leaves: two writes, a write that is too short, or none in the
    whole run. -/
structure Spoiled (s : Collecting) (blocks : List (List UInt8)) : Prop where
  appending : Appending s blocks
  spoiled : 1 < (noiseWrites s.fp).length ∨ (∃ w ∈ noiseWrites s.fp, w.length < s.collBuf.len) ∨
    s.collect = .ended ∧ noiseWrites s.fp = []

theorem length_bytes (buf : CollectBuf) : buf.bytes.length = buf.len.toNat := Mem.length_slice ..

/-- `collect` does not append. -/
theorem Appending.collect (h : Appending s blocks) (hmove : CollectMove s s') :
    Appending s' blocks := by
  rcases hmove with ⟨hthread, hlen, hdata, hcallback, hwrites, -⟩
  refine ⟨?_, by rw [hlen]; exact h.len_nonneg, by rw [hdata]; exact h.data,
    by rw [hthread]; exact h.behind, by rw [hlen]; exact hcallback, ?_⟩
  · rw [hlen, hthread]
    exact h.len
  · intro w hw
    rw [hwrites] at hw
    rcases List.mem_append.mp hw with hw | hw
    · exact h.writes w hw
    · split at hw
      · rename_i hpc
        have hpos := h.callback hpc
        have hcount := h.len
        rw [List.mem_singleton.mp hw, length_bytes]
        split at hcount <;> omega
      · cases hw

/-- A block is copied behind the blocks that lie there, and `len` follows one statement later. -/
theorem Appending.thread (h : Appending s blocks) (hmove : ThreadMove s s') :
    Appending s' (blocks ++ appendsBlock .thread s) := by
  have hnonneg := h.len_nonneg
  have hcount := h.len
  cases hmove with
  | memcpy hpc hlen =>
    rw [hpc, if_neg nofun] at hcount
    have hused : s.collBuf.len.toNat = 80 * blocks.length := by omega
    have hblock : appendsBlock .thread s = [arr.slice 0 80] := if_pos hpc
    rw [hblock]
    refine ⟨?_, hnonneg, ?_, nofun, h.callback, h.writes⟩
    · show s.collBuf.len + 80 = _
      rw [List.length_append, List.length_singleton]
      omega
    · show (s.collBuf.data.copy s.collBuf.len.toNat arr 80).slice 0 _ = _
      rw [List.length_append, List.length_singleton, Nat.mul_add, hused, Mem.slice_copy_append,
        h.data, List.flatten_append]
      rw [List.flatten_singleton]
  | addLen hpc =>
    rw [hpc, if_pos rfl] at hcount
    have hblock : appendsBlock .thread s = [] := if_neg (by rw [hpc]; nofun)
    rw [hblock, List.append_nil]
    refine ⟨?_, ?_, h.data, ?_, ?_, h.writes⟩
    · show s.collBuf.len + 80 + 0 = _
      omega
    · show 0 ≤ s.collBuf.len + 80
      omega
    · intro _
      omega
    · intro _
      show 0 < s.collBuf.len + 80
      omega
  | @other count pc hmemcpy haddLen hpc hbehind =>
    rw [if_neg haddLen] at hcount
    have hblock : appendsBlock .thread s = [] := if_neg hmemcpy
    rw [hblock, List.append_nil]
    refine ⟨?_, hnonneg, h.data, fun hb => h.behind (hbehind hb), h.callback, h.writes⟩
    show s.collBuf.len + (if pc = .addLen then 80 else 0) = _
    rw [if_neg hpc]
    exact hcount

/-- **A statement of `collect`**: the callback of a second round, and an end without a callback, are
    what spoils the file. -/
theorem Recording.collect (h : Recording s blocks) (hmove : CollectMove s s') :
    (RecordOk .collect s → Recording s' blocks) ∧ (¬ RecordOk .collect s → Spoiled s' blocks) := by
  have happ := h.appending.collect hmove
  rcases hmove with ⟨-, hlen, hdata, -, hwrites, hended⟩
  have hbytes : s'.collBuf.bytes = s.collBuf.bytes := by
    rw [CollectBuf.bytes, hlen, hdata]
    rfl
  by_cases hpc : s.collect = .callback
  · rw [if_pos hpc] at hwrites
    constructor
    · rintro ⟨hfirst, -⟩
      rw [hfirst hpc, List.nil_append] at hwrites
      refine ⟨happ, Or.inr (by rw [hwrites, hbytes]), fun _ => ?_⟩
      rw [hwrites]
      exact List.cons_ne_nil _ _
    · intro hnot
      have hleaving : s.leaving ≠ true := fun hleave =>
        not_ended_or_leaving hpc (by decide) (Or.inr hleave)
      have hsecond : noiseWrites s.fp ≠ [] := fun hnil =>
        hnot ⟨fun _ => hnil, fun hleave => absurd hleave hleaving⟩
      refine ⟨happ, Or.inl ?_⟩
      rw [hwrites, List.length_append, List.length_singleton]
      have hpos := List.length_pos_iff.mpr hsecond
      omega
  · rw [if_neg hpc, List.append_nil] at hwrites
    constructor
    · rintro ⟨-, hleave⟩
      refine ⟨happ, by rw [hwrites, hbytes]; exact h.writes, fun hend => ?_⟩
      rw [hwrites]
      rcases hended.mp hend with hend | hleaving
      · exact h.ended hend
      · exact hleave hleaving
    · intro hnot
      rcases Classical.not_and_iff_not_or_not.mp hnot with hcall | hleave
      · exact absurd (fun hcall => absurd hcall hpc) hcall
      · rcases Classical.not_imp.mp hleave with ⟨hleaving, hnone⟩
        refine ⟨happ, Or.inr (Or.inr ⟨hended.mpr (Or.inr hleaving), ?_⟩)⟩
        rw [hwrites]
        exact not_not.mp hnone

/-- **A statement of `thread_collect`**: what is added behind a write is missing from it. -/
theorem Recording.thread (h : Recording s blocks) (hmove : ThreadMove s s') :
    (RecordOk .thread s → Recording s' (blocks ++ appendsBlock .thread s)) ∧
      (¬ RecordOk .thread s → Spoiled s' (blocks ++ appendsBlock .thread s)) := by
  have happ := h.appending.thread hmove
  have hnonneg := h.appending.len_nonneg
  cases hmove with
  | memcpy hpc hlen =>
    refine ⟨fun _ => ⟨happ, ?_, h.ended⟩, fun hnot => ?_⟩
    · show _ ∨ noiseWrites s.fp = [(s.collBuf.data.copy s.collBuf.len.toNat arr 80).slice 0 _]
      rw [Mem.slice_copy_before (by rw [Nat.zero_add])]
      exact h.writes
    · exact absurd (fun hadd => by rw [hpc] at hadd; exact nomatch hadd) hnot
  | addLen hpc =>
    constructor
    · intro hok
      exact ⟨happ, Or.inl (hok hpc), h.ended⟩
    · intro hnot
      rcases Classical.not_imp.mp hnot with ⟨-, hsome⟩
      have hwrite := h.writes.resolve_left hsome
      refine ⟨happ, Or.inr (Or.inl ⟨s.collBuf.bytes, ?_, ?_⟩)⟩
      · show _ ∈ noiseWrites s.fp
        rw [hwrite]
        exact List.mem_singleton_self _
      · show (s.collBuf.bytes.length : Int) < s.collBuf.len + 80
        rw [length_bytes]
        omega
  | other hmemcpy haddLen hpc hbehind =>
    exact ⟨fun _ => ⟨happ, h.writes, h.ended⟩, fun hnot => absurd (fun hadd => absurd hadd haddLen) hnot⟩

/-- What is spoiled stays so. -/
theorem Spoiled.collect (h : Spoiled s blocks) (hmove : CollectMove s s') : Spoiled s' blocks := by
  have happ := h.appending.collect hmove
  rcases hmove with ⟨-, hlen, -, -, hwrites, hended⟩
  refine ⟨happ, ?_⟩
  rcases h.spoiled with htwo | ⟨w, hw, hshort⟩ | ⟨hend, hnone⟩
  · rw [hwrites, List.length_append]
    exact Or.inl (by omega)
  · refine Or.inr (Or.inl ⟨w, ?_, by rw [hlen]; exact hshort⟩)
    rw [hwrites]
    exact List.mem_append_left _ hw
  · refine Or.inr (Or.inr ⟨hended.mpr (Or.inl hend), ?_⟩)
    rw [hwrites, if_neg (by rw [hend]; nofun), List.append_nil]
    exact hnone

/-- More blocks do not help a file with too few or too many writes. -/
theorem Spoiled.thread (h : Spoiled s blocks) (hmove : ThreadMove s s') :
    Spoiled s' (blocks ++ appendsBlock .thread s) := by
  have happ := h.appending.thread hmove
  cases hmove with
  | memcpy hpc hlen => exact ⟨happ, h.spoiled⟩
  | addLen hpc =>
    refine ⟨happ, ?_⟩
    rcases h.spoiled with htwo | ⟨w, hw, hshort⟩ | hnone
    · exact Or.inl htwo
    · refine Or.inr (Or.inl ⟨w, hw, ?_⟩)
      show (w.length : Int) < s.collBuf.len + 80
      omega
    · exact Or.inr (Or.inr hnone)
  | other hmemcpy haddLen hpc hbehind => exact ⟨happ, h.spoiled⟩

/-! ## When both have ended -/

/-- When the thread has ended, `len` is the length of all blocks, and there is one. -/
theorem Appending.ended (h : Appending s blocks) (hthread : s.thread = .ended) :
    s.collBuf.len = 80 * blocks.length ∧ 0 < blocks.length := by
  have hlen := h.len
  rw [if_neg (by rw [hthread]; nofun)] at hlen
  exact ⟨by omega, h.behind (by rw [hthread]; rfl)⟩

/-- A single write of the whole buffer records every block once. -/
theorem Recording.recordedOnce (h : Recording s blocks) (hcollect : s.collect = .ended)
    (hthread : s.thread = .ended) : RecordedOnce blocks s.fp := by
  rcases h.appending.ended hthread with ⟨hlen, -⟩
  have hwrite := h.writes.resolve_left (h.ended hcollect)
  have hused : s.collBuf.len.toNat = 80 * blocks.length := by omega
  constructor
  · rw [hwrite, List.flatten_singleton, CollectBuf.bytes, hused, h.appending.data]
  · intro j hj
    have hlong : ∀ w ∈ [s.collBuf.bytes], 80 * (j + 1) ≤ w.length := by
      intro w hw
      rw [List.mem_singleton.mp hw, length_bytes]
      omega
    rw [hwrite, List.filter_eq_self.mpr fun w hw => decide_eq_true (hlong w hw)]
    rfl

/-- Two writes record the first block twice; a short one lacks the last block; none lacks all. -/
theorem Spoiled.not_recordedOnce (h : Spoiled s blocks) (hthread : s.thread = .ended) :
    ¬ RecordedOnce blocks s.fp := by
  intro hrec
  rcases h.appending.ended hthread with ⟨hlen, hpos⟩
  -- every write has the first block
  have hfirst := hrec.once 0 hpos
  rw [List.filter_eq_self.mpr fun w hw => decide_eq_true (h.appending.writes w hw)] at hfirst
  rcases h.spoiled with htwo | ⟨w, hw, hshort⟩ | ⟨-, hnone⟩
  · omega
  · rcases List.length_eq_one_iff.mp hfirst with ⟨w', hw'⟩
    rw [hw', List.mem_singleton] at hw
    -- the only write lacks the last block
    have hlast := hrec.once (blocks.length - 1) (by omega)
    have hless : ¬ 80 * (blocks.length - 1 + 1) ≤ w'.length := by
      rw [← hw]
      omega
    rw [hw', List.filter_cons_of_neg (by simpa using hless)] at hlast
    exact nomatch hlast
  · rw [hnone] at hfirst
    exact nomatch hfirst

end

/-! ## Runs -/

/-- Nothing is collected and nothing is written before the first statement. -/
theorem recording_start (count : Int32) : Recording (collectStart count) [] where
  appending := {
    len := rfl
    len_nonneg := Int.le_refl _
    data := rfl
    behind := nofun
    callback := nofun
    writes := nofun }
  writes := Or.inl rfl
  ended := nofun

/-- The parties, and the blocks appended so far. -/
def recordingStep : CollectParty → Collecting × List (List UInt8) →
    Option (Collecting × List (List UInt8)) :=
  logged (collectingStep .noise) appendsBlock

/-- **Every block is recorded once iff `collectNoise` is called once, behind the last append**: for
    every interleaving in which both loops end, `blocks` being what was appended in it. -/
theorem recordedOnce_iff (count : Int32) (schedule : List CollectParty) (s : Collecting)
    (blocks : List (List UInt8))
    (hrun : run recordingStep (collectStart count, []) schedule = some (s, blocks))
    (hcollect : s.collect = .ended) (hthread : s.thread = .ended) :
    RecordedOnce blocks s.fp ↔
      Meets recordingStep (fun party x => RecordOk party x.1) (collectStart count, []) schedule := by
  have hend : Meets recordingStep (fun party x => RecordOk party x.1) (collectStart count, [])
        schedule ∧ Recording s blocks ∨
      ¬ Meets recordingStep (fun party x => RecordOk party x.1) (collectStart count, []) schedule ∧
        Spoiled s blocks := by
    refine meets_or_spoiled (I := fun x => Recording x.1 x.2) (B := fun x => Spoiled x.1 x.2) ?_ ?_
      (recording_start count) hrun
    · rintro ⟨u, blocks⟩ party x h hstep
      rcases exists_of_logged hstep with ⟨u', hu, rfl⟩
      cases party with
      | collect =>
        show (_ → Recording u' (blocks ++ [])) ∧ (_ → Spoiled u' (blocks ++ []))
        rw [List.append_nil]
        exact Recording.collect h (collectStep_move hu)
      | thread => exact Recording.thread h (threadStep_move hu)
    · rintro ⟨u, blocks⟩ party x h hstep
      rcases exists_of_logged hstep with ⟨u', hu, rfl⟩
      cases party with
      | collect =>
        show Spoiled u' (blocks ++ [])
        rw [List.append_nil]
        exact Spoiled.collect h (collectStep_move hu)
      | thread => exact Spoiled.thread h (threadStep_move hu)
  rcases hend with ⟨hmeets, hrec⟩ | ⟨hnot, hspoiled⟩
  · exact ⟨fun _ => hmeets, fun _ => hrec.recordedOnce hcollect hthread⟩
  · exact ⟨fun hrec => absurd hrec (hspoiled.not_recordedOnce hthread), fun hmeets =>
      absurd hmeets hnot⟩

/-- `thread_collect` appends one block, `collect` writes it, and the last decrement lets both end. -/
def recordOnce : List CollectParty :=
  List.replicate 4 .thread ++ List.replicate 7 .collect ++ [.thread, .collect]

theorem recordedOnce_iff_once : ∃ s blocks,
    run recordingStep (collectStart 2, []) recordOnce = some (s, blocks) ∧
      RecordedOnce blocks s.fp := by
  have hends : (run recordingStep (collectStart 2, []) recordOnce).map
      (fun x => (x.1.collect, x.1.thread)) = some (.ended, .ended) := by decide
  rcases Option.map_eq_some_iff.mp hends with ⟨⟨s, blocks⟩, hrun, hpcs⟩
  rcases Prod.mk.inj hpcs with ⟨hcollect, hthread⟩
  exact ⟨s, blocks, hrun,
    (recordedOnce_iff 2 recordOnce s blocks hrun hcollect hthread).mpr (by decide)⟩

/-- As `recordOnce` with a count of 3, but `collect` goes round twice. -/
def recordTwice : List CollectParty :=
  List.replicate 4 .thread ++ List.replicate 15 .collect ++ [.thread, .collect]

/-- The block is in the file twice. -/
theorem not_recordedOnce_twice : ¬ ∀ s blocks,
    run recordingStep (collectStart 3, []) recordTwice = some (s, blocks) →
      s.collect = .ended → s.thread = .ended → RecordedOnce blocks s.fp := by
  intro h
  have hends : (run recordingStep (collectStart 3, []) recordTwice).map
      (fun x => (x.1.collect, x.1.thread)) = some (.ended, .ended) := by decide
  have hlens : (run recordingStep (collectStart 3, []) recordTwice).map
      (fun x => ((noiseWrites x.1.fp).map List.length, x.2.map List.length)) =
        some ([80, 80], [80]) := by decide
  rcases Option.map_eq_some_iff.mp hends with ⟨⟨s, blocks⟩, hrun, hpcs⟩
  rcases Prod.mk.inj hpcs with ⟨hcollect, hthread⟩
  rw [hrun] at hlens
  rcases Prod.mk.inj (Option.some.inj hlens) with ⟨hwrites, hblocks⟩
  have hbytes := congrArg List.length (h s blocks hrun hcollect hthread).bytes
  rw [List.length_flatten, List.length_flatten, hwrites, hblocks] at hbytes
  exact absurd hbytes (by decide)

end AdhocNode
