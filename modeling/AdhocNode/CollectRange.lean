/-
  THE COUNTER AND THE BUFFER OF THE COLLECTORS — what `g_collBuf` holds in every interleaving.

  1. **The condition** (`StepOk`) — both loops test `count` and count it down later.  Nothing goes
     wrong as long as the last decrement is not taken from a party that is already on its way to one,
     and `thread_collect` appends only where there is room.

  2. **The range** — `collecting_inRange`: then `count` never wraps, `len` stays within `data`, no
     statement is undefined, and a loop that has ended leaves `count = 0`.  The invariant behind it is
     `CollectInv`, with one lemma for each party.

  3. **Exactness** — `exceeds_of_not_stepOk`: a step that does not meet the condition is undefined, or
     the other party goes on from it to a state out of range.
-/
import AdhocNode.Collect
import AdhocNode.Lib.Runs

namespace AdhocNode

open CMem Runs

/-! ## The range and the condition -/

/-- **In range**: `count` is at most what it was at first, `len` bytes fit into `data`, and a loop that
    has ended leaves `count = 0`. -/
structure CollectInRange (count : UInt32) (s : Collecting) : Prop where
  count_le : s.collBuf.count ≤ count
  len_nonneg : 0 ≤ s.collBuf.len
  len_le : s.collBuf.len ≤ collBufSize
  collect_ended : s.collect = .ended → s.collBuf.count = 0
  thread_ended : s.thread = .ended → s.collBuf.count = 0

/-- `collect` is between its test of `count` and its decrement. -/
def CollectPc.counting : CollectPc → Bool
  | .fprintf | .sleep | .printf | .testLen | .callback | .decrement => true
  | .whileCount | .testZero | .ended => false

/-- `thread_collect` is between its test of `count` and its decrement. -/
def ThreadPc.counting : ThreadPc → Bool
  | .memcpy | .addLen | .decrement => true
  | .testCount | .testZero | .ended => false

/-- **The condition of a step**: the decrement from 1 to 0 is not taken while the other party is
    between its test and its decrement, and 80 bytes are appended only where they fit. -/
def StepOk : CollectParty → Collecting → Prop
  | .collect, s => s.collect = .decrement → s.collBuf.count = 1 → s.thread.counting = false
  | .thread, s => (s.thread = .decrement → s.collBuf.count = 1 → s.collect.counting = false) ∧
    (s.thread = .memcpy → s.collBuf.len + 80 ≤ collBufSize)

instance : ∀ (p : CollectParty) (s : Collecting), Decidable (StepOk p s)
  | .collect, s => inferInstanceAs (Decidable (s.collect = .decrement → s.collBuf.count = 1 →
      s.thread.counting = false))
  | .thread, s => inferInstanceAs (Decidable ((s.thread = .decrement → s.collBuf.count = 1 →
      s.collect.counting = false) ∧ (s.thread = .memcpy → s.collBuf.len + 80 ≤ collBufSize)))

/-! ## The invariant -/

/-- What holds under the condition: a party on its way to a decrement has one left to take, and one
    that has ended, or is about to see that it must, has taken the last. -/
structure CollectInv (count : UInt32) (s : Collecting) : Prop where
  count_le : s.collBuf.count ≤ count
  len_nonneg : 0 ≤ s.collBuf.len
  len_le : s.collBuf.len ≤ collBufSize
  room : s.thread = .addLen → s.collBuf.len + 80 ≤ collBufSize
  collect_counting : s.collect.counting = true → s.collBuf.count ≠ 0
  thread_counting : s.thread.counting = true → s.collBuf.count ≠ 0
  collect_ended : s.collect = .ended → s.collBuf.count = 0
  thread_ended : s.thread = .ended → s.collBuf.count = 0

section

variable {count : UInt32} {s : Collecting}

theorem CollectInv.inRange (h : CollectInv count s) : CollectInRange count s where
  count_le := h.count_le
  len_nonneg := h.len_nonneg
  len_le := h.len_le
  collect_ended := h.collect_ended
  thread_ended := h.thread_ended

theorem collectInv_start (count : Int32) : CollectInv count.toUInt32 (collectStart count) where
  count_le := UInt32.le_refl _
  len_nonneg := Int.le_refl _
  len_le := Int.natCast_nonneg collBufSize
  room := nofun
  collect_counting := nofun
  thread_counting := nofun
  collect_ended := nofun
  thread_ended := nofun

/-- `collect` goes on to a statement it may be at, and may have called on the file. -/
theorem CollectInv.goto_collect (h : CollectInv count s) {fp : List FileCall} {pc : CollectPc}
    (hcounting : pc.counting = true → s.collBuf.count ≠ 0)
    (hended : pc = .ended → s.collBuf.count = 0) :
    CollectInv count { s with fp := fp, collect := pc } :=
  { h with collect_counting := hcounting, collect_ended := hended }

/-- `thread_collect` goes on to a statement it may be at. -/
theorem CollectInv.goto_thread (h : CollectInv count s) {pc : ThreadPc} (hpc : pc ≠ .addLen)
    (hcounting : pc.counting = true → s.collBuf.count ≠ 0)
    (hended : pc = .ended → s.collBuf.count = 0) :
    CollectInv count { s with thread := pc } :=
  { h with room := fun hadd => absurd hadd hpc, thread_counting := hcounting, thread_ended := hended }

/-- The callback finds its bytes. -/
theorem collectFuncArr_defined (type : CollectDataType) (h : CollectInv count s)
    (fp : List FileCall) : ∃ fp', collectFuncArr type s.collBuf fp = some fp' := by
  cases type with
  | noise => exact ⟨_, if_pos ⟨h.len_nonneg, h.len_le⟩⟩
  | dpfs => exact ⟨fp, rfl⟩

/-- A counter that is not 0 does not wrap. -/
theorem pred_le {c : UInt32} (h : c ≠ 0) : c - 1 ≤ c := by
  have h1 : (1 : UInt32) ≤ c := by
    rw [UInt32.le_iff_toNat_le, UInt32.toNat_one]
    exact Nat.pos_of_ne_zero fun h0 => h (UInt32.toNat_inj.mp h0)
  exact UInt32.sub_le h1

theorem pred_ne_zero {c : UInt32} (h : c ≠ 1) : c - 1 ≠ 0 := by
  intro h0
  exact h (by rw [← UInt32.sub_add_cancel c 1, h0]; rfl)

/-- **A step of `collect`.** -/
theorem collectStep_inv (type : CollectDataType) (h : CollectInv count s)
    (hok : StepOk .collect s) : ∃ s', collectStep type s = some s' ∧ CollectInv count s' := by
  rw [collectStep]
  cases hpc : s.collect with
  | whileCount =>
    refine ⟨_, rfl, h.goto_collect (fun hcount => ?_) fun hend => ?_⟩
    · split at hcount
      · assumption
      · exact nomatch hcount
    · split at hend
      · exact nomatch hend
      · rename_i hzero
        exact not_not.mp hzero
  | fprintf | sleep | printf =>
    have hcount := h.collect_counting (by rw [hpc]; rfl)
    exact ⟨_, rfl, h.goto_collect (fun _ => hcount) nofun⟩
  | testLen =>
    have hcount := h.collect_counting (by rw [hpc]; rfl)
    refine ⟨_, rfl, h.goto_collect (fun _ => hcount) fun hend => ?_⟩
    split at hend <;> exact nomatch hend
  | callback =>
    have hcount := h.collect_counting (by rw [hpc]; rfl)
    rcases collectFuncArr_defined type h s.fp with ⟨fp, hfp⟩
    refine ⟨{ s with fp := fp, collect := .decrement }, ?_, h.goto_collect (fun _ => hcount) nofun⟩
    simp only [hfp]
    rfl
  | decrement =>
    have hcount := h.collect_counting (by rw [hpc]; rfl)
    refine ⟨_, rfl, ?_, h.len_nonneg, h.len_le, h.room, nofun, ?_, nofun, ?_⟩
    · exact UInt32.le_trans (pred_le hcount) h.count_le
    -- the last one is not the other party's
    · intro hthread
      refine pred_ne_zero fun hone => ?_
      rw [hok hpc hone] at hthread
      exact nomatch hthread
    · intro hend
      exact absurd (h.thread_ended hend) hcount
  | testZero =>
    refine ⟨_, rfl, h.goto_collect (fun hcount => ?_) fun hend => ?_⟩
    · split at hcount <;> exact nomatch hcount
    · split at hend
      · assumption
      · exact nomatch hend
  | ended => exact ⟨s, rfl, h⟩

/-- Where 80 bytes fit, `thread_collect` can append them. -/
theorem append_defined (h : CollectInv count s) (hroom : s.collBuf.len + 80 ≤ collBufSize) :
    ∃ data, s.collBuf.append = some { s.collBuf with data := data } := by
  have hnonneg := h.len_nonneg
  have hfits : s.collBuf.len.toNat + (80 : Int).toNat ≤ collBufSize := by omega
  refine ⟨s.collBuf.data.copy s.collBuf.len.toNat arr 80, ?_⟩
  rw [CollectBuf.append, if_pos hnonneg, Mem.copyIn?_of_fits (by decide) hfits]
  rfl

/-- An append leaves `count` alone. -/
theorem append_count {buf buf' : CollectBuf} (h : buf.append = some buf') :
    buf'.count = buf.count := by
  rw [CollectBuf.append] at h
  split at h
  · rcases Option.bind_eq_some_iff.mp h with ⟨data, -, hdata⟩
    cases hdata
    rfl
  · exact nomatch h

/-- **A step of `thread_collect`.** -/
theorem threadStep_inv (h : CollectInv count s) (hok : StepOk .thread s) :
    ∃ s', threadStep s = some s' ∧ CollectInv count s' := by
  rcases hok with ⟨hlast, hfits⟩
  rw [threadStep]
  cases hpc : s.thread with
  | testCount =>
    refine ⟨_, rfl, h.goto_thread ?_ (fun hcount => ?_) fun hend => ?_⟩
    · split <;> nofun
    · split at hcount
      · rename_i hpos
        exact UInt32.pos_iff_ne_zero.mp hpos
      · exact nomatch hcount
    · split at hend <;> exact nomatch hend
  | memcpy =>
    have hroom := hfits hpc
    have hcount := h.thread_counting (by rw [hpc]; rfl)
    rcases append_defined h hroom with ⟨data, hdata⟩
    refine ⟨{ s with collBuf := { s.collBuf with data := data }, thread := .addLen }, ?_, ?_⟩
    · simp only [hdata]
      rfl
    · exact { h with room := fun _ => hroom, thread_counting := fun _ => hcount, thread_ended := nofun }
  | addLen =>
    have hroom := h.room hpc
    have hcount := h.thread_counting (by rw [hpc]; rfl)
    have hnonneg := h.len_nonneg
    refine ⟨_, rfl, { h with
      len_nonneg := ?_, len_le := hroom, room := nofun, thread_counting := fun _ => hcount
      thread_ended := nofun }⟩
    show 0 ≤ s.collBuf.len + 80
    omega
  | decrement =>
    have hcount := h.thread_counting (by rw [hpc]; rfl)
    refine ⟨_, rfl, ?_, h.len_nonneg, h.len_le, nofun, ?_, nofun, ?_, nofun⟩
    · exact UInt32.le_trans (pred_le hcount) h.count_le
    -- the last one is not the other party's
    · intro hcollect
      refine pred_ne_zero fun hone => ?_
      rw [hlast hpc hone] at hcollect
      exact nomatch hcollect
    · intro hend
      exact absurd (h.collect_ended hend) hcount
  | testZero =>
    refine ⟨_, rfl, h.goto_thread ?_ (fun hcount => ?_) fun hend => ?_⟩
    · split <;> nofun
    · split at hcount <;> exact nomatch hcount
    · split at hend
      · assumption
      · exact nomatch hend
  | ended => exact ⟨s, rfl, h⟩

end

/-! ## Runs -/

/-- **In range**: in every interleaving in which the last decrement is never taken from the other party
    and `thread_collect` appends only where there is room, every statement is defined, and in every
    state `count` has not wrapped, `len` fits and a loop that has ended leaves `count = 0`. -/
theorem collecting_inRange (type : CollectDataType) (count : Int32) (schedule : List CollectParty)
    (h : Meets (collectingStep type) StepOk (collectStart count) schedule) :
    Always (collectingStep type) (CollectInRange count.toUInt32) (collectStart count) schedule := by
  refine always_of_meets (fun _ hs => hs.inRange) ?_ (collectInv_start count) h
  intro s party hs hok
  cases party with
  | collect => exact collectStep_inv type hs hok
  | thread => exact threadStep_inv hs hok

/-- `collect` takes one of 2 and `thread_collect`, which comes second, the other. -/
def collectTurns : List CollectParty :=
  List.replicate 7 .collect ++ List.replicate 5 .thread ++ [.collect]

theorem collecting_inRange_turns :
    Meets (collectingStep .noise) StepOk (collectStart 2) collectTurns ∧
      Always (collectingStep .noise) (CollectInRange 2) (collectStart 2) collectTurns :=
  ⟨by decide, collecting_inRange .noise 2 collectTurns (by decide)⟩

/-- Both parties have seen the 1 when it is taken. -/
def collectRace : List CollectParty := .thread :: List.replicate 6 .collect ++ List.replicate 3 .thread

/-- The second decrement wraps. -/
theorem not_inRange_race :
    ¬ Always (collectingStep .noise) (CollectInRange 1) (collectStart 1) collectRace := by
  intro h
  rcases h.last with ⟨s, hrun, hs⟩
  have hcount : (run (collectingStep .noise) (collectStart 1) collectRace).map
      (fun s => s.collBuf.count) = some 4294967295 := by decide
  rw [hrun] at hcount
  have hwrapped : s.collBuf.count = 4294967295 := Option.some.inj hcount
  have hle := hs.count_le
  rw [hwrapped] at hle
  exact absurd hle (by decide)

/-! ## The condition is exact -/

section

variable {type : CollectDataType} {count : UInt32} {s : Collecting} {party : CollectParty}

/-- A schedule that starts with `party` leads out of range, or to an undefined statement. -/
def Exceeds (type : CollectDataType) (count : UInt32) (s : Collecting) (party : CollectParty) :
    Prop :=
  ∃ schedule, ¬ Always (collectingStep type) (CollectInRange count) s (party :: schedule)

theorem exceeds_of_next (h : ∀ s', collectingStep type party s = some s' →
    ∃ other, Exceeds type count s' other) : Exceeds type count s party := by
  apply exists_not_always_cons
  intro s' hs'
  rcases h s' hs' with ⟨other, schedule, hout⟩
  exact ⟨other :: schedule, hout⟩

/-- A decrement at 0 wraps. -/
theorem exceeds_of_decrement (hcount : count < 4294967295) {s' : Collecting}
    (hstep : collectingStep type party s = some s') (hzero : s.collBuf.count = 0)
    (hbuf : s'.collBuf = s.collBuf.decrement) : Exceeds type count s party := by
  refine exists_not_always_cons fun t ht => ⟨[], fun hrange => ?_⟩
  rw [hstep] at ht
  cases ht
  have hle := hrange.first.count_le
  rw [hbuf, CollectBuf.decrement, hzero] at hle
  exact absurd (UInt32.lt_of_lt_of_le hcount hle) (UInt32.lt_irrefl _)

/-- The statements of `collect` up to its decrement. -/
def CollectPc.left : CollectPc → Nat
  | .fprintf => 6 | .sleep => 5 | .printf => 4 | .testLen => 3 | .callback => 2 | .decrement => 1
  | .whileCount | .testZero | .ended => 0

/-- The statements of `thread_collect` up to its decrement. -/
def ThreadPc.left : ThreadPc → Nat
  | .memcpy => 3 | .addLen => 2 | .decrement => 1
  | .testCount | .testZero | .ended => 0

/-- On its way to the decrement `collect` leaves `g_collBuf` alone. -/
theorem collectStep_left {s' : Collecting} (h : collectStep type s = some s')
    (hpc : 1 < s.collect.left) : s'.collBuf = s.collBuf ∧ s'.collect.left + 1 ≤ s.collect.left ∧
      0 < s'.collect.left := by
  rw [collectStep] at h
  cases hs : s.collect with
  | fprintf | sleep | printf =>
    rw [hs] at h
    cases h
    exact ⟨rfl, Nat.le_refl _, Nat.succ_pos _⟩
  | testLen =>
    rw [hs] at h
    cases h
    refine ⟨rfl, ?_, ?_⟩
    · show (if s.collBuf.len > 0 then CollectPc.callback else .decrement).left + 1 ≤ 3
      split <;> decide
    · show 0 < (if s.collBuf.len > 0 then CollectPc.callback else .decrement).left
      split <;> decide
  | callback =>
    rw [hs] at h
    rcases Option.bind_eq_some_iff.mp h with ⟨fp, -, hs'⟩
    cases hs'
    exact ⟨rfl, Nat.le_refl _, Nat.succ_pos _⟩
  | whileCount | decrement | testZero | ended =>
    rw [hs] at hpc
    exact absurd hpc (by decide)

/-- On its way to the decrement `thread_collect` leaves `count` alone. -/
theorem threadStep_left {s' : Collecting} (h : threadStep s = some s')
    (hpc : 1 < s.thread.left) : s'.collBuf.count = s.collBuf.count ∧
      s'.thread.left + 1 ≤ s.thread.left ∧ 0 < s'.thread.left := by
  rw [threadStep] at h
  cases hs : s.thread with
  | memcpy =>
    rw [hs] at h
    rcases Option.bind_eq_some_iff.mp h with ⟨buf, hbuf, hs'⟩
    cases hs'
    exact ⟨append_count hbuf, Nat.le_refl _, Nat.succ_pos _⟩
  | addLen =>
    rw [hs] at h
    cases h
    exact ⟨rfl, Nat.le_refl _, Nat.succ_pos _⟩
  | testCount | decrement | testZero | ended =>
    rw [hs] at hpc
    exact absurd hpc (by decide)

/-- The statements of a party up to its decrement. -/
def Collecting.left (s : Collecting) : CollectParty → Nat
  | .collect => s.collect.left
  | .thread => s.thread.left

theorem collectingStep_left {s' : Collecting} (h : collectingStep type party s = some s')
    (hpc : 1 < s.left party) : s'.collBuf.count = s.collBuf.count ∧
      s'.left party + 1 ≤ s.left party ∧ 0 < s'.left party := by
  cases party with
  | collect =>
    rcases collectStep_left h hpc with ⟨hbuf, hleft⟩
    exact ⟨congrArg CollectBuf.count hbuf, hleft⟩
  | thread => exact threadStep_left h hpc

theorem CollectPc.left_eq_one {pc : CollectPc} (h : pc.left = 1) : pc = .decrement := by
  cases pc <;> first | rfl | exact absurd h (by decide)

theorem ThreadPc.left_eq_one {pc : ThreadPc} (h : pc.left = 1) : pc = .decrement := by
  cases pc <;> first | rfl | exact absurd h (by decide)

/-- The decrement, and where the other party is behind it. -/
theorem collectingStep_decrement (type : CollectDataType) (hpc : s.left party = 1) :
    ∃ s', collectingStep type party s = some s' ∧ s'.collBuf = s.collBuf.decrement ∧
      ∀ other, other ≠ party → s'.left other = s.left other := by
  cases party with
  | collect =>
    have hs : s.collect = .decrement := CollectPc.left_eq_one hpc
    refine ⟨{ s with collBuf := s.collBuf.decrement, collect := .testZero }, ?_, rfl, ?_⟩
    · rw [collectingStep, collectStep, hs]
    · intro other hne
      cases other with
      | collect => exact absurd rfl hne
      | thread => rfl
  | thread =>
    have hs : s.thread = .decrement := ThreadPc.left_eq_one hpc
    refine ⟨{ s with collBuf := s.collBuf.decrement, thread := .testZero }, ?_, rfl, ?_⟩
    · rw [collectingStep, threadStep, hs]
    · intro other hne
      cases other with
      | collect => rfl
      | thread => exact absurd rfl hne

/-- A party on its way to a decrement of 0 wraps the counter, or gets stuck before. -/
theorem exceeds_of_zero (hcount : count < 4294967295) (hzero : s.collBuf.count = 0)
    (hpos : 0 < s.left party) : Exceeds type count s party := by
  induction hn : s.left party using Nat.strongRecOn generalizing s with
  | _ n ih =>
    by_cases hone : s.left party = 1
    · rcases collectingStep_decrement type hone with ⟨s', hstep, hbuf, -⟩
      exact exceeds_of_decrement hcount hstep hzero hbuf
    · apply exceeds_of_next
      intro s' hs'
      rcases collectingStep_left hs' (by omega) with ⟨hsame, hless, hpos'⟩
      exact ⟨party, ih _ (by omega) (hsame.trans hzero) hpos' rfl⟩

/-- A party that takes the last decrement from the other leaves it a decrement of 0. -/
theorem exceeds_of_last (hcount : count < 4294967295) (hone : s.collBuf.count = 1)
    (hpc : s.left party = 1) {other : CollectParty} (hne : other ≠ party)
    (hother : 0 < s.left other) : Exceeds type count s party := by
  rcases collectingStep_decrement type hpc with ⟨s', hstep, hbuf, hsame⟩
  apply exceeds_of_next
  intro t ht
  rw [hstep] at ht
  cases ht
  refine ⟨other, exceeds_of_zero hcount ?_ (by rw [hsame other hne]; exact hother)⟩
  rw [hbuf, CollectBuf.decrement, hone]
  rfl

theorem CollectPc.left_pos {pc : CollectPc} (h : pc.counting ≠ false) : 0 < pc.left := by
  cases pc <;> first | exact Nat.succ_pos _ | exact absurd rfl h

theorem ThreadPc.left_pos {pc : ThreadPc} (h : pc.counting ≠ false) : 0 < pc.left := by
  cases pc <;> first | exact Nat.succ_pos _ | exact absurd rfl h

theorem append_undefined (h : ¬ s.collBuf.len + 80 ≤ collBufSize) : s.collBuf.append = none := by
  rw [CollectBuf.append]
  split
  · rename_i hnonneg
    have hfull : ¬ ((0 : Int) ≤ 80 ∧ s.collBuf.len.toNat + (80 : Int).toNat ≤ collBufSize) := by
      omega
    rw [Mem.copyIn?, if_neg hfull]
    rfl
  · rfl

/-- **The condition is exact**: a step that does not meet it is undefined, or can be followed by steps
    of the other party to a state out of range. -/
theorem exceeds_of_not_stepOk (hcount : count < 4294967295) (h : ¬ StepOk party s) :
    Exceeds type count s party := by
  cases party with
  | collect =>
    obtain ⟨hpc, hone, hother⟩ : s.collect = .decrement ∧ s.collBuf.count = 1 ∧
        s.thread.counting ≠ false := by
      simpa only [StepOk, Classical.not_imp] using h
    exact exceeds_of_last hcount hone (by rw [Collecting.left, hpc]; rfl)
      (show CollectParty.thread ≠ .collect by intro heq; cases heq) (ThreadPc.left_pos hother)
  | thread =>
    rcases not_and_or.mp h with hdec | hmem
    · obtain ⟨hpc, hone, hother⟩ : s.thread = .decrement ∧ s.collBuf.count = 1 ∧
          s.collect.counting ≠ false := by
        simpa only [Classical.not_imp] using hdec
      exact exceeds_of_last hcount hone (by rw [Collecting.left, hpc]; rfl)
        (show CollectParty.collect ≠ .thread by intro heq; cases heq) (CollectPc.left_pos hother)
    · rcases Classical.not_imp.mp hmem with ⟨hpc, hfull⟩
      apply exists_not_always_cons
      intro s' hs'
      rw [collectingStep, threadStep, hpc] at hs'
      simp only [append_undefined hfull] at hs'
      cases hs'

end

end AdhocNode
