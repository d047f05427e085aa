/-
  ONE SEND FOR EACH EXPIRY — how often `multi_tx` calls a protocol's send function.

  1. **The count** — `OncePerExpiry`: at every point of a sequence of `expire_handle` and `multi_tx`
     calls, no send function has been called more often than its protocol has expired.  `dist_init`
     leaves the data pointers NULL; whether somebody has set them since is a parameter.

  2. **The flag** — `expire_handle` sets it and nobody sets it back, so from the first expiry on every
     `multi_tx` calls the function (`multicast_run`): there are as many calls as there are `multi_tx`
     calls behind the first expiry (`txSince`), and the count is right iff these are no more than the
     expiries (`oncePerExpiry_iff`).
-/
import AdhocNode.MultiTx
import AdhocNode.Lib.Runs
import Mathlib.Data.List.Count
import Mathlib.Data.List.Induction
import Mathlib.Data.List.TakeWhile

namespace AdhocNode

open CMem Runs

/-! ## The count -/

/-- A call of the timer or of the sender. -/
inductive MultiOp where
  | expireHandle (icount : Int32)
  | multiTx
  deriving DecidableEq

/-- The state behind a call. -/
def multiStep : MultiOp → Multicast → Option Multicast
  | .expireHandle icount, s => expireHandle icount s
  | .multiTx, s => (multiTx s).map Prod.fst

/-- What counts: a protocol expires, or its send function is called. -/
inductive MultiEvent where
  | expired (p : MultiProto)
  | called (p : MultiProto)
  deriving DecidableEq

/-- What a call counts for. -/
def multiEvents : MultiOp → Multicast → List MultiEvent
  | .expireHandle icount, s =>
    (MultiProto.all.filter fun p => (s.multi p).expires icount).map .expired
  | .multiTx, s => ((multiTx s).toList.flatMap fun x => x.2.called).map .called

/-- The calls, with the log of what they counted for. -/
def multiLogStep : MultiOp → Multicast × List MultiEvent → Option (Multicast × List MultiEvent) :=
  logged multiStep multiEvents

/-- After `dist_init`, with the data pointers as they have been set since, if they have. -/
def multiStart (s : Multicast) (data : MultiProto → Option Mem) : Multicast :=
  { distInit s with multi := fun p => { (distInit s).multi p with data := data p } }

/-- Nobody has set a data pointer yet. -/
theorem multiStart_null (s : Multicast) : multiStart s (fun _ => none) = distInit s := rfl

/-- **One send for each expiry**, at every point of the sequence. -/
def OncePerExpiry (s : Multicast) (data : MultiProto → Option Mem) (ops : List MultiOp) : Prop :=
  Always multiLogStep (fun x => ∀ p, x.2.count (.called p) ≤ x.2.count (.expired p))
    (multiStart s data, []) ops

/-! ## The condition -/

/-- `icount % 10000 == 100`. -/
def MultiOp.expiry : MultiOp → Bool
  | .expireHandle icount => icount.toInt.tmod 10000 = 100
  | .multiTx => false

/-- The expiries among the calls. -/
def expiries (ops : List MultiOp) : Nat := ops.countP MultiOp.expiry

/-- The `multi_tx` calls behind the first expiry. -/
def txSince (ops : List MultiOp) : Nat := (ops.dropWhile fun op => !op.expiry).count .multiTx

theorem expiries_concat (ops : List MultiOp) (op : MultiOp) :
    expiries (ops ++ [op]) = expiries ops + if op.expiry then 1 else 0 := by
  rw [expiries, List.countP_append, List.countP_singleton]
  rfl

theorem txSince_concat (ops : List MultiOp) (op : MultiOp) :
    txSince (ops ++ [op]) = txSince ops + if op = .multiTx ∧ 0 < expiries ops then 1 else 0 := by
  by_cases hnone : expiries ops = 0
  -- nothing has expired yet, so the new call is the first to be kept, if it is
  · have hall : ∀ a ∈ ops, (!a.expiry) = true := by
      intro a ha
      rw [Bool.not_eq_true', Bool.eq_false_iff]
      exact List.countP_eq_zero.mp hnone a ha
    rw [txSince, txSince, List.dropWhile_append_of_pos hall, List.dropWhile_eq_nil_iff.mpr hall,
      if_neg (by omega)]
    cases op with
    | expireHandle icount =>
      rw [List.dropWhile_cons]
      split
      · rfl
      · rfl
    | multiTx => rfl
  · have hsome : (ops.dropWhile fun op => !op.expiry).isEmpty = false := by
      rw [List.isEmpty_eq_false_iff]
      intro hnil
      refine hnone (List.countP_eq_zero.mpr fun a ha => ?_)
      have hnot := List.dropWhile_eq_nil_iff.mp hnil a ha
      rw [Bool.not_eq_true'] at hnot
      rw [hnot]
      exact Bool.false_ne_true
    rw [txSince, txSince, List.dropWhile_append, hsome, if_neg Bool.false_ne_true,
      List.count_append, List.count_singleton]
    have hpos : 0 < expiries ops := by omega
    cases op with
    | expireHandle icount => rfl
    | multiTx =>
      have hop : MultiOp.multiTx = .multiTx ∧ 0 < expiries ops := ⟨rfl, hpos⟩
      rw [if_pos hop]
      rfl

/-- Where a function is called, the data pointers are set. -/
def DataSet (data : MultiProto → Option Mem) (ops : List MultiOp) : Prop :=
  0 < txSince ops → ∀ p, data p ≠ none

theorem DataSet.of_concat {data : MultiProto → Option Mem} {ops : List MultiOp} {op : MultiOp}
    (h : DataSet data (ops ++ [op])) : DataSet data ops := by
  intro hpos
  apply h
  rw [txSince_concat]
  omega

/-! ## A run -/

/-- The state and the log behind the calls `ops`. -/
structure MultiAt (data : MultiProto → Option Mem) (ops : List MultiOp)
    (x : Multicast × List MultiEvent) : Prop where
  data : ∀ p, (x.1.multi p).data = data p
  expire : ∀ p, (x.1.multi p).expire = 10000
  flg : ∀ p, (x.1.multi p).flg = decide (0 < expiries ops)
  expired : ∀ p, x.2.count (.expired p) = expiries ops
  called : ∀ p, x.2.count (.called p) = txSince ops

section

variable {data : MultiProto → Option Mem} {ops : List MultiOp} {x : Multicast × List MultiEvent}

theorem multiAt_start (s : Multicast) (data : MultiProto → Option Mem) :
    MultiAt data [] (multiStart s data, []) where
  data _ := rfl
  expire _ := rfl
  flg _ := rfl
  expired _ := rfl
  called _ := rfl

/-- All protocols pass a test that does not look at them, or none does. -/
theorem filter_all {test : MultiProto → Bool} {c : Bool} (h : ∀ p, test p = c) :
    MultiProto.all.filter test = if c then MultiProto.all else [] := by
  rw [show test = fun _ => c from funext h]
  cases c with
  | false => rfl
  | true => rfl

/-- Every protocol is in the list of all once. -/
theorem count_map_all {f : MultiProto → MultiEvent} (hf : ∀ p q, f p = f q → p = q) (c : Bool)
    (p : MultiProto) :
    ((if c then MultiProto.all else []).map f).count (f p) = if c then 1 else 0 := by
  rw [List.count_map_of_injective _ f hf]
  cases c with
  | false => rfl
  | true => cases p <;> rfl

theorem count_map_of_ne {f : MultiProto → MultiEvent} {e : MultiEvent} (h : ∀ p, f p ≠ e)
    (ps : List MultiProto) : (ps.map f).count e = 0 := by
  rw [List.count_eq_zero]
  intro hmem
  rcases List.mem_map.mp hmem with ⟨p, -, hp⟩
  exact h p hp

/-- **The timer**: all protocols expire, or none. -/
theorem MultiAt.expireHandle (h : MultiAt data ops x) (icount : Int32) :
    ∃ y, multiLogStep (.expireHandle icount) x = some y ∧
      MultiAt data (ops ++ [.expireHandle icount]) y := by
  have hall : ∀ p, (x.1.multi p).expires icount = (MultiOp.expireHandle icount).expiry := by
    intro p
    rw [Multi.expires, h.expire]
    rfl
  have hexpire : ∀ p, (x.1.multi p).expire ≠ 0 := by
    intro p
    rw [h.expire]
    decide
  rcases expireHandle_defined hexpire icount with ⟨s', hstep, hmulti⟩
  refine ⟨(s', x.2 ++ multiEvents (.expireHandle icount) x.1), ?_, fun p => ?_, fun p => ?_,
    fun p => ?_, fun p => ?_, fun p => ?_⟩
  · rw [multiLogStep, logged, multiStep, hstep]
    rfl
  · rw [hmulti]
    exact h.data p
  · rw [hmulti]
    exact h.expire p
  · rw [hmulti]
    show ((x.1.multi p).flg || (x.1.multi p).expires icount) = _
    rw [h.flg, hall, expiries_concat]
    cases (MultiOp.expireHandle icount).expiry with
    | false => exact Bool.or_false _
    | true => exact (Bool.or_true _).trans (decide_eq_true (Nat.succ_pos _)).symm
  · rw [List.count_append, h.expired, expiries_concat, multiEvents, filter_all hall,
      count_map_all fun _ _ => MultiEvent.expired.inj]
  · have hnot : ¬ (MultiOp.expireHandle icount = .multiTx ∧ 0 < expiries ops) := fun hop =>
      MultiOp.noConfusion hop.1
    rw [List.count_append, h.called, txSince_concat, multiEvents, if_neg hnot,
      count_map_of_ne (f := .expired) fun _ => MultiEvent.noConfusion]

/-- **The sender**: all functions are called, or none. -/
theorem MultiAt.multiTx (h : MultiAt data ops x) (hset : 0 < expiries ops → ∀ p, data p ≠ none) :
    ∃ y, multiLogStep .multiTx x = some y ∧ MultiAt data (ops ++ [.multiTx]) y := by
  have hdata : ∀ p, (x.1.multi p).flg = true → ∃ m, (x.1.multi p).data = some m := by
    intro p hflg
    rw [h.flg] at hflg
    rw [h.data]
    exact Option.ne_none_iff_exists'.mp (hset (of_decide_eq_true hflg) p)
  rcases multiTx_due hdata with ⟨s', sent, hstep, hmulti, hcalled, -⟩
  have hevents : multiEvents .multiTx x.1 =
      (if decide (0 < expiries ops) then MultiProto.all else []).map MultiEvent.called := by
    rw [multiEvents, hstep, ← filter_all h.flg, ← hcalled]
    exact congrArg (List.map MultiEvent.called) (List.append_nil sent.called)
  have hsame : expiries (ops ++ [.multiTx]) = expiries ops := expiries_concat ops .multiTx
  refine ⟨(s', x.2 ++ multiEvents .multiTx x.1), ?_, fun p => ?_, fun p => ?_, fun p => ?_,
    fun p => ?_, fun p => ?_⟩
  · rw [multiLogStep, logged, multiStep, hstep]
    rfl
  · rw [hmulti]
    exact h.data p
  · rw [hmulti]
    exact h.expire p
  · rw [hmulti, hsame]
    exact h.flg p
  · rw [List.count_append, h.expired, hsame, hevents,
      count_map_of_ne (f := .called) fun _ => MultiEvent.noConfusion, Nat.add_zero]
  · rw [List.count_append, h.called, txSince_concat, hevents,
      count_map_all fun _ _ => MultiEvent.called.inj]
    simp

/-- A function that is called without data copies from NULL. -/
theorem MultiAt.multiTx_eq_none (h : MultiAt data ops x) (hpos : 0 < expiries ops)
    {p : MultiProto} (hnull : data p = none) : multiLogStep .multiTx x = none := by
  have hflg : (x.1.multi p).flg = true := by
    rw [h.flg]
    exact decide_eq_true hpos
  rw [multiLogStep, logged, multiStep, AdhocNode.multiTx_eq_none hflg ((h.data p).trans hnull)]
  rfl

/-- **One more call.** -/
theorem MultiAt.step (h : MultiAt data ops x) (op : MultiOp) :
    (DataSet data (ops ++ [op]) →
      ∃ y, multiLogStep op x = some y ∧ MultiAt data (ops ++ [op]) y) ∧
    (DataSet data ops → ¬ DataSet data (ops ++ [op]) → multiLogStep op x = none) := by
  cases op with
  | expireHandle icount =>
    refine ⟨fun _ => h.expireHandle icount, fun hset hnot => absurd ?_ hnot⟩
    intro hpos
    rw [txSince_concat, if_neg fun hop => MultiOp.noConfusion hop.1] at hpos
    exact hset hpos
  | multiTx =>
    constructor
    · intro hset
      refine h.multiTx fun hpos => hset ?_
      rw [txSince_concat, if_pos ⟨rfl, hpos⟩]
      exact Nat.succ_pos _
    · intro hset hnot
      rw [DataSet, Classical.not_imp, txSince_concat] at hnot
      rcases hnot with ⟨hcall, hnot⟩
      push Not at hnot
      rcases hnot with ⟨p, hnull⟩
      have hzero : ¬ 0 < txSince ops := fun hpos => hset hpos p hnull
      by_cases hpos : 0 < expiries ops
      · exact h.multiTx_eq_none hpos hnull
      · rw [if_neg fun hop => hpos hop.2] at hcall
        exact absurd hcall hzero

/-- **Every run** has the expiries and the calls that its list of calls says, and is undefined where a
    function would be called without data. -/
theorem multicast_run (s : Multicast) (data : MultiProto → Option Mem) (ops : List MultiOp) :
    (DataSet data ops →
      ∃ x, run multiLogStep (multiStart s data, []) ops = some x ∧ MultiAt data ops x) ∧
    (¬ DataSet data ops → run multiLogStep (multiStart s data, []) ops = none) := by
  induction ops using List.reverseRecOn with
  | nil =>
    refine ⟨fun _ => ⟨_, rfl, multiAt_start s data⟩, fun hnot => absurd ?_ hnot⟩
    exact fun hpos => absurd hpos (Nat.lt_irrefl 0)
  | append_singleton ops op ih =>
    by_cases hset : DataSet data ops
    · rcases ih.1 hset with ⟨x, hrun, hx⟩
      rcases hx.step op with ⟨hkeep, hstuck⟩
      constructor
      · intro hset'
        rcases hkeep hset' with ⟨y, hstep, hy⟩
        exact ⟨y, run_concat hrun hstep, hy⟩
      · intro hnot
        rw [run_append, hrun, Option.bind_some, run, hstuck hset hnot]
        rfl
    · constructor
      · exact fun hset' => absurd hset'.of_concat hset
      · intro _
        rw [run_append, ih.2 hset]
        rfl

/-- What the count is at the end of a run that is defined. -/
theorem counts_of_run {s : Multicast} (hrun : run multiLogStep (multiStart s data, []) ops = some x) :
    DataSet data ops ∧ MultiAt data ops x := by
  rcases multicast_run s data ops with ⟨hdefined, hstuck⟩
  have hset : DataSet data ops := by
    by_contra hnot
    rw [hstuck hnot] at hrun
    exact nomatch hrun
  rcases hdefined hset with ⟨y, hrun', hy⟩
  rw [hrun'] at hrun
  cases hrun
  exact ⟨hset, hy⟩

end

/-- **The flag is never set back**: the calls of a send function keep within the expiries iff at every
    point there have been no more `multi_tx` calls since the first expiry than expiries, and there is
    data to send if there has been such a call. -/
theorem oncePerExpiry_iff (s : Multicast) (data : MultiProto → Option Mem) (ops : List MultiOp) :
    OncePerExpiry s data ops ↔
      ∀ pre, pre <+: ops → txSince pre ≤ expiries pre ∧ DataSet data pre := by
  rw [OncePerExpiry, always_iff_run]
  constructor
  · intro h pre hpre
    rcases h pre hpre with ⟨x, hrun, hcounts⟩
    rcases counts_of_run hrun with ⟨hset, hx⟩
    have hp := hcounts .distLen
    rw [hx.called, hx.expired] at hp
    exact ⟨hp, hset⟩
  · intro h pre hpre
    rcases h pre hpre with ⟨hcount, hset⟩
    rcases (multicast_run s data pre).1 hset with ⟨x, hrun, hx⟩
    refine ⟨x, hrun, fun p => ?_⟩
    rw [hx.called, hx.expired]
    exact hcount

/-- One expiry, and both `multi_tx` calls behind it call the function. -/
theorem not_oncePerExpiry_twice :
    ¬ OncePerExpiry ⟨fun _ => ⟨false, 0, none⟩, ⟨0, fun _ => 0⟩⟩ (fun _ => some fun _ => 7)
      [.expireHandle 100, .multiTx, .multiTx] := by
  intro h
  rcases Always.last h with ⟨x, hrun, hcounts⟩
  rcases counts_of_run hrun with ⟨-, hx⟩
  have htwice := hcounts .distLen
  rw [hx.called, hx.expired] at htwice
  exact absurd htwice (by decide)

end AdhocNode
