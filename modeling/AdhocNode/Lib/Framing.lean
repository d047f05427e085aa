/-
  FRAMES IN A STREAM — when a stream that is put together from pieces of frames splits into frames again.

  1. **The format** — all frames have one length and begin with the bytes `f` and `g`; `f` may be inside a frame
     again, but then the byte behind it is neither `f` nor `g` (`FrameFormat`).

  2. **Pieces** — a piece is a first part of a frame: whoever sends it begins with the frame's first byte, and
     stops anywhere.  A piece that is neither empty nor whole can never be made up for by the ones behind it, so
     the stream splits into frames iff no piece is cut (`splits_iff`).

  3. **Connections** — the same over a log of what was sent, on connections that follow each other
     (`splits_connections_iff`).
-/
import Mathlib.Data.List.Basic

namespace Framing

variable {α β : Type} {Frame : List α → Prop} {f g : α} {p x s : List α} {ps : List (List α)}

/-! ## The format -/

/-- Frames of one length with the mark `f g`: inside a frame, `f` is followed by neither. -/
structure FrameFormat (Frame : List α → Prop) (f g : α) : Prop where
  length : ∀ x y, Frame x → Frame y → x.length = y.length
  head : ∀ x, Frame x → ∃ l, x = f :: g :: l
  again : ∀ x, Frame x → ∀ a b, a ≠ [] → x = a ++ f :: b → ∃ y c, b = y :: c ∧ y ≠ f ∧ y ≠ g

/-- A number of frames, one behind the other. -/
def Splits (Frame : List α → Prop) (s : List α) : Prop :=
  ∃ xs : List (List α), (∀ x ∈ xs, Frame x) ∧ s = xs.flatten

/-- The first part of a frame. -/
def Piece (Frame : List α → Prop) (p : List α) : Prop := ∃ x, Frame x ∧ p <+: x

theorem splits_nil : Splits Frame [] := ⟨[], nofun, rfl⟩

theorem FrameFormat.ne_nil (h : FrameFormat Frame f g) (hx : Frame x) : x ≠ [] := by
  rcases h.head x hx with ⟨l, rfl⟩
  exact List.cons_ne_nil f _

theorem FrameFormat.splits_append_iff (h : FrameFormat Frame f g) (hx : Frame x) :
    Splits Frame (x ++ s) ↔ Splits Frame s := by
  constructor
  · rintro ⟨xs, hxs, hs⟩
    cases xs with
    | nil => exact absurd (List.append_eq_nil_iff.mp hs).1 (h.ne_nil hx)
    | cons y ys =>
      rw [List.forall_mem_cons] at hxs
      exact ⟨ys, hxs.2, (List.append_inj hs (h.length x y hx hxs.1)).2⟩
  · rintro ⟨xs, hxs, rfl⟩
    exact ⟨x :: xs, List.forall_mem_cons.mpr ⟨hx, hxs⟩, rfl⟩

/-! ## Pieces -/

/-- What pieces make up begins with `f`, and then with `f` or `g`, as far as it goes. -/
theorem FrameFormat.flatten_start (h : FrameFormat Frame f g) (hps : ∀ p ∈ ps, Piece Frame p) :
    ps.flatten = [] ∨ ∃ s, ps.flatten = f :: s ∧ ∀ y c, s = y :: c → y = f ∨ y = g := by
  induction ps with
  | nil => exact Or.inl rfl
  | cons p ps ih =>
    rw [List.forall_mem_cons] at hps
    rw [List.flatten_cons]
    rcases hps.1 with ⟨x, hx, hp⟩
    rcases h.head x hx with ⟨l, rfl⟩
    match p, hp with
    | [], _ => exact ih hps.2
    | [a], hp =>
      rw [List.cons_prefix_cons] at hp
      refine Or.inr ⟨ps.flatten, by rw [hp.1, List.singleton_append], fun y c hyc => ?_⟩
      -- the next piece begins with `f`
      rcases ih hps.2 with hnil | ⟨s, hs, -⟩
      · rw [hnil] at hyc
        cases hyc
      · rw [hs] at hyc
        exact Or.inl (List.cons.inj hyc).1.symm
    | a :: b :: p, hp =>
      rw [List.cons_prefix_cons, List.cons_prefix_cons] at hp
      refine Or.inr ⟨b :: (p ++ ps.flatten), by rw [hp.1]; rfl, fun y c hyc => ?_⟩
      exact Or.inr ((List.cons.inj hyc).1.symm.trans hp.2.1)

/-- A piece that is cut spoils the stream. -/
theorem FrameFormat.not_splits_of_cut (h : FrameFormat Frame f g) (hps : ∀ p ∈ ps, Piece Frame p)
    (hp : Piece Frame p) (hne : p ≠ []) (hcut : ¬ Frame p) : ¬ Splits Frame (p ++ ps.flatten) := by
  rintro ⟨ys, hys, hs⟩
  rcases hp with ⟨x, hx, hpx⟩
  have hlt : p.length < x.length := by
    rcases Nat.lt_or_ge p.length x.length with hlt | hge
    · exact hlt
    · exact absurd (hpx.eq_of_length_le hge ▸ hx) hcut
  cases ys with
  | nil => exact hne (List.append_eq_nil_iff.mp hs).1
  | cons y ys =>
    rw [List.forall_mem_cons] at hys
    rw [List.flatten_cons] at hs
    rw [h.length x y hx hys.1] at hlt
    rcases List.append_eq_append_iff.mp hs with ⟨q, hy, hrest⟩ | ⟨q, hpy, -⟩
    · cases q with
      | nil =>
        rw [hy, List.append_nil] at hlt
        exact Nat.lt_irrefl _ hlt
      | cons z q =>
        -- the rest of the stream would have to begin inside of `y`
        rcases h.flatten_start hps with hnil | ⟨s, hs', hsecond⟩
        · rw [hnil] at hrest
          cases hrest
        · rw [hs', List.cons_append] at hrest
          obtain ⟨rfl, rfl⟩ := List.cons.inj hrest
          obtain ⟨b, c, rfl, hbf, hbg⟩ := h.again y hys.1 p q hne hy
          exact (hsecond b _ (List.cons_append ..)).elim hbf hbg
    · rw [hpy, List.length_append] at hlt
      omega

/-- **The stream splits into frames iff no piece is cut.** -/
theorem FrameFormat.splits_iff (h : FrameFormat Frame f g) (hps : ∀ p ∈ ps, Piece Frame p) :
    Splits Frame ps.flatten ↔ ∀ p ∈ ps, p = [] ∨ Frame p := by
  induction ps with
  | nil => exact iff_of_true splits_nil nofun
  | cons p ps ih =>
    rw [List.forall_mem_cons] at hps
    rw [List.forall_mem_cons, List.flatten_cons]
    by_cases hnil : p = []
    · rw [hnil, List.nil_append]
      exact (ih hps.2).trans ⟨fun h => ⟨Or.inl rfl, h⟩, fun h => h.2⟩
    · by_cases hframe : Frame p
      · rw [h.splits_append_iff hframe]
        exact (ih hps.2).trans ⟨fun h => ⟨Or.inr hframe, h⟩, fun h => h.2⟩
      · exact iff_of_false (h.not_splits_of_cut hps.2 hps.1 hnil hframe) fun h => h.1.elim hnil hframe

/-! ## Connections -/

variable {log : List β} {isNew : β → Bool} {taken : β → List α}

/-- What holds of all entries of all connections holds of all entries that do not begin one. -/
theorem forall_connections_iff {P : β → Prop} :
    (∀ conn ∈ log.splitOnP isNew, ∀ e ∈ conn, P e) ↔ ∀ e ∈ log, isNew e = false → P e := by
  induction log with
  | nil => exact iff_of_true (fun conn hconn => by cases List.mem_singleton.mp hconn; nofun) nofun
  | cons e log ih =>
    rw [List.splitOnP_cons_eq_if_modifyHead, List.forall_mem_cons, ← ih]
    cases hnew : isNew e with
    | true =>
      rw [if_pos rfl, List.forall_mem_cons]
      exact ⟨fun h => ⟨nofun, h.2⟩, fun h => ⟨nofun, h.2⟩⟩
    | false =>
      rw [if_neg Bool.false_ne_true]
      obtain ⟨conn, conns, hsplit⟩ := List.exists_cons_of_ne_nil (List.splitOnP_ne_nil isNew log)
      rw [hsplit]
      rw [List.modifyHead_cons, List.forall_mem_cons, List.forall_mem_cons, List.forall_mem_cons]
      exact ⟨fun h => ⟨fun _ => h.1.1, h.1.2, h.2⟩, fun h => ⟨⟨h.1 rfl, h.2.1⟩, h.2.2⟩⟩

/-- **On every connection**: what an entry of the log `taken` is, is a piece of a frame. -/
theorem FrameFormat.splits_connections_iff (h : FrameFormat Frame f g)
    (hpiece : ∀ e ∈ log, Piece Frame (taken e)) (hnew : ∀ e, isNew e = true → taken e = []) :
    (∀ conn ∈ log.splitOnP isNew, Splits Frame (conn.flatMap taken)) ↔
      ∀ e ∈ log, taken e = [] ∨ Frame (taken e) := by
  have hconn : ∀ conn ∈ log.splitOnP isNew, Splits Frame (conn.flatMap taken) ↔
      ∀ e ∈ conn, taken e = [] ∨ Frame (taken e) := by
    intro conn hconn
    have hpieces : ∀ p ∈ conn.map taken, Piece Frame p :=
      List.forall_mem_map.mpr (forall_connections_iff.mpr (fun e he _ => hpiece e he) conn hconn)
    rw [List.flatMap_def, h.splits_iff hpieces, List.forall_mem_map]
  calc (∀ conn ∈ log.splitOnP isNew, Splits Frame (conn.flatMap taken))
      ↔ ∀ conn ∈ log.splitOnP isNew, ∀ e ∈ conn, taken e = [] ∨ Frame (taken e) :=
        forall₂_congr hconn
    _ ↔ ∀ e ∈ log, isNew e = false → taken e = [] ∨ Frame (taken e) := forall_connections_iff
    _ ↔ ∀ e ∈ log, taken e = [] ∨ Frame (taken e) := by
      refine forall₂_congr fun e _ => ⟨fun h => ?_, fun h _ => h⟩
      cases hisNew : isNew e with
      | true => exact Or.inl (hnew e hisNew)
      | false => exact h hisNew

end Framing
