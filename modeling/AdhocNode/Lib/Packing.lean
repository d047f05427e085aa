/-
  GREEDY PACKING — queues with bytes to send, served in a fixed order into a frame of limited room.

  Every queue that sends puts a header of `hdr` bytes and then its bytes into the frame; the last
  one to send may be cut.  A queue gets nothing when no byte would fit behind its header.

  1. **One queue** — `share hdr room need` is how much a queue with `need` bytes sends into `room`
     bytes, `roomAfter` is the room it leaves.

  2. **A frame** — `plan` lists the items of a frame, each with its offset and size; `roomAt` is the
     room that a queue finds when its turn comes.  A queue has at most one item (`filter_plan`), of
     the size that its room gives, and the items lie one behind the other (`packed_plan`), in the
     order of the queues (`map_plan`).

  3. **What is left** — a queue that is not served in full leaves no room (`room_le_of_left`) and
     blocks the queues behind it (`sentBy_behind`); with `needed` bytes of room nothing is left
     (`total_plan_of_room`).
-/
import Mathlib.Algebra.GroupWithZero.Nat
import Mathlib.Data.List.Nodup

namespace Packing

/-! ## One queue -/

/-- The number of bytes that a queue with `need` bytes sends into `room`. -/
def share (hdr room need : Nat) : Nat := min need (room - hdr)

/-- The room that is left. -/
def roomAfter (hdr room need : Nat) : Nat :=
  if share hdr room need = 0 then room else room - (share hdr room need + hdr)

theorem share_le (hdr room need : Nat) : share hdr room need ≤ need := Nat.min_le_left ..

/-- A queue is passed over if it has nothing to send, or if not even one byte fits behind a header.
    -/
theorem share_eq_zero_iff {hdr room need : Nat} :
    share hdr room need = 0 ↔ need = 0 ∨ room ≤ hdr := by
  unfold share; omega

/-- What is sent fits, its header included. -/
theorem share_add_le {hdr room need : Nat} (h : share hdr room need ≠ 0) :
    share hdr room need + hdr ≤ room := by
  unfold share at *; omega

/-- A queue that fits is sent whole. -/
theorem share_of_fits {hdr room need : Nat} (h : need + hdr ≤ room) : share hdr room need = need := by
  unfold share; omega

/-- A queue that does not fit takes all the room. -/
theorem share_of_not_fits {hdr room need : Nat} (h : room < need + hdr) :
    share hdr room need = room - hdr := by
  unfold share; omega

/-! ## A frame -/

/-- A queue's part of the frame, its header included. -/
structure Item (κ : Type) where
  key : κ
  off : Nat
  size : Nat
  deriving DecidableEq, Repr

variable {κ : Type}

/-- The items of a frame, from offset `off` on. -/
def plan (hdr : Nat) (need : κ → Nat) : List κ → Nat → Nat → List (Item κ)
  | [], _, _ => []
  | k :: ks, off, room =>
    if share hdr room (need k) = 0 then plan hdr need ks off room
    else ⟨k, off, share hdr room (need k) + hdr⟩ ::
      plan hdr need ks (off + (share hdr room (need k) + hdr)) (roomAfter hdr room (need k))

section Plan

variable {hdr off room : Nat} {need : κ → Nat} {k : κ} {ks : List κ}

theorem plan_cons_of_eq (h : share hdr room (need k) = 0) :
    plan hdr need (k :: ks) off room = plan hdr need ks off room := if_pos h

theorem plan_cons_of_ne (h : share hdr room (need k) ≠ 0) :
    plan hdr need (k :: ks) off room = ⟨k, off, share hdr room (need k) + hdr⟩ ::
      plan hdr need ks (off + (share hdr room (need k) + hdr)) (roomAfter hdr room (need k)) :=
  if_neg h

theorem roomAfter_of_eq (h : share hdr room (need k) = 0) : roomAfter hdr room (need k) = room :=
  if_pos h

theorem roomAfter_of_ne (h : share hdr room (need k) ≠ 0) :
    roomAfter hdr room (need k) = room - (share hdr room (need k) + hdr) := if_neg h

theorem roomAfter_le (hdr room n : Nat) : roomAfter hdr room n ≤ room := by
  unfold roomAfter; split <;> omega

/-- Nothing fits into a frame without room for a header and a byte. -/
theorem plan_of_small (h : room ≤ hdr) : plan hdr need ks off room = [] := by
  induction ks with
  | nil => rfl
  | cons k ks ih => rw [plan_cons_of_eq (share_eq_zero_iff.mpr (Or.inr h))]; exact ih

/-- Nothing to send makes an empty frame. -/
theorem plan_of_no_need (h : ∀ k ∈ ks, need k = 0) : plan hdr need ks off room = [] := by
  induction ks with
  | nil => rfl
  | cons k ks ih =>
    rw [plan_cons_of_eq (share_eq_zero_iff.mpr (Or.inl (h k (List.mem_cons_self ..))))]
    exact ih fun j hj => h j (List.mem_cons_of_mem _ hj)

/-- A frame depends on the queues it is made of. -/
theorem plan_congr {need' : κ → Nat} (h : ∀ j ∈ ks, need j = need' j) :
    plan hdr need ks off room = plan hdr need' ks off room := by
  induction ks generalizing off room with
  | nil => rfl
  | cons k ks ih =>
    have hrest : ∀ o r, plan hdr need ks o r = plan hdr need' ks o r := fun _ _ =>
      ih fun j hj => h j (List.mem_cons_of_mem _ hj)
    unfold plan
    rw [h k (List.mem_cons_self ..), hrest, hrest]

theorem key_mem_of_mem_plan {i : Item κ} (h : i ∈ plan hdr need ks off room) : i.key ∈ ks := by
  induction ks generalizing off room with
  | nil => cases h
  | cons k ks ih =>
    by_cases hz : share hdr room (need k) = 0
    · rw [plan_cons_of_eq hz] at h
      exact List.mem_cons_of_mem _ (ih h)
    · rw [plan_cons_of_ne hz] at h
      rcases List.mem_cons.mp h with rfl | h
      · exact List.mem_cons_self ..
      · exact List.mem_cons_of_mem _ (ih h)

/-- The items lie one behind the other: each begins where the one before it ends. -/
def Packed : List (Item κ) → Nat → Nat → Prop
  | [], off, fin => off = fin
  | i :: is, off, fin => i.off = off ∧ Packed is (off + i.size) fin

theorem Packed.le {is : List (Item κ)} {off fin : Nat} (h : Packed is off fin) : off ≤ fin := by
  induction is generalizing off with
  | nil => exact Nat.le_of_eq h
  | cons i is ih => exact Nat.le_trans (Nat.le_add_right ..) (ih h.2)

/-- Every item lies between the ends. -/
theorem Packed.bounds {is : List (Item κ)} {i : Item κ} {off fin : Nat} (h : Packed is off fin)
    (hi : i ∈ is) : off ≤ i.off ∧ i.off + i.size ≤ fin := by
  induction is generalizing off with
  | nil => exact absurd hi List.not_mem_nil
  | cons j js ih =>
    rcases h with ⟨hoff, hrest⟩
    rcases List.mem_cons.mp hi with rfl | hi
    · rw [hoff]
      exact ⟨Nat.le_refl _, hrest.le⟩
    · rcases ih hrest hi with ⟨hle, hend⟩
      exact ⟨Nat.le_trans (Nat.le_add_right ..) hle, hend⟩

/-- The number of bytes in a frame. -/
def total (is : List (Item κ)) : Nat := (is.map Item.size).sum

@[simp] theorem total_cons (i : Item κ) (is : List (Item κ)) : total (i :: is) = i.size + total is :=
  rfl

/-- **The items of a frame leave no gap**, neither between them nor in front. -/
theorem packed_plan :
    Packed (plan hdr need ks off room) off (off + total (plan hdr need ks off room)) := by
  induction ks generalizing off room with
  | nil => rfl
  | cons k ks ih =>
    by_cases hz : share hdr room (need k) = 0
    · rw [plan_cons_of_eq hz]; exact ih
    · rw [plan_cons_of_ne hz]
      refine ⟨rfl, ?_⟩
      show Packed _ (off + (share hdr room (need k) + hdr)) (off + (_ + total _))
      rw [← Nat.add_assoc off _ (total _)]
      exact ih

/-- An item is more than a header. -/
theorem lt_size_of_mem_plan {i : Item κ} (h : i ∈ plan hdr need ks off room) : hdr < i.size := by
  induction ks generalizing off room with
  | nil => cases h
  | cons k ks ih =>
    by_cases hz : share hdr room (need k) = 0
    · rw [plan_cons_of_eq hz] at h; exact ih h
    · rw [plan_cons_of_ne hz] at h
      rcases List.mem_cons.mp h with rfl | h
      · show hdr < share hdr room (need k) + hdr
        omega
      · exact ih h

/-- Only the empty frame has no bytes. -/
theorem total_plan_eq_zero_iff :
    total (plan hdr need ks off room) = 0 ↔ plan hdr need ks off room = [] := by
  constructor
  · intro h
    cases hplan : plan hdr need ks off room with
    | nil => rfl
    | cons i is =>
      have hsize := lt_size_of_mem_plan (hplan ▸ List.mem_cons_self .. : i ∈ plan hdr need ks off room)
      rw [hplan, total_cons] at h
      omega
  · intro h; rw [h]; rfl

/-- Bounded queues make bounded frames. -/
theorem total_plan_le_mul {bound : Nat} (h : ∀ k ∈ ks, need k ≤ bound) :
    total (plan hdr need ks off room) ≤ ks.length * (bound + hdr) := by
  induction ks generalizing off room with
  | nil => exact Nat.zero_le _
  | cons k ks ih =>
    have hrest : ∀ o r, total (plan hdr need ks o r) ≤ ks.length * (bound + hdr) := fun _ _ =>
      ih fun j hj => h j (List.mem_cons_of_mem _ hj)
    have hk := Nat.le_trans (share_le hdr room (need k)) (h k (List.mem_cons_self ..))
    rw [List.length_cons, Nat.succ_mul]
    by_cases hz : share hdr room (need k) = 0
    · rw [plan_cons_of_eq hz]
      exact Nat.le_trans (hrest _ _) (Nat.le_add_right ..)
    · rw [plan_cons_of_ne hz, total_cons, Nat.add_comm]
      exact Nat.add_le_add (hrest _ _) (Nat.add_le_add_right hk _)

/-- A frame is no longer than its room. -/
theorem total_plan_le : total (plan hdr need ks off room) ≤ room := by
  induction ks generalizing off room with
  | nil => exact Nat.zero_le _
  | cons k ks ih =>
    have hrest : ∀ o r, total (plan hdr need ks o r) ≤ r := fun _ _ => ih
    by_cases hz : share hdr room (need k) = 0
    · rw [plan_cons_of_eq hz]
      exact ih
    · have hfits := share_add_le hz
      have htail := hrest (off + (share hdr room (need k) + hdr))
        (room - (share hdr room (need k) + hdr))
      rw [plan_cons_of_ne hz, total_cons, roomAfter_of_ne hz]
      show share hdr room (need k) + hdr + _ ≤ room
      omega

/-- The room it takes to send everything. -/
def needed (hdr : Nat) (need : κ → Nat) (ks : List κ) : Nat :=
  (ks.map fun k => if need k = 0 then 0 else need k + hdr).sum

theorem needed_cons (hdr : Nat) (need : κ → Nat) (k : κ) (ks : List κ) : needed hdr need (k :: ks) =
    (if need k = 0 then 0 else need k + hdr) + needed hdr need ks := rfl

/-- With so much room, everything is sent. -/
theorem total_plan_of_room (h : needed hdr need ks ≤ room) :
    total (plan hdr need ks off room) = needed hdr need ks := by
  induction ks generalizing off room with
  | nil => rfl
  | cons k ks ih =>
    rw [needed_cons] at h ⊢
    by_cases hneed : need k = 0
    · rw [if_pos hneed] at h ⊢
      rw [plan_cons_of_eq (share_eq_zero_iff.mpr (Or.inl hneed)), ih (by omega)]
      omega
    · rw [if_neg hneed] at h ⊢
      have hshare : share hdr room (need k) = need k := share_of_fits (by omega)
      have hz : share hdr room (need k) ≠ 0 := by rw [hshare]; exact hneed
      rw [plan_cons_of_ne hz, total_cons, roomAfter_of_ne hz, hshare, ih (by omega)]

/-- Bounded queues need bounded room. -/
theorem needed_le {bound : Nat} (h : ∀ k ∈ ks, need k ≤ bound) :
    needed hdr need ks ≤ ks.length * (bound + hdr) := by
  have hall : total (plan hdr need ks 0 (needed hdr need ks)) = needed hdr need ks :=
    total_plan_of_room (Nat.le_refl _)
  rw [← hall]
  exact total_plan_le_mul h

/-- No item begins before the frame does. -/
theorem off_le_of_mem_plan {i : Item κ} (h : i ∈ plan hdr need ks off room) : off ≤ i.off :=
  (packed_plan.bounds h).1

/-- The frame is not empty when its first queue in need finds room. -/
theorem plan_ne_nil (hroom : hdr < room) (h : ∃ k ∈ ks, need k ≠ 0) :
    plan hdr need ks off room ≠ [] := by
  obtain ⟨k, hk, hneed⟩ := h
  induction ks with
  | nil => cases hk
  | cons j js ih =>
    by_cases hz : share hdr room (need j) = 0
    · rw [plan_cons_of_eq hz]
      refine ih ?_
      rcases List.mem_cons.mp hk with rfl | hk
      · exact absurd hz (by rw [share_eq_zero_iff]; omega)
      · exact hk
    · rw [plan_cons_of_ne hz]
      exact List.cons_ne_nil _ _

/-- The payload in a list of items: their bytes without the headers. -/
def payload (hdr : Nat) (is : List (Item κ)) : Nat := (is.map fun i => i.size - hdr).sum

theorem payload_cons (hdr : Nat) (i : Item κ) (is : List (Item κ)) :
    payload hdr (i :: is) = (i.size - hdr) + payload hdr is := rfl

/-- A frame that is not empty has payload. -/
theorem payload_plan_pos (h : plan hdr need ks off room ≠ []) :
    0 < payload hdr (plan hdr need ks off room) := by
  cases hplan : plan hdr need ks off room with
  | nil => exact absurd hplan h
  | cons i is =>
    have hsize := lt_size_of_mem_plan (hplan ▸ List.mem_cons_self .. : i ∈ plan hdr need ks off room)
    rw [payload_cons]
    omega

end Plan

section Room

variable [DecidableEq κ]

/-- The room that queue `k` finds when its turn comes. -/
def roomAt (hdr : Nat) (need : κ → Nat) (k : κ) : List κ → Nat → Nat
  | [], _ => 0
  | j :: js, room => if j = k then room else roomAt hdr need k js (roomAfter hdr room (need j))

/-- The number of bytes that queue `k` sends. -/
def sentBy (hdr : Nat) (need : κ → Nat) (ks : List κ) (room : Nat) (k : κ) : Nat :=
  share hdr (roomAt hdr need k ks room) (need k)

variable {hdr off room : Nat} {need : κ → Nat} {k j : κ} {ks : List κ}

theorem roomAt_self : roomAt hdr need k (k :: ks) room = room := if_pos rfl

theorem roomAt_of_ne (h : j ≠ k) :
    roomAt hdr need k (j :: ks) room = roomAt hdr need k ks (roomAfter hdr room (need j)) := if_neg h

/-- A queue that has no turn finds no room. -/
theorem roomAt_of_not_mem (h : k ∉ ks) : roomAt hdr need k ks room = 0 := by
  induction ks generalizing room with
  | nil => rfl
  | cons j js ih =>
    rw [roomAt_of_ne fun hj => h (by rw [hj]; exact List.mem_cons_self ..)]
    exact ih fun hmem => h (List.mem_cons_of_mem _ hmem)

/-- The room of a queue depends on the other queues only. -/
theorem roomAt_congr {need' : κ → Nat} (h : ∀ j ∈ ks, j ≠ k → need j = need' j) :
    roomAt hdr need k ks room = roomAt hdr need' k ks room := by
  induction ks generalizing room with
  | nil => rfl
  | cons j js ih =>
    by_cases hj : j = k
    · rw [hj, roomAt_self, roomAt_self]
    · rw [roomAt_of_ne hj, roomAt_of_ne hj, h j (List.mem_cons_self ..) hj]
      exact ih fun i hi => h i (List.mem_cons_of_mem _ hi)

theorem sentBy_self : sentBy hdr need (k :: ks) room k = share hdr room (need k) := by
  unfold sentBy; rw [roomAt_self]

theorem sentBy_of_ne (h : j ≠ k) :
    sentBy hdr need (j :: ks) room k = sentBy hdr need ks (roomAfter hdr room (need j)) k := by
  unfold sentBy; rw [roomAt_of_ne h]

theorem sentBy_of_not_mem (h : k ∉ ks) : sentBy hdr need ks room k = 0 := by
  unfold sentBy
  rw [roomAt_of_not_mem h]
  exact share_eq_zero_iff.mpr (Or.inr (Nat.zero_le _))

/-- What a queue sends depends on the queues before it and on itself. -/
theorem sentBy_congr {need' : κ → Nat} (h : ∀ j ∈ ks, need j = need' j) :
    sentBy hdr need ks room k = sentBy hdr need' ks room k := by
  by_cases hk : k ∈ ks
  · unfold sentBy
    rw [roomAt_congr fun j hj _ => h j hj, h k hk]
  · rw [sentBy_of_not_mem hk, sentBy_of_not_mem hk]

theorem roomAt_le : roomAt hdr need k ks room ≤ room := by
  induction ks generalizing room with
  | nil => exact Nat.zero_le _
  | cons j js ih =>
    unfold roomAt
    split
    · exact Nat.le_refl _
    · exact Nat.le_trans ih (roomAfter_le ..)

/-- Without room for a header and a byte nothing is sent. -/
theorem sentBy_of_small (h : room ≤ hdr) : sentBy hdr need ks room k = 0 :=
  share_eq_zero_iff.mpr (Or.inr (Nat.le_trans roomAt_le h))

/-- **A queue's items**: none if it sends nothing, and otherwise one, of the size of its share. -/
theorem filter_plan (hnd : ks.Nodup) :
    (sentBy hdr need ks room k = 0 ∧ (plan hdr need ks off room).filter (·.key = k) = []) ∨
    sentBy hdr need ks room k ≠ 0 ∧ ∃ o, (plan hdr need ks off room).filter (·.key = k) =
      [⟨k, o, sentBy hdr need ks room k + hdr⟩] := by
  induction ks generalizing off room with
  | nil => exact Or.inl ⟨sentBy_of_not_mem List.not_mem_nil, rfl⟩
  | cons j js ih =>
    obtain ⟨hj, hnd'⟩ := List.nodup_cons.mp hnd
    by_cases hjk : j = k
    · subst hjk
      have hrest : ∀ o r, (plan hdr need js o r).filter (·.key = j) = [] := by
        intro o r
        rw [List.filter_eq_nil_iff]
        intro i hi hkey
        have hmem := key_mem_of_mem_plan hi
        rw [of_decide_eq_true hkey] at hmem
        exact hj hmem
      rw [sentBy_self]
      by_cases hz : share hdr room (need j) = 0
      · rw [plan_cons_of_eq hz]
        exact Or.inl ⟨hz, hrest _ _⟩
      · rw [plan_cons_of_ne hz, List.filter_cons_of_pos (by simp), hrest]
        exact Or.inr ⟨hz, off, rfl⟩
    · rw [sentBy_of_ne hjk]
      by_cases hz : share hdr room (need j) = 0
      · rw [plan_cons_of_eq hz, roomAfter_of_eq hz]
        exact ih hnd'
      · rw [plan_cons_of_ne hz, List.filter_cons_of_neg (by simp [hjk])]
        exact ih hnd'

/-- **The items in order**: one for each queue that sends something. -/
theorem map_plan (hnd : ks.Nodup) :
    (plan hdr need ks off room).map (fun i => (i.key, i.size)) =
      (ks.filter fun k => sentBy hdr need ks room k ≠ 0).map
        fun k => (k, sentBy hdr need ks room k + hdr) := by
  induction ks generalizing off room with
  | nil => rfl
  | cons j js ih =>
    rcases List.nodup_cons.mp hnd with ⟨hj, hnd'⟩
    have hrest : ∀ k ∈ js,
        sentBy hdr need (j :: js) room k = sentBy hdr need js (roomAfter hdr room (need j)) k := by
      intro k hk
      apply sentBy_of_ne
      rintro rfl
      exact hj hk
    have hfilter : (js.filter fun k => sentBy hdr need (j :: js) room k ≠ 0) =
        js.filter fun k => sentBy hdr need js (roomAfter hdr room (need j)) k ≠ 0 := by
      apply List.filter_congr
      intro k hk
      rw [hrest k hk]
    have hmap : ((js.filter fun k => sentBy hdr need (j :: js) room k ≠ 0).map
          fun k => (k, sentBy hdr need (j :: js) room k + hdr)) =
        (js.filter fun k => sentBy hdr need js (roomAfter hdr room (need j)) k ≠ 0).map
          fun k => (k, sentBy hdr need js (roomAfter hdr room (need j)) k + hdr) := by
      rw [hfilter]
      apply List.map_congr_left
      intro k hk
      rw [hrest k (List.mem_of_mem_filter hk)]
    by_cases hz : share hdr room (need j) = 0
    · rw [plan_cons_of_eq hz, List.filter_cons_of_neg (by simpa [sentBy_self] using hz), hmap,
        roomAfter_of_eq hz]
      exact ih hnd'
    · rw [plan_cons_of_ne hz, List.filter_cons_of_pos (by simpa [sentBy_self] using hz),
        List.map_cons, List.map_cons, hmap, sentBy_self, ih hnd']

/-- A queue that is not served in full leaves no more room than a header. -/
theorem room_le_of_left (hk : k ∈ ks) (hleft : sentBy hdr need ks room k < need k) :
    room ≤ total (plan hdr need ks off room) + hdr := by
  induction ks generalizing off room with
  | nil => exact absurd hk List.not_mem_nil
  | cons j js ih =>
    by_cases hjk : j = k
    · subst hjk
      rw [sentBy_self] at hleft
      have hshare : share hdr room (need j) = room - hdr := share_of_not_fits (by
        unfold share at hleft
        omega)
      by_cases hz : share hdr room (need j) = 0
      · omega
      · rw [plan_cons_of_ne hz, total_cons]
        show room ≤ share hdr room (need j) + hdr + _ + hdr
        omega
    · have hmem : k ∈ js := (List.mem_cons.mp hk).resolve_left (Ne.symm hjk)
      rw [sentBy_of_ne hjk] at hleft
      by_cases hz : share hdr room (need j) = 0
      · rw [roomAfter_of_eq hz] at hleft
        rw [plan_cons_of_eq hz]
        exact ih hmem hleft
      · have hrest : ∀ o, roomAfter hdr room (need j) ≤
            total (plan hdr need js o (roomAfter hdr room (need j))) + hdr := fun _ => ih hmem hleft
        have htail := hrest (off + (share hdr room (need j) + hdr))
        have hafter := roomAfter_of_ne hz
        rw [plan_cons_of_ne hz, total_cons]
        show room ≤ share hdr room (need j) + hdr + _ + hdr
        omega

/-- **Blocking**: behind a queue that is not served in full, no queue sends anything. -/
theorem sentBy_behind {pre post : List κ} (hnd : (pre ++ k :: post).Nodup)
    (hleft : sentBy hdr need (pre ++ k :: post) room k < need k) (hj : j ∈ post) :
    sentBy hdr need (pre ++ k :: post) room j = 0 := by
  induction pre generalizing room with
  | nil =>
    rw [List.nil_append] at hnd hleft ⊢
    rw [sentBy_self] at hleft
    have hkj : k ≠ j := by
      rintro rfl
      exact (List.nodup_cons.mp hnd).1 hj
    have hshare : share hdr room (need k) = room - hdr := share_of_not_fits (by
      unfold share at hleft
      omega)
    rw [sentBy_of_ne hkj]
    apply sentBy_of_small
    unfold roomAfter
    split <;> omega
  | cons i pre ih =>
    rw [List.cons_append] at hnd hleft ⊢
    rcases List.nodup_cons.mp hnd with ⟨hi, hnd'⟩
    have hik : i ≠ k := by
      rintro rfl
      exact hi (List.mem_append_right _ (List.mem_cons_self ..))
    have hij : i ≠ j := by
      rintro rfl
      exact hi (List.mem_append_right _ (List.mem_cons_of_mem _ hj))
    rw [sentBy_of_ne hik] at hleft
    rw [sentBy_of_ne hij]
    exact ih hnd' hleft

/-- **No byte is lost**: what a frame takes and what the queues keep is what they had. -/
theorem payload_add_rest (hnd : ks.Nodup) :
    payload hdr (plan hdr need ks off room) +
      (ks.map fun k => need k - sentBy hdr need ks room k).sum = (ks.map need).sum := by
  induction ks generalizing off room with
  | nil => rfl
  | cons j js ih =>
    obtain ⟨hj, hnd'⟩ := List.nodup_cons.mp hnd
    have hrest : (js.map fun k => need k - sentBy hdr need (j :: js) room k) =
        js.map fun k => need k - sentBy hdr need js (roomAfter hdr room (need j)) k := by
      apply List.map_congr_left
      intro k hk
      have hjk : j ≠ k := by
        rintro rfl
        exact hj hk
      rw [sentBy_of_ne hjk]
    have hle := share_le hdr room (need j)
    rw [List.map_cons, List.map_cons, List.sum_cons, List.sum_cons, hrest, sentBy_self]
    have hih : ∀ o r, payload hdr (plan hdr need js o r) +
        (js.map fun k => need k - sentBy hdr need js r k).sum = (js.map need).sum :=
      fun _ _ => ih hnd'
    by_cases hz : share hdr room (need j) = 0
    · rw [plan_cons_of_eq hz, roomAfter_of_eq hz, hz, ← hih off room]
      omega
    · rw [plan_cons_of_ne hz, payload_cons, Nat.add_sub_cancel,
        ← hih (off + (share hdr room (need j) + hdr)) (roomAfter hdr room (need j))]
      omega

end Room

end Packing
