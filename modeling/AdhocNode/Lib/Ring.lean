/-
  RINGS OF DOUBLY LINKED NODES — what `next` and `prev` spell out, and the one way to change it.

  1. **Links** — every node has a `next` and a `prev`; `Linked m a b` says that both agree on the step
     from `a` to `b`.  `link a b` makes that step, and undoes the ones that left `a` and entered `b`
     (`linked_link`).

  2. **Rings** — `Ring m s`: the nodes `s` are distinct, each is linked to the one behind it, and the
     last to the first.  A ring has no beginning (`Ring.rotate`) and depends on the links of its own
     nodes only (`Ring.congr`); what stands before and behind the first node is its last and its
     second (`Ring.prev_head`, `Ring.next_head`).

  3. **Surgery** — a chain that a new link leaves and enters at its ends only stays one
     (`isChain_link`).  Hence a piece of a ring can be linked out of it (`Ring.detach`), and a chain
     linked into a ring (`Ring.attach`) or closed with a node of its own (`ring_close`).  Links between
     different nodes can be made in any order (`link_comm`).
-/
import Mathlib.Data.List.Chain
import Mathlib.Data.List.Nodup
import Mathlib.Logic.Function.Basic

namespace PtrRing

/-! ## Links -/

/-- The links of the nodes. -/
structure Links (α : Type) where
  next : α → α
  prev : α → α

variable {α : Type}

/-- Both links agree on the step from `a` to `b`. -/
def Linked (m : Links α) (a b : α) : Prop := m.next a = b ∧ m.prev b = a

/-- The nodes `s` are distinct, each is linked to the one behind it and the last to the first. -/
structure Ring (m : Links α) (s : List α) : Prop where
  nodup : s.Nodup
  chain : s.IsChain (Linked m)
  closed : ∀ a ∈ s.getLast?, ∀ b ∈ s.head?, Linked m a b

section Link

variable [DecidableEq α] {m : Links α} {a b x y : α}

/-- Let `a` lead to `b`. -/
def Links.setNext (m : Links α) (a b : α) : Links α := { m with next := Function.update m.next a b }

/-- Let `b` be entered from `a`. -/
def Links.setPrev (m : Links α) (b a : α) : Links α := { m with prev := Function.update m.prev b a }

/-- Make the step from `a` to `b`. -/
def Links.link (m : Links α) (a b : α) : Links α := (m.setNext a b).setPrev b a

@[simp] theorem setNext_next_self : (m.setNext a b).next a = b := Function.update_self ..

theorem setNext_next_of_ne (hx : x ≠ a) : (m.setNext a b).next x = m.next x :=
  Function.update_of_ne hx ..

@[simp] theorem setPrev_prev_self : (m.setPrev b a).prev b = a := Function.update_self ..

theorem setPrev_prev_of_ne (hx : x ≠ b) : (m.setPrev b a).prev x = m.prev x :=
  Function.update_of_ne hx ..

theorem link_next : (m.link a b).next x = if x = a then b else m.next x :=
  Function.update_apply ..

theorem link_prev : (m.link a b).prev x = if x = b then a else m.prev x :=
  Function.update_apply ..

/-- Links that leave and enter different nodes can be made in any order. -/
theorem link_comm {c d : α} (hac : a ≠ c) (hbd : b ≠ d) :
    (m.link a b).link c d = (m.link c d).link a b := by
  unfold Links.link Links.setNext Links.setPrev
  dsimp only
  rw [Function.update_comm hac, Function.update_comm hbd]

/-- **Linking** makes one step, and undoes those that left the one node and entered the other. -/
theorem linked_link :
    Linked (m.link a b) x y ↔ x = a ∧ y = b ∨ x ≠ a ∧ y ≠ b ∧ Linked m x y := by
  rw [Linked, Linked, link_next, link_prev]
  by_cases hx : x = a
  · by_cases hy : y = b
    · simp [hx, hy]
    · simp [hx, hy, Ne.symm hy]
  · by_cases hy : y = b
    · simp [hx, hy, Ne.symm hx]
    · simp [hx, hy]

end Link

/-! ## Rings -/

section Rings

variable {m m' : Links α} {a b x : α} {s t l : List α}

theorem mem_getLast?_cons : l.getLastD a ∈ (a :: l).getLast? := by
  rw [List.getLast?_cons, List.getLastD_eq_getLast?]
  exact rfl

theorem getLastD_mem_cons : l.getLastD a ∈ a :: l := List.mem_of_getLast? mem_getLast?_cons

theorem eq_getLastD (h : x ∈ (a :: l).getLast?) : x = l.getLastD a :=
  Option.some.inj (h.symm.trans mem_getLast?_cons)

/-- Inside a chain of distinct nodes, no step leaves the last one or enters the first. -/
theorem isChain_congr (hs : s.Nodup) (hchain : s.IsChain (Linked m))
    (hkeep : ∀ a ∈ s, ∀ b ∈ s, a ∉ s.getLast? → b ∉ s.head? → Linked m a b → Linked m' a b) :
    s.IsChain (Linked m') := by
  induction s with
  | nil => exact List.isChain_nil
  | cons x s ih =>
    cases s with
    | nil => exact List.isChain_singleton x
    | cons y s =>
      rw [List.isChain_cons_cons] at hchain ⊢
      rcases hchain with ⟨hxy, hrest⟩
      have hx : x ∉ y :: s := (List.nodup_cons.mp hs).1
      refine ⟨?_, ih (List.nodup_cons.mp hs).2 hrest fun a ha b hb hlast hhead hab => ?_⟩
      · refine hkeep x (List.mem_cons_self ..) y (by simp) ?_ ?_ hxy
        · rw [List.getLast?_cons_cons]
          exact fun hlast => hx (List.mem_of_getLast? hlast)
        · intro hhead
          exact hx (by simp_all)
      · refine hkeep a (List.mem_cons_of_mem _ ha) b (List.mem_cons_of_mem _ hb) ?_ ?_ hab
        · rw [List.getLast?_cons_cons]
          exact hlast
        · intro hhead
          have hxb : x = b := by simpa using hhead
          exact hx (hxb ▸ hb)

/-- A chain whose end is linked to its beginning is a ring. -/
theorem ring_cons (hs : (a :: l).Nodup) (hchain : (a :: l).IsChain (Linked m))
    (hclosed : Linked m (l.getLastD a) a) : Ring m (a :: l) := by
  refine ⟨hs, hchain, fun x hx y hy => ?_⟩
  cases hy
  rw [eq_getLastD hx]
  exact hclosed

/-- **A ring has no beginning.** -/
theorem Ring.rotate (h : Ring m (s ++ t)) : Ring m (t ++ s) := by
  rcases List.eq_nil_or_concat s with rfl | ⟨s, a, rfl⟩
  · rw [List.append_nil]
    exact h
  · rw [List.concat_eq_append] at h ⊢
    cases t with
    | nil =>
      rw [List.append_nil] at h
      exact h
    | cons b t =>
      rcases h with ⟨hnodup, hchain, hclosed⟩
      rw [List.isChain_append] at hchain
      rcases hchain with ⟨hs, ht, hseam⟩
      refine ⟨List.nodup_append_comm.mp hnodup, ?_, ?_⟩
      · rw [List.isChain_append]
        refine ⟨ht, hs, fun x hx y hy => hclosed x ?_ y ?_⟩
        · rw [List.getLast?_append, Option.mem_def.mp hx]
          rfl
        · rw [List.head?_append, Option.mem_def.mp hy]
          rfl
      · intro x hx y hy
        refine hseam x ?_ y ?_
        · rw [← List.append_assoc, List.getLast?_concat] at hx
          rw [List.getLast?_concat]
          exact hx
        · rw [List.cons_append] at hy
          exact hy

/-- The links of the nodes `s` are the same. -/
def Keeps (m m' : Links α) (s : List α) : Prop :=
  ∀ x ∈ s, m'.next x = m.next x ∧ m'.prev x = m.prev x

theorem Keeps.refl (m : Links α) (s : List α) : Keeps m m s := fun _ _ => ⟨rfl, rfl⟩

theorem Keeps.trans {m'' : Links α} (h : Keeps m m' s) (h' : Keeps m' m'' s) : Keeps m m'' s :=
  fun x hx => ⟨(h' x hx).1.trans (h x hx).1, (h' x hx).2.trans (h x hx).2⟩

/-- **Frame**: a ring depends on the links of its own nodes only. -/
theorem Ring.congr (h : Ring m s) (hsame : Keeps m m' s) : Ring m' s := by
  have hkeep : ∀ a ∈ s, ∀ b ∈ s, Linked m a b → Linked m' a b := by
    rintro a ha b hb ⟨hab, hba⟩
    exact ⟨(hsame a ha).1.trans hab, (hsame b hb).2.trans hba⟩
  refine ⟨h.nodup, ?_, fun a ha b hb => ?_⟩
  · exact isChain_congr h.nodup h.chain fun a ha b hb _ _ => hkeep a ha b hb
  · exact hkeep a (List.mem_of_getLast? ha) b (List.mem_of_head? hb) (h.closed a ha b hb)

/-- A node alone is a ring when it is linked to itself. -/
theorem ring_singleton : Ring m [a] ↔ m.next a = a ∧ m.prev a = a := by
  constructor
  · intro h
    exact h.closed a rfl a rfl
  · intro h
    refine ⟨List.nodup_singleton a, List.isChain_singleton a, ?_⟩
    rintro x hx y hy
    cases hx
    cases hy
    exact h

/-- The first node is entered from the last. -/
theorem Ring.prev_head (h : Ring m (a :: l)) : m.prev a = l.getLastD a := by
  exact (h.closed _ mem_getLast?_cons a rfl).2

/-- The first node leads to the second, or to itself. -/
theorem Ring.next_head (h : Ring m (a :: l)) : m.next a = l.headD a := by
  cases l with
  | nil => exact (h.closed a rfl a rfl).1
  | cons b l => exact (List.isChain_cons_cons.mp h.chain).1.1

/-- The step from a node of a ring to the one written behind it. -/
theorem Ring.linked (h : Ring m (s ++ a :: b :: t)) : Linked m a b :=
  (List.isChain_append_cons_cons.mp h.chain).2.1

/-- The step from one piece of a ring to the next. -/
theorem Ring.seam {k : List α} (h : Ring m (a :: l ++ b :: k)) : Linked m (l.getLastD a) b :=
  (List.isChain_append.mp h.chain).2.2 _ mem_getLast?_cons b rfl

/-- The step from the last piece of a ring to the first. -/
theorem Ring.seam_last {k : List α} (h : Ring m (a :: l ++ b :: k)) : Linked m (k.getLastD b) a := by
  refine h.closed _ ?_ a rfl
  rw [List.getLast?_append, mem_getLast?_cons]
  rfl

/-- Every node of a ring can be its first. -/
theorem Ring.exists_rotate (h : Ring m s) (ha : a ∈ s) :
    ∃ l, Ring m (a :: l) ∧ ∃ s₁ s₂, s = s₁ ++ a :: s₂ ∧ l = s₂ ++ s₁ := by
  rcases List.append_of_mem ha with ⟨s₁, s₂, rfl⟩
  exact ⟨s₂ ++ s₁, h.rotate, s₁, s₂, rfl, rfl⟩

/-- Links lead from nodes of a ring to nodes of the ring, and back. -/
theorem Ring.closed_under (h : Ring m s) (ha : a ∈ s) :
    m.next a ∈ s ∧ m.prev a ∈ s ∧ m.prev (m.next a) = a ∧ m.next (m.prev a) = a := by
  rcases h.exists_rotate ha with ⟨l, hring, s₁, s₂, rfl, rfl⟩
  have hmem : ∀ x ∈ a :: (s₂ ++ s₁), x ∈ s₁ ++ a :: s₂ := by
    intro x hx
    simp only [List.mem_cons, List.mem_append] at hx ⊢
    tauto
  have hlast : Linked m ((s₂ ++ s₁).getLastD a) a := hring.closed _ mem_getLast?_cons a rfl
  have hfirst : Linked m a (m.next a) ∧ m.next a ∈ a :: (s₂ ++ s₁) := by
    cases hl : s₂ ++ s₁ with
    | nil =>
      rw [hl] at hring
      have hself := ring_singleton.mp hring
      refine ⟨⟨rfl, ?_⟩, ?_⟩
      · rw [hself.1, hself.2]
      · rw [hself.1]
        exact List.mem_cons_self ..
    | cons b k =>
      rw [hl] at hring
      have hstep := (List.isChain_cons_cons.mp hring.chain).1
      rw [hstep.1]
      exact ⟨hstep, by simp⟩
  refine ⟨hmem _ hfirst.2, ?_, hfirst.1.2, ?_⟩
  · rw [hring.prev_head]
    exact hmem _ getLastD_mem_cons
  · rw [hring.prev_head]
    exact hlast.1

end Rings

/-! ## Surgery -/

section Surgery

variable [DecidableEq α] {m : Links α} {a b x y : α} {s l k : List α}

/-- A chain of distinct nodes that a new link leaves and enters at its ends only stays one. -/
theorem isChain_link (hs : s.Nodup) (ha : a ∈ s → a ∈ s.getLast?) (hb : b ∈ s → b ∈ s.head?)
    (hchain : s.IsChain (Linked m)) : s.IsChain (Linked (m.link a b)) := by
  refine isChain_congr hs hchain fun x hx y hy hxl hyh hxy => ?_
  refine linked_link.mpr (Or.inr ⟨?_, ?_, hxy⟩)
  · rintro rfl
    exact hxl (ha hx)
  · rintro rfl
    exact hyh (hb hy)

/-- A link between other nodes keeps the links of these. -/
theorem Keeps.link {m' : Links α} (h : Keeps m m' s) (ha : a ∉ s) (hb : b ∉ s) :
    Keeps m (m'.link a b) s := by
  refine h.trans fun x hx => ⟨?_, ?_⟩
  · rw [link_next, if_neg fun hxa : x = a => ha (hxa ▸ hx)]
  · rw [link_prev, if_neg fun hxb : x = b => hb (hxb ▸ hx)]

/-- A node that is its own neighbour is a ring. -/
theorem ring_self : Ring (m.link a a) [a] :=
  ring_singleton.mpr (linked_link.mpr (Or.inl ⟨rfl, rfl⟩))

/-- **Linking a piece out** of a ring: what stays is a ring, and the piece a chain. -/
theorem Ring.detach (h : Ring m (a :: l ++ b :: k)) :
    Ring (m.link (m.prev a) b) (b :: k) ∧
      (a :: l).IsChain (Linked (m.link (m.prev a) b)) := by
  rcases List.nodup_append.mp h.nodup with ⟨hl, hk, hdisj⟩
  rcases List.isChain_append.mp h.chain with ⟨hlc, hkc, -⟩
  have hlast : m.prev a = k.getLastD b := h.seam_last.2
  have hkl : k.getLastD b ∉ a :: l := fun hmem => hdisj _ hmem _ getLastD_mem_cons rfl
  have hbl : b ∉ a :: l := fun hmem => hdisj b hmem b (List.mem_cons_self ..) rfl
  rw [hlast]
  refine ⟨ring_cons hk ?_ (linked_link.mpr (Or.inl ⟨rfl, rfl⟩)), ?_⟩
  · exact isChain_link hk (fun _ => mem_getLast?_cons) (fun _ => rfl) hkc
  · exact isChain_link hl (fun hmem => absurd hmem hkl) (fun hmem => absurd hmem hbl) hlc

/-- **Linking a chain in**, before `b`. -/
theorem Ring.attach (h : Ring m (b :: k)) (hl : (a :: l).Nodup)
    (hchain : (a :: l).IsChain (Linked m)) (hdisj : (a :: l).Disjoint (b :: k)) :
    Ring ((m.link (m.prev b) a).link (l.getLastD a) b) (a :: l ++ b :: k) := by
  have hal : a ∉ b :: k := fun hmem => hdisj (List.mem_cons_self ..) hmem
  have hbl : b ∉ a :: l := fun hmem => hdisj hmem (List.mem_cons_self ..)
  have hlk : l.getLastD a ∉ b :: k := fun hmem => hdisj getLastD_mem_cons hmem
  have hkl : k.getLastD b ∉ a :: l := fun hmem => hdisj hmem getLastD_mem_cons
  have hends : k.getLastD b ≠ l.getLastD a := fun heq => hlk (heq ▸ getLastD_mem_cons)
  have hab : a ≠ b := fun heq => hal (heq ▸ List.mem_cons_self ..)
  rw [h.prev_head]
  refine ⟨hl.append h.nodup hdisj, ?_, ?_⟩
  · rw [List.isChain_append]
    refine ⟨?_, ?_, fun y hy z hz => ?_⟩
    · apply isChain_link hl (fun _ => mem_getLast?_cons) (fun hmem => absurd hmem hbl)
      exact isChain_link hl (fun hmem => absurd hmem hkl) (fun _ => rfl) hchain
    · apply isChain_link h.nodup (fun hmem => absurd hmem hlk) (fun _ => rfl)
      exact isChain_link h.nodup (fun _ => mem_getLast?_cons) (fun hmem => absurd hmem hal) h.chain
    · cases hz
      exact linked_link.mpr (Or.inl ⟨eq_getLastD hy, rfl⟩)
  · intro y hy z hz
    cases hz
    rw [List.getLast?_append, mem_getLast?_cons, Option.some_or] at hy
    cases hy
    exact linked_link.mpr (Or.inr ⟨hends, hab, linked_link.mpr (Or.inl ⟨rfl, rfl⟩)⟩)

/-- **Linking a node out.** -/
theorem Ring.remove (h : Ring m (x :: b :: k)) : Ring (m.link (m.prev x) (m.next x)) (b :: k) := by
  rw [h.next_head]
  exact (Ring.detach (l := []) h).1

/-- **Linking a node in** before another. -/
theorem Ring.insert_before (h : Ring m (b :: k)) (hx : x ∉ b :: k) :
    Ring ((m.link x b).link (m.prev b) x) (b :: k ++ [x]) := by
  have hends : x ≠ m.prev b := by
    rw [h.prev_head]
    exact fun heq => hx (heq ▸ getLastD_mem_cons)
  have hbx : b ≠ x := fun heq => hx (heq ▸ List.mem_cons_self ..)
  have hring := h.attach (List.nodup_singleton x) (List.isChain_singleton x) (by simpa using hx)
  rw [link_comm hends hbx]
  exact hring.rotate

/-- **Linking a node in** behind another. -/
theorem Ring.insert_after (h : Ring m (a :: l)) (hx : x ∉ a :: l) :
    Ring ((m.link x (m.next a)).link a x) (a :: x :: l) := by
  rw [h.next_head]
  cases l with
  | nil =>
    have hring := h.insert_before hx
    rw [h.prev_head] at hring
    exact hring
  | cons b l =>
    have hrot : Ring m (b :: (l ++ [a])) := Ring.rotate (s := [a]) h
    have hring := hrot.insert_before (x := x) fun hmem => hx (by simp_all)
    rw [hrot.prev_head, List.getLastD_concat] at hring
    have hback : (b :: (l ++ [a]) ++ [x]) = (b :: l) ++ [a, x] := by simp
    rw [hback] at hring
    exact hring.rotate

/-- **Putting a node in another's place.** -/
theorem Ring.replace {y : α} (h : Ring m (x :: b :: k)) (hy : y ∉ x :: b :: k) :
    Ring ((m.link y b).link (m.prev x) y) (y :: b :: k) := by
  have hrem := (Ring.detach (l := []) h).1
  have hyk : y ∉ b :: k := fun hmem => hy (List.mem_cons_of_mem _ hmem)
  have hlast : m.prev x = k.getLastD b := by
    rw [h.prev_head, List.getLastD_cons]
  have hring := hrem.insert_before hyk
  have hprev : (m.link (m.prev x) b).prev b = m.prev x := by
    rw [link_prev, if_pos rfl]
  rw [hprev] at hring
  refine Ring.congr (Ring.rotate (t := [y]) hring) fun z hz => ?_
  -- the step past `y` was overwritten at both its ends
  simp only [link_next, link_prev]
  grind

/-- **Closing a chain** with a node of its own. -/
theorem ring_close (hl : (a :: l).Nodup) (hchain : (a :: l).IsChain (Linked m)) (hx : x ∉ a :: l) :
    Ring ((m.link x a).link (l.getLastD a) x) (x :: a :: l) := by
  have hxl : x ≠ l.getLastD a := fun heq => hx (heq ▸ getLastD_mem_cons)
  have hax : a ≠ x := fun heq => hx (heq ▸ List.mem_cons_self ..)
  refine ring_cons (List.nodup_cons.mpr ⟨hx, hl⟩) (List.isChain_cons_cons.mpr ⟨?_, ?_⟩) ?_
  · exact linked_link.mpr (Or.inr ⟨hxl, hax, linked_link.mpr (Or.inl ⟨rfl, rfl⟩)⟩)
  · apply isChain_link hl (fun _ => mem_getLast?_cons) (fun hmem => absurd hmem hx)
    exact isChain_link hl (fun hmem => absurd hmem hx) (fun _ => rfl) hchain
  · rw [List.getLastD_cons]
    exact linked_link.mpr (Or.inl ⟨rfl, rfl⟩)

/-- **Cutting a ring**: a piece is closed with a node `x` of its own, and the rest without it. -/
theorem Ring.cut (h : Ring m (a :: l ++ b :: k)) (hx : x ∉ a :: l ++ b :: k) :
    Ring (((m.link x a).link (l.getLastD a) x).link (m.prev a) b) (x :: a :: l) ∧
      Ring (((m.link x a).link (l.getLastD a) x).link (m.prev a) b) (b :: k) := by
  rw [List.mem_append, not_or] at hx
  rcases List.nodup_append.mp h.nodup with ⟨hl, -, hdisj⟩
  rcases h.detach with ⟨hrest, hpiece⟩
  have hlast : m.prev a = k.getLastD b := h.seam_last.2
  have hap : a ∉ b :: k := fun hmem => hdisj a (List.mem_cons_self ..) a hmem rfl
  have hlk : l.getLastD a ∉ b :: k := fun hmem => hdisj _ getLastD_mem_cons _ hmem rfl
  have hend : k.getLastD b ∈ b :: k := getLastD_mem_cons
  have hpx : m.prev a ≠ x := by
    rw [hlast]
    exact fun heq => hx.2 (heq ▸ hend)
  have hpl : m.prev a ≠ l.getLastD a := by
    rw [hlast]
    exact fun heq => hlk (heq ▸ hend)
  have hba : b ≠ a := fun heq => hap (heq ▸ List.mem_cons_self ..)
  have hbx : b ≠ x := fun heq => hx.2 (heq ▸ List.mem_cons_self ..)
  -- the step past the piece may be made first
  have horder : ((m.link x a).link (l.getLastD a) x).link (m.prev a) b =
      ((m.link (m.prev a) b).link x a).link (l.getLastD a) x := by
    rw [link_comm hpx hba, link_comm hpl hbx]
  rw [horder]
  exact ⟨ring_close hl hpiece hx.1, hrest.congr (((Keeps.refl _ _).link hx.2 hap).link hlk hx.2)⟩

/-- **Moving a piece** of a ring before `b`. -/
theorem Ring.move {t : List α} (h : Ring m (a :: l ++ (t ++ b :: k))) :
    Ring (((m.link (m.prev a) (m.next (l.getLastD a))).link
      ((m.link (m.prev a) (m.next (l.getLastD a))).prev b) a).link (l.getLastD a) b)
        (a :: l ++ b :: (k ++ t)) := by
  rcases List.nodup_append.mp h.nodup with ⟨hl, -, hdisj⟩
  have hstep : ∀ {c : α} {u : List α}, t ++ b :: k = c :: u →
      Ring (m.link (m.prev a) (m.next (l.getLastD a))) (t ++ b :: k) ∧
        (a :: l).IsChain (Linked (m.link (m.prev a) (m.next (l.getLastD a)))) := by
    intro c u hu
    rw [hu] at h ⊢
    rw [h.seam.1]
    exact h.detach
  have hout : Ring (m.link (m.prev a) (m.next (l.getLastD a))) (t ++ b :: k) ∧
      (a :: l).IsChain (Linked (m.link (m.prev a) (m.next (l.getLastD a)))) := by
    cases t with
    | nil => exact hstep rfl
    | cons c u => exact hstep rfl
  refine Ring.attach hout.1.rotate hl hout.2 fun x hxl hxk => ?_
  exact hdisj x hxl x (by grind) rfl

end Surgery

end PtrRing
