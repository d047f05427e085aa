/-
  LISTS AS RINGS — what every operation on `struct list_head` does to the lists of a program.

  1. **The lists** — `Rings m σ`: each member of `σ` is a list, its head first and then its entries;
     in the memory it is a ring of live nodes, and no node is on two.  An operation changes one or
     two of the lists and keeps the others (`Rings.replace`).

  2. **Single nodes** — a node is linked in behind or before another (`Rings.add`, `Rings.addTail`),
     linked out (`Rings.delEntry`), put in another's place (`Rings.replaceNode`), or made a list of its
     own (`Rings.init`).  What stands in the links of a node that is on no list does not matter
     (`Rings.withLinks`).

  3. **Pieces** — a list is spliced into another (`Rings.spliceRaw`), its first entries are cut off
     (`Rings.cut`), a piece of it is moved to its end (`Rings.bulkMoveTail`).
-/
import AdhocNode.ListLinks

namespace AdhocNode

open PtrRing

/-! ## The lists -/

/-- The lists `σ` of a program, each its head and then its entries: rings of live nodes that share
    no node. -/
structure Rings (m : ListMem) (σ : List (List ListAddr)) : Prop where
  ring : ∀ r ∈ σ, Ring m.links r
  live : ∀ r ∈ σ, ∀ x ∈ r, m.live x = true
  apart : σ.Pairwise List.Disjoint

section Rings

variable {m m' : ListMem} {k : Links ListAddr} {σ τ O N : List (List ListAddr)}
  {r r' A B l : List ListAddr} {x e pos : ListAddr}

theorem Rings.perm (h : Rings m σ) (hσ : σ.Perm τ) : Rings m τ where
  ring r hr := h.ring r (hσ.mem_iff.mpr hr)
  live r hr := h.live r (hσ.mem_iff.mpr hr)
  apart := hσ.pairwise h.apart List.disjoint_symm

/-- **Frame**: when some of the lists are replaced by others, on nodes that are not the rest's, the rest
    is kept. -/
theorem Rings.replace (h : Rings m (O ++ τ)) (hN : Rings m' N) (hlive : m'.live = m.live)
    (hkeep : Keeps m.links m'.links τ.flatten) (hapart : ∀ x ∈ N.flatten, x ∉ τ.flatten) :
    Rings m' (N ++ τ) := by
  have hτ : ∀ r ∈ τ, r ∈ O ++ τ := fun r hr => List.mem_append_right _ hr
  refine ⟨fun r hr => ?_, fun r hr => ?_, ?_⟩
  · rcases List.mem_append.mp hr with hr | hr
    · exact hN.ring r hr
    · exact (h.ring r (hτ r hr)).congr fun x hx => hkeep x (List.mem_flatten.mpr ⟨r, hr, hx⟩)
  · rcases List.mem_append.mp hr with hr | hr
    · exact hN.live r hr
    · rw [hlive]
      exact h.live r (hτ r hr)
  · rw [List.pairwise_append]
    refine ⟨hN.apart, (List.pairwise_append.mp h.apart).2.1, fun r hr s hs x hxr hxs => ?_⟩
    exact hapart x (List.mem_flatten.mpr ⟨r, hr, hxr⟩) (List.mem_flatten.mpr ⟨s, hs, hxs⟩)

/-- The nodes of the first lists are not on the others. -/
theorem Rings.notMem (h : Rings m (O ++ τ)) (hx : x ∈ O.flatten) : x ∉ τ.flatten := by
  rcases List.mem_flatten.mp hx with ⟨r, hr, hxr⟩
  intro hxτ
  rcases List.mem_flatten.mp hxτ with ⟨s, hs, hxs⟩
  exact (List.pairwise_append.mp h.apart).2.2 r hr s hs hxr hxs

theorem rings_singleton : Rings m [r] ↔ Ring m.links r ∧ ∀ x ∈ r, m.live x = true := by
  constructor
  · intro h
    exact ⟨h.ring r (List.mem_singleton_self r), h.live r (List.mem_singleton_self r)⟩
  · rintro ⟨hring, hlive⟩
    refine ⟨fun s hs => ?_, fun s hs => ?_, List.pairwise_singleton ..⟩
    · rw [List.mem_singleton.mp hs]
      exact hring
    · rw [List.mem_singleton.mp hs]
      exact hlive

/-- The rule for an operation on one list. -/
theorem Rings.replace_one (h : Rings m (r :: τ)) (hr : Ring k r') (hkeep : Keeps m.links k τ.flatten)
    (hmem : ∀ x ∈ r', x ∈ r ∨ x ∉ τ.flatten ∧ m.live x = true) :
    Rings (m.withLinks k) (r' :: τ) := by
  refine Rings.replace (O := [r]) (N := [r']) h (rings_singleton.mpr ⟨hr, fun x hx => ?_⟩) rfl
    hkeep fun x hx => ?_
  · rcases hmem x hx with hxr | ⟨-, hlive⟩
    · exact h.live r (List.mem_cons_self ..) x hxr
    · exact hlive
  · have hx' : x ∈ r' := by simpa using hx
    rcases hmem x hx' with hxr | ⟨hxτ, -⟩
    · exact Rings.notMem (O := [r]) h (by simpa using hxr)
    · exact hxτ

/-- What the links of nodes are that are on no list does not matter. -/
theorem Rings.withLinks (h : Rings m σ) (hkeep : Keeps m.links k σ.flatten) :
    Rings (m.withLinks k) σ :=
  Rings.replace (O := []) (N := []) h ⟨nofun, nofun, List.Pairwise.nil⟩ rfl hkeep nofun

/-- A list can be given up. -/
theorem Rings.tail (h : Rings m (r :: τ)) : Rings m τ :=
  Rings.replace (O := [r]) (N := []) h ⟨nofun, nofun, List.Pairwise.nil⟩ rfl (Keeps.refl _ _) nofun

/-- Around a node of the first list everything is live, and on no other list. -/
theorem Rings.around (h : Rings m (r :: τ)) (hx : x ∈ r) :
    (m.live x = true ∧ m.live (m.links.next x) = true ∧ m.live (m.links.prev x) = true) ∧
      x ∉ τ.flatten ∧ m.links.next x ∉ τ.flatten ∧ m.links.prev x ∉ τ.flatten := by
  have hring := h.ring r (List.mem_cons_self ..)
  have hlive := h.live r (List.mem_cons_self ..)
  rcases hring.closed_under hx with ⟨hnext, hprev, -⟩
  have hout : ∀ y ∈ r, y ∉ τ.flatten := by
    intro y hy
    exact Rings.notMem (O := [r]) h (by simpa using hy)
  exact ⟨⟨hlive x hx, hlive _ hnext, hlive _ hprev⟩, hout x hx, hout _ hnext, hout _ hprev⟩

theorem mem_rotate_iff : x ∈ e :: (B ++ A) ↔ x ∈ A ++ e :: B := by
  simp only [List.mem_cons, List.mem_append]
  tauto

/-! ## Single nodes -/

/-- `INIT_LIST_HEAD`. -/
theorem Rings.init (h : Rings m σ) (hx : x ∉ σ.flatten) (hlive : m.live x = true) :
    ∃ k, initListHead x m = some (m.withLinks k) ∧ Rings (m.withLinks k) ([x] :: σ) := by
  refine ⟨_, initListHead_eq hlive, ?_⟩
  refine Rings.replace (O := []) (N := [[x]]) h (rings_singleton.mpr ⟨ring_self, ?_⟩) rfl ?_ ?_
  · intro y hy
    rw [List.mem_singleton.mp hy]
    exact hlive
  · exact (Keeps.refl _ _).link hx hx
  · intro y hy
    rw [show y = x by simpa using hy]
    exact hx

/-- `list_add`, behind the head or behind an entry. -/
theorem Rings.add (h : Rings m ((A ++ pos :: B) :: τ)) (hx : x ∉ ((A ++ pos :: B) :: τ).flatten)
    (hlive : m.live x = true) : ∃ k, listAdd x pos m = some (m.withLinks k) ∧
      Rings (m.withLinks k) ((A ++ pos :: x :: B) :: τ) := by
  rw [List.flatten_cons, List.mem_append, not_or] at hx
  rcases h.around (x := pos) (by simp) with ⟨⟨hpos, hnext, -⟩, hposτ, hnextτ, -⟩
  refine ⟨_, listAdd_eq hlive hpos hnext, h.replace_one ?_ ?_ ?_⟩
  · have hring : Ring m.links (pos :: (B ++ A)) := (h.ring _ (List.mem_cons_self ..)).rotate
    have hins := hring.insert_after (x := x) (mt mem_rotate_iff.mp hx.1)
    exact Ring.rotate (s := pos :: x :: B) hins
  · exact ((Keeps.refl _ _).link hx.2 hnextτ).link hposτ hx.2
  · intro y hy
    by_cases hyx : y = x
    · rw [hyx]
      exact Or.inr ⟨hx.2, hlive⟩
    · exact Or.inl (by grind)

/-- A list may be read from any of its nodes on. -/
theorem Rings.rotate (h : Rings m ((A ++ B) :: τ)) : Rings m ((B ++ A) :: τ) := by
  have hring : Ring m.links (B ++ A) := (h.ring _ (List.mem_cons_self ..)).rotate
  refine h.replace_one hring (Keeps.refl _ _) fun x hx => Or.inl ?_
  exact List.mem_append.mpr (List.mem_append.mp hx).symm

/-- `list_add_tail`, before an entry. -/
theorem Rings.addTail (h : Rings m ((A ++ pos :: B) :: τ)) (hx : x ∉ ((A ++ pos :: B) :: τ).flatten)
    (hlive : m.live x = true) : ∃ k, listAddTail x pos m = some (m.withLinks k) ∧
      Rings (m.withLinks k) ((A ++ x :: pos :: B) :: τ) := by
  rw [List.flatten_cons, List.mem_append, not_or] at hx
  rcases h.around (x := pos) (by simp) with ⟨⟨hpos, -, hprev⟩, hposτ, -, hprevτ⟩
  refine ⟨_, listAddTail_eq hlive hpos hprev, h.replace_one ?_ ?_ ?_⟩
  · have hring : Ring m.links (pos :: (B ++ A)) := (h.ring _ (List.mem_cons_self ..)).rotate
    have hins := hring.insert_before (x := x) (mt mem_rotate_iff.mp hx.1)
    have hback : pos :: (B ++ A) ++ [x] = (pos :: B) ++ (A ++ [x]) := by simp
    rw [hback] at hins
    have hrot := hins.rotate
    rw [List.append_assoc, List.singleton_append] at hrot
    exact hrot
  · exact ((Keeps.refl _ _).link hx.2 hposτ).link hprevτ hx.2
  · intro y hy
    by_cases hyx : y = x
    · rw [hyx]
      exact Or.inr ⟨hx.2, hlive⟩
    · exact Or.inl (by grind)

/-- `list_add_tail`, before the head: at the end of the list. -/
theorem Rings.addTail_head (h : Rings m ((e :: l) :: τ)) (hx : x ∉ ((e :: l) :: τ).flatten)
    (hlive : m.live x = true) : ∃ k, listAddTail x e m = some (m.withLinks k) ∧
      Rings (m.withLinks k) ((e :: l ++ [x]) :: τ) := by
  rcases Rings.addTail (A := []) h hx hlive with ⟨k, hk, hrings⟩
  exact ⟨k, hk, Rings.rotate (A := [x]) hrings⟩

/-- `__list_del_entry`, of one node among others. -/
theorem Rings.delEntry (h : Rings m ((A ++ e :: B) :: τ)) (hne : A ++ B ≠ []) :
    ∃ k, listDelEntry e m = some (m.withLinks k) ∧ Rings (m.withLinks k) ((A ++ B) :: τ) := by
  rcases h.around (x := e) (by simp) with ⟨⟨he, hnext, hprev⟩, -, hnextτ, hprevτ⟩
  refine ⟨_, listDelEntry_eq he hprev hnext, h.replace_one ?_ ?_ ?_⟩
  · have hring : Ring m.links (e :: (B ++ A)) := (h.ring _ (List.mem_cons_self ..)).rotate
    cases hl : B ++ A with
    | nil =>
      exact absurd (by simp_all) hne
    | cons b l =>
      rw [hl] at hring
      have hrem := hring.remove
      rw [← hl] at hrem
      exact hrem.rotate
  · exact (Keeps.refl _ _).link hprevτ hnextτ
  · intro y hy
    exact Or.inl (by grind)

/-- `__list_del_entry`, of a node that is a list of its own. -/
theorem Rings.delEntry_alone (h : Rings m ([e] :: τ)) :
    ∃ k, listDelEntry e m = some (m.withLinks k) ∧ Rings (m.withLinks k) τ := by
  rcases h.around (x := e) (List.mem_cons_self ..) with ⟨⟨he, hnext, hprev⟩, -, hnextτ, hprevτ⟩
  refine ⟨_, listDelEntry_eq he hprev hnext, h.tail.withLinks ?_⟩
  exact (Keeps.refl _ _).link hprevτ hnextτ

/-- `list_replace`. -/
theorem Rings.replaceNode (h : Rings m ((A ++ e :: B) :: τ)) (hx : x ∉ ((A ++ e :: B) :: τ).flatten)
    (hlive : m.live x = true) : ∃ k, listReplace e x m = some (m.withLinks k) ∧
      Rings (m.withLinks k) ((A ++ x :: B) :: τ) := by
  rw [List.flatten_cons, List.mem_append, not_or] at hx
  rcases h.around (x := e) (by simp) with ⟨⟨he, hnext, hprev⟩, heτ, hnextτ, hprevτ⟩
  have hread : (m.links.link x (m.links.next e)).prev e = m.links.prev e ∨
      (m.links.link x (m.links.next e)).prev e = x := by
    rw [link_prev]
    split
    · exact Or.inr rfl
    · exact Or.inl rfl
  refine ⟨_, listReplace_eq he hlive hnext ?_, h.replace_one ?_ ?_ ?_⟩
  · rcases hread with heq | heq
    · rw [heq]
      exact hprev
    · rw [heq]
      exact hlive
  · have hring : Ring m.links (e :: (B ++ A)) := (h.ring _ (List.mem_cons_self ..)).rotate
    refine Ring.rotate (s := x :: B) ?_
    show Ring _ (x :: (B ++ A))
    cases hl : B ++ A with
    | nil =>
      -- the node was a list of its own: the second step starts at the new node itself
      rw [hl] at hring
      rw [(ring_singleton.mp hring).1, link_prev, if_pos rfl]
      exact ring_self
    | cons b l =>
      rw [hl] at hring
      have heb : e ≠ b := fun heq => (List.nodup_cons.mp hring.nodup).1 (by simp [heq])
      have hnb : m.links.next e = b := hring.next_head
      rw [hnb, link_prev, if_neg heb]
      refine hring.replace ?_
      rw [← hl]
      exact mt mem_rotate_iff.mp hx.1
  · refine ((Keeps.refl _ _).link hx.2 hnextτ).link ?_ hx.2
    rcases hread with heq | heq
    · rw [heq]
      exact hprevτ
    · rw [heq]
      exact hx.2
  · intro y hy
    by_cases hyx : y = x
    · rw [hyx]
      exact Or.inr ⟨hx.2, hlive⟩
    · exact Or.inl (by grind)

/-- Writing to a node that is on no list. -/
theorem Rings.poison (h : Rings m σ) (hx : x ∉ σ.flatten) (hlive : m.live x = true)
    (poison : Poison) : ∃ k, ((m.setNext x poison.poison1).bind fun m =>
      m.setPrev x poison.poison2) = some (m.withLinks k) ∧ Rings (m.withLinks k) σ := by
  refine ⟨_, ?_, h.withLinks (k := (m.links.setNext x poison.poison1).setPrev x poison.poison2) ?_⟩
  · rw [setNext_eq hlive, Option.bind_some]
    exact setPrev_eq (by exact hlive)
  · intro y hy
    have hyx : y ≠ x := fun heq => hx (heq ▸ hy)
    exact ⟨setNext_next_of_ne hyx, setPrev_prev_of_ne hyx⟩

/-! ## Pieces -/

/-- Splicing the entries of one list in before a node of another; the head of the first is on no list
    afterwards. -/
theorem Rings.spliceRaw {a : ListAddr} (h : Rings m ((x :: a :: l) :: (A ++ pos :: B) :: τ)) :
    ∃ k, listSpliceRaw x (m.links.prev pos) pos m = some (m.withLinks k) ∧
      Rings (m.withLinks k) ((A ++ a :: l ++ pos :: B) :: τ) := by
  have hswap : Rings m ((A ++ pos :: B) :: (x :: a :: l) :: τ) := h.perm (List.Perm.swap ..)
  have hring : Ring m.links (pos :: (B ++ A)) := (hswap.ring _ (List.mem_cons_self ..)).rotate
  have hlist : Ring m.links (x :: a :: l) := h.ring _ (List.mem_cons_self ..)
  rcases h.around (x := x) (List.mem_cons_self ..) with ⟨⟨hx, hnext, hprev⟩, hxτ, hnextτ, hprevτ⟩
  rcases hswap.around (x := pos) (by simp) with ⟨⟨hpos, -, hppos⟩, hposτ, -, hpposτ⟩
  have hout : ∀ y, y ∉ ((x :: a :: l) :: τ).flatten → y ∉ τ.flatten := by
    intro y hy hyτ
    exact hy (List.mem_append_right _ hyτ)
  have hout' : ∀ y, y ∉ ((A ++ pos :: B) :: τ).flatten → y ∉ τ.flatten := by
    intro y hy hyτ
    exact hy (List.mem_append_right _ hyτ)
  have hdisj : (a :: l).Disjoint (pos :: (B ++ A)) := by
    intro y hyl hyp
    refine Rings.notMem (O := [x :: a :: l]) (x := y) h ?_ ?_
    · exact List.mem_append_left _ (List.mem_cons_of_mem _ hyl)
    · exact List.mem_append_left _ (mem_rotate_iff.mp hyp)
  have hend : m.links.prev x = l.getLastD a := by
    rw [hlist.prev_head, List.getLastD_cons]
  refine ⟨_, listSpliceRaw_eq hx hppos hpos hnext hprev, ?_⟩
  refine Rings.replace (O := [x :: a :: l, A ++ pos :: B]) (N := [A ++ a :: l ++ pos :: B]) h
    (rings_singleton.mpr ⟨?_, fun y hy => ?_⟩) rfl ?_ fun y hy => ?_
  · have hatt := hring.attach (List.nodup_cons.mp hlist.nodup).2
      (List.isChain_cons_cons.mp hlist.chain).2 hdisj
    rw [withLinks_links, hlist.next_head, hend]
    have hback : a :: l ++ pos :: (B ++ A) = (a :: l ++ pos :: B) ++ A := by simp
    rw [hback] at hatt
    have hrot := hatt.rotate
    rw [← List.append_assoc] at hrot
    exact hrot
  · rw [withLinks_live]
    by_cases hyl : y ∈ a :: l
    · exact h.live _ (List.mem_cons_self ..) y (List.mem_cons_of_mem _ hyl)
    · exact hswap.live _ (List.mem_cons_self ..) y (by grind)
  · exact ((Keeps.refl _ _).link (hout _ hpposτ) (hout' _ hnextτ)).link (hout' _ hprevτ)
      (hout _ hposτ)
  · have hy' : y ∈ A ++ a :: l ++ pos :: B := by simpa using hy
    refine Rings.notMem (O := [x :: a :: l, A ++ pos :: B]) h ?_
    rw [List.flatten_cons, List.flatten_cons, List.flatten_nil, List.append_nil]
    grind

/-- Cutting a piece off behind the head of a list. -/
theorem Rings.cut {a : ListAddr} (h : Rings m ((a :: l ++ e :: B) :: τ))
    (hx : x ∉ ((a :: l ++ e :: B) :: τ).flatten) (hlive : m.live x = true)
    (hk : k = ((m.links.link x a).link (l.getLastD a) x).link (m.links.prev a) e) :
    Rings (m.withLinks k) ((x :: a :: l) :: (e :: B) :: τ) := by
  rw [List.flatten_cons, List.mem_append, not_or] at hx
  have hring : Ring m.links (a :: l ++ e :: B) := h.ring _ (List.mem_cons_self ..)
  rcases hring.cut hx.1 with ⟨hpiece, hrest⟩
  rw [← hk] at hpiece hrest
  have hmem : ∀ y ∈ a :: l ++ e :: B, m.live y = true ∧ y ∉ τ.flatten := by
    intro y hy
    exact ⟨h.live _ (List.mem_cons_self ..) y hy,
      Rings.notMem (O := [a :: l ++ e :: B]) h (by simpa using hy)⟩
  have hlast : l.getLastD a ∈ a :: l ++ e :: B := List.mem_append_left _ getLastD_mem_cons
  have hprev : m.links.prev a ∈ a :: l ++ e :: B := (hring.closed_under (by simp)).2.1
  refine Rings.replace (O := [a :: l ++ e :: B]) (N := [x :: a :: l, e :: B]) h
    ⟨?_, ?_, ?_⟩ rfl ?_ fun y hy => ?_
  · intro r hr
    rcases List.mem_pair.mp hr with rfl | rfl
    · exact hpiece
    · exact hrest
  · intro r hr y hy
    rw [withLinks_live]
    by_cases hyx : y = x
    · rw [hyx]
      exact hlive
    · refine (hmem y ?_).1
      rcases List.mem_pair.mp hr with rfl | rfl
      · exact List.mem_append_left _ ((List.mem_cons.mp hy).resolve_left hyx)
      · exact List.mem_append_right _ hy
  · refine List.pairwise_pair.mpr fun y hyp hyr => ?_
    rcases List.mem_cons.mp hyp with rfl | hyp
    · exact hx.1 (List.mem_append_right _ hyr)
    · exact (List.nodup_append.mp hring.nodup).2.2 y hyp y hyr rfl
  · rw [hk]
    exact (((Keeps.refl _ _).link hx.2 (hmem a (by simp)).2).link (hmem _ hlast).2 hx.2).link
      (hmem _ hprev).2 (hmem e (by simp)).2
  · by_cases hyx : y = x
    · rw [hyx]
      exact hx.2
    · refine (hmem y ?_).2
      rw [List.flatten_cons, List.flatten_cons, List.flatten_nil, List.append_nil] at hy
      grind

/-- `list_bulk_move_tail`. -/
theorem Rings.bulkMoveTail {a head : ListAddr} (h : Rings m ((head :: A ++ a :: l ++ B) :: τ)) :
    ∃ k, listBulkMoveTail head a (l.getLastD a) m = some (m.withLinks k) ∧
      Rings (m.withLinks k) ((head :: A ++ B ++ a :: l) :: τ) := by
  have hring : Ring m.links (a :: l ++ (B ++ head :: A)) := by
    have hrot := (h.ring _ (List.mem_cons_self ..))
    rw [List.append_assoc] at hrot
    have hrot := hrot.rotate
    rw [List.append_assoc] at hrot
    exact hrot
  rcases h.around (x := head) (by simp) with ⟨⟨hhead, -, hphead⟩, hheadτ, -, hpheadτ⟩
  rcases h.around (x := a) (by simp) with ⟨⟨ha, -, hpa⟩, haτ, -, hpaτ⟩
  have hlast : l.getLastD a ∈ head :: A ++ a :: l ++ B :=
    List.mem_append_left _ (List.mem_append_right _ getLastD_mem_cons)
  rcases h.around hlast with ⟨⟨he, hne, -⟩, heτ, hneτ, -⟩
  have hapart : l.getLastD a ≠ m.links.prev a := by
    -- the node before the piece is on the rest of the list
    have hprev : m.links.prev a ∈ B ++ head :: A := by
      cases hr : B ++ head :: A with
      | nil => exact absurd hr (by simp)
      | cons b k =>
        rw [hr] at hring
        rw [hring.seam_last.2]
        exact getLastD_mem_cons
    exact (List.nodup_append.mp hring.nodup).2.2 _ getLastD_mem_cons _ hprev
  have hread : (m.links.link (m.links.prev a) (m.links.next (l.getLastD a))).prev head =
      m.links.prev head ∨ (m.links.link (m.links.prev a) (m.links.next (l.getLastD a))).prev head =
        m.links.prev a := by
    rw [link_prev]
    split
    · exact Or.inr rfl
    · exact Or.inl rfl
  have hend : ∀ q, q = m.links.prev head ∨ q = m.links.prev a → m.live q = true ∧ q ∉ τ.flatten := by
    rintro q (rfl | rfl)
    · exact ⟨hphead, hpheadτ⟩
    · exact ⟨hpa, hpaτ⟩
  refine ⟨_, listBulkMoveTail_eq hhead ha he hpa hne hapart (hend _ hread).1,
    h.replace_one ?_ ?_ fun y hy => Or.inl (by grind)⟩
  · have hmoved := Ring.rotate (s := a :: l) hring.move
    simpa using hmoved
  · exact (((Keeps.refl _ _).link hpaτ hneτ).link (hend _ hread).2 haτ).link heτ hheadτ

end Rings

end AdhocNode
