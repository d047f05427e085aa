/-
  LOOPS THAT DELETE FROM AN HLIST — `hlist_for_each_safe`, and what goes wrong without it.

  The loop body deletes the entries `p` with `hlist_del_init`.  `hlist_for_each_safe` has read `pos->next`
  before, so it is run for every entry and deletes all of them (`hlist_purge_safe`).  Under
  `hlist_for_each` the loop reads the `next` of the node that was just initialised: it takes it for the
  end of the list, and what is behind the first deleted entry is never looked at (`hlist_purge_each`).
-/
import AdhocNode.HlistRuns

namespace AdhocNode

open SlotChain WhileLoop

/-- A loop body that deletes the entries `p`. -/
def hlistPurge (p : HlistAddr → Bool) (n : HlistAddr) (m : HlistMem) : Option HlistMem :=
  if p n then hlistDelInit n m else some m

/-- What the loop leaves: the list of `h` is `l`, and the nodes `gone` are unhashed. -/
def Hlists.purged (σ : Hlists) (h : HlistAddr) (l gone : List HlistAddr) : Hlists where
  lists := Function.update σ.lists h (some l)
  mark n := if n ∈ gone then some .unhashed else σ.mark n

section

variable {m m' : HlistMem} {σ : Hlists} {h n : HlistAddr} {K A B l k gone : List HlistAddr}
  {p : HlistAddr → Bool}

theorem Hlists.purged_nil (hl : σ.lists h = some l) : σ.purged h l [] = σ := by
  unfold Hlists.purged
  rw [← hl, Function.update_eq_self]
  simp

/-- Purging goes on where it was. -/
theorem Hlists.purged_purged : (σ.purged h A [n]).purged h l gone = σ.purged h l (n :: gone) := by
  unfold Hlists.purged
  rw [Function.update_idem]
  congr 1
  funext x
  by_cases hx : x ∈ gone <;> simp [hx]

/-- An entry that is deleted. -/
theorem HlistRep.purge (hr : HlistRep m σ) (hl : σ.lists h = some (A ++ n :: B)) (hp : p n = true) :
    ∃ m', hlistPurge p n m = some m' ∧ HlistRep m' (σ.purged h (A ++ B) [n]) := by
  rcases (HlistStep.delInit hl).refines ⟨0, .next 0⟩ hr with ⟨k, hk, hr'⟩
  refine ⟨_, (if_pos hp).trans hk, ?_⟩
  have hmark : (fun x => if x ∈ [n] then some HlistMark.unhashed else σ.mark x) =
      Function.update σ.mark n (some .unhashed) := by
    funext x
    rw [Function.update_apply]
    simp
  unfold Hlists.purged
  rw [hmark]
  exact hr'

/-- **With `hlist_for_each_safe`** the body is run for every entry, and those that it deletes are gone. -/
theorem HlistRep.forEachSafe (hr : HlistRep m σ) (hl : σ.lists h = some (K ++ l)) :
    ∃ m', Returns (hlistForEachSafeBody (hlistPurge p)) ⟨l.head?, k, m⟩ ⟨none, k ++ l, m'⟩ ∧
      HlistRep m' (σ.purged h (K ++ l.filter fun n => !p n) (l.filter p)) := by
  induction l generalizing K k m σ with
  | nil =>
    rw [List.append_nil] at hl ⊢
    refine ⟨m, ⟨Run.refl _, rfl⟩, ?_⟩
    rw [List.filter_nil, List.filter_nil, List.append_nil, Hlists.purged_nil hl]
    exact hr
  | cons n l ih =>
    have hload := hr.load_next hl
    -- one iteration, and the rest from the memory behind it
    have hkey : ∀ {m₁ : HlistMem} {σ₁ : Hlists} {K' : List HlistAddr}, hlistPurge p n m = some m₁ →
        HlistRep m₁ σ₁ → σ₁.lists h = some (K' ++ l) →
        ∃ m', Returns (hlistForEachSafeBody (hlistPurge p)) ⟨some n, k, m⟩ ⟨none, k ++ n :: l, m'⟩ ∧
          HlistRep m' (σ₁.purged h (K' ++ l.filter fun n => !p n) (l.filter p)) := by
      intro m₁ σ₁ K' hm₁ hr₁ hl₁
      rcases ih (k := k ++ [n]) hr₁ hl₁ with ⟨m', hret, hr'⟩
      rw [List.append_assoc] at hret
      refine ⟨m', ⟨Run.head ?_ hret.1, hret.2⟩, hr'⟩
      simp only [hlistForEachSafeBody, hload, hm₁]
    cases hp : p n with
    | true =>
      rcases hr.purge hl hp with ⟨m₁, hm₁, hr₁⟩
      have hfilter : (n :: l).filter p = n :: l.filter p := List.filter_cons_of_pos hp
      have hrest : (n :: l).filter (fun n => !p n) = l.filter fun n => !p n :=
        List.filter_cons_of_neg (by simp [hp])
      rcases hkey hm₁ hr₁ (Function.update_self ..) with ⟨m', hret, hr'⟩
      rw [Hlists.purged_purged] at hr'
      rw [hfilter, hrest]
      exact ⟨m', hret, hr'⟩
    | false =>
      have hfilter : (n :: l).filter p = l.filter p := List.filter_cons_of_neg (by simp [hp])
      have hrest : (n :: l).filter (fun n => !p n) = n :: l.filter fun n => !p n :=
        List.filter_cons_of_pos (by simp [hp])
      have hl' : σ.lists h = some ((K ++ [n]) ++ l) := by rw [hl, List.append_assoc]; rfl
      rcases hkey (if_neg (by simp [hp])) hr hl' with ⟨m', hret, hr'⟩
      rw [List.append_assoc] at hr'
      rw [hfilter, hrest]
      exact ⟨m', hret, hr'⟩

/-- Entries that are not deleted are passed by `hlist_for_each`. -/
theorem HlistRep.forEach_skip (hr : HlistRep m σ) (hl : σ.lists h = some (K ++ A ++ B))
    (hA : ∀ n ∈ A, p n = false) :
    Run (hlistForEachBody (hlistPurge p)) ⟨(A ++ B).head?, k, m⟩ ⟨B.head?, k ++ A, m⟩ := by
  induction A generalizing K k with
  | nil =>
    rw [List.append_nil]
    exact Run.refl _
  | cons n A ih =>
    rw [List.forall_mem_cons] at hA
    have hl' : σ.lists h = some (K ++ n :: (A ++ B)) := by rw [hl, List.append_assoc]; rfl
    have hl'' : σ.lists h = some (K ++ [n] ++ A ++ B) := by rw [hl']; simp
    have hrest := ih (k := k ++ [n]) hl'' hA.2
    rw [List.append_assoc] at hrest
    have hskip : hlistPurge p n m = some m := if_neg (by simp [hA.1])
    refine Run.head ?_ hrest
    simp only [hlistForEachBody, List.cons_append, List.head?_cons, hskip, hr.load_next hl']

end

/-- **Purging with `hlist_for_each_safe`**: it is run for every entry once, in order; afterwards the list holds
    the others, the deleted ones are unhashed, and everything else is as it was. -/
theorem hlist_purge_safe {m : HlistMem} {σ : Hlists} (hr : HlistRep m σ) {h : HlistAddr} {l : List HlistAddr}
    (hl : σ.lists h = some l) (p : HlistAddr → Bool) :
    ∃ m', HlistWalks (hlistForEachSafeBody (hlistPurge p)) h m l m' ∧
      HlistRep m' (σ.purged h (l.filter fun n => !p n) (l.filter p)) := by
  rcases HlistRep.forEachSafe (K := []) (k := []) (p := p) hr hl with ⟨m', hret, hr'⟩
  exact ⟨m', ⟨l.head?, HlistRep.load_slot (A := []) hr hl, hret⟩, hr'⟩

/-- The head 1 of the list of nodes 2 and 3. -/
def twoHlist : HlistMem where
  head a := a == 1
  node a := a == 2 || a == 3
  links := {
    slot := fun s => if s = .first 1 then some 2 else if s = .next 2 then some 3 else none
    back := fun n => if n = 2 then some (.first 1) else some (.next 2) }

def twoHlists : Hlists := ⟨Function.update (fun _ => none) 1 (some [2, 3]), fun _ => none⟩

theorem twoHlist_rep : HlistRep twoHlist twoHlists := by
  have hone : ∀ {h l}, twoHlists.lists h = some l → h = 1 ∧ l = [2, 3] := by
    intro h l hl
    have hupd : Function.update (fun _ : HlistAddr => none) 1 (some [2, 3]) h = some l := hl
    rcases update_cases hupd with hone | ⟨-, hnone⟩
    · exact hone
    · cases hnone
  refine ⟨⟨fun h l hl => ?_, fun h l hl => ?_, fun i j l l' x hi hj _ _ => ?_⟩, fun h l hl => ?_,
    fun h l x hl hx => ?_, nofun⟩
  · obtain ⟨rfl, rfl⟩ := hone hl
    exact ⟨⟨rfl, rfl, rfl, rfl, trivial⟩, rfl⟩
  · obtain ⟨-, rfl⟩ := hone hl
    decide
  · rw [(hone hi).1, (hone hj).1]
  · obtain ⟨rfl, -⟩ := hone hl
    rfl
  · obtain ⟨-, rfl⟩ := hone hl
    revert x
    decide

/-- Both entries are deleted. -/
theorem hlist_purge_safe_two : ∃ m', HlistWalks (hlistForEachSafeBody (hlistPurge fun _ => true)) 1 twoHlist
    [2, 3] m' ∧ HlistRep m' (twoHlists.purged 1 [] [2, 3]) :=
  hlist_purge_safe twoHlist_rep (l := [2, 3]) rfl fun _ => true

/-- **Purging with `hlist_for_each`** ends behind the first entry that is deleted. -/
theorem hlist_purge_each {m : HlistMem} {σ : Hlists} (hr : HlistRep m σ) {h : HlistAddr} {l : List HlistAddr}
    (hl : σ.lists h = some l) (p : HlistAddr → Bool) :
    ((∀ n ∈ l, p n = false) → HlistWalks (hlistForEachBody (hlistPurge p)) h m l m) ∧
      ∀ A n B, l = A ++ n :: B → (∀ x ∈ A, p x = false) → p n = true →
        ∃ m', HlistWalks (hlistForEachBody (hlistPurge p)) h m (A ++ [n]) m' ∧
          HlistRep m' (σ.purged h (A ++ B) [n]) := by
  have hfirst : m.load (.first h) = some l.head? := HlistRep.load_slot (A := []) hr hl
  refine ⟨fun hnone => ⟨l.head?, hfirst, ?_⟩, ?_⟩
  · have hl' : σ.lists h = some ([] ++ l ++ []) := by rw [hl]; simp
    have hrun := hr.forEach_skip (k := []) hl' hnone
    rw [List.append_nil] at hrun
    exact ⟨hrun, rfl⟩
  · rintro A n B rfl hA hp
    rcases hr.purge hl hp with ⟨m', hm', hr'⟩
    have hrun := hr.forEach_skip (K := []) (k := []) hl hA
    -- the node is unhashed now: its `next` is null
    obtain ⟨-, hnode, hslot, -⟩ := hr'.marked n .unhashed (if_pos (List.mem_singleton_self n))
    have hload : m'.load (.next n) = some none := (if_pos hnode).trans (congrArg some hslot)
    refine ⟨m', ⟨(A ++ n :: B).head?, hfirst, hrun.step ?_, rfl⟩, hr'⟩
    simp only [hlistForEachBody, List.head?_cons, hm', hload]
    rfl

/-- The second entry is never looked at. -/
theorem hlist_purge_each_two : ∃ m', HlistWalks (hlistForEachBody (hlistPurge fun _ => true)) 1 twoHlist [2] m' ∧
    HlistRep m' (twoHlists.purged 1 [3] [2]) :=
  (hlist_purge_each twoHlist_rep (l := [2, 3]) rfl fun _ => true).2 [] 2 [3] rfl nofun rfl

end AdhocNode
