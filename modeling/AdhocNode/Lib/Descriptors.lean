/-
  DESCRIPTORS — a table of what is open.

  A descriptor is a number; what stands behind one that is not open does not count.  `Same` says that two
  tables cannot be told apart by what is open, and `Added` that one more is: whatever happens to a
  descriptor between its `open` and its `close`, the others see nothing of it.
-/
import Mathlib.Data.Finset.Basic

namespace Descriptors

/-- The open descriptors, and what stands behind each. -/
structure FdTable (α : Type) where
  fds : Finset Nat
  val : Nat → α

variable {α : Type} {t t' t'' : FdTable α} {fd x : Nat} {a : α}

/-- A new descriptor. -/
def FdTable.alloc (t : FdTable α) (fd : Nat) (a : α) : FdTable α :=
  ⟨insert fd t.fds, Function.update t.val fd a⟩

/-- What stands behind a descriptor changes. -/
def FdTable.modify (t : FdTable α) (fd : Nat) (f : α → α) : FdTable α :=
  ⟨t.fds, Function.update t.val fd (f (t.val fd))⟩

/-- A descriptor is closed. -/
def FdTable.close (t : FdTable α) (fd : Nat) : FdTable α := ⟨t.fds.erase fd, t.val⟩

/-- Nothing that is open has changed. -/
structure Same (t t' : FdTable α) : Prop where
  fds : t'.fds = t.fds
  val : ∀ x ∈ t.fds, t'.val x = t.val x

/-- One more is open, with this behind it. -/
structure Added (fd : Nat) (a : α) (t t' : FdTable α) : Prop where
  new : fd ∉ t.fds
  fds : t'.fds = insert fd t.fds
  self : t'.val fd = a
  val : ∀ x ∈ t.fds, t'.val x = t.val x

theorem Same.refl (t : FdTable α) : Same t t := ⟨rfl, fun _ _ => rfl⟩

theorem Added.alloc (h : fd ∉ t.fds) (a : α) : Added fd a t (t.alloc fd a) := by
  refine ⟨h, rfl, Function.update_self .., fun x hx => ?_⟩
  have hne : x ≠ fd := fun heq => h (heq ▸ hx)
  exact Function.update_of_ne hne _ _

theorem Added.modify (h : Added fd a t t') (f : α → α) : Added fd (f a) t (t'.modify fd f) := by
  refine ⟨h.new, h.fds, ?_, fun x hx => ?_⟩
  · rw [← h.self]
    exact Function.update_self ..
  · have hne : x ≠ fd := fun heq => h.new (heq ▸ hx)
    exact (Function.update_of_ne hne _ _).trans (h.val x hx)

/-- **What is opened and closed again leaves nothing behind.** -/
theorem Added.close (h : Added fd a t t') : Same t (t'.close fd) := by
  refine ⟨?_, h.val⟩
  show t'.fds.erase fd = t.fds
  rw [h.fds, Finset.erase_insert h.new]

/-- The others that are open are those that were. -/
theorem Added.forall_ne_iff (h : Added fd a t t') {P : α → Prop} :
    (∀ x ∈ t'.fds, x ≠ fd → P (t'.val x)) ↔ ∀ x ∈ t.fds, P (t.val x) := by
  constructor
  · intro hall x hx
    have hne : x ≠ fd := fun heq => h.new (heq ▸ hx)
    rw [← h.val x hx]
    apply hall x _ hne
    rw [h.fds]
    exact Finset.mem_insert_of_mem hx
  · intro hall x hx hne
    rw [h.fds] at hx
    have hmem := (Finset.mem_insert.mp hx).resolve_left hne
    rw [h.val x hmem]
    exact hall x hmem

end Descriptors
