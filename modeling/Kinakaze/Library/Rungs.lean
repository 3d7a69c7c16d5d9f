import Mathlib.Order.Lattice
import Mathlib.Order.Nat

/-!
# The first rung above a height

Rounding up to a sequence: the first of its members that is not below what is rounded.
-/

namespace Kinakaze.Library

variable {α : Type} [LinearOrder α] {f : Nat → α} {x y : α} {rung other : Nat}

/-- `rung` is the first one with a member that is not below `x`. -/
structure FirstAbove (f : Nat → α) (x : α) (rung : Nat) : Prop where
  above : x ≤ f rung
  below : ∀ lower < rung, f lower < x

theorem FirstAbove.le_of_above (h : FirstAbove f x rung) (habove : x ≤ f other) : rung ≤ other :=
  Nat.not_lt.mp fun hlt => absurd habove (not_le.mpr (h.below other hlt))

theorem FirstAbove.mono (h : FirstAbove f x rung) (h' : FirstAbove f y other) (hle : x ≤ y) :
    rung ≤ other :=
  h.le_of_above (hle.trans h'.above)

/-- The members of an increasing sequence stay where they are. -/
theorem FirstAbove.self (hf : StrictMono f) (rung : Nat) : FirstAbove f (f rung) rung :=
  ⟨le_rfl, fun _ hlt => hf hlt⟩

theorem exists_firstAbove (h : x ≤ f other) : ∃ rung ≤ other, FirstAbove f x rung := by
  have hexists : ∃ rung, x ≤ f rung := ⟨other, h⟩
  refine ⟨Nat.find hexists, Nat.find_min' hexists h, Nat.find_spec hexists, fun lower hlt => ?_⟩
  exact not_le.mp (Nat.find_min hexists hlt)

end Kinakaze.Library
