import Mathlib.Logic.Function.Iterate

/-!
# Rounds until nothing changes

A pass over some data is repeated until it leaves the size as it was.  Where a round never adds
to the size, and changes nothing when it keeps it, the repetition ends where the round has nothing
to do.
-/

namespace CalcKernel.Lib

universe u

variable {α : Type u}

/-- At most `fuel` rounds; `none` when they are not enough. -/
def rounds (round : α → α) (size : α → Nat) : Nat → α → Option α
  | 0, _ => none
  | fuel + 1, a =>
      let a' := round a
      if size a' = size a then some a' else rounds round size fuel a'

/-- A round shrinks its argument or leaves it alone. -/
structure Shrinks (round : α → α) (size : α → Nat) : Prop where
  le : ∀ a, size (round a) ≤ size a
  fixed : ∀ a, size (round a) = size a → round a = a

variable {round : α → α} {size : α → Nat}

theorem Shrinks.rounds_eq (h : Shrinks round size) {fuel : Nat} {a : α} (hfuel : size a < fuel) :
    ∃ n, rounds round size fuel a = some (round^[n] a) ∧
      round (round^[n] a) = round^[n] a := by
  induction fuel generalizing a with
  | zero => exact absurd hfuel (Nat.not_lt_zero _)
  | succ fuel ih =>
      rw [rounds]
      by_cases hsize : size (round a) = size a
      · rw [if_pos hsize, h.fixed a hsize]
        exact ⟨0, rfl, h.fixed a hsize⟩
      · have hle := h.le a
        obtain ⟨n, hn, hfixed⟩ := ih (show size (round a) < fuel by omega)
        rw [if_neg hsize]
        exact ⟨n + 1, hn, hfixed⟩

end CalcKernel.Lib
