import Mathlib.Order.Defs.LinearOrder

/-!
# The first best of a scan

A sequence is scanned from its start, and the best value so far is kept with
its place. A value replaces the best only if it is above it.
-/

namespace Scan

variable {β : Type} [LT β] [DecidableLT β]

/-- The place of the best among the first `n + 1` values. -/
def best (f : Nat → β) : Nat → Nat
  | 0 => 0
  | n + 1 => if f (best f n) < f (n + 1) then n + 1 else best f n

variable {f : Nat → β} {n i : Nat}

theorem best_succ_of_lt (h : f (best f n) < f (n + 1)) : best f (n + 1) = n + 1 := by
  rw [best, if_pos h]

theorem best_succ_of_not_lt (h : ¬ f (best f n) < f (n + 1)) : best f (n + 1) = best f n := by
  rw [best, if_neg h]

theorem best_le : best f n ≤ n := by
  induction n with
  | zero => exact Nat.le_refl 0
  | succ n ih =>
    by_cases h : f (best f n) < f (n + 1)
    · exact Nat.le_of_eq (best_succ_of_lt h)
    · rw [best_succ_of_not_lt h]
      omega

section
variable [LE β] [Std.IsLinearOrder β] [Std.LawfulOrderLT β]

theorem le_best (hi : i ≤ n) : f i ≤ f (best f n) := by
  induction n with
  | zero =>
    rw [Nat.le_zero.mp hi]
    exact Std.le_refl _
  | succ n ih =>
    by_cases h : f (best f n) < f (n + 1)
    · rw [best_succ_of_lt h]
      rcases Nat.lt_or_eq_of_le hi with hi | rfl
      · exact Std.le_of_lt (Std.lt_of_le_of_lt (ih (by omega)) h)
      · exact Std.le_refl _
    · rw [best_succ_of_not_lt h]
      rcases Nat.lt_or_eq_of_le hi with hi | rfl
      · exact ih (by omega)
      · exact Std.not_lt.mp h

theorem lt_best (hi : i < best f n) : f i < f (best f n) := by
  induction n with
  | zero => exact absurd hi (Nat.not_lt_zero i)
  | succ n ih =>
    by_cases h : f (best f n) < f (n + 1)
    · rw [best_succ_of_lt h] at hi ⊢
      exact Std.lt_of_le_of_lt (le_best (by omega)) h
    · rw [best_succ_of_not_lt h] at hi ⊢
      exact ih hi

/-- The last value is the best exactly if it is above all that was scanned before it. -/
theorem best_eq_self : best f n = n ↔ ∀ i < n, f i < f n := by
  constructor
  · intro h i hi
    have hlt : f i < f (best f n) := lt_best (by omega)
    rwa [h] at hlt
  · intro h
    by_contra hne
    have hbefore : best f n < n := Nat.lt_of_le_of_ne best_le hne
    exact Std.not_lt.mpr (le_best (Nat.le_refl n)) (h _ hbefore)

/-- Where a bound is reached by the best of a scan and by nothing before the last value, the last value is the best. -/
theorem best_eq_of_reached {bound : β} (hbelow : ∀ i < n, f i < bound) (h : bound ≤ f (best f n)) : best f n = n := by
  by_contra hne
  have hbefore : best f n < n := Nat.lt_of_le_of_ne best_le hne
  exact Std.not_lt.mpr h (hbelow _ hbefore)

end

end Scan
