import Mathlib.Algebra.BigOperators.Group.Finset.Basic
import Mathlib.Algebra.Order.Floor.Semiring
import Mathlib.Data.Rat.Floor
import Mathlib.Order.Interval.Finset.Nat

/-!
# Windows over a sequence

The indices no further than `half` from a point are those of an interval. A
sequence whose first elements are gone is read at indices that are as much
smaller, and no window that starts after them has changed.
-/

namespace Window

/-- The indices no further than `half` from `t`. -/
def near (t half : ℚ) : Finset Nat := (Finset.range (⌊t + half⌋₊ + 1)).filter fun n => |t - n| ≤ half

variable {t half : ℚ} {n dropped : Nat}

theorem mem_near : n ∈ near t half ↔ |t - n| ≤ half := by
  unfold near
  rw [Finset.mem_filter, Finset.mem_range, Nat.lt_succ_iff]
  refine ⟨And.right, fun h => ⟨Nat.le_floor ?_, h⟩⟩
  have := (abs_le.mp h).1
  linarith

theorem mem_near_iff : n ∈ near t half ↔ t - half ≤ n ∧ n ≤ t + half := by
  rw [mem_near, abs_le]
  constructor
  · rintro ⟨hleft, hright⟩
    constructor <;> linarith
  · rintro ⟨hleft, hright⟩
    constructor <;> linarith

/-- A window that reaches no further right than some length. -/
theorem near_lt {length : Nat} (h : t + half < length) (hn : n ∈ near t half) : n < length := by
  have hle := (mem_near_iff.mp hn).2
  exact_mod_cast lt_of_le_of_lt hle h

/-- What is summed over a window can be summed over the same window of what is left of the sequence, if nothing of
the window is gone. -/
theorem sum_near {M : Type} [AddCommMonoid M] (f : Nat → M) (hright : 0 ≤ t - dropped + half)
    (hleft : dropped = 0 ∨ (dropped : ℚ) ≤ t - half) :
    ∑ n ∈ Finset.Icc ⌈t - dropped - half⌉₊ ⌊t - dropped + half⌋₊, f (n + dropped) = ∑ n ∈ near t half, f n := by
  refine Finset.sum_bij (fun n _ => n + dropped) ?_ ?_ ?_ fun _ _ => rfl
  · intro n hn
    obtain ⟨hfirst, hlast⟩ := Finset.mem_Icc.mp hn
    have hfirst := Nat.ceil_le.mp hfirst
    have hlast := (Nat.le_floor_iff hright).mp hlast
    rw [mem_near_iff]
    push_cast
    constructor <;> linarith
  · intro n _ m _ h
    exact Nat.add_right_cancel h
  · intro n hn
    obtain ⟨hfirst, hlast⟩ := mem_near_iff.mp hn
    have hkept : dropped ≤ n := by
      rcases hleft with rfl | hleft
      · exact Nat.zero_le n
      · exact_mod_cast le_trans hleft hfirst
    refine ⟨n - dropped, Finset.mem_Icc.mpr ⟨Nat.ceil_le.mpr ?_, Nat.le_floor ?_⟩, Nat.sub_add_cancel hkept⟩
    · rw [Nat.cast_sub hkept]
      linarith
    · rw [Nat.cast_sub hkept]
      linarith

end Window
