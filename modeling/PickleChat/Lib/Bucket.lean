import Mathlib.Algebra.Order.Field.Basic
import Mathlib.Data.List.Chain
import Mathlib.Tactic.Linarith
import Mathlib.Tactic.Ring

/-!
# A bucket that fills up with time

A bucket fills at a constant rate up to its capacity, and each take empties it
by one, where it holds one. Whatever it holds at first, what is taken in a
stretch of time is bounded by what it can hold and what flows in.
-/

structure Bucket (K : Type) where
  capacity : K
  level : K
  rate : K
  last : K

namespace Bucket
variable {K : Type} [Field K] [LinearOrder K]

def filled (b : Bucket K) (now : K) : K := min (b.level + (now - b.last) * b.rate) b.capacity

/-- Whether there is one to take, and what is left. -/
def take (b : Bucket K) (now : K) : Bool × Bucket K :=
  if 1 ≤ b.filled now then (true, { b with level := b.filled now - 1, last := now })
  else (false, { b with level := b.filled now, last := now })

def drawn (b : Bucket K) (times : List K) : Bucket K := times.foldl (fun b now => (b.take now).2) b

def taken (b : Bucket K) : List K → List K
  | [] => []
  | now :: times => if (b.take now).1 then now :: (b.take now).2.taken times else (b.take now).2.taken times

@[simp] theorem take_capacity (b : Bucket K) (now : K) : (b.take now).2.capacity = b.capacity := by
  unfold take
  split <;> rfl

@[simp] theorem take_rate (b : Bucket K) (now : K) : (b.take now).2.rate = b.rate := by
  unfold take
  split <;> rfl

@[simp] theorem take_last (b : Bucket K) (now : K) : (b.take now).2.last = now := by
  unfold take
  split <;> rfl

@[simp] theorem drawn_capacity (b : Bucket K) (times : List K) : (b.drawn times).capacity = b.capacity := by
  induction times generalizing b with
  | nil => rfl
  | cons now times ih => exact (ih _).trans (take_capacity b now)

/-- A take costs one, a try that fails nothing. -/
theorem take_level (b : Bucket K) (now : K) :
    (b.take now).2.level + (if (b.take now).1 then 1 else 0) = b.filled now := by
  unfold take
  split
  · simp
  · simp

theorem taken_subset (b : Bucket K) (times : List K) : ∀ t ∈ b.taken times, t ∈ times := by
  induction times generalizing b with
  | nil => simp [taken]
  | cons now times ih =>
    intro t ht
    unfold taken at ht
    split at ht
    · rcases List.mem_cons.mp ht with rfl | ht
      · exact List.mem_cons_self
      · exact List.mem_cons_of_mem _ (ih _ t ht)
    · exact List.mem_cons_of_mem _ (ih _ t ht)

/-- The bucket holds no less than nothing and no more than it can. -/
structure Sound (b : Bucket K) : Prop where
  rate : 0 ≤ b.rate
  level : 0 ≤ b.level
  capacity : b.level ≤ b.capacity

section
variable [IsStrictOrderedRing K] {b : Bucket K} {now : K}

theorem Sound.filled (h : b.Sound) (hnow : b.last ≤ now) : 0 ≤ b.filled now := by
  have hflow : 0 ≤ (now - b.last) * b.rate := mul_nonneg (sub_nonneg.mpr hnow) h.rate
  exact le_min (add_nonneg h.level hflow) (h.level.trans h.capacity)

theorem Sound.take (h : b.Sound) (hnow : b.last ≤ now) : (b.take now).2.Sound := by
  have hle : b.filled now ≤ b.capacity := min_le_right _ _
  refine ⟨by rw [take_rate]; exact h.rate, ?_, ?_⟩
  · unfold Bucket.take
    split
    · exact sub_nonneg.mpr ‹_›
    · exact h.filled hnow
  · rw [take_capacity]
    unfold Bucket.take
    split
    · exact (sub_le_self _ zero_le_one).trans hle
    · exact hle

theorem Sound.drawn (h : b.Sound) {times : List K} (hs : (b.last :: times).Pairwise (· ≤ ·)) :
    (b.drawn times).Sound := by
  induction times generalizing b with
  | nil => exact h
  | cons now times ih =>
    obtain ⟨hfirst, hrest⟩ := List.pairwise_cons.mp hs
    have hnow : b.last ≤ now := hfirst now List.mem_cons_self
    exact ih (h.take hnow) (by rw [take_last]; exact hrest)

/-! ## Every stretch of time -/

/-- Up to a time, no more is taken than the bucket held and what flowed in. -/
theorem taken_until (h : b.Sound) {times : List K} (hs : (b.last :: times).Pairwise (· ≤ ·)) {til : K}
    (htil : b.last ≤ til) :
    (((b.taken times).filter fun t => t ≤ til).length : K) ≤ b.level + (til - b.last) * b.rate := by
  have hflow : 0 ≤ (til - b.last) * b.rate := mul_nonneg (sub_nonneg.mpr htil) h.rate
  induction times generalizing b with
  | nil => simpa [taken] using add_nonneg h.level hflow
  | cons now times ih =>
    obtain ⟨hfirst, hrest⟩ := List.pairwise_cons.mp hs
    have hnow : b.last ≤ now := hfirst now List.mem_cons_self
    by_cases hle : now ≤ til
    · have hlater := ih (h.take hnow) (by rw [take_last]; exact hrest) (by rw [take_last]; exact hle)
        (by rw [take_last, take_rate]; exact mul_nonneg (sub_nonneg.mpr hle) h.rate)
      rw [take_last, take_rate] at hlater
      have hcost := take_level b now
      have hfilled : b.filled now ≤ b.level + (now - b.last) * b.rate := min_le_left _ _
      have hsplit : (now - b.last) * b.rate + (til - now) * b.rate = (til - b.last) * b.rate := by ring
      unfold taken
      cases htake : (b.take now).1 with
      | true =>
        simp only [htake, if_true] at hcost ⊢
        rw [List.filter_cons_of_pos (by simpa using hle), List.length_cons, Nat.cast_add, Nat.cast_one]
        linarith
      | false =>
        simp only [htake, Bool.false_eq_true, if_false] at hcost ⊢
        linarith
    · -- from here on it is too late
      have hlate : ∀ t ∈ b.taken (now :: times), ¬ t ≤ til := by
        intro t ht hlet
        rcases List.mem_cons.mp (b.taken_subset _ t ht) with rfl | ht
        · exact hle hlet
        · exact hle (((List.pairwise_cons.mp hrest).1 t ht).trans hlet)
      rw [List.filter_eq_nil_iff.mpr (by simpa using hlate)]
      simpa using add_nonneg h.level hflow

/-- Between two times, no more is taken than the bucket can hold and what flows in meanwhile. -/
theorem taken_between (h : b.Sound) {times : List K} (hs : (b.last :: times).Pairwise (· ≤ ·)) {since til : K}
    (hle : since ≤ til) :
    (((b.taken times).filter fun t => since ≤ t ∧ t ≤ til).length : K) ≤ b.capacity + (til - since) * b.rate := by
  have hflow : 0 ≤ (til - since) * b.rate := mul_nonneg (sub_nonneg.mpr hle) h.rate
  have hroom : 0 ≤ b.capacity := h.level.trans h.capacity
  induction times generalizing b with
  | nil => simpa [taken] using add_nonneg hroom hflow
  | cons now times ih =>
    obtain ⟨hfirst, hrest⟩ := List.pairwise_cons.mp hs
    have hnow : b.last ≤ now := hfirst now List.mem_cons_self
    have hsound := h.take hnow
    by_cases hbefore : now < since
    · have hlater := ih hsound (by rw [take_last]; exact hrest) (by rw [take_rate]; exact hflow)
        (by rw [take_capacity]; exact hroom)
      rw [take_capacity, take_rate] at hlater
      unfold taken
      split
      · rwa [List.filter_cons_of_neg (by simp [hbefore])]
      · exact hlater
    · -- the first try of the stretch finds no more than the bucket can hold
      have hsince : since ≤ now := not_lt.mp hbefore
      by_cases hafter : now ≤ til
      · have hsorted : ((b.take now).2.last :: times).Pairwise (· ≤ ·) := by rw [take_last]; exact hrest
        have hlast : (b.take now).2.last ≤ til := by rw [take_last]; exact hafter
        have hlater := taken_until hsound hsorted hlast
        rw [take_last, take_rate] at hlater
        have hsame : ((b.take now).2.taken times).filter (fun t => since ≤ t ∧ t ≤ til) =
            ((b.take now).2.taken times).filter fun t => t ≤ til := by
          refine List.filter_congr fun t ht => ?_
          have hlate : now ≤ t := (List.pairwise_cons.mp hrest).1 t ((b.take now).2.taken_subset _ t ht)
          simp [hsince.trans hlate]
        have hcost := take_level b now
        have hfilled : b.filled now ≤ b.capacity := min_le_right _ _
        have hshort : (til - now) * b.rate ≤ (til - since) * b.rate :=
          mul_le_mul_of_nonneg_right (by linarith) h.rate
        unfold taken
        cases htake : (b.take now).1 with
        | true =>
          simp only [htake, if_true] at hcost ⊢
          rw [List.filter_cons_of_pos (by simp [hsince, hafter]), List.length_cons, hsame, Nat.cast_add, Nat.cast_one]
          linarith
        | false =>
          simp only [htake, Bool.false_eq_true, if_false] at hcost ⊢
          rw [hsame]
          linarith
      · have hlate : ∀ t ∈ b.taken (now :: times), ¬ (since ≤ t ∧ t ≤ til) := by
          rintro t ht ⟨-, hlet⟩
          rcases List.mem_cons.mp (b.taken_subset _ t ht) with rfl | ht
          · exact hafter hlet
          · exact hafter (((List.pairwise_cons.mp hrest).1 t ht).trans hlet)
        rw [List.filter_eq_nil_iff.mpr (by simpa using hlate)]
        simpa using add_nonneg hroom hflow

/-- Whoever waits for what the next one costs gets it. -/
theorem taken_spaced (h : b.Sound) (hroom : 1 ≤ b.capacity) {times : List K}
    (hfirst : ∀ t ∈ times.head?, 1 ≤ b.level + (t - b.last) * b.rate)
    (hspaced : times.IsChain fun s t => 1 ≤ (t - s) * b.rate) : b.taken times = times := by
  induction times generalizing b with
  | nil => rfl
  | cons now times ih =>
    have hone : 1 ≤ b.filled now := le_min (hfirst now rfl) hroom
    have htake : b.take now = (true, { b with level := b.filled now - 1, last := now }) := if_pos hone
    have hcapacity : b.filled now ≤ b.capacity := min_le_right _ _
    obtain ⟨hnext, hrest⟩ := List.isChain_cons.mp hspaced
    have hlater := ih (b := (b.take now).2) (by
        rw [htake]
        exact ⟨h.rate, sub_nonneg.mpr hone, by simp only; linarith⟩)
      (by rw [take_capacity]; exact hroom)
      (fun t ht => by
        have hgap := hnext t ht
        rw [htake]
        simp only
        linarith)
      (by rw [take_rate]; exact hrest)
    rw [taken, hlater, htake]
    rfl

end

end Bucket
