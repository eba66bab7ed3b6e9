import PickleChat.Jitter
import PickleChat.Voice

/-!
# Two orders on sequence numbers

The voice format compares sequence numbers by an unsigned difference below half
the range, the jitter buffer by a difference read as signed. They are to agree,
and do not where the difference is one short of half the range.
-/

namespace PickleChat

namespace JitterBuffer

/-- How far `seq` is ahead of `anchor`, as `extend` counts it. -/
def offset (seq anchor : UInt32) : Int := (seq - anchor).toInt32.toInt

/-- `extend` places a number by its offset from the anchor's. -/
theorem extend_offset {β : Type} {b : JitterBuffer β} {a : Anchor} (ha : b.anchor = some a) (seq : UInt32) :
    (b.extend seq).1 = a.extended + offset seq a.seq := by
  rw [extend_fst, ha]
  rfl

theorem offset_of_lt {a b : UInt32} (h : (a - b).toNat < 2 ^ 31) : offset a b = (a - b).toNat := by
  have hcond := BitVec.toInt_eq_toNat_cond (a - b).toBitVec
  rw [UInt32.toNat_toBitVec, if_pos (by omega)] at hcond
  exact hcond

theorem offset_of_le {a b : UInt32} (h : 2 ^ 31 ≤ (a - b).toNat) : offset a b < 0 := by
  have hcond := BitVec.toInt_eq_toNat_cond (a - b).toBitVec
  rw [UInt32.toNat_toBitVec, if_neg (by omega)] at hcond
  have hlt := (a - b).toNat_lt
  have : offset a b = ((a - b).toNat : Int) - (2 ^ 32 : Nat) := hcond
  omega

/-- The buffer takes `a` to be ahead just when the difference is below half the range. -/
theorem offset_pos {a b : UInt32} : 0 < offset a b ↔ 0 < (a - b).toNat ∧ (a - b).toNat < 2 ^ 31 := by
  by_cases h : (a - b).toNat < 2 ^ 31
  · rw [offset_of_lt h]
    omega
  · have := offset_of_le (Nat.le_of_not_lt h)
    omega

end JitterBuffer

open JitterBuffer (offset offset_pos)

theorem sub_toNat_eq_zero {a b : UInt32} : (a - b).toNat = 0 ↔ a = b := by
  rw [← UInt32.toNat_inj, UInt32.toNat_sub]
  have ha := a.toNat_lt
  have hb := b.toNat_lt
  omega

theorem sub_toNat_rev {a b : UInt32} (h : a ≠ b) : (b - a).toNat = 2 ^ 32 - (a - b).toNat := by
  rw [← UInt32.toNat_inj.ne] at h
  rw [UInt32.toNat_sub, UInt32.toNat_sub]
  have ha := a.toNat_lt
  have hb := b.toNat_lt
  omega

theorem seqNewerThan_iff {a b : UInt32} :
    seqNewerThan a b = true ↔ 0 < (a - b).toNat ∧ (a - b).toNat < 2 ^ 31 - 1 := by
  have hzero := sub_toNat_eq_zero (a := a) (b := b)
  simp only [seqNewerThan, ne_eq, decide_not, Bool.and_eq_true, Bool.not_eq_true', decide_eq_false_iff_not,
    decide_eq_true_eq, UInt32.lt_iff_toNat_lt, ← hzero]
  have hhalf : (0xFFFFFFFF / 2 : UInt32).toNat = 2 ^ 31 - 1 := by decide
  omega

/-- Both orders say the same of `a` and `b`; and unless the two are half the range, `2 ^ 31`, apart, one of them is
newer or they are equal, and no two of these hold. -/
def OneOrder (a b : UInt32) : Prop :=
  (seqNewerThan a b = true ↔ 0 < offset a b) ∧
    (a - b ≠ 0x80000000 →
      (seqNewerThan a b = true ∨ seqNewerThan b a = true ∨ a = b) ∧
        ¬ (seqNewerThan a b = true ∧ seqNewerThan b a = true) ∧
        ¬ (seqNewerThan a b = true ∧ a = b) ∧ ¬ (seqNewerThan b a = true ∧ a = b))

/-- The two notions of newer agree unless one number is `2 ^ 31 - 1` ahead of the other: there the buffer has an
order and `seq_newer_than` has none. -/
theorem oneOrder_iff (a b : UInt32) : OneOrder a b ↔ a - b ≠ 0x7FFFFFFF ∧ b - a ≠ 0x7FFFFFFF := by
  have hhalf : (0x80000000 : UInt32).toNat = 2 ^ 31 := by decide
  have hlast : (0x7FFFFFFF : UInt32).toNat = 2 ^ 31 - 1 := by decide
  have hlt := (a - b).toNat_lt
  unfold OneOrder
  rw [seqNewerThan_iff, seqNewerThan_iff, offset_pos, ← UInt32.toNat_inj.ne, ← UInt32.toNat_inj.ne,
    ← UInt32.toNat_inj.ne, hhalf, hlast]
  by_cases hab : a = b
  · subst hab
    simp
  · have hpos := mt sub_toNat_eq_zero.mp hab
    rw [sub_toNat_rev hab]
    simp only [hab, or_false, and_false, not_false_eq_true, and_true]
    omega

/-- One short of half the range ahead, and not newer. -/
theorem not_newer_below_half : ¬ ∀ a b : UInt32, OneOrder a b := fun h =>
  absurd ((h 0x7FFFFFFF 0).1.mpr (by decide +kernel)) (by decide +kernel)

end PickleChat
