import Mathlib.Algebra.Ring.Nat
import Mathlib.Data.List.Sort

/-!
# Machine words

Maxima of lists of `u32`, and what casting to and from a signed 64-bit column
keeps.
-/

namespace Word

/-- `iter().max().unwrap_or(0)`. -/
def maxOr0 (l : List UInt32) : UInt32 := l.foldr (fun a b => if a ≤ b then b else a) 0

theorem maxOr0_cons (a : UInt32) (l : List UInt32) :
    maxOr0 (a :: l) = if a ≤ maxOr0 l then maxOr0 l else a := rfl

theorem le_maxOr0 {l : List UInt32} {a : UInt32} (h : a ∈ l) : a ≤ maxOr0 l := by
  induction l with
  | nil => cases h
  | cons b l ih =>
    rw [maxOr0_cons]
    rcases List.mem_cons.mp h with rfl | h
    · split
      · assumption
      · exact UInt32.le_refl a
    · have := ih h
      split
      · exact this
      · simp only [UInt32.le_iff_toNat_le] at *; omega

theorem maxOr0_mem (l : List UInt32) : maxOr0 l = 0 ∨ maxOr0 l ∈ l := by
  induction l with
  | nil => exact .inl rfl
  | cons b l ih =>
    rw [maxOr0_cons]
    split
    · rcases ih with h | h
      · exact .inl h
      · exact .inr (by simp [h])
    · exact .inr (by simp)

theorem lt_maxOr0 {l : List UInt32} {p : UInt32} : p < maxOr0 l ↔ ∃ a ∈ l, p < a := by
  constructor
  · intro h
    rcases maxOr0_mem l with h0 | hm
    · rw [h0, UInt32.lt_iff_toNat_lt] at h; simp at h
    · exact ⟨_, hm, h⟩
  · rintro ⟨a, ha, h⟩
    have := le_maxOr0 ha
    simp only [UInt32.le_iff_toNat_le, UInt32.lt_iff_toNat_lt] at *
    omega

theorem maxOr0_congr {l l' : List UInt32} (h : ∀ a, a ∈ l ↔ a ∈ l') : maxOr0 l = maxOr0 l' := by
  have hle : ∀ {l l' : List UInt32}, (∀ a, a ∈ l → a ∈ l') → (maxOr0 l).toNat ≤ (maxOr0 l').toNat := by
    intro l l' h
    rcases maxOr0_mem l with h0 | hm
    · simp [h0]
    · exact UInt32.le_iff_toNat_le.mp (le_maxOr0 (h _ hm))
  exact UInt32.toNat_inj.mp (Nat.le_antisymm (hle fun a => (h a).mp) (hle fun a => (h a).mpr))

theorem maxOr0_succ_not_mem {l : List UInt32} (h : (maxOr0 l).toNat + 1 < 2 ^ 32) : maxOr0 l + 1 ∉ l := by
  intro hm
  have := le_maxOr0 hm
  rw [UInt32.le_iff_toNat_le, UInt32.toNat_add] at this
  simp at this
  omega

/-! ## Counting up -/

theorem toNat_succ {n : UInt32} (h : n.toNat + 1 < 2 ^ 32) : (n + 1).toNat = n.toNat + 1 := by
  have hone : (1 : UInt32).toNat = 1 := rfl
  rw [UInt32.toNat_add, hone]
  exact Nat.mod_eq_of_lt h

theorem toNat_ofNat_lt {n i : Nat} (hn : n ≤ 2 ^ 32) (hi : i < n) : (UInt32.ofNat i).toNat = i :=
  UInt32.toNat_ofNat_of_lt' (show i < 2 ^ 32 by omega)

theorem sorted_range {n : Nat} (hn : n ≤ 2 ^ 32) : ((List.range n).map UInt32.ofNat).Pairwise (· < ·) := by
  rw [List.pairwise_map]
  refine List.pairwise_lt_range.imp_of_mem fun {i j} hi hj hij => ?_
  rw [List.mem_range] at hi hj
  rw [UInt32.lt_iff_toNat_lt, toNat_ofNat_lt hn hi, toNat_ofNat_lt hn hj]
  exact hij

theorem nodup_range {n : Nat} (hn : n ≤ 2 ^ 32) : ((List.range n).map UInt32.ofNat).Nodup :=
  (sorted_range hn).imp fun {a b} h e => by rw [e, UInt32.lt_iff_toNat_lt] at h; omega

instance isTrans_le : IsTrans UInt32 (· ≤ ·) := ⟨fun _ _ _ => UInt32.le_trans⟩

instance total_le : Std.Total (α := UInt32) (· ≤ ·) := ⟨UInt32.le_total⟩

/-- Sorting a permutation of `0 .. n` gives `0 .. n`. -/
theorem insertionSort_range {l : List UInt32} {n : Nat} (hn : n ≤ 2 ^ 32)
    (h : l.Perm ((List.range n).map UInt32.ofNat)) :
    l.insertionSort (· ≤ ·) = (List.range n).map UInt32.ofNat := by
  have hsorted : ((List.range n).map UInt32.ofNat).Pairwise (· ≤ ·) := (sorted_range hn).imp UInt32.le_of_lt
  exact List.Perm.eq_of_pairwise (fun _ _ _ _ => UInt32.le_antisymm) (List.pairwise_insertionSort _ _) hsorted
    ((List.perm_insertionSort _ _).trans h)

theorem length_le {l : List UInt32} (hnd : l.Nodup) : l.length ≤ 2 ^ 32 := by
  have hnd : (l.map UInt32.toNat).Nodup := List.Nodup.map (fun _ _ => UInt32.toNat_inj.mp) hnd
  have hsub : l.map UInt32.toNat ⊆ List.range (2 ^ 32) := by
    intro n hn
    obtain ⟨id, -, rfl⟩ := List.mem_map.mp hn
    exact List.mem_range.mpr (UInt32.toNat_lt id)
  simpa using (List.subperm_of_subset hnd hsub).length_le

/-! ## Columns -/

/-- `u32 as i64`. -/
def toColumn (n : UInt32) : Int64 := n.toUInt64.toInt64

/-- `i64 as u32`. -/
def ofColumn (n : Int64) : UInt32 := n.toUInt64.toUInt32

@[simp] theorem ofColumn_toColumn (n : UInt32) : ofColumn (toColumn n) = n := by simp [ofColumn, toColumn]

theorem toColumn_inj {m n : UInt32} (h : toColumn m = toColumn n) : m = n := by
  rw [← ofColumn_toColumn m, h, ofColumn_toColumn]

theorem toColumn_toInt (n : UInt32) : (toColumn n).toInt = n.toNat := by
  have hn := UInt32.toNat_lt n
  unfold toColumn
  rw [← Int64.toInt_toBitVec, UInt64.toBitVec_toInt64, BitVec.toInt_eq_toNat_of_lt]
  · simp
  · simp; omega

/-- `u64 as i64` is negative from `2 ^ 63` on. -/
theorem toInt64_toInt (n : UInt64) :
    n.toInt64.toInt = if n.toNat < 2 ^ 63 then (n.toNat : Int) else (n.toNat : Int) - (2 ^ 64 : Nat) := by
  change n.toBitVec.toInt = _
  rw [BitVec.toInt_eq_toNat_cond]
  change (if 2 * n.toNat < 2 ^ 64 then (n.toNat : Int) else _) = _
  by_cases h : n.toNat < 2 ^ 63
  · rw [if_pos h, if_pos (by omega)]
  · rw [if_neg h, if_neg (by omega)]
    rfl

theorem toColumn_le {m n : UInt32} : toColumn m ≤ toColumn n ↔ m ≤ n := by
  rw [Int64.le_iff_toInt_le, toColumn_toInt, toColumn_toInt, UInt32.le_iff_toNat_le]
  omega

end Word
