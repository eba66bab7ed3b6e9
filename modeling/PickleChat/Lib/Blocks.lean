import Mathlib.Data.List.Basic

/-!
# Blocks

A list in pieces of one length: all of it, with a shorter piece at its end, or
only the whole ones. The whole blocks of a list that comes in parts are found
part by part, if what is left over of one part goes before the next.
-/

namespace Blocks

variable {α : Type} {n m : Nat}

/-- Pieces of `n` elements, the last of them perhaps shorter. -/
def chunks (n : Nat) (l : List α) : List (List α) :=
  if n = 0 ∨ l = [] then [] else l.take n :: chunks n (l.drop n)
termination_by l.length
decreasing_by
  rename_i h
  have hpos : 0 < l.length := List.length_pos_of_ne_nil fun hl => h (.inr hl)
  rw [List.length_drop]
  omega

@[simp] theorem chunks_nil : chunks n ([] : List α) = [] := by
  rw [chunks, if_pos (.inr rfl)]

theorem chunks_cons (hn : n ≠ 0) {l : List α} (hl : l ≠ []) : chunks n l = l.take n :: chunks n (l.drop n) := by
  rw [chunks, if_neg (not_or.mpr ⟨hn, hl⟩)]

/-- What is proved of lists by cutting a piece off. -/
theorem chunks_induction (hn : n ≠ 0) {P : List α → Prop} (nil : P [])
    (cut : ∀ l, l ≠ [] → P (l.drop n) → P l) (l : List α) : P l := by
  by_cases hl : l = []
  · rw [hl]
    exact nil
  · have hpos : 0 < l.length := List.length_pos_of_ne_nil hl
    exact cut l hl (chunks_induction hn nil cut (l.drop n))
termination_by l.length
decreasing_by
  rw [List.length_drop]
  omega

theorem mem_chunks (hn : n ≠ 0) {l c : List α} (hc : c ∈ chunks n l) : c.length ≤ n ∧ c ≠ [] := by
  induction l using chunks_induction hn with
  | nil =>
    rw [chunks_nil] at hc
    cases hc
  | cut l hl ih =>
    rw [chunks_cons hn hl] at hc
    rcases List.mem_cons.mp hc with rfl | hc
    · exact ⟨List.length_take_le n l, by simp [hl, hn]⟩
    · exact ih hc

/-- A list of whole pieces, and any list after it. -/
theorem chunks_append (hn : n ≠ 0) {l l' : List α} (hdvd : n ∣ l.length) :
    chunks n (l ++ l') = chunks n l ++ chunks n l' := by
  induction l using chunks_induction hn with
  | nil => rw [List.nil_append, chunks_nil, List.nil_append]
  | cut l hl ih =>
    have hlen : n ≤ l.length := Nat.le_of_dvd (List.length_pos_of_ne_nil hl) hdvd
    have hrest : n ∣ (l.drop n).length := by
      rw [List.length_drop]
      exact Nat.dvd_sub hdvd (Nat.dvd_refl n)
    rw [chunks_cons hn hl, chunks_cons hn (by simp [hl]), List.take_append_of_le_length hlen,
      List.drop_append_of_le_length hlen, ih hrest, List.cons_append]

/-- Pieces of larger pieces. -/
theorem chunks_chunks (hn : n ≠ 0) (hm : m ≠ 0) (l : List α) :
    (chunks (m * n) l).flatMap (chunks n) = chunks n l := by
  have hmn : m * n ≠ 0 := Nat.mul_ne_zero hm hn
  induction l using chunks_induction hmn with
  | nil => rw [chunks_nil, chunks_nil, List.flatMap_nil]
  | cut l hl ih =>
    rw [chunks_cons hmn hl, List.flatMap_cons, ih]
    by_cases hlong : m * n ≤ l.length
    · have hdvd : n ∣ (l.take (m * n)).length := by
        rw [List.length_take_of_le hlong]
        exact Nat.dvd_mul_left n m
      rw [← chunks_append hn hdvd, List.take_append_drop]
    · rw [List.drop_of_length_le (by omega), List.take_of_length_le (by omega), chunks_nil, List.append_nil]

theorem length_chunks_le (hn : n ≠ 0) (hm : m ≠ 0) {l : List α} (hl : l.length ≤ m * n) :
    (chunks n l).length ≤ m := by
  induction m generalizing l with
  | zero => exact absurd rfl hm
  | succ m ih =>
    by_cases hnil : l = []
    · rw [hnil, chunks_nil]
      exact Nat.zero_le _
    · rw [chunks_cons hn hnil, List.length_cons]
      by_cases hzero : m = 0
      · have hone : l.length ≤ n := by simpa [hzero] using hl
        rw [List.drop_of_length_le hone, chunks_nil]
        exact Nat.succ_le_succ (Nat.zero_le _)
      · refine Nat.succ_le_succ (ih hzero ?_)
        rw [List.length_drop]
        rw [Nat.succ_mul] at hl
        omega

/-! ## Whole blocks -/

/-- The whole blocks of `n` elements. -/
def blocks (n : Nat) (l : List α) : List { b : List α // b.length = n } :=
  if h : 0 < n ∧ n ≤ l.length then ⟨l.take n, List.length_take_of_le h.2⟩ :: blocks n (l.drop n) else []
termination_by l.length
decreasing_by
  rw [List.length_drop]
  omega

theorem blocks_short {l : List α} (h : l.length < n) : blocks n l = [] := by
  rw [blocks, dif_neg]
  omega

theorem blocks_append (hn : 0 < n) (frames : List { b : List α // b.length = n }) (l : List α) :
    blocks n ((frames.map Subtype.val).flatten ++ l) = frames ++ blocks n l := by
  induction frames with
  | nil => rfl
  | cons frame frames ih =>
    have hlen : n ≤ (frame.val ++ ((frames.map Subtype.val).flatten ++ l)).length := by
      rw [List.length_append, frame.2]
      exact Nat.le_add_right _ _
    rw [List.map_cons, List.flatten_cons, List.append_assoc, blocks, dif_pos ⟨hn, hlen⟩, List.cons_append]
    have hdrop : (frame.val ++ ((frames.map Subtype.val).flatten ++ l)).drop n =
        (frames.map Subtype.val).flatten ++ l := List.drop_left' frame.2
    rw [hdrop, ih]
    exact congrArg (· :: _) (Subtype.ext (List.take_left' frame.2))

end Blocks
