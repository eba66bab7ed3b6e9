import Mathlib.Data.List.Basic

/-!
# Maps kept by a feed

A copy of a map that starts from some base and is sent assignments, each of
them a key and what it now maps to. The last word about a key counts.
-/

namespace Feed

variable {κ α : Type} [DecidableEq κ]

def set (m : κ → Option α) (u : κ × Option α) : κ → Option α := fun k => if k = u.1 then u.2 else m k

def apply (us : List (κ × Option α)) (m : κ → Option α) : κ → Option α := us.foldl set m

theorem apply_append (us vs : List (κ × Option α)) (m : κ → Option α) :
    apply (us ++ vs) m = apply vs (apply us m) := List.foldl_append

theorem apply_base (us : List (κ × Option α)) (m m' : κ → Option α) (k : κ) :
    apply us m k = apply us m' k ∨ (apply us m k = m k ∧ apply us m' k = m' k) := by
  induction us generalizing m m' with
  | nil => exact .inr ⟨rfl, rfl⟩
  | cons u us ih =>
    rcases ih (set m u) (set m' u) with h | ⟨h, h'⟩
    · exact .inl h
    · by_cases hk : k = u.1
      · refine .inl (h.trans (Eq.trans ?_ h'.symm))
        simp [set, hk]
      · refine .inr ⟨h.trans (if_neg hk), h'.trans (if_neg hk)⟩

/-- Assignments that all tell what `v` says. -/
theorem apply_truthful {us : List (κ × Option α)} {v : κ → Option α} (h : ∀ u ∈ us, u.2 = v u.1) (m : κ → Option α)
    (k : κ) : apply us m k = v k ∨ ((∀ u ∈ us, u.1 ≠ k) ∧ apply us m k = m k) := by
  induction us generalizing m with
  | nil => exact .inr ⟨fun _ hu => (List.not_mem_nil hu).elim, rfl⟩
  | cons u us ih =>
    rcases ih (fun w hw => h w (List.mem_cons_of_mem _ hw)) (set m u) with hv | ⟨hne, hm⟩
    · exact .inl hv
    · by_cases hk : k = u.1
      · left
        rw [show apply (u :: us) m k = apply us (set m u) k from rfl, hm, hk, ← h u (List.mem_cons_self ..)]
        exact if_pos rfl
      · refine .inr ⟨fun w hw => ?_, hm.trans (if_neg hk)⟩
        rcases List.mem_cons.mp hw with rfl | hw
        · exact Ne.symm hk
        · exact hne w hw

theorem apply_unnamed {us : List (κ × Option α)} {v : κ → Option α} (h : ∀ u ∈ us, u.2 = v u.1) {m : κ → Option α}
    {k : κ} (hm : (∀ u ∈ us, u.1 ≠ k) → m k = v k) : apply us m k = v k := by
  rcases apply_truthful h m k with he | ⟨hne, he⟩
  · exact he
  · exact he.trans (hm hne)

end Feed
