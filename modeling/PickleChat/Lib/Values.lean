import Mathlib.Data.Set.Basic
import PickleChat.Lib.Keyed

/-!
# What a list says of a key

A list of entries holds some values under a key: none, one where keys are
unique, or several. Two lists that spell their entries differently can be
compared by them.
-/

namespace Keyed

section
variable {α β κ : Type} (key : α → κ) (g : α → β)

def values (l : List α) (k : κ) : Set β := {v | ∃ a ∈ l, key a = k ∧ g a = v}

variable {key g} {l l' : List α} {k : κ}

theorem mem_values {a : α} (ha : a ∈ l) (hk : key a = k) : g a ∈ values key g l k := ⟨a, ha, hk, rfl⟩

theorem values_empty (h : ∀ a ∈ l, key a ≠ k) : values key g l k = ∅ := by
  ext v
  simp only [Set.mem_empty_iff_false, iff_false]
  rintro ⟨a, ha, hk, -⟩
  exact h a ha hk

theorem exists_of_values {v : β} (h : values key g l k = {v}) : ∃ a ∈ l, key a = k ∧ g a = v :=
  show v ∈ values key g l k from h ▸ Set.mem_singleton v

theorem values_congr (h : ∀ a, key a = k → (a ∈ l' ↔ a ∈ l)) : values key g l' k = values key g l k := by
  ext v
  constructor
  · rintro ⟨a, ha, hk, hv⟩
    exact ⟨a, (h a hk).mp ha, hk, hv⟩
  · rintro ⟨a, ha, hk, hv⟩
    exact ⟨a, (h a hk).mpr ha, hk, hv⟩

/-- Entries that keep their key, and their value under this one. -/
theorem values_map {f : α → α} (hf : ∀ a ∈ l, key (f a) = key a) (hg : ∀ a ∈ l, key a = k → g (f a) = g a) :
    values key g (l.map f) k = values key g l k := by
  ext v
  constructor
  · rintro ⟨_, hm, hk, hv⟩
    obtain ⟨a, ha, rfl⟩ := List.mem_map.mp hm
    have hka := (hf a ha).symm.trans hk
    exact ⟨a, ha, hka, (hg a ha hka).symm.trans hv⟩
  · rintro ⟨a, ha, hk, hv⟩
    exact ⟨f a, List.mem_map_of_mem ha, (hf a ha).trans hk, (hg a ha hk).trans hv⟩

/-- All that is said of the key is one value. -/
theorem values_eq {v : β} (h : ∃ a ∈ l, key a = k) (hg : ∀ a ∈ l, key a = k → g a = v) :
    values key g l k = {v} := by
  ext v'
  constructor
  · rintro ⟨a, ha, hk, rfl⟩
    exact hg a ha hk
  · rintro rfl
    obtain ⟨a, ha, hk⟩ := h
    exact ⟨a, ha, hk, hg a ha hk⟩

theorem values_of_mem [DecidableEq κ] (hu : Unique key l) {a : α} (ha : a ∈ l) (hk : key a = k) :
    values key g l k = {g a} := by
  refine values_eq ⟨a, ha, hk⟩ fun b hb hkb => ?_
  rw [eq_of_key hu hb ha (hkb.trans hk.symm)]

end

/-- Of two sides that say `m` and `t`, and then `m'` and `t'`: neither has changed, or they now say the same. -/
def Agreed {β : Type} (m t m' t' : Set β) : Prop := (m' = m ∧ t' = t) ∨ m' = t'

end Keyed
