import PickleChat.Lib.Keyed

/-!
# A set kept as a sorted list

A list shows a set when it is sorted by key, has no key twice and holds what
the set holds. An element can be appended to it, or a list merged into it.
-/

namespace Merge

section
variable {α κ : Type} [DecidableEq κ] (key : α → κ)

/-- `Map.set`: a key that is there keeps its place. -/
def set (l : List α) (a : α) : List α :=
  if l.any fun b => key b = key a then Keyed.modifyFirst key (key a) (fun _ => a) l else l ++ [a]

def Denotes (l : List α) : Prop := ∀ a ∈ l, ∀ b ∈ l, key a = key b → a = b

variable {key} {l l' new seen : List α} {a : α}

omit [DecidableEq κ] in
theorem Denotes.mono (h : Denotes key l) (hsub : ∀ a ∈ l', a ∈ l) : Denotes key l' :=
  fun a ha b hb hab => h a (hsub a ha) b (hsub b hb) hab

omit [DecidableEq κ] in
theorem denotes_of_unique (h : Keyed.Unique key l) : Denotes key l :=
  fun _ ha _ hb hab => List.inj_on_of_nodup_map h ha hb hab

theorem modifyFirst_of_denotes (h : Denotes key (l ++ [a])) : Keyed.modifyFirst key (key a) (fun _ => a) l = l := by
  induction l with
  | nil => rfl
  | cons b l ih =>
    unfold Keyed.modifyFirst
    split
    · next hab =>
      have hsame : b = a := h b (by simp) a (by simp) hab
      rw [hsame]
    · rw [ih (h.mono (by simp +contextual))]

theorem mem_set (h : Denotes key (l ++ [a])) {b : α} : b ∈ set key l a ↔ b ∈ l ∨ b = a := by
  unfold set
  split
  · next hany =>
    obtain ⟨c, hc, hca⟩ := List.any_eq_true.mp hany
    have hsame : c = a := h c (by simp [hc]) a (by simp) (by simpa using hca)
    rw [modifyFirst_of_denotes h]
    exact ⟨.inl, fun hb => hb.elim id fun hb => hb ▸ hsame ▸ hc⟩
  · simp

theorem set_unique (h : Keyed.Unique key l) (hone : Denotes key (l ++ [a])) : Keyed.Unique key (set key l a) := by
  unfold set
  split
  · rw [modifyFirst_of_denotes hone]
    exact h
  · next hnone =>
    have hfresh : key a ∉ l.map key := by simpa using hnone
    have hperm : ((l ++ [a]).map key).Perm (key a :: l.map key) := by
      rw [List.map_append]
      exact List.perm_append_comm
    exact hperm.nodup_iff.mpr (List.nodup_cons.mpr ⟨hfresh, h⟩)

theorem foldl_set (h : Keyed.Unique key l) (hone : Denotes key (l ++ new)) :
    Keyed.Unique key (new.foldl (set key) l) ∧ ∀ b, b ∈ new.foldl (set key) l ↔ b ∈ l ++ new := by
  induction new generalizing l with
  | nil => simpa using h
  | cons a new ih =>
    have hhead : Denotes key (l ++ [a]) := hone.mono (by simp +contextual [or_imp])
    have hmem : ∀ b, b ∈ set key l a ++ new ↔ b ∈ l ++ a :: new := by
      intro b
      rw [List.mem_append, mem_set hhead, List.mem_append, List.mem_cons, or_assoc]
    obtain ⟨hunique, hall⟩ := ih (set_unique h hhead) (hone.mono fun b hb => (hmem b).mp hb)
    exact ⟨hunique, fun b => (hall b).trans (hmem b)⟩

end

section
variable {α κ : Type} [LE κ] [LT κ] [Std.IsLinearOrder κ] [Std.LawfulOrderLT κ]

/-- The list shows what was seen, in order and once. -/
structure Shows (key : α → κ) (l seen : List α) : Prop where
  distinct : Keyed.Unique key l
  sorted : l.Pairwise fun a b => key a ≤ key b
  exact : ∀ a, a ∈ l ↔ a ∈ seen

variable {key : α → κ} {l new seen : List α} {a : α}

omit [LT κ] [Std.IsLinearOrder κ] [Std.LawfulOrderLT κ] in
theorem Shows.nil : Shows key [] [] := ⟨List.nodup_nil, .nil, fun _ => .rfl⟩

omit [LT κ] [Std.IsLinearOrder κ] [Std.LawfulOrderLT κ] in
theorem Shows.unchanged (h : Shows key l seen) : Shows key l (seen ++ []) := by
  rw [List.append_nil]
  exact h

/-- Appending is right exactly for what comes after all that was seen. -/
theorem Shows.append_iff (h : Shows key l seen) :
    Shows key (l ++ [a]) (seen ++ [a]) ↔ ∀ b ∈ seen, key b < key a := by
  constructor
  · intro happ b hb
    have hmem : b ∈ l := (h.exact b).mpr hb
    have hle : key b ≤ key a := (List.pairwise_append.mp happ.sorted).2.2 b hmem a (by simp)
    have hne : key b ≠ key a := by
      have hdistinct := happ.distinct
      unfold Keyed.Unique at hdistinct
      rw [List.map_append, List.nodup_append] at hdistinct
      exact hdistinct.2.2 (key b) (List.mem_map_of_mem hmem) (key a) (by simp)
    exact Std.lt_of_le_of_ne hle hne
  · intro hlast
    have hlt : ∀ b ∈ l, key b < key a := fun b hb => hlast b ((h.exact b).mp hb)
    refine ⟨?_, ?_, fun b => ?_⟩
    · unfold Keyed.Unique
      rw [List.map_append, List.nodup_append]
      refine ⟨h.distinct, List.nodup_singleton _, fun k hk k' hk' => ?_⟩
      obtain ⟨b, hb, rfl⟩ := List.mem_map.mp hk
      rw [List.map_singleton, List.mem_singleton] at hk'
      rw [hk']
      exact Std.ne_of_lt (hlt b hb)
    · refine List.pairwise_append.mpr ⟨h.sorted, List.pairwise_singleton _ _, fun b hb c hc => ?_⟩
      rw [List.mem_singleton.mp hc]
      exact Std.le_of_lt (hlt b hb)
    · rw [List.mem_append, List.mem_append, h.exact]

omit [LT κ] [Std.LawfulOrderLT κ] in
theorem Shows.merge [DecidableEq κ] [DecidableLE κ] (h : Shows key l seen) (hone : Denotes key (seen ++ new)) :
    Shows key ((new.foldl (set key) (l.foldl (set key) [])).insertionSort fun a b => key a ≤ key b)
      (seen ++ new) := by
  have hempty : Keyed.Unique key ([] : List α) := List.nodup_nil
  have hdistinct : Denotes key ([] ++ l) := denotes_of_unique h.distinct
  obtain ⟨hunique, hmem⟩ := foldl_set hempty hdistinct
  have hseen : ∀ b, b ∈ l.foldl (set key) [] ++ new ↔ b ∈ seen ++ new := by
    intro b
    rw [List.mem_append, hmem b, List.nil_append, h.exact, List.mem_append]
  obtain ⟨hunique', hmem'⟩ := foldl_set hunique (hone.mono fun b hb => (hseen b).mp hb)
  refine ⟨?_, ?_, fun b => ?_⟩
  · exact ((List.perm_insertionSort _ _).map key).nodup_iff.mpr hunique'
  · exact List.pairwise_insertionSort _ _
  · rw [List.mem_insertionSort, hmem', hseen]

end

end Merge
