import Mathlib.Data.List.Sort

/-!
# The newest entries of a list

Entries have keys in a linear order. The `n` with the highest keys are told by
what they are, and found by sorting: they come first in descending order, and the
entry after them is a cutoff. Pages that each end below the one before list
everything once.
-/

namespace Newest
variable {α κ : Type} [LT κ] {key : α → κ}

omit [LT κ] in
theorem nodup_of_pairwise {r : κ → κ → Prop} (hr : ∀ k, ¬ r k k) {l : List α}
    (h : l.Pairwise fun a b => r (key a) (key b)) : l.Nodup := by
  apply h.imp
  rintro a b hab rfl
  exact hr _ hab

/-- `part` is the `n` entries of `l` with the highest keys, or all of them. -/
structure Highest (key : α → κ) (n : Nat) (l part : List α) : Prop where
  nodup : part.Nodup
  mem : ∀ a ∈ part, a ∈ l
  length : part.length = min n l.length
  newer : ∀ a ∈ l, a ∉ part → ∀ b ∈ part, key a < key b

section
variable {l part : List α} {n : Nat}

theorem Highest.trans {m : Nat} {rest : List α} (h : Highest key m l part) (h' : Highest key n part rest) :
    Highest key (min m n) l rest where
  nodup := h'.nodup
  mem a ha := h.mem a (h'.mem a ha)
  length := by
    rw [h'.length, h.length]
    omega
  newer a ha hn b hb := by
    by_cases hp : a ∈ part
    · exact h'.newer a hp hn b hb
    · exact h.newer a ha hp b (h'.mem b hb)

/-- With room for all of them. -/
theorem highest_self (hl : l.Nodup) (hn : l.length ≤ n) : Highest key n l l where
  nodup := hl
  mem _ := id
  length := by omega
  newer _ ha hn := absurd ha hn

/-- There is room for all exactly when all are among them. -/
theorem Highest.all_iff (h : Highest key n l part) (hl : l.Nodup) : (∀ a ∈ l, a ∈ part) ↔ l.length ≤ n := by
  constructor
  · intro hall
    have hle := (List.subperm_of_subset hl hall).length_le
    rw [h.length] at hle
    omega
  · intro hn a ha
    have hperm : part.Perm l := (List.subperm_of_subset h.nodup h.mem).perm_of_length_le (by rw [h.length]; omega)
    exact hperm.mem_iff.mpr ha

theorem eq_of_sublist {l₁ l₂ : List α} (hl : l.Nodup) (h₁ : l₁.Sublist l) (h₂ : l₂.Sublist l)
    (hmem : ∀ a, a ∈ l₁ ↔ a ∈ l₂) : l₁ = l₂ := by
  induction h₁ generalizing l₂ with
  | slnil => exact (List.sublist_nil.mp h₂).symm
  | cons a h ih =>
    obtain ⟨hout, hl⟩ := List.nodup_cons.mp hl
    cases h₂ with
    | cons _ h₂ => exact ih hl h₂ hmem
    | cons_cons _ _ => exact absurd (h.subset ((hmem a).mpr List.mem_cons_self)) hout
  | cons_cons a h ih =>
    obtain ⟨hout, hl⟩ := List.nodup_cons.mp hl
    cases h₂ with
    | cons _ h₂ => exact absurd (h₂.subset ((hmem a).mp List.mem_cons_self)) hout
    | cons_cons _ h₂ =>
      congr 1
      apply ih hl h₂
      intro b
      have hb := hmem b
      rw [List.mem_cons, List.mem_cons] at hb
      by_cases he : b = a
      · subst he
        exact iff_of_false (fun hm => hout (h.subset hm)) fun hm => hout (h₂.subset hm)
      · simpa [he] using hb

theorem Highest.congr {l' part' : List α} (h : Highest key n l part) (hl : l'.Perm l) (hp : part'.Perm part) :
    Highest key n l' part' where
  nodup := hp.nodup_iff.mpr h.nodup
  mem a ha := hl.mem_iff.mpr (h.mem a (hp.mem_iff.mp ha))
  length := by rw [hp.length_eq, hl.length_eq, h.length]
  newer a ha hn b hb := h.newer a (hl.mem_iff.mp ha) (fun hm => hn (hp.mem_iff.mpr hm)) b (hp.mem_iff.mp hb)

end

variable [LE κ] [Std.IsLinearOrder κ] [Std.LawfulOrderLT κ]

section
variable {l part : List α} {n : Nat}

/-- The entry that one part has over another of the same length is on both sides of an entry of the other. -/
theorem Highest.subset {other : List α} (h : Highest key n l part) (h' : Highest key n l other) : part ⊆ other := by
  intro a ha
  by_contra hn
  have hlen : part.length = other.length := h.length.trans h'.length.symm
  obtain ⟨b, hb, hbn⟩ : ∃ b ∈ other, b ∉ part := by
    by_contra hall
    push Not at hall
    have hperm : other.Perm part := (List.subperm_of_subset h'.nodup hall).perm_of_length_le (by omega)
    exact hn (hperm.mem_iff.mpr ha)
  exact Std.lt_irrefl (Std.lt_trans (h.newer b (h'.mem b hb) hbn a ha) (h'.newer a (h.mem a ha) hn b hb))

theorem Highest.mem_iff {other : List α} (h : Highest key n l part) (h' : Highest key n l other) {a : α} :
    a ∈ part ↔ a ∈ other :=
  ⟨fun ha => h.subset h' ha, fun ha => h'.subset h ha⟩

end

/-! ## Sorted lists -/

section
variable {l sorted : List α} {n : Nat}

omit [Std.IsLinearOrder κ] in
theorem highest_take (hp : sorted.Perm l) (hs : sorted.Pairwise fun a b => key b < key a) :
    Highest key n l (sorted.take n) := by
  have hnodup : sorted.Nodup := nodup_of_pairwise (r := fun a b => b < a) (fun _ => Std.lt_irrefl) hs
  have hhead : Highest key n sorted (sorted.take n) := {
    nodup := hnodup.sublist (List.take_sublist n sorted)
    mem := fun a ha => List.mem_of_mem_take ha
    length := List.length_take
    newer := fun a ha hn b hb => by
      rw [← List.take_append_drop n sorted, List.mem_append] at ha
      rw [← List.take_append_drop n sorted, List.pairwise_append] at hs
      exact hs.2.2 b hb a (ha.resolve_left hn) }
  exact hhead.congr hp.symm (.refl _)

/-- What stays when the entry after the first `n` goes with all those at or below it. -/
theorem mem_take_iff {cutoff a : α} (hs : sorted.Pairwise fun a b => key b < key a) (hc : sorted[n]? = some cutoff) :
    a ∈ sorted.take n ↔ a ∈ sorted ∧ ¬ key a ≤ key cutoff := by
  obtain ⟨hn, rfl⟩ := List.getElem?_eq_some_iff.mp hc
  have hsplit : sorted = sorted.take n ++ sorted[n] :: sorted.drop (n + 1) := by simp
  have hpair := hs
  rw [hsplit, List.pairwise_append, List.pairwise_cons] at hpair
  obtain ⟨-, ⟨hbelow, -⟩, habove⟩ := hpair
  constructor
  · intro ha
    exact ⟨List.mem_of_mem_take ha, Std.not_le.mpr (habove a ha _ List.mem_cons_self)⟩
  · rintro ⟨ha, hgt⟩
    rw [hsplit, List.mem_append, List.mem_cons] at ha
    rcases ha with ha | rfl | ha
    · exact ha
    · exact absurd (Std.le_refl _) hgt
    · exact absurd (Std.le_of_lt (hbelow a ha)) hgt

theorem eq_of_ascending {l' : List α} (hl : l.Pairwise fun a b => key a < key b)
    (hl' : l'.Pairwise fun a b => key a < key b) (h : ∀ a, a ∈ l ↔ a ∈ l') : l = l' := by
  have hirr : ∀ k : κ, ¬ k < k := fun _ => Std.lt_irrefl
  have hperm := (List.perm_ext_iff_of_nodup (nodup_of_pairwise hirr hl) (nodup_of_pairwise hirr hl')).mpr h
  apply List.Perm.eq_of_pairwise _ hl hl' hperm
  intro a b _ _ hab hba
  exact absurd (Std.lt_trans hab hba) Std.lt_irrefl

/-- In ascending order the newest are the end of the list. -/
theorem Highest.eq_drop {part : List α} (h : Highest key n l part) (hl : l.Pairwise fun a b => key a < key b)
    (hpart : part.Pairwise fun a b => key a < key b) : part = l.drop (l.length - n) := by
  have hdesc : l.reverse.Pairwise fun a b => key b < key a := List.pairwise_reverse.mpr hl
  have hend : Highest key n l (l.drop (l.length - n)) := by
    apply (highest_take (n := n) (List.reverse_perm l) hdesc).congr (.refl _)
    rw [List.take_reverse]
    exact (List.reverse_perm _).symm
  exact eq_of_ascending hpart (hl.sublist (List.drop_sublist _ l)) fun a => h.mem_iff hend

end

/-! ## Going back page by page -/

/-- Page after page, each from below the first entry of the one before, until one
says that nothing comes before it. -/
def walk (key : α → κ) (page : Nat → Option κ → Option (List α × Bool)) :
    Nat → Nat → Option κ → Option (List (List α))
  | 0, _, _ => none
  | fuel + 1, i, before => (page i before).bind fun p =>
    if p.2 = true then some [p.1]
    else p.1.head?.bind fun oldest => (walk key page fuel (i + 1) (some (key oldest))).map (p.1 :: ·)

section
variable [DecidableLT κ] {l : List α} {n : Nat → Nat} {page : Nat → Option κ → Option (List α × Bool)}

def below (key : α → κ) (before : Option κ) (l : List α) : List α :=
  l.filter fun a => before.all fun k => key a < k

omit [LE κ] [Std.IsLinearOrder κ] [Std.LawfulOrderLT κ] in
theorem mem_below {before : Option κ} {a : α} : a ∈ below key before l ↔ a ∈ l ∧ ∀ k ∈ before, key a < k := by
  simp [below, Option.all_eq_true]

omit [LE κ] [Std.IsLinearOrder κ] [Std.LawfulOrderLT κ] in
theorem below_none : below key none l = l := by simp [below]

/-- Where a sorted list is split, the first part is below the entry there. -/
theorem below_split {before : Option κ} {init rest : List α} {a : α} (hl : l.Pairwise fun a b => key a < key b)
    (h : below key before l = init ++ a :: rest) : below key (some (key a)) l = init := by
  have hin : ∀ {b}, b ∈ init ++ a :: rest ↔ b ∈ l ∧ ∀ k ∈ before, key b < k := by
    intro b
    rw [← h, mem_below]
  have hpart : (init ++ a :: rest).Pairwise fun a b => key a < key b := h ▸ hl.sublist List.filter_sublist
  rw [List.pairwise_append, List.pairwise_cons] at hpart
  obtain ⟨hinit, ⟨habove, -⟩, hbelow⟩ := hpart
  apply eq_of_ascending (hl.sublist List.filter_sublist) hinit
  intro b
  rw [← below, mem_below]
  constructor
  · rintro ⟨hb, hlt⟩
    have hba : key b < key a := hlt _ rfl
    have ha := hin.mp (List.mem_append_right init (List.mem_cons_self (a := a) (l := rest)))
    have hmem := hin.mpr ⟨hb, fun k hk => Std.lt_trans hba (ha.2 k hk)⟩
    rw [List.mem_append, List.mem_cons] at hmem
    rcases hmem with hmem | rfl | hmem
    · exact hmem
    · exact absurd hba Std.lt_irrefl
    · exact absurd (Std.lt_trans hba (habove b hmem)) Std.lt_irrefl
  · intro hb
    exact ⟨(hin.mp (List.mem_append_left _ hb)).1, fun k hk => Option.mem_some.mp hk ▸ hbelow b hb a List.mem_cons_self⟩

/-- Going back from a cursor lists what is below it, in at most one step for each entry and one more. -/
theorem walk_below (hl : l.Pairwise fun a b => key a < key b) (hn : ∀ i, 1 ≤ n i)
    (hpage : ∀ i before, (i = 0 ∧ before = none ∨ ∃ a ∈ l, before = some (key a)) →
      page i before = some ((below key before l).drop ((below key before l).length - n i),
        decide ((below key before l).length ≤ n i))) :
    ∀ (fuel i : Nat) (before : Option κ), (i = 0 ∧ before = none ∨ ∃ a ∈ l, before = some (key a)) →
      (below key before l).length < fuel →
      ∃ pages, walk key page fuel i before = some pages ∧ pages.reverse.flatten = below key before l := by
  intro fuel
  induction fuel with
  | zero => omega
  | succ fuel ih =>
    intro i before hbefore hfuel
    generalize hrest : below key before l = rest at hfuel
    have hp := hpage i before hbefore
    rw [hrest] at hp
    by_cases hdone : rest.length ≤ n i
    · refine ⟨[rest], ?_, by simp⟩
      simp [walk, hp, hdone]
    · -- The page is not empty, and what is below its first entry is what it leaves.
      have hlt : rest.length - n i < rest.length := by have := hn i; omega
      have hsplit : rest = rest.take (rest.length - n i) ++
          rest[rest.length - n i] :: rest.drop (rest.length - n i + 1) := by simp
      have hbelow := below_split hl (hrest.trans hsplit)
      obtain ⟨a, ha⟩ : ∃ a, rest[rest.length - n i] = a := ⟨_, rfl⟩
      rw [ha] at hbelow
      have hal : a ∈ l := by
        have hmem : a ∈ below key before l := hrest ▸ ha ▸ List.getElem_mem hlt
        exact (mem_below.mp hmem).1
      obtain ⟨pages, hwalk, hflat⟩ := ih (i + 1) (some (key a)) (.inr ⟨a, hal, rfl⟩) (by
        rw [hbelow, List.length_take]
        have := hn i
        omega)
      have hhead : (rest.drop (rest.length - n i)).head? = some a := by
        rw [List.head?_drop, List.getElem?_eq_getElem hlt, ha]
      refine ⟨rest.drop (rest.length - n i) :: pages, ?_, ?_⟩
      · simp [walk, hp, hdone, hhead, hwalk]
      · rw [List.reverse_cons, List.flatten_append, hflat, hbelow]
        simp

end

end Newest
