import PickleChat.Lib.Keyed

/-!
# Hash maps

A hash map is kept as its entries, no two of which share a key. The order they
stand in is the order they are walked in; a hash map promises none.
-/

namespace Keyed

structure Assoc (κ α : Type) where
  entries : List (κ × α)
  unique : Unique Prod.fst entries

namespace Assoc
variable {κ α β : Type} [DecidableEq κ]

def empty : Assoc κ α := ⟨[], .nil⟩

def get (m : Assoc κ α) (k : κ) : Option α := (Keyed.get Prod.fst k m.entries).map Prod.snd

def insert (m : Assoc κ α) (k : κ) (a : α) : Assoc κ α := ⟨put Prod.fst (k, a) m.entries, m.unique.put (k, a)⟩

def remove (m : Assoc κ α) (k : κ) : Assoc κ α := ⟨erase Prod.fst k m.entries, m.unique.erase k⟩

omit [DecidableEq κ] in
theorem unique_filterMap {l : List (κ × α)} (hu : Unique Prod.fst l) (f : κ → α → Option β) :
    Unique Prod.fst (l.filterMap fun e => (f e.1 e.2).map (e.1, ·)) := by
  refine List.pairwise_map.mpr ((List.pairwise_map.mp hu).filterMap _ fun e e' hne x hx y hy => ?_)
  obtain ⟨b, -, rfl⟩ := Option.map_eq_some_iff.mp hx
  obtain ⟨b', -, rfl⟩ := Option.map_eq_some_iff.mp hy
  exact hne

def filterMap (f : κ → α → Option β) (m : Assoc κ α) : Assoc κ β :=
  ⟨m.entries.filterMap fun e => (f e.1 e.2).map (e.1, ·), unique_filterMap m.unique f⟩

def modify (m : Assoc κ α) (k : κ) (f : α → α) : Assoc κ α := m.filterMap fun j a => some (if j = k then f a else a)

@[simp] theorem get_empty (k : κ) : (empty : Assoc κ α).get k = none := rfl

theorem get_insert (m : Assoc κ α) (j k : κ) (a : α) : (m.insert k a).get j = if j = k then some a else m.get j := by
  simp only [get, insert, get_put]
  split <;> rfl

theorem get_remove (m : Assoc κ α) (j k : κ) : (m.remove k).get j = if j = k then none else m.get j := by
  simp only [get, remove, get_erase]
  split <;> rfl

theorem mem_of_get {m : Assoc κ α} {k : κ} {a : α} (h : m.get k = some a) : (k, a) ∈ m.entries := by
  obtain ⟨e, he, rfl⟩ := Option.map_eq_some_iff.mp h
  rw [← get_key he]
  exact get_mem he

theorem get_of_mem {m : Assoc κ α} {e : κ × α} (h : e ∈ m.entries) : m.get e.1 = some e.2 := by
  rw [get, Keyed.get_of_mem m.unique h, Option.map_some]

theorem get_filterMap (f : κ → α → Option β) (m : Assoc κ α) (k : κ) :
    (m.filterMap f).get k = (m.get k).bind (f k) := by
  obtain ⟨l, hu⟩ := m
  simp only [get, filterMap]
  induction l with
  | nil => rfl
  | cons e l ih =>
    obtain ⟨hnew, hu⟩ := List.nodup_cons.mp hu
    have ih := ih hu
    rw [get_cons, List.filterMap_cons]
    by_cases hk : e.1 = k
    · subst hk
      have hgone : Keyed.get Prod.fst e.1 l = none :=
        get_eq_none.mpr fun e' he' h => hnew (List.mem_map.mpr ⟨e', he', h⟩)
      rw [if_pos rfl, Option.map_some, Option.bind_some]
      cases hf : f e.1 e.2 with
      | some b => simp [get_cons]
      | none =>
        simp only [Option.map_none]
        rw [ih, hgone]
        rfl
    · rw [if_neg hk, ← ih]
      cases hf : f e.1 e.2 with
      | none => rfl
      | some b => simp [get_cons, hk]

theorem get_modify (m : Assoc κ α) (j k : κ) (f : α → α) :
    (m.modify k f).get j = if j = k then (m.get j).map f else m.get j := by
  rw [modify, get_filterMap]
  by_cases h : j = k
  · simp [h, Option.map_eq_bind]
  · simp [h]

end Assoc

end Keyed
