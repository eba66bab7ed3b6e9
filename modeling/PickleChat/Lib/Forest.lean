import Mathlib.Data.List.Perm.Subperm
import Mathlib.Logic.Relation
import Mathlib.Order.WellFounded
import PickleChat.Lib.Keyed

/-!
# Following parents

A partial function as a graph in which everything has at most one parent. It is
a forest when every chain of parents ends. `climb` follows a chain in search of
something; on a graph with finitely many edges it needs no more steps than
there are edges, or never ends.
-/

namespace Forest

variable {α : Type}

inductive Ends (next : α → Option α) : Option α → Prop
  | top : Ends next none
  | up {a : α} : Ends next (next a) → Ends next (some a)

def IsForest (next : α → Option α) : Prop := ∀ a, Ends next (some a)

/-- One is a parent of the other. -/
def Link (next : α → Option α) (a b : α) : Prop := next a = some b

section
variable {next : α → Option α}

theorem Ends.parent {a : α} (h : Ends next (some a)) : Ends next (next a) := by
  cases h with
  | up h => exact h

theorem IsForest.ends (h : IsForest next) (c : Option α) : Ends next c := by
  cases c with
  | none => exact .top
  | some a => exact h a

theorem Ends.irrefl {a : α} (h : Ends next (some a)) : ¬ Relation.TransGen (Link next) a a := by
  generalize hc : some a = c at h
  induction h generalizing a with
  | top => cases hc
  | @up b _ ih =>
    cases hc
    intro hloop
    obtain ⟨p, hp, hback⟩ := Relation.TransGen.head'_iff.mp hloop
    have hp : next b = some p := hp
    refine ih hp.symm ?_
    exact Relation.TransGen.tail' hback hp

end

/-! ## Searching a chain -/

section
variable [DecidableEq α] (next : α → Option α) (target : α)

/-- Look for `target` on the chain from the cursor, for at most the given number of steps. -/
def climb : Nat → Option α → Option Bool
  | _, none => some false
  | 0, some _ => none
  | n + 1, some a => if a = target then some true else climb n (next a)

variable {next target}

theorem climb_none (n : Nat) : climb next target n none = some false := by cases n <;> rfl

theorem climb_succ {n : Nat} {c : Option α} {r : Bool} (h : climb next target n c = some r) :
    climb next target (n + 1) c = some r := by
  induction n generalizing c with
  | zero =>
    cases c with
    | none => exact h
    | some a => cases h
  | succ n ih =>
    cases c with
    | none => exact h
    | some a =>
      unfold climb at h ⊢
      split at h
      · rw [if_pos ‹_›]
        exact h
      · rw [if_neg ‹_›]
        exact ih h

theorem climb_mono {n m : Nat} (hle : n ≤ m) {c : Option α} {r : Bool} (h : climb next target n c = some r) :
    climb next target m c = some r := by
  induction hle with
  | refl => exact h
  | step _ ih => exact climb_succ ih

theorem Ends.climbs {c : Option α} (h : Ends next c) (target : α) : ∃ n r, climb next target n c = some r := by
  induction h with
  | top => exact ⟨0, false, rfl⟩
  | @up a _ ih =>
    obtain ⟨n, r, h⟩ := ih
    by_cases ha : a = target
    · exact ⟨n + 1, true, by unfold climb; rw [if_pos ha]⟩
    · exact ⟨n + 1, r, by unfold climb; rw [if_neg ha]; exact h⟩

theorem climb_trail {n : Nat} {c : Option α} {r : Bool} (h : climb next target (n + 1) c = some r)
    (hleast : climb next target n c = none) : ∃ trail : List α, trail.length = n ∧ trail.Nodup ∧
      ∀ a ∈ trail, next a ≠ none ∧ ∃ r, climb next target (n + 1) (some a) = some r := by
  induction n generalizing c with
  | zero => exact ⟨[], rfl, List.nodup_nil, fun a ha => (nomatch ha)⟩
  | succ n ih =>
    cases c with
    | none => cases hleast
    | some a =>
      have hne : a ≠ target := by
        rintro rfl
        unfold climb at hleast
        rw [if_pos rfl] at hleast
        cases hleast
      have h' : climb next target (n + 1) (next a) = some r := by
        unfold climb at h
        rwa [if_neg hne] at h
      have hleast' : climb next target n (next a) = none := by
        unfold climb at hleast
        rwa [if_neg hne] at hleast
      obtain ⟨trail, hlen, hnodup, hall⟩ := ih h' hleast'
      refine ⟨a :: trail, by simp [hlen], List.nodup_cons.mpr ⟨fun ha => ?_, hnodup⟩, ?_⟩
      · obtain ⟨-, r', hr'⟩ := hall a ha
        rw [hr'] at hleast
        cases hleast
      · intro b hb
        rcases List.mem_cons.mp hb with rfl | hb
        · refine ⟨fun hn => ?_, r, h⟩
          rw [hn, climb_none] at hleast'
          cases hleast'
        · obtain ⟨hn, r', hr'⟩ := hall b hb
          exact ⟨hn, r', climb_succ hr'⟩

/-- A search that ends at all ends within one step more than there are parents. -/
theorem climb_bounded {support : List α} (hsupport : ∀ a, next a ≠ none → a ∈ support) {n : Nat} {c : Option α}
    {r : Bool} (h : climb next target n c = some r) : climb next target (support.length + 1) c = some r := by
  induction n with
  | zero => exact climb_mono (Nat.zero_le _) h
  | succ n ih =>
    cases hn : climb next target n c with
    | some r' =>
      have heq : some r' = some r := (climb_succ hn).symm.trans h
      exact ih (hn.trans heq)
    | none =>
      obtain ⟨trail, hlen, hnodup, hall⟩ := climb_trail h hn
      have hle : trail.length ≤ support.length :=
        (List.subperm_of_subset hnodup fun a ha => hsupport a (hall a ha).1).length_le
      exact climb_mono (by omega) h

/-- A search that ends without success has seen a chain that ends, and that
avoids the target: another parent for the target leaves it as it is. -/
theorem ends_of_climb {n : Nat} {c p : Option α} (h : climb next target n c = some false) :
    Ends (fun b => if b = target then p else next b) c := by
  induction n generalizing c with
  | zero =>
    cases c with
    | none => exact .top
    | some a => cases h
  | succ n ih =>
    cases c with
    | none => exact .top
    | some a =>
      unfold climb at h
      split at h
      · cases h
      rename_i hne
      refine .up ?_
      rw [if_neg hne]
      exact ih h

/-- A search that succeeds has seen a chain that leads to the target, and up to
there another parent for the target leaves it as it is. -/
theorem reaches_of_climb {n : Nat} {a : α} {p : Option α} (h : climb next target n (some a) = some true) :
    Relation.ReflTransGen (Link fun b => if b = target then p else next b) a target := by
  induction n generalizing a with
  | zero => cases h
  | succ n ih =>
    by_cases ha : a = target
    · rw [ha]
    · rw [climb, if_neg ha] at h
      cases hnext : next a with
      | none =>
        rw [hnext, climb_none] at h
        cases h
      | some b =>
        rw [hnext] at h
        apply Relation.ReflTransGen.head _ (ih h)
        exact (if_neg ha).trans hnext

/-- A search succeeds exactly if, with its start for a parent, the target would be on a loop. -/
theorem climb_iff_loop {n : Nat} {c : Option α} {r : Bool} (h : climb next target n c = some r) :
    r = true ↔ Relation.TransGen (Link fun b => if b = target then c else next b) target target := by
  constructor
  · intro hr
    subst hr
    cases c with
    | none =>
      rw [climb_none] at h
      cases h
    | some a =>
      apply Relation.TransGen.head' _ (reaches_of_climb h)
      exact if_pos rfl
  · intro hloop
    by_contra hr
    have hends : Ends (fun b => if b = target then c else next b) (some target) := by
      apply Ends.up
      rw [if_pos rfl]
      apply ends_of_climb (n := n)
      rw [h, Bool.eq_false_of_not_eq_true hr]
    exact hends.irrefl hloop

theorem IsForest.set (hf : IsForest next) {n : Nat} {p : Option α} (h : climb next target n p = some false) :
    IsForest fun b => if b = target then p else next b := by
  have hends : ∀ c, Ends next c → Ends (fun b => if b = target then p else next b) c := by
    intro c hc
    induction hc with
    | top => exact .top
    | @up a _ ih =>
      refine .up ?_
      by_cases ha : a = target
      · rw [if_pos ha]
        exact ends_of_climb h
      · rw [if_neg ha]
        exact ih
  exact fun a => hends _ (hf a)

end

/-! ## Keyed lists that name parents -/

section
variable {α κ : Type} [DecidableEq κ] (key : α → κ) (up : α → Option κ)

def above (l : List α) (k : κ) : Option κ := (Keyed.get key k l).bind up

variable {key up} {l : List α}

theorem above_modify {f : α → α} (hkey : ∀ a, key (f a) = key a) (hup : ∀ a, up (f a) = up a) (k : κ) :
    above key up (Keyed.modify key k f l) = above key up l := by
  funext j
  unfold above
  rw [Keyed.get_modify hkey]
  split
  · rw [Option.bind_map]
    exact congrArg (Option.bind _) (funext hup)
  · rfl

theorem isForest_of_top (h : ∀ a ∈ l, up a = none) : IsForest (above key up l) := by
  intro k
  refine .up ?_
  unfold above
  cases hget : Keyed.get key k l with
  | none => exact .top
  | some a =>
    rw [Option.bind_some, h a (Keyed.get_mem hget)]
    exact .top

variable (hf : IsForest (above key up l))
include hf

theorem IsForest.put {l' : List α} {a : α} {n : Nat} (hclimb : climb (above key up l) (key a) n (up a) = some false)
    (hget : ∀ k, Keyed.get key k l' = if k = key a then some a else Keyed.get key k l) :
    IsForest (above key up l') := by
  have habove : above key up l' = fun k => if k = key a then up a else above key up l k := by
    funext k
    unfold above
    rw [hget]
    split <;> rfl
  rw [habove]
  exact hf.set hclimb

theorem IsForest.modify {k : κ} {f : α → α} {p : Option κ} {n : Nat} (hkey : ∀ a, key a = k → key (f a) = k)
    (hup : ∀ a, up (f a) = p) (hclimb : (∃ a ∈ l, key a = k) → climb (above key up l) k n p = some false) :
    IsForest (above key up (Keyed.modify key k f l)) := by
  have habove : ∀ j, above key up (Keyed.modify key k f l) j =
      if j = k then ((Keyed.get key k l).map f).bind up else above key up l j := by
    intro j
    unfold above
    rw [Keyed.get_modify_at hkey]
    split
    · rename_i hj
      rw [hj]
    · rfl
  cases hget : Keyed.get key k l with
  | none =>
    have hsame : above key up (Keyed.modify key k f l) = above key up l := by
      funext j
      rw [habove, hget]
      split
      · rename_i hj
        unfold above
        rw [hj, hget]
        rfl
      · rfl
    rw [hsame]
    exact hf
  | some a =>
    have hset : above key up (Keyed.modify key k f l) = fun j => if j = k then p else above key up l j := by
      funext j
      rw [habove, hget]
      split
      · exact hup a
      · rfl
    rw [hset]
    exact hf.set (hclimb ⟨a, Keyed.get_mem hget, Keyed.get_key hget⟩)

theorem IsForest.erase (k : κ) : IsForest (above key up (Keyed.erase key k l)) := by
  have habove : above key up (Keyed.erase key k l) = fun j => if j = k then none else above key up l j := by
    funext j
    unfold above
    rw [Keyed.get_erase]
    split <;> rfl
  rw [habove]
  exact hf.set (climb_none 0)

end

end Forest
