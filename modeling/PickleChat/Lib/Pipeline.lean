import Mathlib.Data.List.Perm.Subperm
import PickleChat.Lib.Run

/-!
# Packets on a line

Packets go along a line from one stage to the next. On the way some are lost,
and some overtake others. What has come out was put in, each packet once. Where
none overtakes another all come out in order, and between two that are never
lost there is what was put in between them.
-/

namespace Pipeline

open Async (Run)

variable {π : Type}

/-! ## What is left of a list -/

/-- What is left of packets of which some are lost, but none that is marked. -/
inductive Thinned (mark : π → Prop) : List π → List π → Prop
  | nil : Thinned mark [] []
  | keep (p : π) {l l' : List π} (h : Thinned mark l l') : Thinned mark (p :: l) (p :: l')
  | lose {p : π} (hp : ¬ mark p) {l l' : List π} (h : Thinned mark l l') : Thinned mark l (p :: l')

section
variable {mark : π → Prop} {l l' m m' : List π}

theorem Thinned.refl (l : List π) : Thinned mark l l := by
  induction l with
  | nil => exact .nil
  | cons p l ih => exact .keep p ih

theorem Thinned.trans (h : Thinned mark l l') (h' : Thinned mark l' m) : Thinned mark l m := by
  induction h' generalizing l with
  | nil => exact h
  | keep p h' ih =>
    cases h with
    | keep _ h => exact .keep p (ih h)
    | lose hp h => exact .lose hp (ih h)
  | lose hp h' ih => exact .lose hp (ih h)

theorem Thinned.append (h : Thinned mark l l') (h' : Thinned mark m m') : Thinned mark (l ++ m) (l' ++ m') := by
  induction h with
  | nil => exact h'
  | keep p h ih => exact .keep p ih
  | lose hp h ih => exact .lose hp ih

theorem Thinned.erase (l : List π) {p : π} (hp : ¬ mark p) (m : List π) : Thinned mark (l ++ m) (l ++ p :: m) :=
  (refl l).append (.lose hp (refl m))

end

theorem Thinned.sublist {mark : π → Prop} {l l' : List π} (h : Thinned mark l l') : l.Sublist l' := by
  induction h with
  | nil => exact .slnil
  | keep p h ih => exact ih.cons_cons p
  | lose hp h ih => exact ih.cons _

/-! ## Lines -/

/-- What has been put in, and what is at each stage, from the end back to the first. -/
structure Line (π : Type) where
  sent : List π
  stages : List (List π)

/-- All that has not been lost, the packet that is farthest first. -/
def Line.trail (l : Line π) : List π := l.stages.flatten

inductive Event (π : Type) where
  | send (p : π)
  | pass (overtaken : List π) (p : π)
  | lose (p : π)
  | rest

inductive Line.Step : Line π → Event π → Line π → Prop
  | send (sent : List π) (ahead : List (List π)) (first : List π) (p : π) :
      Step ⟨sent, ahead ++ [first]⟩ (.send p) ⟨sent ++ [p], ahead ++ [first ++ [p]]⟩
  | pass (sent : List π) (ahead : List (List π)) (next overtaken : List π) (p : π) (rest : List π)
      (behind : List (List π)) :
      Step ⟨sent, ahead ++ next :: (overtaken ++ p :: rest) :: behind⟩ (.pass overtaken p)
        ⟨sent, ahead ++ (next ++ [p]) :: (overtaken ++ rest) :: behind⟩
  | lose (sent : List π) (ahead : List (List π)) (before : List π) (p : π) (rest : List π) (behind : List (List π)) :
      Step ⟨sent, ahead ++ (before ++ p :: rest) :: behind⟩ (.lose p) ⟨sent, ahead ++ (before ++ rest) :: behind⟩
  | rest (l : Line π) : Step l .rest l

/-- No packet is overtaken, and none that is marked is lost. -/
def Event.Orderly (mark : π → Prop) : Event π → Prop
  | .send _ | .rest => True
  | .pass overtaken _ => overtaken = []
  | .lose p => ¬ mark p

section
variable {l l' : Line π} {e : Event π}

/-- What one step does to the packets that are on the line. -/
theorem Line.Step.trail (h : Line.Step l e l') :
    (∃ p, e = .send p ∧ l'.sent = l.sent ++ [p] ∧ l'.trail = l.trail ++ [p]) ∨
      l'.sent = l.sent ∧ ((e = .rest ∧ l'.trail = l.trail) ∨ ∃ u p v,
        (e = .lose p ∧ l.trail = u ++ p :: v ∧ l'.trail = u ++ v) ∨
          ∃ overtaken, e = .pass overtaken p ∧ l.trail = u ++ (overtaken ++ p :: v) ∧
            l'.trail = u ++ p :: (overtaken ++ v)) := by
  cases h with
  | send sent ahead first p =>
    refine .inl ⟨p, rfl, rfl, ?_⟩
    simp only [Line.trail, List.flatten_append, List.flatten_cons, List.flatten_nil, List.append_nil, List.append_assoc]
  | pass sent ahead next overtaken p rest behind =>
    refine .inr ⟨rfl, .inr ⟨ahead.flatten ++ next, p, rest ++ behind.flatten, .inr ⟨overtaken, rfl, ?_, ?_⟩⟩⟩
    · simp [Line.trail]
    · simp [Line.trail]
  | lose sent ahead before p rest behind =>
    refine .inr ⟨rfl, .inr ⟨ahead.flatten ++ before, p, rest ++ behind.flatten, .inl ⟨rfl, ?_, ?_⟩⟩⟩
    · simp [Line.trail]
    · simp [Line.trail]
  | rest => exact .inr ⟨rfl, .inl ⟨rfl, rfl⟩⟩

theorem Line.Step.subperm (h : Line.Step l e l') (hl : l.trail.Subperm l.sent) : l'.trail.Subperm l'.sent := by
  rcases h.trail with ⟨p, -, hsent, htrail⟩ |
    ⟨hsent, ⟨-, htrail⟩ | ⟨u, p, v, ⟨-, hbefore, htrail⟩ | ⟨overtaken, -, hbefore, htrail⟩⟩⟩
  · rw [hsent, htrail]
    exact (List.subperm_append_right [p]).mpr hl
  · rw [hsent, htrail]
    exact hl
  · rw [hsent, htrail]
    rw [hbefore] at hl
    exact ((List.sublist_cons_self p v).append_left u).subperm.trans hl
  · rw [hsent, htrail]
    rw [hbefore] at hl
    exact (List.perm_middle.symm.append_left u).subperm.trans hl

theorem Line.Step.thinned {mark : π → Prop} (h : Line.Step l e l') (he : e.Orderly mark)
    (hl : Thinned mark l.trail l.sent) : Thinned mark l'.trail l'.sent := by
  rcases h.trail with ⟨p, -, hsent, htrail⟩ |
    ⟨hsent, ⟨-, htrail⟩ | ⟨u, p, v, ⟨rfl, hbefore, htrail⟩ | ⟨overtaken, rfl, hbefore, htrail⟩⟩⟩
  · rw [hsent, htrail]
    exact hl.append (.refl [p])
  · rw [hsent, htrail]
    exact hl
  · rw [hsent, htrail]
    rw [hbefore] at hl
    exact (Thinned.erase u he v).trans hl
  · obtain rfl : overtaken = [] := he
    rw [hsent, htrail]
    rwa [hbefore] at hl

end

/-! ## Machines that carry a line -/

section
variable {S L : Type} {step : S → L → S → Prop} {ok : S → L → Prop} (line : S → Line π) {s₀ s : S}

/-- Nothing comes out that was not put in, and nothing twice. -/
theorem run_subperm (hstep : ∀ s l s', ok s l → step s l s' → ∃ e, Line.Step (line s) e (line s'))
    (hr : Run step ok s₀ s) (h₀ : (line s₀).trail.Subperm (line s₀).sent) : (line s).trail.Subperm (line s).sent :=
  hr.invariant (fun s => (line s).trail.Subperm (line s).sent) h₀ fun s l s' ih hok hst => by
    obtain ⟨e, he⟩ := hstep s l s' hok hst
    exact he.subperm ih

/-- Where no packet is overtaken, all that is left is in order, and those never lost are there. `I` is what the
machine keeps besides. -/
theorem run_thinned {mark : π → Prop} {I : S → Prop} (hkept : ∀ s l s', I s → ok s l → step s l s' → I s')
    (hstep : ∀ s l s', I s → ok s l → step s l s' → ∃ e, e.Orderly mark ∧ Line.Step (line s) e (line s'))
    (hr : Run step ok s₀ s) (hI : I s₀) (h₀ : Thinned mark (line s₀).trail (line s₀).sent) :
    Thinned mark (line s).trail (line s).sent :=
  (hr.invariant (fun s => I s ∧ Thinned mark (line s).trail (line s).sent) ⟨hI, h₀⟩ fun s l s' ih hok hst => by
    obtain ⟨e, horderly, he⟩ := hstep s l s' ih.1 hok hst
    exact ⟨hkept s l s' ih.1 hok hst, he.thinned horderly ih.2⟩).2

end

end Pipeline
