import PickleChat.Lib.Async

/-!
# Handlers that follow a protocol

A protocol says which operations may be awaited from each of its states, and
what may become of the shared state when the reply is taken up. When every
handler of a pool follows it, each job stands in some protocol state, whatever
the interleaving.
-/

namespace Async

structure Protocol (σ Op : Type) (Reply : Op → Type) (Q : Type) where
  offers : Q → Op → Prop
  moves : Q → (op : Op) → Reply op → σ → σ → Q → Prop
  final : Q → Prop
  /-- The replies an operation can have. -/
  answers : (op : Op) → Reply op → Prop

section
variable {σ Op Q δ ι : Type} {Reply : Op → Type} (P : Protocol σ Op Reply Q)

/-- From `q` on, the task does what the protocol lets it do. -/
def Task.Follows : Task σ Op Reply → Q → Prop
  | .done, q => P.final q
  | .await op effect next, q => P.offers q op ∧ ∀ r s, P.answers op r →
      ∃ q', P.moves q op r s (effect r s) q' ∧ (next r s).Follows q'

def Job.Follows (j : Job σ Op Reply) (q : Q) : Prop :=
  match j.phase with
  | .waiting t => t.Follows P q
  | .answered op r effect next => P.offers q op ∧
      ∀ s, ∃ q', P.moves q op r s (effect r s) q' ∧ (next r s).Follows P q'

def Job.awaiting (j : Job σ Op Reply) : Option Op :=
  match j.phase with
  | .waiting (.await op _ _) => some op
  | _ => none

/-- The reply a job has and has not taken up yet. -/
def Job.answer (j : Job σ Op Reply) : Option ((op : Op) × Reply op) :=
  match j.phase with
  | .answered op r _ _ => some ⟨op, r⟩
  | _ => none

theorem Job.answer_eq {j : Job σ Op Reply} {op : Op} {r : Reply op} {effect next}
    (h : j.phase = .answered op r effect next) : j.answer = some ⟨op, r⟩ := by
  unfold answer
  rw [h]

theorem Job.awaiting_eq {j : Job σ Op Reply} {op : Op} {effect next}
    (h : j.phase = .waiting (.await op effect next)) : j.awaiting = some op := by
  unfold awaiting
  rw [h]

def Pool.Follows (p : Pool σ Op Reply δ ι) (q : ι → Q) : Prop := ∀ i j, p.jobs i = some j → j.Follows P (q i)

variable [DecidableEq ι]

def moved (q : ι → Q) (i : ι) (x : Q) : ι → Q := fun k => if k = i then x else q k

@[simp] theorem moved_self (q : ι → Q) (i : ι) (x : Q) : moved q i x i = x := if_pos rfl

theorem moved_ne {i k : ι} (q : ι → Q) (x : Q) (h : k ≠ i) : moved q i x k = q k := if_neg h

variable {P} {p : Pool σ Op Reply δ ι} {q : ι → Q} {i : ι}

theorem Pool.Follows.set (h : p.Follows P q) {j : Job σ Op Reply} {x : Q} (hj : j.Follows P x) (s : σ) (d : δ) :
    Pool.Follows P ⟨s, d, p.set i j⟩ (moved q i x) := by
  intro k j' hk
  rcases set_eq hk with ⟨rfl, rfl⟩ | ⟨hne, hk⟩
  · rwa [moved_self]
  · rw [moved_ne q x hne]
    exact h k j' hk

theorem Pool.Follows.perform (h : p.Follows P q) {j : Job σ Op Reply} {op : Op} {effect next} {r : Reply op}
    (hi : p.jobs i = some j) (hph : j.phase = .waiting (.await op effect next)) (hr : P.answers op r) (d : δ) :
    P.offers (q i) op ∧ Pool.Follows P ⟨p.state, d, p.set i ⟨j.seen, true, .answered op r effect next⟩⟩ q := by
  have hj := h i j hi
  unfold Job.Follows at hj
  rw [hph] at hj
  obtain ⟨ho, hm⟩ := hj
  refine ⟨ho, fun k j' hk => ?_⟩
  rcases set_eq hk with ⟨rfl, rfl⟩ | ⟨-, hk⟩
  · exact ⟨ho, fun s => hm r s hr⟩
  · exact h k j' hk

theorem Pool.Follows.resume (h : p.Follows P q) {j : Job σ Op Reply} {op : Op} {effect next} {r : Reply op}
    (hi : p.jobs i = some j) (hph : j.phase = .answered op r effect next) (d : δ) :
    P.offers (q i) op ∧ ∃ x, P.moves (q i) op r p.state (effect r p.state) x ∧
      (next r p.state).Follows P x ∧
      Pool.Follows P ⟨effect r p.state, d, p.set i ⟨j.seen, j.begun, .waiting (next r p.state)⟩⟩ (moved q i x) := by
  have hj := h i j hi
  unfold Job.Follows at hj
  rw [hph] at hj
  obtain ⟨ho, hm⟩ := hj
  obtain ⟨x, hx, ht⟩ := hm p.state
  exact ⟨ho, x, hx, ht, h.set (j := ⟨j.seen, j.begun, .waiting (next r p.state)⟩) ht _ _⟩

end

end Async
