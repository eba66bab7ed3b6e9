import PickleChat.Lib.Async

/-!
# Handlers that keep to their room

What every section of every handler keeps while there is room in the state, a
pool of them keeps in any interleaving in which there is room throughout. The
operations a handler awaits are fine when there was room as it came to await
them.
-/

namespace Async

section
variable {σ Op δ ι : Type} {Reply : Op → Type} [DecidableEq ι]

/-- A section may take a state to another, there may be room in a state, an
operation may be fine and a reply expected. -/
structure Bound (σ Op : Type) (Reply : Op → Type) where
  moves : σ → σ → Prop
  room : σ → Prop
  fine : Op → Prop
  answers : (op : Op) → Reply op → Prop

variable (B : Bound σ Op Reply)

def Task.Bounded : Task σ Op Reply → Prop
  | .done => True
  | .await op effect next =>
    B.fine op ∧ ∀ r s, B.answers op r → B.moves s (effect r s) ∧ (B.room (effect r s) → (next r s).Bounded)

def Bound.Holds (h : σ → σ × Task σ Op Reply) : Prop := ∀ s, B.moves s (h s).1 ∧ (B.room (h s).1 → (h s).2.Bounded B)

def Job.Bounded (j : Job σ Op Reply) : Prop :=
  match j.phase with
  | .waiting t => t.Bounded B
  | .answered _ r effect next => ∀ s, B.moves s (effect r s) ∧ (B.room (effect r s) → (next r s).Bounded B)

variable {B}

theorem bounded_wait {op : Op} {k : Reply op → σ → σ × Task σ Op Reply} (hop : B.fine op)
    (hk : ∀ r, B.answers op r → B.Holds (k r)) : (Task.wait op k).Bounded B := ⟨hop, fun r s hr => hk r hr s⟩

theorem Task.Bounded.mono {t : Task σ Op Reply} (h : t.Bounded B) (B' : Bound σ Op Reply)
    (hmove : ∀ s t, B.moves s t → B'.moves s t) (hroom : ∀ s, B'.room s → B.room s)
    (hfine : ∀ op, B.fine op → B'.fine op) (hanswer : ∀ op r, B'.answers op r → B.answers op r) : t.Bounded B' := by
  induction t with
  | done => trivial
  | await op effect next ih =>
    refine ⟨hfine op h.1, fun r s hr => ?_⟩
    obtain ⟨hm, hn⟩ := h.2 r s (hanswer op r hr)
    exact ⟨hmove _ _ hm, fun hroom' => ih r s (hn (hroom _ hroom'))⟩

variable {performs : (op : Op) → δ → Reply op → δ → Prop} {I : σ → Prop} {V : δ → Prop}
  (hmove : ∀ s t, I s → B.moves s t → B.room t → I t)
  (hperform : ∀ op d r d', B.fine op → performs op d r d' → V d → V d')
include hmove hperform

theorem Pool.Step.bounded {p p' : Pool σ Op Reply δ ι} {e : Event σ Op Reply ι} (hst : Pool.Step performs p e p')
    (hspawn : ∀ i h, e = .spawn i h → B.Holds h) (houtside : ∀ f, e = .outside f → ∀ s, B.moves s (f s))
    (hanswer : ∀ i j op effect next r d', e = .perform i → p.jobs i = some j →
      j.phase = .waiting (.await op effect next) → performs op p.world r d' → B.answers op r)
    (hI : I p.state) (hV : V p.world) (hall : ∀ i j, p.jobs i = some j → j.Bounded B) (hnext : B.room p'.state) :
    I p'.state ∧ V p'.world ∧ ∀ i j, p'.jobs i = some j → j.Bounded B := by
  cases hst with
  | spawn i h _ =>
    have hh := hspawn i h rfl p.state
    refine ⟨hmove _ _ hI hh.1 hnext, hV, fun k j hk => ?_⟩
    rcases set_eq hk with ⟨-, rfl⟩ | ⟨-, hk⟩
    · exact hh.2 hnext
    · exact hall k j hk
  | @perform i j op effect next r d' hi hph hp =>
    have hj := hall i j hi
    unfold Job.Bounded at hj
    rw [hph] at hj
    refine ⟨hI, hperform op p.world r d' hj.1 hp hV, fun k j' hk => ?_⟩
    rcases set_eq hk with ⟨-, rfl⟩ | ⟨-, hk⟩
    · exact fun s => hj.2 r s (hanswer i j op effect next r d' rfl hi hph hp)
    · exact hall k j' hk
  | @resume i j op effect next r hi hph =>
    have hj := hall i j hi
    unfold Job.Bounded at hj
    rw [hph] at hj
    refine ⟨hmove _ _ hI (hj p.state).1 hnext, hV, fun k j' hk => ?_⟩
    rcases set_eq hk with ⟨-, rfl⟩ | ⟨-, hk⟩
    · exact (hj p.state).2 hnext
    · exact hall k j' hk
  | outside f => exact ⟨hmove _ _ hI (houtside f rfl p.state) hnext, hV, hall⟩

variable {ok : Pool σ Op Reply δ ι → Event σ Op Reply ι → Prop}
  (hroom : ∀ p e, ok p e → B.room p.state) (hspawn : ∀ p i h, ok p (.spawn i h) → B.Holds h)
  (houtside : ∀ p f, ok p (.outside f) → ∀ s, B.moves s (f s))
  (hanswer : ∀ p i j op effect next r d', ok p (.perform i) → p.jobs i = some j →
    j.phase = .waiting (.await op effect next) → performs op p.world r d' → B.answers op r)
include hroom hspawn houtside hanswer

theorem Pool.bounded {p₀ p : Pool σ Op Reply δ ι} (hI : I p₀.state) (hV : V p₀.world) (hjobs : ∀ i, p₀.jobs i = none)
    (hr : Run (Pool.Step performs) ok p₀ p) (hfinal : B.room p.state) :
    I p.state ∧ V p.world ∧ ∀ i j, p.jobs i = some j → j.Bounded B := by
  refine hr.invariant (fun p => B.room p.state → I p.state ∧ V p.world ∧ ∀ i j, p.jobs i = some j → j.Bounded B)
    ?_ ?_ hfinal
  · exact fun _ => ⟨hI, hV, fun i j hi => by rw [hjobs i] at hi; cases hi⟩
  intro p e p' ih hok hst hnext
  obtain ⟨hI, hV, hall⟩ := ih (hroom p e hok)
  refine hst.bounded hmove hperform ?_ ?_ ?_ hI hV hall hnext
  · rintro i h rfl
    exact hspawn p i h hok
  · rintro f rfl
    exact houtside p f hok
  · rintro i j op effect next r d' rfl
    exact hanswer p i j op effect next r d' hok

end

end Async
