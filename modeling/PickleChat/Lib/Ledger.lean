import Mathlib.Algebra.BigOperators.Group.List.Basic
import Mathlib.Algebra.GroupWithZero.Nat
import PickleChat.Lib.Async

/-!
# Handlers that pay at their end

A handler goes along until its last section, which alone changes a count, by
what the handler is due to add. In a pool of such handlers the count is the sum
of what the finished ones were due, whatever the order of their sections.
-/

namespace Async

section
variable {σ Op δ ι : Type} {Reply : Op → Type} [DecidableEq ι]

/-- What is awaited, what the sections on the way do, and what the last one does. -/
structure Course (σ Op : Type) where
  offers : Op → Prop
  along : σ → σ → Prop
  last : σ → σ → Prop

variable (C : Course σ Op)

def Task.Proceeds : Task σ Op Reply → Prop
  | .done => True
  | .await op effect next => C.offers op ∧ ∀ r s,
      (next r s ≠ .done → C.along s (effect r s)) ∧ (next r s = .done → C.last s (effect r s)) ∧ (next r s).Proceeds

/-- A section and what is left after it. -/
def Course.Section (s : σ) (x : σ × Task σ Op Reply) : Prop :=
  (x.2 ≠ .done → C.along s x.1) ∧ (x.2 = .done → C.last s x.1) ∧ x.2.Proceeds C

def Course.Holds (h : σ → σ × Task σ Op Reply) : Prop := ∀ s, C.Section s (h s)

def Job.Proceeds (j : Job σ Op Reply) : Prop :=
  match j.phase with
  | .waiting t => t.Proceeds C
  | .answered _ r effect next => ∀ s, C.Section s (effect r s, next r s)

variable {C} {s t : σ}

theorem Course.ends (h : C.last s t) : C.Section s ((t, .done) : σ × Task σ Op Reply) :=
  ⟨fun hne => absurd rfl hne, fun _ => h, trivial⟩

theorem Course.goesOn {op : Op} {k : Reply op → σ → σ × Task σ Op Reply} (hop : C.offers op) (h : C.along s t)
    (hk : ∀ r, C.Holds (k r)) : C.Section s (t, Task.wait op k) :=
  ⟨fun _ => h, (nomatch ·), hop, fun r s => hk r s⟩

theorem Task.Proceeds.mono {C' : Course σ Op} {todo : Task σ Op Reply} (h : todo.Proceeds C)
    (hoffers : ∀ op, C.offers op → C'.offers op) (halong : ∀ s t, C.along s t → C'.along s t)
    (hlast : ∀ s t, C.last s t → C'.last s t) : todo.Proceeds C' := by
  induction todo with
  | done => trivial
  | await op effect next ih =>
    refine ⟨hoffers op h.1, fun r s => ?_⟩
    obtain ⟨ha, hl, hn⟩ := h.2 r s
    exact ⟨fun hne => halong _ _ (ha hne), fun he => hlast _ _ (hl he), ih r s hn⟩

theorem Course.Holds.mono {C' : Course σ Op} {h : σ → σ × Task σ Op Reply} (hh : C.Holds h)
    (hoffers : ∀ op, C.offers op → C'.offers op) (halong : ∀ s t, C.along s t → C'.along s t)
    (hlast : ∀ s t, C.last s t → C'.last s t) : C'.Holds h := by
  intro s
  obtain ⟨ha, hl, hn⟩ := hh s
  exact ⟨fun hne => halong _ _ (ha hne), fun he => hlast _ _ (hl he), hn.mono hoffers halong hlast⟩

end

/-! ## Sums over the finished handlers -/

section
variable {σ Op δ ι : Type} {Reply : Op → Type} [DecidableEq ι]

def Pool.Finished (p : Pool σ Op Reply δ ι) (i : ι) : Prop := ∃ j, p.jobs i = some j ∧ j.finished

def Pool.Closed (p : Pool σ Op Reply δ ι) (done : List ι) : Prop := done.Nodup ∧ ∀ i, i ∈ done ↔ p.Finished i

/-- A count, the states in which it is kept, those in which sections start, and
what each handler is due to add. -/
structure Account (σ ι : Type) where
  paid : σ → Nat
  live : σ → Prop
  fine : σ → Prop
  due : ι → Nat

variable (A : Account σ ι)

def Account.Covers (C : Course σ Op) (n : Nat) : Prop :=
  (∀ s t, A.fine s → C.along s t → A.live t → A.paid t = A.paid s) ∧
    ∀ s t, A.fine s → C.last s t → A.live t → A.paid t = A.paid s + n

/-- From the first handler on that is due anything, the count is kept. -/
def Account.Kept (p : Pool σ Op Reply δ ι) : Prop := ∀ i j, p.jobs i = some j → A.due i ≠ 0 → A.live p.state

def Account.Balanced (course : ι → Course σ Op) (p : Pool σ Op Reply δ ι) : Prop :=
  (∃ done, p.Closed done ∧ A.paid p.state = (done.map A.due).sum) ∧
    ∀ i j, p.jobs i = some j → j.Proceeds (course i)

variable {A} {p p' : Pool σ Op Reply δ ι}

omit [DecidableEq ι] in
theorem Account.Kept.sum_eq_zero (h : A.Kept p) (hlive : ¬ A.live p.state) {done : List ι} (hdone : p.Closed done) :
    (done.map A.due).sum = 0 := by
  refine List.sum_eq_zero fun n hn => ?_
  obtain ⟨i, hi, rfl⟩ := List.mem_map.mp hn
  obtain ⟨j, hj, -⟩ := (hdone.2 i).mp hi
  exact Classical.byContradiction fun hne => hlive (h i j hj hne)

/-- The finished handlers once `i` is where `j` says, and was not finished before. -/
theorem Pool.Closed.set {i : ι} {j : Job σ Op Reply} {s : σ} {d : δ} {done : List ι} (h : p.Closed done)
    (hi : ¬ p.Finished i) :
    (j.finished → Pool.Closed (δ := δ) ⟨s, d, p.set i j⟩ (i :: done)) ∧
      (¬ j.finished → Pool.Closed (δ := δ) ⟨s, d, p.set i j⟩ done) := by
  have hfin : ∀ k, Pool.Finished (⟨s, d, p.set i j⟩ : Pool σ Op Reply δ ι) k ↔
      (k = i ∧ j.finished) ∨ (k ≠ i ∧ p.Finished k) := by
    intro k
    constructor
    · rintro ⟨j', hk, hf⟩
      rcases set_eq hk with ⟨rfl, rfl⟩ | ⟨hne, hk⟩
      · exact .inl ⟨rfl, hf⟩
      · exact .inr ⟨hne, j', hk, hf⟩
    · rintro (⟨rfl, hf⟩ | ⟨hne, j', hk, hf⟩)
      · exact ⟨j, set_self k j, hf⟩
      · exact ⟨j', by simp [Pool.set, hne, hk], hf⟩
  have hnot : i ∉ done := fun hm => hi ((h.2 i).mp hm)
  constructor
  · intro hj
    refine ⟨List.nodup_cons.mpr ⟨hnot, h.1⟩, fun k => ?_⟩
    rw [List.mem_cons, hfin, h.2]
    by_cases hk : k = i
    · simp [hk, hj]
    · simp [hk]
  · intro hj
    refine ⟨h.1, fun k => ?_⟩
    rw [hfin, h.2]
    by_cases hk : k = i
    · simp [hk, hj, hi]
    · simp [hk]

variable {course : ι → Course σ Op} (hcover : ∀ i, A.Covers (course i) (A.due i))
  (hnone : ∀ s, ¬ A.live s → A.paid s = 0)
include hcover hnone

/-- The balance once handler `i` has run the section that ends in `x`. -/
theorem Account.Balanced.section {i : ι} {x : σ × Task σ Op Reply} {j : Job σ Op Reply} (h : A.Balanced course p)
    (hi : ¬ p.Finished i) (hfine : A.fine p.state) (hx : (course i).Section p.state x)
    (hj : j.phase = .waiting x.2) (hkept : A.Kept (⟨x.1, p.world, p.set i j⟩ : Pool σ Op Reply δ ι)) :
    A.Balanced course ⟨x.1, p.world, p.set i j⟩ := by
  obtain ⟨⟨done, hdone, hpaid⟩, hall⟩ := h
  obtain ⟨halong, hlast, hfollows⟩ := hx
  have hfin : j.finished ↔ x.2 = .done := by
    unfold Job.finished
    rw [hj]
    exact ⟨Phase.waiting.inj, congrArg _⟩
  have hset := hdone.set (j := j) (s := x.1) (d := p.world) hi
  refine ⟨?_, fun k j' hk => ?_⟩
  · by_cases hend : x.2 = .done
    · have hclosed := hset.1 (hfin.mpr hend)
      refine ⟨i :: done, hclosed, ?_⟩
      by_cases hlive : A.live x.1
      · rw [(hcover i).2 p.state x.1 hfine (hlast hend) hlive, hpaid, List.map_cons, List.sum_cons, Nat.add_comm]
      · rw [hnone x.1 hlive, hkept.sum_eq_zero hlive hclosed]
    · have hclosed := hset.2 (mt hfin.mp hend)
      refine ⟨done, hclosed, ?_⟩
      by_cases hlive : A.live x.1
      · rw [(hcover i).1 p.state x.1 hfine (halong hend) hlive, hpaid]
      · rw [hnone x.1 hlive, hkept.sum_eq_zero hlive hclosed]
  · rcases set_eq hk with ⟨rfl, rfl⟩ | ⟨-, hk⟩
    · unfold Job.Proceeds
      rw [hj]
      exact hfollows
    · exact hall k j' hk

theorem Account.Balanced.step {performs : (op : Op) → δ → Reply op → δ → Prop} {e : Event σ Op Reply ι}
    (h : A.Balanced course p) (hst : Pool.Step performs p e p') (hfine : A.fine p.state)
    (hspawn : ∀ i f, e = .spawn i f → (course i).Holds f) (houtside : ∀ f, e ≠ .outside f) (hkept : A.Kept p') :
    A.Balanced course p' := by
  cases hst with
  | spawn i f hi =>
    have hnot : ¬ p.Finished i := fun ⟨j, hj, _⟩ => by rw [hi] at hj; cases hj
    exact h.section hcover hnone hnot hfine (hspawn i f rfl p.state) rfl hkept
  | @perform i j op effect next r d' hi hph hp =>
    obtain ⟨⟨done, hdone, hpaid⟩, hall⟩ := h
    have hnot : ¬ p.Finished i := by
      rintro ⟨j', hj', hf⟩
      rw [hi] at hj'
      cases hj'
      cases hph.symm.trans hf
    have hwaits : ¬ (⟨j.seen, true, .answered op r effect next⟩ : Job σ Op Reply).finished := fun hf => nomatch hf
    refine ⟨⟨done, (hdone.set hnot).2 hwaits, hpaid⟩, fun k j' hk => ?_⟩
    rcases set_eq hk with ⟨rfl, rfl⟩ | ⟨-, hk⟩
    · have hj := hall k j hi
      unfold Job.Proceeds at hj
      rw [hph] at hj
      exact fun s => hj.2 r s
    · exact hall k j' hk
  | @resume i j op effect next r hi hph =>
    have hnot : ¬ p.Finished i := by
      rintro ⟨j', hj', hf⟩
      rw [hi] at hj'
      cases hj'
      cases hph.symm.trans hf
    have hj := h.2 i j hi
    unfold Job.Proceeds at hj
    rw [hph] at hj
    exact h.section hcover hnone hnot hfine (hj p.state) rfl hkept
  | outside f => exact absurd rfl (houtside f)

/-- In every run the count is the sum of what the finished handlers were due. -/
theorem Account.balanced {performs : (op : Op) → δ → Reply op → δ → Prop}
    {ok : Pool σ Op Reply δ ι → Event σ Op Reply ι → Prop} {p₀ : Pool σ Op Reply δ ι}
    (hjobs : ∀ i, p₀.jobs i = none) (hstart : A.paid p₀.state = 0) (hfine : ∀ p e, ok p e → A.fine p.state)
    (hspawn : ∀ p i f, ok p (.spawn i f) → (course i).Holds f) (houtside : ∀ p f, ¬ ok p (.outside f))
    (hkept : ∀ p e, ok p e → A.Kept p) (hr : Run (Pool.Step performs) ok p₀ p) (hlast : A.Kept p) :
    A.Balanced course p := by
  refine hr.invariant (fun p => A.Kept p → A.Balanced course p) ?_ ?_ hlast
  · intro _
    refine ⟨⟨[], ⟨List.nodup_nil, fun i => ?_⟩, hstart⟩, fun i j hi => ?_⟩
    · refine ⟨(nomatch ·), ?_⟩
      rintro ⟨j, hj, -⟩
      rw [hjobs i] at hj
      cases hj
    · rw [hjobs i] at hi
      cases hi
  · intro p e p' ih hok hst hkept'
    refine (ih (hkept p e hok)).step hcover hnone hst (hfine p e hok) ?_ ?_ hkept'
    · rintro i f rfl
      exact hspawn p i f hok
    · rintro f rfl
      exact houtside p f hok

end

end Async
