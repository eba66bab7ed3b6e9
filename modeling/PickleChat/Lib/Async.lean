import PickleChat.Lib.Run

/-!
# Handlers that await

A handler runs on a shared state up to its first await and leaves a `Task`:
the awaited operation, and what to do with its reply on the state found when
it resumes. `Task.run` runs one handler alone; a `Pool` interleaves any number
of them at their awaits.
-/

namespace Async

inductive Task (σ Op : Type) (Reply : Op → Type) where
  | done
  | await (op : Op) (effect : Reply op → σ → σ) (next : Reply op → σ → Task σ Op Reply)

section
variable {σ Op δ : Type} {Reply : Op → Type}

def Task.wait (op : Op) (k : Reply op → σ → σ × Task σ Op Reply) : Task σ Op Reply :=
  .await op (fun r s => (k r s).1) fun r s => (k r s).2

/-- Run a task to its end with nothing in between. -/
def Task.run (perform : (op : Op) → δ → Reply op × δ) : Task σ Op Reply → σ → δ → σ × δ
  | .done, s, d => (s, d)
  | .await op effect next, s, d =>
    (next (perform op d).1 s).run perform (effect (perform op d).1 s) (perform op d).2

@[simp] theorem Task.run_done (perform : (op : Op) → δ → Reply op × δ) (s : σ) (d : δ) :
    (Task.done : Task σ Op Reply).run perform s d = (s, d) := rfl

@[simp] theorem Task.run_wait (perform : (op : Op) → δ → Reply op × δ) (op : Op)
    (k : Reply op → σ → σ × Task σ Op Reply) (s : σ) (d : δ) :
    (Task.wait op k).run perform s d =
      (k (perform op d).1 s).2.run perform (k (perform op d).1 s).1 (perform op d).2 := rfl

/-- Every operation, with the effect that follows it, keeps `I`. -/
def Task.Keeps (perform : (op : Op) → δ → Reply op × δ) (I : σ → δ → Prop) : Task σ Op Reply → Prop
  | .done => True
  | .await op effect next => ∀ s d, I s d →
      I (effect (perform op d).1 s) (perform op d).2 ∧ (next (perform op d).1 s).Keeps perform I

theorem Task.Keeps.run {perform : (op : Op) → δ → Reply op × δ} {I : σ → δ → Prop} {t : Task σ Op Reply}
    (h : t.Keeps perform I) {s : σ} {d : δ} (hi : I s d) : I (t.run perform s d).1 (t.run perform s d).2 := by
  induction t generalizing s d with
  | done => exact hi
  | await op effect next ih =>
    obtain ⟨he, hn⟩ := h s d hi
    exact ih _ _ hn he

def exec (perform : (op : Op) → δ → Reply op × δ) (h : σ → σ × Task σ Op Reply) (s : σ) (d : δ) : σ × δ :=
  (h s).2.run perform (h s).1 d

end

/-! ## Interleaving -/

/-- Where a handler in flight stands: its operation is still to be performed,
or has been answered and the handler has not resumed yet. -/
inductive Phase (σ Op : Type) (Reply : Op → Type) where
  | waiting (t : Task σ Op Reply)
  | answered (op : Op) (r : Reply op) (effect : Reply op → σ → σ) (next : Reply op → σ → Task σ Op Reply)

/-- A handler in flight, with the state it started in and whether any of its
operations has been performed. -/
structure Job (σ Op : Type) (Reply : Op → Type) where
  seen : σ
  begun : Bool
  phase : Phase σ Op Reply

structure Pool (σ Op : Type) (Reply : Op → Type) (δ ι : Type) where
  state : σ
  world : δ
  jobs : ι → Option (Job σ Op Reply)

inductive Event (σ Op : Type) (Reply : Op → Type) (ι : Type) where
  | spawn (i : ι) (h : σ → σ × Task σ Op Reply)
  | perform (i : ι)
  | resume (i : ι)
  | outside (f : σ → σ)

section
variable {σ Op δ ι : Type} {Reply : Op → Type} [DecidableEq ι]

def Pool.set (p : Pool σ Op Reply δ ι) (i : ι) (j : Job σ Op Reply) : ι → Option (Job σ Op Reply) :=
  fun k => if k = i then some j else p.jobs k

/-- One scheduling step; `performs op d r d'` when `op` on the world `d` may
reply `r` and leave `d'`. -/
inductive Pool.Step (performs : (op : Op) → δ → Reply op → δ → Prop) (p : Pool σ Op Reply δ ι) :
    Event σ Op Reply ι → Pool σ Op Reply δ ι → Prop
  | spawn (i : ι) (h : σ → σ × Task σ Op Reply) : p.jobs i = none →
      Step performs p (.spawn i h) ⟨(h p.state).1, p.world, p.set i ⟨p.state, false, .waiting (h p.state).2⟩⟩
  | perform (i : ι) {j : Job σ Op Reply} {op effect next r d'} : p.jobs i = some j →
      j.phase = .waiting (.await op effect next) → performs op p.world r d' →
      Step performs p (.perform i) ⟨p.state, d', p.set i ⟨j.seen, true, .answered op r effect next⟩⟩
  | resume (i : ι) {j : Job σ Op Reply} {op effect next r} : p.jobs i = some j →
      j.phase = .answered op r effect next →
      Step performs p (.resume i)
        ⟨effect r p.state, p.world, p.set i ⟨j.seen, j.begun, .waiting (next r p.state)⟩⟩
  | outside (f : σ → σ) : Step performs p (.outside f) ⟨f p.state, p.world, p.jobs⟩

def Job.finished (j : Job σ Op Reply) : Prop := j.phase = .waiting .done

def Job.active (j : Job σ Op Reply) : Prop := j.begun = true ∧ ¬ j.finished

/-! ## Read, write, swap

Handlers that read a part `view` of the state, write to the world and then
install a new `view` keep `view` and world in agreement as long as each of
them starts writing on the view it read and while no other is writing.
-/

section
variable {P : Type} (performs : (op : Op) → δ → Reply op → δ → Prop) (view : σ → P) (agree : P → δ → Prop)

/-- Run alone from a view `p`, whatever the rest of the state becomes in
between, the task leaves the view alone until it ends, and ends in agreement. -/
def Settles : Task σ Op Reply → P → δ → Prop
  | .done, p, d => agree p d
  | .await op effect next, p, d =>
    ∀ r d', performs op d r d' → ∀ s, view s = p →
      (next r s ≠ .done → view (effect r s) = p) ∧ Settles (next r s) (view (effect r s)) d'

/-- A handler that leaves the view alone until its task swaps it. -/
def Swaps (h : σ → σ × Task σ Op Reply) : Prop :=
  ∀ s, view (h s).1 = view s ∧ ∀ d, agree (view s) d → Settles performs view agree (h s).2 (view s) d

/-- A handler's first operation meets the view it read, and nobody else is in
the middle of a write. -/
def Serial (p : Pool σ Op Reply δ ι) : Event σ Op Reply ι → Prop
  | .spawn _ h => Swaps performs view agree h
  | .perform i => ∀ j, p.jobs i = some j → j.begun = false →
      view p.state = view j.seen ∧ ∀ k j', p.jobs k = some j' → ¬ j'.active
  | .resume _ => True
  | .outside f => ∀ s, view (f s) = view s

/-- What a job still owes, given the view and the world now. -/
def Job.Owes (j : Job σ Op Reply) (p : P) (d : δ) : Prop :=
  match j.phase with
  | .waiting t => Settles performs view agree t p d
  | .answered _ r effect next => ∀ s, view s = p →
      (next r s ≠ .done → view (effect r s) = p) ∧ Settles performs view agree (next r s) (view (effect r s)) d

structure Pool.Inv (p : Pool σ Op Reply δ ι) : Prop where
  fresh : ∀ i j, p.jobs i = some j → j.begun = false →
    ∃ t, j.phase = .waiting t ∧ ∀ d, agree (view j.seen) d → Settles performs view agree t (view j.seen) d
  one : ∀ i k j j', p.jobs i = some j → p.jobs k = some j' → j.active → j'.active → i = k
  quiet : (∀ i j, p.jobs i = some j → ¬ j.active) → agree (view p.state) p.world
  owes : ∀ i j, p.jobs i = some j → j.active →
    view j.seen = view p.state ∧ j.Owes performs view agree (view p.state) p.world

variable {performs view agree} {p p' : Pool σ Op Reply δ ι}

theorem set_self (i : ι) (j : Job σ Op Reply) : p.set i j i = some j := by simp [Pool.set]

theorem set_eq {i k : ι} {j j' : Job σ Op Reply} (h : p.set i j k = some j') :
    (k = i ∧ j' = j) ∨ (k ≠ i ∧ p.jobs k = some j') := by
  unfold Pool.set at h
  split at h
  · rename_i hk; exact .inl ⟨hk, (Option.some.inj h).symm⟩
  · rename_i hk; exact .inr ⟨hk, h⟩

theorem set_set {s : σ} {d : δ} {i : ι} (j j' : Job σ Op Reply) :
    (⟨s, d, p.set i j⟩ : Pool σ Op Reply δ ι).set i j' = p.set i j' := by
  funext k
  by_cases hk : k = i <;> simp [Pool.set, hk]

omit [DecidableEq ι] in
theorem fresh_not_active {j : Job σ Op Reply} (h : j.begun = false) : ¬ j.active := by
  simp [Job.active, h]

/-- The invariant after job `i` alone acted: it is now `j`, and owes what it owes. -/
theorem Pool.Inv.acted {i : ι} {j : Job σ Op Reply} {s : σ} {d : δ} (h : p.Inv performs view agree)
    (hb : j.begun = true) (hother : ∀ k j', p.jobs k = some j' → k ≠ i → ¬ j'.active)
    (hseen : ¬ j.finished → view j.seen = view s) (howes : j.Owes performs view agree (view s) d) :
    Pool.Inv performs view agree ⟨s, d, p.set i j⟩ := by
  refine ⟨?_, ?_, ?_, ?_⟩
  · intro k j' hk hf
    rcases set_eq hk with ⟨-, rfl⟩ | ⟨-, hk⟩
    · simp [hb] at hf
    · exact h.fresh k j' hk hf
  · intro k k' j₁ j₂ hk hk' ha ha'
    have hi : ∀ k j', p.set i j k = some j' → j'.active → k = i := by
      intro k j' hk ha
      rcases set_eq hk with ⟨rfl, -⟩ | ⟨hne, hk⟩
      · rfl
      · exact absurd ha (hother _ _ hk hne)
    exact (hi _ _ hk ha).trans (hi _ _ hk' ha').symm
  · intro hq
    have hfin : j.finished :=
      Classical.byContradiction fun hn => hq i j (set_self i j) ⟨hb, hn⟩
    simpa [Job.Owes, show j.phase = .waiting .done from hfin, Settles] using howes
  · intro k j' hk ha
    rcases set_eq hk with ⟨-, rfl⟩ | ⟨hne, hk⟩
    · exact ⟨hseen ha.2, howes⟩
    · exact absurd ha (hother _ _ hk hne)

theorem Pool.Inv.step {e : Event σ Op Reply ι} (h : p.Inv performs view agree)
    (hok : Serial performs view agree p e) (hst : p.Step performs e p') : p'.Inv performs view agree := by
  cases hst with
  | spawn i hd hi =>
    obtain ⟨hv, hs⟩ := hok p.state
    have hact : ∀ k j', p.set i ⟨p.state, false, .waiting (hd p.state).2⟩ k = some j' → j'.active →
        p.jobs k = some j' := by
      intro k j' hk ha
      rcases set_eq hk with ⟨-, rfl⟩ | ⟨-, hk⟩
      · exact absurd ha (fresh_not_active rfl)
      · exact hk
    refine ⟨?_, ?_, ?_, ?_⟩
    · intro k j' hk hf
      rcases set_eq hk with ⟨-, rfl⟩ | ⟨-, hk⟩
      · exact ⟨_, rfl, hs⟩
      · exact h.fresh k j' hk hf
    · intro k k' j₁ j₂ hk hk' ha ha'
      exact h.one k k' j₁ j₂ (hact _ _ hk ha) (hact _ _ hk' ha') ha ha'
    · intro hq
      simp only [hv]
      refine h.quiet fun k j' hk ha => ?_
      have hne : k ≠ i := fun e => by rw [e, hi] at hk; cases hk
      exact hq k j' (by simp [Pool.set, hne, hk]) ha
    · intro k j' hk ha
      simp only [hv]
      exact h.owes k j' (hact _ _ hk ha) ha
  | @perform i j op effect next r d' hi hph hp =>
    have hother : ∀ k j', p.jobs k = some j' → k ≠ i → ¬ j'.active := by
      intro k j' hk hne ha
      by_cases hb : j.begun = true
      · exact hne (h.one k i j' j hk hi ha ⟨hb, by simp [Job.finished, hph]⟩)
      · exact (hok j hi (by simpa using hb)).2 k j' hk ha
    have hset : view j.seen = view p.state ∧
        Settles performs view agree (.await op effect next) (view p.state) p.world := by
      by_cases hb : j.begun = true
      · simpa [Job.Owes, hph] using h.owes i j hi ⟨hb, by simp [Job.finished, hph]⟩
      · have hb : j.begun = false := by simpa using hb
        obtain ⟨hv, hq⟩ := hok j hi hb
        obtain ⟨t, ht, hs⟩ := h.fresh i j hi hb
        rw [hph] at ht
        cases ht
        refine ⟨hv.symm, ?_⟩
        rw [hv]
        exact hs _ (hv ▸ h.quiet hq)
    exact h.acted rfl hother (fun _ => hset.1) fun s hs => hset.2 r d' hp s hs
  | @resume i j op effect next r hi hph =>
    have hb : j.begun = true := by
      refine Classical.byContradiction fun hb => ?_
      obtain ⟨t, ht, -⟩ := h.fresh i j hi (by simpa using hb)
      rw [hph] at ht
      cases ht
    have hact : j.active := ⟨hb, by simp [Job.finished, hph]⟩
    obtain ⟨hseen, hset⟩ := h.owes i j hi hact
    simp only [Job.Owes, hph] at hset
    obtain ⟨hkeeps, hset⟩ := hset p.state rfl
    refine h.acted hb (fun k j' hk hne ha => hne (h.one k i j' j hk hi ha hact)) (fun hn => ?_) hset
    exact hseen.trans (hkeeps fun e => hn (by simp [Job.finished, e])).symm
  | outside f =>
    have hv : view (f p.state) = view p.state := hok p.state
    exact ⟨h.fresh, h.one, fun hq => by simpa only [hv] using h.quiet hq,
      fun i j hi ha => by simpa only [hv] using h.owes i j hi ha⟩

omit [DecidableEq ι] in
theorem Pool.Inv.start (hjobs : ∀ i, p.jobs i = none) (h₀ : agree (view p.state) p.world) :
    p.Inv performs view agree := by
  refine ⟨?_, ?_, fun _ => h₀, ?_⟩ <;> intro i <;> simp [hjobs]

/-- In every serial run, view and world agree whenever nobody is in the middle
of a write, and whoever is has the view it started from. -/
theorem agree_of_serial {p₀ : Pool σ Op Reply δ ι} (hjobs : ∀ i, p₀.jobs i = none)
    (h₀ : agree (view p₀.state) p₀.world)
    (h : Run (Pool.Step performs) (Serial performs view agree) p₀ p) :
    ((∀ i j, p.jobs i = some j → ¬ j.active) → agree (view p.state) p.world) ∧
      ∀ i j, p.jobs i = some j → j.active → view j.seen = view p.state := by
  have hinv := h.invariant (Pool.Inv performs view agree) (.start hjobs h₀) fun _ _ _ hi hok hst => hi.step hok hst
  exact ⟨hinv.quiet, fun i j hi ha => (hinv.owes i j hi ha).1⟩

end

end

end Async
