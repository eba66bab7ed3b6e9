/-!
# Runs of a labelled transition system

`Run step ok s₀ s`: some steps, each of them allowed by `ok` in the state it
is taken from, lead from `s₀` to `s`.
-/

namespace Async

variable {S L : Type}

inductive Run (step : S → L → S → Prop) (ok : S → L → Prop) (s₀ : S) : S → Prop
  | refl : Run step ok s₀ s₀
  | step {s s' : S} (l : L) : Run step ok s₀ s → ok s l → step s l s' → Run step ok s₀ s'

variable {step : S → L → S → Prop} {ok : S → L → Prop} {s₀ s : S}

/-- What holds at the start and is kept by every allowed step holds throughout. -/
theorem Run.invariant (I : S → Prop) (h₀ : I s₀)
    (hs : ∀ s l s', I s → ok s l → step s l s' → I s') (h : Run step ok s₀ s) : I s := by
  induction h with
  | refl => exact h₀
  | step l _ hok hst ih => exact hs _ l _ ih hok hst

theorem Run.mono {ok' : S → L → Prop} (hle : ∀ s l, ok s l → ok' s l) (h : Run step ok s₀ s) :
    Run step ok' s₀ s := by
  induction h with
  | refl => exact .refl
  | step l _ hok hst ih => exact .step l ih (hle _ l hok) hst

theorem Run.trans {s' : S} (h : Run step ok s₀ s) (h' : Run step ok s s') : Run step ok s₀ s' := by
  induction h' with
  | refl => exact h
  | step l _ hok hst ih => exact .step l ih hok hst

/-! Runs of a machine that computes its steps. -/

def replay (exec : S → L → Option S) : S → List L → Option S
  | s, [] => some s
  | s, l :: ls => (exec s l).bind (replay exec · ls)

theorem Run.of_checked (exec : S → L → Option S) (check : S → L → Bool) (hcheck : ∀ s l, check s l = true → ok s l)
    (ls : List L) (h : replay (fun s l => if check s l then exec s l else none) s ls = some s₀) :
    Run (fun s l s' => exec s l = some s') ok s s₀ := by
  induction ls generalizing s with
  | nil => exact Option.some.inj h ▸ .refl
  | cons l ls ih =>
    obtain ⟨s', hs, h⟩ := Option.bind_eq_some_iff.mp h
    simp at hs
    exact Run.trans (.step l .refl (hcheck s l hs.1) hs.2) (ih h)

theorem Run.of_replay (exec : S → L → Option S) (ls : List L) (h : replay exec s ls = some s₀) :
    Run (fun s l s' => exec s l = some s') (fun _ _ => True) s s₀ :=
  Run.of_checked exec (fun _ _ => true) (fun _ _ _ => trivial) ls (by simpa using h)

end Async
