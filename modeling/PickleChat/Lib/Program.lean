import PickleChat.Lib.Run

/-!
# Threads that run programs

A program acts on a shared state one action at a time, and between two actions
keeps nothing but its own place. Any number of threads run theirs at once, in
any order.
-/

namespace Threads

inductive Prog (A : Type) (R : A → Type) (α : Type) where
  | pure (a : α)
  | act (a : A) (k : R a → Prog A R α)

structure System (σ A : Type) (R : A → Type) where
  shared : σ
  threads : List (Prog A R Unit)

section
variable {σ A α β : Type} {R : A → Type}

namespace Prog

def bind : Prog A R α → (α → Prog A R β) → Prog A R β
  | pure a, f => f a
  | act a k, f => act a fun r => (k r).bind f

instance monadProg : Monad (Prog A R) where
  pure := Prog.pure
  bind := Prog.bind

def call (a : A) : Prog A R (R a) := act a pure

@[simp] theorem pure_bind (a : α) (f : α → Prog A R β) : (pure a : Prog A R α) >>= f = f a := rfl

@[simp] theorem act_bind (a : A) (k : R a → Prog A R α) (f : α → Prog A R β) :
    act a k >>= f = act a fun r => k r >>= f := rfl

@[simp] theorem call_bind (a : A) (f : R a → Prog A R β) : call a >>= f = act a f := rfl

@[simp] theorem pure_eq (a : α) : (Pure.pure a : Prog A R α) = pure a := rfl

def done : Prog A R α → Bool
  | pure _ => true
  | act _ _ => false

/-- After each action, given its reply, the rest of the program is as the rule says. -/
def Heeds (rule : (a : A) → R a → Prog A R Unit → Prop) : Prog A R Unit → Prop
  | pure _ => True
  | act a k => ∀ r, rule a r (k r) ∧ (k r).Heeds rule

/-- A rule that more actions at the end do not break is heeded by two programs in a row. -/
theorem Heeds.bind {rule : (a : A) → R a → Prog A R Unit → Prop}
    (hmore : ∀ a r t f, rule a r t → rule a r (t >>= f)) {t : Prog A R Unit} (h : t.Heeds rule)
    {f : Unit → Prog A R Unit} (hf : ∀ u, (f u).Heeds rule) : (t >>= f).Heeds rule := by
  induction t with
  | pure u => exact hf u
  | act a k ih => exact fun r => ⟨hmore a r (k r) f (h r).1, ih r (h r).2⟩

end Prog

namespace System

def start (w : System σ A R) (p : Prog A R Unit) : System σ A R := ⟨w.shared, w.threads ++ [p]⟩

def act (perform : (a : A) → σ → R a × σ) (w : System σ A R) (i : Nat) : Option (System σ A R) :=
  match w.threads[i]? with
  | some (.act a k) => some ⟨(perform a w.shared).2, w.threads.set i (k (perform a w.shared).1)⟩
  | _ => none

def next (w : System σ A R) (i : Nat) : Option A :=
  match w.threads[i]? with
  | some (.act a _) => some a
  | _ => none

def Quiet (w : System σ A R) : Prop := ∀ t ∈ w.threads, t.done = true

instance decidableQuiet (w : System σ A R) : Decidable w.Quiet := inferInstanceAs (Decidable (∀ t ∈ w.threads, _))

variable {perform : (a : A) → σ → R a × σ} {w w' : System σ A R} {i : Nat}

theorem act_some (h : w.act perform i = some w') : ∃ a k, w.threads[i]? = some (.act a k) ∧
    w' = ⟨(perform a w.shared).2, w.threads.set i (k (perform a w.shared).1)⟩ := by
  unfold act at h
  split at h
  · rename_i a k hi
    exact ⟨a, k, hi, (Option.some.inj h).symm⟩
  · cases h

theorem next_act {a : A} {k : R a → Prog A R Unit} (hi : w.threads[i]? = some (.act a k)) : w.next i = some a := by
  simp [next, hi]

/-! ## Duties -/

/-- Something holds of the state, or a thread has still to see to it. -/
def Owed (good : σ → Prop) (owes : σ → Prog A R Unit → Prop) (w : System σ A R) : Prop :=
  good w.shared ∨ ∃ t ∈ w.threads, owes w.shared t

section
variable {good : σ → Prop} {owes : σ → Prog A R Unit → Prop} {s : σ}

theorem Owed.met (h : w.Owed good owes) (hnone : ∀ t ∈ w.threads, ¬ owes w.shared t) : good w.shared := by
  cases h with
  | inl h => exact h
  | inr h =>
    obtain ⟨t, ht, ho⟩ := h
    exact absurd ho (hnone t ht)

theorem mem_set_ne {ts : List (Prog A R Unit)} {i j : Nat} (hij : i ≠ j) {t p : Prog A R Unit} (hj : ts[j]? = some t) :
    t ∈ ts.set i p := by
  apply List.mem_of_getElem? (i := j)
  rw [List.getElem?_set_ne hij, hj]

/-- What another thread owes does not depend on what thread `i` becomes. -/
theorem Owed.other (howed : ∃ t ∈ w.threads, owes s t) {t p : Prog A R Unit} (hi : w.threads[i]? = some t)
    (ht : ¬ owes s t) : System.Owed good owes ⟨s, w.threads.set i p⟩ := by
  obtain ⟨t', ht', ho⟩ := howed
  obtain ⟨j, hj⟩ := List.getElem?_of_mem ht'
  have hij : i ≠ j := by
    intro hij
    subst hij
    exact ht (Option.some.inj (hi.symm.trans hj) ▸ ho)
  exact .inr ⟨t', mem_set_ne hij hj, ho⟩

/-- A thread that starts leaves the others their duties, and may take on one. -/
theorem Owed.start (h : w.Owed good owes) (p : Prog A R Unit) (hgood : good w.shared → good s ∨ owes s p)
    (hkeep : ∀ t, owes w.shared t → owes s t) : System.Owed good owes ⟨s, w.threads ++ [p]⟩ := by
  cases h with
  | inl h => exact (hgood h).imp_right fun hp => ⟨p, by simp, hp⟩
  | inr h =>
    obtain ⟨t, ht, ho⟩ := h
    exact .inr ⟨t, by simp [ht], hkeep t ho⟩

theorem Owed.outside (h : w.Owed good owes) (hgood : good w.shared → good s) (hkeep : ∀ t, owes w.shared t → owes s t) :
    System.Owed good owes ⟨s, w.threads⟩ := by
  cases h with
  | inl h => exact .inl (hgood h)
  | inr h =>
    obtain ⟨t, ht, ho⟩ := h
    exact .inr ⟨t, ht, hkeep t ho⟩

/-- A thread that acts sees to its own duty, and leaves the others theirs or takes them over. -/
theorem Owed.act (h : w.Owed good owes) {a : A} {k : R a → Prog A R Unit} {r : R a}
    (hi : w.threads[i]? = some (.act a k)) (hgood : good w.shared → good s ∨ owes s (k r))
    (hown : owes w.shared (.act a k) → good s ∨ owes s (k r))
    (hkeep : ∀ t, owes w.shared t → owes s t ∨ good s ∨ owes s (k r)) :
    System.Owed good owes ⟨s, w.threads.set i (k r)⟩ := by
  have hlt := (List.getElem?_eq_some_iff.mp hi).1
  have conclude : good s ∨ owes s (k r) → System.Owed good owes ⟨s, w.threads.set i (k r)⟩ := fun hs =>
    hs.imp_right fun hk => ⟨k r, List.mem_set hlt _, hk⟩
  cases h with
  | inl h => exact conclude (hgood h)
  | inr h =>
    obtain ⟨t, ht, ho⟩ := h
    obtain ⟨j, hj⟩ := List.getElem?_of_mem ht
    by_cases hij : i = j
    · subst hij
      obtain rfl := Option.some.inj (hi.symm.trans hj)
      exact conclude (hown ho)
    · cases hkeep t ho with
      | inl ho => exact .inr ⟨t, mem_set_ne hij hj, ho⟩
      | inr hs => exact conclude hs

theorem Owed.kept (h : w.Owed good owes) {a : A} {k : R a → Prog A R Unit} {r : R a}
    (hi : w.threads[i]? = some (.act a k)) (hgood : good w.shared → good s) (hown : ¬ owes w.shared (.act a k))
    (hkeep : ∀ t, owes w.shared t → owes s t) : System.Owed good owes ⟨s, w.threads.set i (k r)⟩ := by
  apply h.act hi
  · exact fun hg => .inl (hgood hg)
  · exact fun ho => absurd ho hown
  · exact fun t ho => .inl (hkeep t ho)

end

/-! ## Rules -/

def Heeds (rule : (a : A) → R a → Prog A R Unit → Prop) (w : System σ A R) : Prop := ∀ t ∈ w.threads, t.Heeds rule

section
variable {rule : (a : A) → R a → Prog A R Unit → Prop}

theorem Heeds.start (h : w.Heeds rule) {s : σ} {p : Prog A R Unit} (hp : p.Heeds rule) :
    System.Heeds rule (⟨s, w.threads ++ [p]⟩ : System σ A R) := by
  intro t ht
  simp at ht
  cases ht with
  | inl ht => exact h t ht
  | inr ht => exact ht ▸ hp

theorem Heeds.act (h : w.Heeds rule) {a : A} {k : R a → Prog A R Unit} (hi : w.threads[i]? = some (.act a k)) (r : R a)
    (s : σ) : rule a r (k r) ∧ System.Heeds rule (⟨s, w.threads.set i (k r)⟩ : System σ A R) := by
  obtain ⟨hrule, hrest⟩ := h _ (List.mem_of_getElem? hi) r
  refine ⟨hrule, fun t ht => ?_⟩
  cases List.mem_or_eq_of_mem_set ht with
  | inl ht => exact h t ht
  | inr ht => exact ht ▸ hrest

end

end System

end

end Threads
