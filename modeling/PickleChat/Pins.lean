import PickleChat.Connect
import PickleChat.Lib.Run

/-!
# Pinned servers

The trust store over whole histories: what a pin can be given up by, and what
is left in the file when several commands of the desktop client each work on
their own copy of it.
-/

namespace PickleChat

open Async

namespace TrustStore

/-- The file after `save`: the whole store, or what it was when writing fails. -/
def save (store : TrustStore) (ok : Bool) (file : TrustStore) : TrustStore := if ok then store else file

def pinned (store : TrustStore) (address : String) : Option Fingerprint :=
  (store.get address).map TrustedServer.fingerprint

@[simp] theorem pinned_trust (store : TrustStore) (now : UInt64) (address : String) (fingerprint : Fingerprint)
    (name : String) (a : String) :
    (store.trust now address fingerprint name).pinned a = if a = address then some fingerprint else store.pinned a := by
  unfold pinned trust get
  rw [Keyed.get_put]
  by_cases h : a = address
  · simp [h]
  · simp [h]

@[simp] theorem pinned_forget (store : TrustStore) (address a : String) :
    (store.forget address).pinned a = if a = address then none else store.pinned a := by
  unfold pinned forget get
  rw [Keyed.get_erase]
  by_cases h : a = address
  · simp [h]
  · simp [h]

theorem check_eq (store : TrustStore) (address : String) (fingerprint : Fingerprint) :
    store.check address fingerprint = match store.pinned address with
      | none => .firstContact fingerprint
      | some known => if known = fingerprint then .recognised else .changed known fingerprint := by
  unfold check pinned
  cases store.get address with
  | none => rfl
  | some known => rfl

theorem check_recognised {store : TrustStore} {address : String} {fingerprint : Fingerprint} :
    store.check address fingerprint = .recognised ↔ store.pinned address = some fingerprint := by
  rw [check_eq]
  cases store.pinned address with
  | none => simp
  | some known => by_cases h : known = fingerprint <;> simp [h]

theorem ne_of_pinned {store : TrustStore} {a b : String} {f : Fingerprint} (ha : store.pinned a = some f)
    (hb : store.pinned b = none) : a ≠ b := by
  rintro rfl
  rw [ha] at hb
  cases hb

end TrustStore

/-- `apply_trust_policy` with the store and the file it saves it to. -/
def applyAndSave (store file : TrustStore) (saveOk : Bool) (now : UInt64) (policy : TrustPolicy)
    (address legacyKey : String) (fingerprint : Fingerprint) (serverName : String) :
    Except ConnectError (TrustStore × TrustStore) :=
  if policy = .insecure then .ok (store, file) else
  match store.check address fingerprint with
  | .recognised => .ok (store, file)
  | .firstContact fingerprint =>
    if legacyKey ≠ address ∧ store.check legacyKey fingerprint = .recognised then
      let store := (store.trust now address fingerprint serverName).forget legacyKey
      .ok (store, store.save saveOk file)
    else if policy = .strict then .error (.notTrusted address fingerprint)
    else
      let store := store.trust now address fingerprint serverName
      .ok (store, store.save saveOk file)
  | .changed expected actual => .error (.identityChanged address expected actual)

/-- What it leaves in memory is what `applyTrustPolicy` leaves. -/
theorem applyAndSave_store (store file : TrustStore) (saveOk : Bool) (now : UInt64) (policy : TrustPolicy)
    (address legacyKey : String) (fingerprint : Fingerprint) (serverName : String) :
    (applyAndSave store file saveOk now policy address legacyKey fingerprint serverName).map Prod.fst =
      applyTrustPolicy store now policy address legacyKey fingerprint serverName := by
  unfold applyAndSave applyTrustPolicy
  by_cases hp : policy = .insecure
  · rw [if_pos hp, if_pos hp]
    rfl
  · rw [if_neg hp, if_neg hp]
    cases store.check address fingerprint with
    | recognised => rfl
    | changed expected actual => rfl
    | firstContact fingerprint =>
      by_cases hm : legacyKey ≠ address ∧ store.check legacyKey fingerprint = .recognised
      · simp only [if_pos hm]
        rfl
      · by_cases hs : policy = .strict
        · simp only [if_neg hm, if_pos hs]
          rfl
        · simp only [if_neg hm, if_neg hs]
          rfl

/-- A pin filed under the resolved address is to be adopted under the key of the connection. -/
def Adopts (store : TrustStore) (address legacyKey : String) (fingerprint : Fingerprint) : Prop :=
  store.pinned address = none ∧ legacyKey ≠ address ∧ store.pinned legacyKey = some fingerprint

instance Adopts.decidable (store : TrustStore) (address legacyKey : String) (fingerprint : Fingerprint) :
    Decidable (Adopts store address legacyKey fingerprint) :=
  inferInstanceAs (Decidable (_ ∧ _ ∧ _))

/-- What `apply_trust_policy` does when it returns `Ok`. -/
theorem applyAndSave_cases {store file store' file' : TrustStore} {saveOk : Bool} {now : UInt64} {policy : TrustPolicy}
    {address legacyKey : String} {fingerprint : Fingerprint} {serverName : String}
    (h : applyAndSave store file saveOk now policy address legacyKey fingerprint serverName = .ok (store', file')) :
    (store' = store ∧ file' = file ∧ (policy ≠ .insecure → store.pinned address = some fingerprint)) ∨
    (Adopts store address legacyKey fingerprint ∧ file' = store'.save saveOk file ∧
      store' = (store.trust now address fingerprint serverName).forget legacyKey) ∨
    (store.pinned address = none ∧ ¬ Adopts store address legacyKey fingerprint ∧ file' = store'.save saveOk file ∧
      store' = store.trust now address fingerprint serverName) := by
  unfold applyAndSave at h
  by_cases hp : policy = .insecure
  · rw [if_pos hp] at h
    cases h
    exact .inl ⟨rfl, rfl, fun hn => absurd hp hn⟩
  · rw [if_neg hp, TrustStore.check_eq] at h
    cases hk : store.pinned address with
    | some known =>
      by_cases hf : known = fingerprint
      · simp only [hk, if_pos hf] at h
        cases h
        exact .inl ⟨rfl, rfl, fun _ => by rw [hf]⟩
      · simp only [hk, if_neg hf] at h
        cases h
    | none =>
      simp only [hk, TrustStore.check_recognised] at h
      by_cases hm : legacyKey ≠ address ∧ store.pinned legacyKey = some fingerprint
      · rw [if_pos hm] at h
        cases h
        exact .inr (.inl ⟨⟨hk, hm⟩, rfl, rfl⟩)
      · rw [if_neg hm] at h
        by_cases hs : policy = .strict
        · rw [if_pos hs] at h
          cases h
        · rw [if_neg hs] at h
          cases h
          exact .inr (.inr ⟨rfl, fun ha => hm ha.2, rfl, rfl⟩)

/-! ## One store, many connections -/

/-- What changes a store: a connection under some policy, and the two decisions of the user. -/
inductive TrustAct where
  | connect (saveOk : Bool) (now : UInt64) (policy : TrustPolicy) (address legacyKey : String)
      (fingerprint : Fingerprint) (serverName : String)
  | retrust (now : UInt64) (address : String) (fingerprint : Fingerprint) (name : String)
  | forget (address : String)

/-- The store and its file after an act; a connection that is refused leaves both. -/
def TrustAct.exec (s : TrustStore × TrustStore) : TrustAct → Option (TrustStore × TrustStore)
  | .connect saveOk now policy address legacyKey fingerprint serverName =>
    match applyAndSave s.1 s.2 saveOk now policy address legacyKey fingerprint serverName with
    | .ok s' => some s'
    | .error _ => some s
  | .retrust now address fingerprint name => some (s.1.trust now address fingerprint name, s.2)
  | .forget address => some (s.1.forget address, s.2)

/-- The user leaves the pin of `a` alone, and no connection under another key adopts it. -/
def Leaves (a : String) (f : Fingerprint) (s : TrustStore × TrustStore) : TrustAct → Prop
  | .connect _ _ _ address legacyKey fingerprint _ =>
    ¬ (Adopts s.1 address legacyKey fingerprint ∧ legacyKey = a ∧ fingerprint = f)
  | .retrust _ address _ _ => address ≠ a
  | .forget address => address ≠ a

theorem pinned_exec {a : String} {f : Fingerprint} {s s' : TrustStore × TrustStore} {act : TrustAct}
    (hpin : s.1.pinned a = some f) (hl : Leaves a f s act) (h : act.exec s = some s') : s'.1.pinned a = some f := by
  cases act with
  | connect saveOk now policy address legacyKey fingerprint serverName =>
    simp only [TrustAct.exec] at h
    cases hr : applyAndSave s.1 s.2 saveOk now policy address legacyKey fingerprint serverName with
    | error e =>
      simp only [hr] at h
      exact Option.some.inj h ▸ hpin
    | ok r =>
      simp only [hr] at h
      obtain rfl := Option.some.inj h
      have hr' : applyAndSave s.1 s.2 saveOk now policy address legacyKey fingerprint serverName = .ok (r.1, r.2) := hr
      rcases applyAndSave_cases hr' with
        ⟨hs, -, -⟩ | ⟨hadopts, -, hs⟩ | ⟨hnone, -, -, hs⟩
      · rw [hs]
        exact hpin
      · -- the adopted pin is that of another key, and the key that adopts it had none
        have hne := TrustStore.ne_of_pinned hpin hadopts.1
        have hne' : a ≠ legacyKey := by
          rintro rfl
          exact hl ⟨hadopts, rfl, Option.some.inj (hadopts.2.2.symm.trans hpin)⟩
        simp [hs, hne, hne', hpin]
      · have hne := TrustStore.ne_of_pinned hpin hnone
        simp [hs, hne, hpin]
  | retrust now address fingerprint name =>
    obtain rfl := Option.some.inj h
    have hne : a ≠ address := fun e => hl e.symm
    simp [hne, hpin]
  | forget address =>
    obtain rfl := Option.some.inj h
    have hne : a ≠ address := fun e => hl e.symm
    simp [hne, hpin]

/-- A pin holds until the user re-trusts or forgets its key, or a connection to the same server under
another key adopts it. -/
theorem pins_sticky (a : String) (f : Fingerprint) (s s' : TrustStore × TrustStore) (hpin : s.1.pinned a = some f)
    (h : Run (fun s act s' => TrustAct.exec s act = some s') (Leaves a f) s s')
    (saveOk : Bool) (now : UInt64) (policy : TrustPolicy) (hpolicy : policy ≠ .insecure) (legacyKey : String)
    (g : Fingerprint) (serverName : String) (r : TrustStore × TrustStore)
    (hok : applyAndSave s'.1 s'.2 saveOk now policy a legacyKey g serverName = .ok r) : g = f := by
  have hpin' : s'.1.pinned a = some f :=
    h.invariant (fun s => s.1.pinned a = some f) hpin fun _ _ _ hp hl hs => pinned_exec hp hl hs
  have hok' : applyAndSave s'.1 s'.2 saveOk now policy a legacyKey g serverName = .ok (r.1, r.2) := hok
  rcases applyAndSave_cases hok' with ⟨-, -, hp⟩ | ⟨hadopts, -, -⟩ | ⟨hnone, -, -, -⟩
  · exact Option.some.inj ((hp hpolicy).symm.trans hpin')
  · exact absurd rfl (TrustStore.ne_of_pinned hpin' hadopts.1)
  · exact absurd rfl (TrustStore.ne_of_pinned hpin' hnone)

theorem pins_sticky_after_visit :
    (TrustAct.connect true 1 .onFirstUse "annex:42071" "10.0.0.2:42071" (.rep 2) "Annex").exec
        (⟨[("lobby:42071", ⟨.rep 1, "Lobby", 0, 0⟩)]⟩, ⟨[]⟩) =
      some (⟨[("lobby:42071", ⟨.rep 1, "Lobby", 0, 0⟩), ("annex:42071", ⟨.rep 2, "Annex", 1, 1⟩)]⟩,
        ⟨[("lobby:42071", ⟨.rep 1, "Lobby", 0, 0⟩), ("annex:42071", ⟨.rep 2, "Annex", 1, 1⟩)]⟩) ∧
    Fingerprint.rep 1 = Fingerprint.rep 1 := by
  refine ⟨rfl, ?_⟩
  exact pins_sticky "lobby:42071" (.rep 1) (⟨[("lobby:42071", ⟨.rep 1, "Lobby", 0, 0⟩)]⟩, ⟨[]⟩) _ (by decide)
    (.step (.connect true 1 .onFirstUse "annex:42071" "10.0.0.2:42071" (.rep 2) "Annex") .refl
      (fun hl => absurd hl.2.1 (by decide)) rfl)
    true 2 .strict (by decide) "10.0.0.1:42071" (.rep 1) "Lobby" _ rfl

/-- A connection by name adopts the pin of the address, which then takes in any other server. -/
theorem adopted_pin_is_lost : ¬ ∀ (a : String) (f : Fingerprint) (s s' : TrustStore × TrustStore),
    s.1.pinned a = some f →
    Run (fun s act s' => TrustAct.exec s act = some s')
      (fun _ act => ∃ saveOk now policy address legacyKey fingerprint serverName, policy ≠ .insecure ∧
        act = .connect saveOk now policy address legacyKey fingerprint serverName) s s' →
    ∀ (saveOk : Bool) (now : UInt64) (policy : TrustPolicy), policy ≠ .insecure →
      ∀ (legacyKey : String) (g : Fingerprint) (serverName : String) (r : TrustStore × TrustStore),
        applyAndSave s'.1 s'.2 saveOk now policy a legacyKey g serverName = .ok r → g = f := by
  intro h
  have := h "10.0.0.1:42071" (.rep 1) (⟨[("10.0.0.1:42071", ⟨.rep 1, "Lobby", 0, 0⟩)]⟩, ⟨[]⟩)
    (⟨[("lobby:42071", ⟨.rep 1, "Lobby", 1, 1⟩)]⟩, ⟨[("lobby:42071", ⟨.rep 1, "Lobby", 1, 1⟩)]⟩) (by decide)
    (.step (.connect true 1 .onFirstUse "lobby:42071" "10.0.0.1:42071" (.rep 1) "Lobby") .refl
      ⟨_, _, _, _, _, _, _, by decide, rfl⟩ rfl)
    true 2 .onFirstUse (by decide) "10.0.0.1:42071" (.rep 2) "Lobby" _ rfl
  exact absurd this (by decide)

/-! ## One file, many commands

`connect` and `trust_changed_identity` each open the file, change their copy of
the store and write all of it back; `connect` waits for the server in between.
Beside the file stand the pins written to it so far, oldest first, and which of
them a command has reported, by their places in that list. -/

structure Pin where
  key : String
  fingerprint : Fingerprint
  repin : Bool
  deriving DecidableEq

inductive TrustTask where
  | connecting (address legacyKey : String) (copy : TrustStore)
  | greeted (pin : Option (Nat × Pin))
  | repinning (address : String) (fingerprint : Fingerprint) (copy : TrustStore)
  | done
  deriving DecidableEq

structure TrustFile where
  file : TrustStore
  tasks : List TrustTask
  written : List Pin
  reported : List (Nat × Pin)
  deriving DecidableEq

inductive TrustStep where
  /-- `connect` opens the file; the server's key as typed and the address it resolves to. -/
  | connect (address legacyKey : String)
  | greet (i : Nat) (now : UInt64) (fingerprint : Fingerprint) (serverName : String)
  | welcome (i : Nat)
  | fail (i : Nat)
  /-- `trust_changed_identity` opens the file. -/
  | retrust (address : String) (fingerprint : Fingerprint)
  | repin (i : Nat) (now : UInt64)

namespace TrustFile

def exec (w : TrustFile) : TrustStep → Option TrustFile
  | .connect address legacyKey => some { w with tasks := w.tasks ++ [.connecting address legacyKey w.file] }
  | .greet i now fingerprint serverName =>
    match w.tasks[i]? with
    | some (.connecting address legacyKey copy) =>
      match applyAndSave copy w.file true now .onFirstUse address legacyKey fingerprint serverName with
      | .error _ => some { w with tasks := w.tasks.set i .done }
      | .ok (_, file) =>
        if copy.pinned address = none ∧ ¬ Adopts copy address legacyKey fingerprint then
          let pin : Pin := ⟨address, fingerprint, false⟩
          some
            { w with
              file, tasks := w.tasks.set i (.greeted (some (w.written.length, pin))), written := w.written ++ [pin] }
        else some { w with file, tasks := w.tasks.set i (.greeted none) }
    | _ => none
  | .welcome i =>
    match w.tasks[i]? with
    | some (.greeted pin) => some { w with tasks := w.tasks.set i .done, reported := w.reported ++ pin.toList }
    | _ => none
  | .fail i =>
    match w.tasks[i]? with
    | some (.connecting _ _ _) => some { w with tasks := w.tasks.set i .done }
    | some (.greeted _) => some { w with tasks := w.tasks.set i .done }
    | _ => none
  | .retrust address fingerprint => some { w with tasks := w.tasks ++ [.repinning address fingerprint w.file] }
  | .repin i now =>
    match w.tasks[i]? with
    | some (.repinning address fingerprint copy) =>
      let name := ((copy.get address).map TrustedServer.name).getD ""
      let store := copy.trust now address fingerprint name
      let pin : Pin := ⟨address, fingerprint, true⟩
      some { w with
        file := store.save true w.file, tasks := w.tasks.set i .done, written := w.written ++ [pin]
        reported := w.reported ++ [(w.written.length, pin)] }
    | _ => none

def start (file : TrustStore) : TrustFile := ⟨file, [], [], []⟩

/-- A command that is about to save has the file as it still is. -/
def Fresh (w : TrustFile) : TrustStep → Prop
  | .greet i _ _ _ => ∀ address legacyKey copy, w.tasks[i]? = some (.connecting address legacyKey copy) →
    copy.pinned address = none → copy = w.file
  | .repin i _ => ∀ address fingerprint copy, w.tasks[i]? = some (.repinning address fingerprint copy) → copy = w.file
  | _ => True

/-- No connection adopts, under another key, a pin that a command has written. -/
def Unadopted (w : TrustFile) : TrustStep → Prop
  | .greet i _ fingerprint _ => ∀ address legacyKey copy, w.tasks[i]? = some (.connecting address legacyKey copy) →
    Adopts copy address legacyKey fingerprint → ∀ pin ∈ w.written, pin.key ≠ legacyKey
  | _ => True

/-- The pin at place `i` is in the file, or the user has re-pinned its key since. -/
def Standing (file : TrustStore) (written : List Pin) (i : Nat) (pin : Pin) : Prop :=
  file.pinned pin.key = some pin.fingerprint ∨
    ∃ j p, i < j ∧ written[j]? = some p ∧ p.key = pin.key ∧ p.repin = true

structure Kept (w : TrustFile) : Prop where
  standing : ∀ i pin, w.written[i]? = some pin → Standing w.file w.written i pin
  greeted : ∀ i pin, .greeted (some (i, pin)) ∈ w.tasks → w.written[i]? = some pin
  reported : ∀ e ∈ w.reported, w.written[e.1]? = some e.2

theorem getElem?_concat {l : List Pin} {i : Nat} {p q : Pin} (h : (l ++ [p])[i]? = some q) :
    l[i]? = some q ∨ (i = l.length ∧ q = p) := by
  by_cases hi : i < l.length
  · rw [List.getElem?_append_left hi] at h
    exact .inl h
  · rw [List.getElem?_append_right (by omega)] at h
    have hz : i - l.length = 0 := by
      by_contra hz
      simp [hz] at h
    rw [hz] at h
    exact .inr ⟨by omega, (Option.some.inj h).symm⟩

theorem getElem?_concat_of {l : List Pin} {i : Nat} {p q : Pin} (h : l[i]? = some q) : (l ++ [p])[i]? = some q := by
  rw [List.getElem?_append_left (List.getElem?_eq_some_iff.mp h).1]
  exact h

theorem standing_write {file file' : TrustStore} {written : List Pin} {p : Pin}
    (h : ∀ i pin, written[i]? = some pin → Standing file written i pin)
    (hfile : ∀ k, file'.pinned k = if k = p.key then some p.fingerprint else file.pinned k)
    (hnew : p.repin = true ∨ file.pinned p.key = none) (i : Nat) (pin : Pin)
    (hi : (written ++ [p])[i]? = some pin) : Standing file' (written ++ [p]) i pin := by
  rcases getElem?_concat hi with hold | ⟨rfl, rfl⟩
  · have hlt : i < written.length := (List.getElem?_eq_some_iff.mp hold).1
    rcases h i pin hold with hpin | ⟨j, q, hj, hq, hkey, hre⟩
    · by_cases hk : pin.key = p.key
      · rcases hnew with hre | hnone
        · exact .inr ⟨written.length, p, hlt, by simp, hk.symm, hre⟩
        · rw [hk, hnone] at hpin
          cases hpin
      · exact .inl (by rw [hfile, if_neg hk, hpin])
    · exact .inr ⟨j, q, hj, getElem?_concat_of hq, hkey, hre⟩
  · exact .inl (by rw [hfile, if_pos rfl])

theorem mem_set {tasks : List TrustTask} {i : Nat} {t u : TrustTask} (h : t ∈ tasks.set i u) : t = u ∨ t ∈ tasks :=
  (List.mem_or_eq_of_mem_set h).symm

theorem kept_start (file : TrustStore) : (start file).Kept :=
  ⟨by simp [start], by simp [start], by simp [start]⟩

theorem Kept.open {w : TrustFile} (h : w.Kept) {t : TrustTask} (ht : ∀ pin, t ≠ .greeted pin) :
    { w with tasks := w.tasks ++ [t] }.Kept := by
  refine ⟨h.standing, fun i pin hm => ?_, h.reported⟩
  rcases List.mem_append.mp hm with hm | hm
  · exact h.greeted i pin hm
  · exact absurd (List.mem_singleton.mp hm).symm (ht _)

theorem Kept.finish {w : TrustFile} (h : w.Kept) (i : Nat) : { w with tasks := w.tasks.set i .done }.Kept := by
  refine ⟨h.standing, fun j pin hm => ?_, h.reported⟩
  rcases mem_set hm with hm | hm
  · cases hm
  · exact h.greeted j pin hm

theorem Kept.greet {w w' : TrustFile} (h : w.Kept) {i : Nat} {now : UInt64} {fingerprint : Fingerprint}
    {serverName : String} (fresh : Fresh w (.greet i now fingerprint serverName))
    (unadopted : Unadopted w (.greet i now fingerprint serverName))
    (hs : w.exec (.greet i now fingerprint serverName) = some w') : w'.Kept := by
  simp only [exec] at hs
  split at hs
  · rename_i address legacyKey copy ht
    split at hs
    · cases hs
      exact h.finish i
    · rename_i copy' file hr
      rcases applyAndSave_cases hr with ⟨-, hfile, hp⟩ | ⟨hadopts, hfile, hcopy⟩ | ⟨hnone, hn, hfile, hcopy⟩
      · -- recognised: nothing is saved
        have hp := hp (by decide)
        rw [if_neg (by simp [hp])] at hs
        cases hs
        rw [hfile]
        refine ⟨h.standing, fun j pin hm => ?_, h.reported⟩
        rcases mem_set hm with hm | hm
        · cases hm
        · exact h.greeted j pin hm
      · rw [if_neg (fun hc => hc.2 hadopts)] at hs
        cases hs
        obtain rfl := fresh address legacyKey copy ht hadopts.1
        refine ⟨fun j pin hj => ?_, fun j pin hm => ?_, h.reported⟩
        · rcases h.standing j pin hj with hpin | hre
          · have hne := TrustStore.ne_of_pinned hpin hadopts.1
            have hne' := unadopted address legacyKey _ ht hadopts pin (List.mem_of_getElem? hj)
            refine .inl ?_
            simp [hfile, hcopy, TrustStore.save, hne, hne', hpin]
          · exact .inr hre
        · rcases mem_set hm with hm | hm
          · cases hm
          · exact h.greeted j pin hm
      · rw [if_pos ⟨hnone, hn⟩] at hs
        cases hs
        obtain rfl := fresh address legacyKey copy ht hnone
        refine ⟨standing_write h.standing (fun k => ?_) (.inr hnone), fun j pin hm => ?_, fun e he => ?_⟩
        · simp [hfile, hcopy, TrustStore.save]
        · rcases mem_set hm with hm | hm
          · cases hm
            simp
          · exact getElem?_concat_of (h.greeted j pin hm)
        · exact getElem?_concat_of (h.reported e he)
  · cases hs

theorem Kept.repin {w w' : TrustFile} (h : w.Kept) {i : Nat} {now : UInt64} (fresh : Fresh w (.repin i now))
    (hs : w.exec (.repin i now) = some w') : w'.Kept := by
  simp only [exec] at hs
  split at hs
  · rename_i address fingerprint copy ht
    cases hs
    obtain rfl := fresh address fingerprint copy ht
    refine ⟨standing_write h.standing (fun k => ?_) (.inl rfl), fun j pin hm => ?_, fun e he => ?_⟩
    · simp [TrustStore.save]
    · rcases mem_set hm with hm | hm
      · cases hm
      · exact getElem?_concat_of (h.greeted j pin hm)
    · rcases List.mem_append.mp he with he | he
      · exact getElem?_concat_of (h.reported e he)
      · obtain rfl := List.mem_singleton.mp he
        simp
  · cases hs

theorem Kept.exec {w w' : TrustFile} {step : TrustStep} (h : w.Kept) (fresh : Fresh w step)
    (unadopted : Unadopted w step) (hs : w.exec step = some w') : w'.Kept := by
  cases step with
  | connect address legacyKey =>
    cases hs
    exact h.open (by simp)
  | greet i now fingerprint serverName => exact h.greet fresh unadopted hs
  | welcome i =>
    simp only [TrustFile.exec] at hs
    split at hs
    · rename_i pin ht
      cases hs
      refine ⟨h.standing, (h.finish i).greeted, fun e he => ?_⟩
      rcases List.mem_append.mp he with he | he
      · exact h.reported e he
      · obtain rfl := Option.mem_toList.mp he
        exact h.greeted e.1 e.2 (List.mem_of_getElem? ht)
    · cases hs
  | fail i =>
    simp only [TrustFile.exec] at hs
    split at hs
    · cases hs
      exact h.finish i
    · cases hs
      exact h.finish i
    · cases hs
  | retrust address fingerprint =>
    cases hs
    exact h.open (by simp)
  | repin i now => exact h.repin fresh hs

/-- Where each command saves the file it opened, a reported pin stays until its key is re-pinned. -/
theorem reported_pins_kept (file : TrustStore) (w : TrustFile)
    (h : Run (fun w step w' => exec w step = some w') (fun w step => Fresh w step ∧ Unadopted w step) (start file) w) :
    ∀ e ∈ w.reported, Standing w.file w.written e.1 e.2 := by
  have hk : w.Kept := h.invariant Kept (kept_start file) fun _ _ _ hk hok hs => hk.exec hok.1 hok.2 hs
  intro e he
  exact hk.standing e.1 e.2 (hk.reported e he)

def savesWhatItOpened (w : TrustFile) : TrustStep → Bool
  | .greet i _ fingerprint _ =>
    match w.tasks[i]? with
    | some (.connecting address legacyKey copy) =>
      (copy.pinned address = none → copy = w.file) ∧
        (Adopts copy address legacyKey fingerprint → ∀ pin ∈ w.written, pin.key ≠ legacyKey)
    | _ => true
  | .repin i _ =>
    match w.tasks[i]? with
    | some (.repinning _ _ copy) => copy = w.file
    | _ => true
  | _ => true

theorem savesWhatItOpened_fresh (w : TrustFile) (step : TrustStep) (h : savesWhatItOpened w step = true) :
    Fresh w step ∧ Unadopted w step := by
  unfold savesWhatItOpened at h
  cases step with
  | greet i now fingerprint serverName =>
    refine ⟨fun address legacyKey copy ht => ?_, fun address legacyKey copy ht => ?_⟩
    · simp only [ht, decide_eq_true_eq] at h
      exact h.1
    · simp only [ht, decide_eq_true_eq] at h
      exact h.2
  | repin i now =>
    refine ⟨fun address fingerprint copy ht => ?_, trivial⟩
    simpa only [ht, decide_eq_true_eq] using h
  | connect address legacyKey => exact ⟨trivial, trivial⟩
  | welcome i => exact ⟨trivial, trivial⟩
  | fail i => exact ⟨trivial, trivial⟩
  | retrust address fingerprint => exact ⟨trivial, trivial⟩

/-- A second connection to the lobby is under way while the annex is pinned, and while the lobby is re-pinned. -/
def overlappingTrust : List TrustStep :=
  [.connect "lobby:42071" "10.0.0.1:42071", .greet 0 1 (.rep 1) "Lobby", .connect "lobby:42071" "10.0.0.1:42071",
    .connect "annex:42071" "10.0.0.2:42071", .greet 2 2 (.rep 2) "Annex", .welcome 0,
    .retrust "lobby:42071" (.rep 3), .greet 1 3 (.rep 1) "Lobby", .welcome 2, .repin 3 4, .welcome 1]

theorem reported_pins_kept_once : ∃ w : TrustFile,
    w.reported = [(0, ⟨"lobby:42071", .rep 1, false⟩), (1, ⟨"annex:42071", .rep 2, false⟩),
      (2, ⟨"lobby:42071", .rep 3, true⟩)] ∧ ∀ e ∈ w.reported, Standing w.file w.written e.1 e.2 := by
  have hreplay : (Async.replay (fun w step => if savesWhatItOpened w step then exec w step else none) (start ⟨[]⟩)
      overlappingTrust).map TrustFile.reported = some [(0, ⟨"lobby:42071", .rep 1, false⟩),
        (1, ⟨"annex:42071", .rep 2, false⟩), (2, ⟨"lobby:42071", .rep 3, true⟩)] := by decide
  obtain ⟨w, hw, hreported⟩ := Option.map_eq_some_iff.mp hreplay
  exact ⟨w, hreported, reported_pins_kept ⟨[]⟩ w
    (Run.of_checked exec savesWhatItOpened savesWhatItOpened_fresh overlappingTrust hw)⟩

/-- Two connections that overlap: the second one writes back a file without the first one's pin. -/
theorem overlapping_connections_lose_a_pin : ¬ ∀ (file : TrustStore) (w : TrustFile),
    Run (fun w step w' => exec w step = some w') (fun _ _ => True) (start file) w → (∀ t ∈ w.tasks, t = .done) →
      ∀ e ∈ w.reported, Standing w.file w.written e.1 e.2 := by
  intro h
  have hrun : Run (fun w step w' => exec w step = some w') (fun _ _ => True) (start ⟨[]⟩)
      ⟨⟨[("annex:42071", ⟨.rep 2, "Annex", 2, 2⟩)]⟩, [.done, .done],
        [⟨"lobby:42071", .rep 1, false⟩, ⟨"annex:42071", .rep 2, false⟩],
        [(0, ⟨"lobby:42071", .rep 1, false⟩), (1, ⟨"annex:42071", .rep 2, false⟩)]⟩ :=
    .of_replay exec [.connect "lobby:42071" "10.0.0.1:42071", .connect "annex:42071" "10.0.0.2:42071",
      .greet 0 1 (.rep 1) "Lobby", .greet 1 2 (.rep 2) "Annex", .welcome 0, .welcome 1] rfl
  rcases h ⟨[]⟩ _ hrun (by decide) (0, ⟨"lobby:42071", .rep 1, false⟩) (by simp) with hpin | ⟨j, p, -, hp, -, hre⟩
  · exact absurd hpin (by decide)
  · have hnone : ∀ p ∈ [(⟨"lobby:42071", .rep 1, false⟩ : Pin), ⟨"annex:42071", .rep 2, false⟩], p.repin = false := by
      simp
    rw [hnone p (List.mem_of_getElem? hp)] at hre
    cases hre

end TrustFile

end PickleChat
