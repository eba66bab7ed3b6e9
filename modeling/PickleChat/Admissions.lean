import PickleChat.Roster
import PickleChat.Lib.Run

/-!
# Who is admitted under which id

Client ids come from a 32-bit counter that wraps, and a new entry replaces the
one that stands under its id. Nobody is displaced as long as the counter does
not come round to an id that is still held.
-/

namespace PickleChat

open Async (Run)

inductive Admission where
  | enter (identity : PublicIdentity) (nickname : String)
  | remove (client : ClientId)
  | eject (victim : ClientId) (reason : DisconnectReason)

/-- The state after, whether or not there was room. -/
def Admission.after (s : Shared) : Admission → Shared
  | enter identity nickname =>
    match s.admitUser identity nickname with
    | .ok (_, t) => t
    | .error _ => s
  | remove client => (s.remove client).2
  | eject victim reason => (s.eject victim reason).2

def Admission.Step (s : Shared) (a : Admission) (t : Shared) : Prop := t = a.after s

/-- An admission that passes the checks finds the counter at an id that nobody holds. -/
def IdFree (s : Shared) : Admission → Prop
  | .enter identity nickname =>
    s.config.minSecurityLevel ≤ identity.securityLevel →
    Shared.sanitizeNickname nickname s.limits.maxNicknameLen.toNat ≠ none →
    s.clients.length < s.config.maxUsers.toNat → ∀ e ∈ s.clients, e.id ≠ s.nextClientId
  | _ => True

/-- An admission adds one entry under a new id, or changes nothing. -/
def AdmitsFresh (s : Shared) : Admission → Prop
  | .enter identity nickname =>
    (∀ info t, s.admitUser identity nickname = .ok (info, t) →
      (Admission.enter identity nickname).after s = t ∧ t.clients = s.clients ++ [⟨info, [], []⟩] ∧
        ∀ e ∈ s.clients, e.id ≠ info.clientId) ∧
    ∀ failure, s.admitUser identity nickname = .error failure → (Admission.enter identity nickname).after s = s
  | _ => True

section
variable {s : Shared}

theorem Shared.admitUser_passes {identity : PublicIdentity} {nickname : String} {info : UserInfo} {t : Shared}
    (h : s.admitUser identity nickname = .ok (info, t)) :
    s.config.minSecurityLevel ≤ identity.securityLevel ∧
      Shared.sanitizeNickname nickname s.limits.maxNicknameLen.toNat ≠ none := by
  unfold Shared.admitUser at h
  split at h; · cases h
  rename_i hlevel
  split at h; · cases h
  rename_i name hname
  exact ⟨UInt32.not_lt.mp hlevel, by simp [hname]⟩

theorem IdFree.admitsFresh {a : Admission} (h : IdFree s a) : AdmitsFresh s a := by
  cases a with
  | remove client => trivial
  | eject victim reason => trivial
  | enter identity nickname =>
    constructor
    · intro info t ht
      obtain ⟨hlevel, hname⟩ := Shared.admitUser_passes ht
      obtain ⟨hid, -, -, -, -, hroom, he⟩ := Shared.admitUser_ok ht
      have hfree := h hlevel hname hroom
      refine ⟨by simp [Admission.after, ht], ?_, hid ▸ hfree⟩
      have hkeep : Keyed.erase ConnectedClient.id s.nextClientId s.clients = s.clients :=
        List.filter_eq_self.mpr fun e he => by simpa using hfree e he
      rw [he]
      change Keyed.erase ConnectedClient.id info.clientId s.clients ++ _ = _
      rw [hid, hkeep]
    · intro failure hf
      simp [Admission.after, hf]

/-- With or without displacing somebody, the map does not outgrow the limit. -/
theorem Admission.within (a : Admission) (h : s.clients.length ≤ s.config.maxUsers.toNat) :
    (a.after s).clients.length ≤ (a.after s).config.maxUsers.toNat := by
  have herase : ∀ k, (Keyed.erase ConnectedClient.id k s.clients).length ≤ s.clients.length :=
    fun k => List.length_filter_le _ _
  cases a with
  | remove client => exact (herase client).trans h
  | eject victim reason =>
    change (s.eject victim reason).2.clients.length ≤ (s.eject victim reason).2.config.maxUsers.toNat
    unfold Shared.eject
    split
    · exact h
    · simpa [Shared.broadcast, Shared.remove] using (herase victim).trans h
  | enter identity nickname =>
    cases ha : s.admitUser identity nickname with
    | error failure => simpa [Admission.after, ha] using h
    | ok r =>
      obtain ⟨info, t⟩ := r
      obtain ⟨-, -, -, -, -, hroom, rfl⟩ := Shared.admitUser_ok ha
      have := herase info.clientId
      simp only [Admission.after, ha, Keyed.put, List.length_append, List.length_singleton]
      change (Keyed.erase ConnectedClient.id info.clientId s.clients).length + 1 ≤ _
      omega

end

/-- In every run of admissions, removals and ejections in which the counter never
comes round to an id still held, each admission adds one entry under a new id or
changes nothing, and there are never more entries than the limit. -/
theorem admissions_displace_nobody {s₀ s : Shared} (h₀ : s₀.clients = [])
    (hrun : Run Admission.Step IdFree s₀ s) :
    Run Admission.Step AdmitsFresh s₀ s ∧ s.clients.length ≤ s.config.maxUsers.toNat := by
  refine ⟨hrun.mono fun _ _ => IdFree.admitsFresh, ?_⟩
  apply hrun.invariant (fun s => s.clients.length ≤ s.config.maxUsers.toNat)
  · simp [h₀]
  · rintro s a _ h - rfl
    exact a.within h

/-! ## Before the counter comes round -/

/-- So many steps into a run the counter is ahead of every id held. -/
def Ahead (n : Nat) (s : Shared) : Prop :=
  1 ≤ s.nextClientId.toNat ∧ s.nextClientId.toNat ≤ n + 1 ∧ ∀ e ∈ s.clients, e.id < s.nextClientId

theorem Ahead.after {n : Nat} {s : Shared} (h : Ahead n s) (hn : n + 2 < 2 ^ 32) (a : Admission) :
    Ahead (n + 1) (a.after s) := by
  obtain ⟨hpos, hle, hids⟩ := h
  have hsame : ∀ {t : Shared}, t.nextClientId = s.nextClientId → (∀ e ∈ t.clients, ∃ e₀ ∈ s.clients, e.id = e₀.id) →
      Ahead (n + 1) t := by
    intro t hnext hcl
    refine ⟨hnext ▸ hpos, by rw [hnext]; omega, fun e he => ?_⟩
    obtain ⟨e₀, he₀, hid⟩ := hcl e he
    rw [hnext, hid]
    exact hids e₀ he₀
  cases a with
  | remove client => exact hsame rfl fun e he => ⟨e, (Keyed.mem_erase.mp he).1, rfl⟩
  | eject victim reason =>
    change Ahead (n + 1) (s.eject victim reason).2
    unfold Shared.eject
    split
    · exact hsame rfl fun e he => ⟨e, he, rfl⟩
    · refine hsame rfl fun e he => ?_
      obtain ⟨e₀, he₀, rfl⟩ := List.mem_map.mp he
      refine ⟨e₀, (Keyed.mem_erase.mp he₀).1, ?_⟩
      split <;> rfl
  | enter identity nickname =>
    cases ha : s.admitUser identity nickname with
    | error failure => exact hsame (by simp [Admission.after, ha]) fun e he =>
        ⟨e, by simpa [Admission.after, ha] using he, rfl⟩
    | ok r =>
      obtain ⟨info, t⟩ := r
      obtain ⟨hid, -, -, -, -, -, rfl⟩ := Shared.admitUser_ok ha
      have hnext : (s.nextClientId + 1).toNat = s.nextClientId.toNat + 1 := Word.toNat_succ (by omega)
      have hne : s.nextClientId + 1 ≠ 0 := by
        intro h
        rw [h] at hnext
        cases hnext
      simp only [Admission.after, ha, Shared.idAfter, if_neg hne]
      refine ⟨by dsimp only; omega, by dsimp only; omega, fun e he => ?_⟩
      rw [UInt32.lt_iff_toNat_lt]
      dsimp only at he ⊢
      rw [hnext]
      rcases Keyed.mem_put.mp he with rfl | ⟨he, -⟩
      · change info.clientId.toNat < _
        rw [hid]
        omega
      · have := UInt32.lt_iff_toNat_lt.mp (hids e he)
        omega

/-- For the first `2 ^ 32 - 2` steps the condition holds of itself. -/
theorem idFree_of_few {s : Shared} (h₀ : s.clients = []) (hnext : s.nextClientId = 1) (steps : List Admission)
    (hfew : steps.length + 2 < 2 ^ 32) (a : Admission) : IdFree (steps.foldl Admission.after s) a := by
  have hrun : ∀ (steps : List Admission) (n : Nat) (s : Shared), Ahead n s → n + steps.length + 2 < 2 ^ 32 →
      Ahead (n + steps.length) (steps.foldl Admission.after s) := by
    intro steps
    induction steps with
    | nil => exact fun n s h _ => h
    | cons a steps ih =>
      intro n s h hn
      rw [List.length_cons] at hn
      have := ih (n + 1) (a.after s) (h.after (by omega) a) (by omega)
      rw [List.length_cons, List.foldl_cons, show n + (steps.length + 1) = n + 1 + steps.length by omega]
      exact this
  have hend := hrun steps 0 s ⟨by rw [hnext]; decide, by rw [hnext]; decide, by simp [h₀]⟩ (by omega)
  cases a with
  | remove client => trivial
  | eject victim reason => trivial
  | enter identity nickname =>
    rintro - - - e he hid
    exact UInt32.lt_irrefl _ (hid ▸ hend.2.2 e he)

/-! ## Once it has come round -/

def lobby : Shared := { exampleServer [] [] [] with nextClientId := 1 }

def guest : PublicIdentity := ⟨.rep 2, 8⟩

/-- Two guests come, the first leaves, and a third comes. -/
theorem admissions_displace_nobody_once :
    let s := [.enter guest "n", .enter guest "m", .remove 1, .enter guest "n"].foldl Admission.after lobby
    s.clients.map ConnectedClient.id = [2, 3] ∧ Run Admission.Step AdmitsFresh lobby s ∧ s.clients.length ≤ 8 := by
  have hnobody : lobby.clients = [] := rfl
  refine ⟨by decide +kernel, admissions_displace_nobody hnobody
    (.step (.enter guest "n") (.step (.remove 1) (.step (.enter guest "m") (.step (.enter guest "n") .refl
    (fun _ _ _ e he => by cases he) rfl)
    (fun _ _ _ => ?_) rfl)
    trivial rfl)
    (fun _ _ _ => ?_) rfl)⟩
  · decide +kernel
  · decide +kernel

def guestEntry (id : ClientId) : ConnectedClient :=
  ⟨{ clientId := id, identity := guest, nickname := "n", channel := none, voice := {}, connectedAtUnixMs := 5,
     roles := [], owner := false }, [], []⟩

/-- Client 1 has stayed while others came and went. -/
def lingering (next : ClientId) : Shared := { lobby with nextClientId := next, clients := [guestEntry 1] }

theorem lingering_enters (next : ClientId) :
    (lingering next).admitUser guest "n" = .ok ((guestEntry next).info,
      { lingering next with nextClientId := Shared.idAfter next,
                            clients := Keyed.put ConnectedClient.id (guestEntry next) [guestEntry 1] }) := by
  have hname : Shared.sanitizeNickname "n" (lingering next).limits.maxNicknameLen.toNat = some "n" := by
    change Shared.sanitizeNickname "n" 32 = some "n"
    decide +kernel
  simp only [Shared.admitUser, hname]
  rfl

/-- A guest comes and goes. -/
theorem lingering_round {next : ClientId} (hne : next ≠ 1) :
    Run Admission.Step (fun _ _ => True) (lingering next) (lingering (Shared.idAfter next)) := by
  refine .step (.remove next) (.step (.enter guest "n") .refl trivial rfl) trivial ?_
  have h₁ : (guestEntry 1).id ≠ next := fun h => hne h.symm
  have hput : Keyed.put ConnectedClient.id (guestEntry next) [guestEntry 1] = [guestEntry 1, guestEntry next] := by
    change Keyed.erase ConnectedClient.id next [guestEntry 1] ++ _ = _
    simp [Keyed.erase, h₁]
  have herase : Keyed.erase ConnectedClient.id next [guestEntry 1, guestEntry next] = [guestEntry 1] := by
    have h₂ : (guestEntry next).id = next := rfl
    simp [Keyed.erase, h₁, h₂]
  simp only [Admission.Step, Admission.after, lingering_enters, Shared.remove, hput, herase]
  rfl

theorem lingering_rounds (n : Nat) (hn : n + 2 < 2 ^ 32) :
    Run Admission.Step (fun _ _ => True) (lingering 2) (lingering (UInt32.ofNat (n + 2))) := by
  induction n with
  | zero => exact .refl
  | succ n ih =>
    have hval : (UInt32.ofNat (n + 2)).toNat = n + 2 := Word.toNat_ofNat_lt (Nat.le_refl _) (by omega)
    have hnext : Shared.idAfter (UInt32.ofNat (n + 2)) = UInt32.ofNat (n + 1 + 2) := by
      have hval' : (UInt32.ofNat (n + 1 + 2)).toNat = n + 1 + 2 := Word.toNat_ofNat_lt (Nat.le_refl _) hn
      have hadd : UInt32.ofNat (n + 2) + 1 = UInt32.ofNat (n + 1 + 2) := by
        apply UInt32.toNat_inj.mp
        rw [Word.toNat_succ (by omega), hval, hval']
      have hne : UInt32.ofNat (n + 1 + 2) ≠ 0 := by
        intro h
        rw [h] at hval'
        cases hval'
      unfold Shared.idAfter
      rw [hadd, if_neg hne]
    have hne : UInt32.ofNat (n + 2) ≠ 1 := by
      intro h
      rw [h] at hval
      have : (1 : UInt32).toNat = 1 := rfl
      omega
    exact hnext ▸ (ih (by omega)).trans (lingering_round hne)

/-- After `2 ^ 32 - 1` admissions the counter is back at the id of the client that
stayed, whose entry the next admission replaces. -/
theorem admission_displaces :
    ∃ s, Run Admission.Step (fun _ _ => True) lobby s ∧ guestEntry 1 ∈ s.clients ∧
      ¬ AdmitsFresh s (.enter guest "n") := by
  have hstart : Run Admission.Step (fun _ _ => True) lobby (lingering 2) := by
    refine .step (.enter guest "n") .refl trivial ?_
    have hname : Shared.sanitizeNickname "n" lobby.limits.maxNicknameLen.toNat = some "n" := by decide +kernel
    simp only [Admission.Step, Admission.after, Shared.admitUser, hname]
    rfl
  have hall := lingering_rounds 4294967293 (by omega)
  have hlast : Run Admission.Step (fun _ _ => True) (lingering 4294967295) (lingering 1) :=
    lingering_round (by decide)
  refine ⟨lingering 1, (hstart.trans hall).trans hlast, List.mem_singleton.mpr rfl, fun h => ?_⟩
  have hnew := (h.1 _ _ (lingering_enters 1)).2.2 (guestEntry 1) (List.mem_singleton.mpr rfl)
  exact hnew rfl

end PickleChat
