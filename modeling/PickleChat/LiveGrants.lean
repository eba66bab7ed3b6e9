import PickleChat.RoleLists
import PickleChat.Sections

/-!
# Cached roles and current grants

A member's grants stand in the permission snapshot and, again, on each of its
live sessions, under another lock. A command that changes them swaps the
snapshot first and owes the sessions an update until it has taken the client
lock. `admit` copies them the other way, with nothing held in between.
-/

namespace PickleChat

open Async (Run)

/-- What a command that has swapped still owes the live sessions. -/
inductive Mend where
  | assign (f : Fingerprint) (roles : List RoleId)
  | strip (role : RoleId)

def owed : List Section → Option Mend
  | [] => none
  | .swap _ :: _ => none
  | .updateLive f roles :: _ => some (.assign f roles)
  | .stripLive role :: _ => some (.strip role)
  | _ :: rest => owed rest

def Mend.Agrees (p : PermState) : Mend → Prop
  | assign f roles => ∀ id, id ∈ roles ↔ id ∈ p.grants f
  | strip role => ∀ f, role ∉ p.grants f

/-- The update decides whether the sessions of `f` hold `id`. -/
def Mend.Covers (f : Fingerprint) (id : RoleId) : Mend → Prop
  | assign g _ => g = f
  | strip role => role = id

/-- Job `i` is a command that read `snapshot` and has `rest` to do. -/
def Floor.Works (p : Floor) (i : Nat) (snapshot : PermState) (rest : List Section) : Prop :=
  ∃ client nonce d, p.jobs i = some (.working client nonce snapshot d rest)

def Floor.Owes (p : Floor) (i : Nat) (m : Mend) : Prop := ∃ snapshot rest, p.Works i snapshot rest ∧ owed rest = some m

/-- These are the grants of `f`, or will be once every update owed is made. -/
def Floor.Current (p : Floor) (f : Fingerprint) (roles : List RoleId) : Prop :=
  ∀ id, (id ∈ roles ↔ id ∈ p.shared.perms.grants f) ∨ ∃ i m, p.Owes i m ∧ m.Covers f id

/-- A client is inserted with roles that are current; a snapshot is swapped in
over the grants it was built from, and no other command still owes the sessions
an update that contradicts it. -/
def Steady (p : Floor) : Turn → Prop
  | .insert i => ∀ identity nickname roles, p.jobs i = some (.admitting identity nickname roles) →
      p.Current identity.fingerprint roles
  | .advance i => ∀ snapshot next rest, p.Works i snapshot (.swap next :: rest) →
      (∀ f id, id ∈ snapshot.grants f ↔ id ∈ p.shared.perms.grants f) ∧
        ∀ k m, k ≠ i → p.Owes k m → m.Agrees next
  | _ => True

/-! ## Commands -/

/-- A snapshot that differs from another one where the update that follows it does. -/
def Leads (p next : PermState) : Option Mend → Prop
  | none => ∀ f, next.grants f = p.grants f
  | some m => m.Agrees next ∧ ∀ f id, ¬ m.Covers f id → (id ∈ next.grants f ↔ id ∈ p.grants f)

def Prepared (p : PermState) : List Section → Prop
  | [] => True
  | .swap next :: rest => Leads p next (owed rest) ∧ Prepared p rest
  | .save _ _ :: rest | .updateLive _ _ :: rest | .stripLive _ :: rest => owed rest = none ∧ Prepared p rest
  | _ :: rest => Prepared p rest

theorem Order.prepared (o : Order) (client : ClientId) (nonce : UInt64) (p : PermState) :
    Prepared p (o.sections client nonce p) := by
  cases o with
  | setMemberRoles f roles =>
    refine ⟨rfl, ⟨fun id => ?_, fun g id hg => ?_⟩, rfl, trivial⟩
    · rw [grantedPerms_grants, if_pos rfl]
    · rw [grantedPerms_grants, if_neg (Ne.symm hg)]
  | deleteRole role =>
    refine ⟨rfl, ⟨fun g => ?_, fun g id hid => ?_⟩, rfl, trivial⟩
    · simp [deletedPerms_grants]
    · rw [deletedPerms_grants]
      simp [Ne.symm hid]
  | createRole role => exact ⟨rfl, rfl, fun _ => rfl, trivial⟩
  | updateRole updated => exact ⟨rfl, fun _ => rfl, trivial⟩
  | reorderRoles positions => exact ⟨rfl, fun _ => rfl, trivial⟩
  | setOverwrite | removeOverwrite | createChannel | updateChannel | deleteChannel =>
    simp [sections, captures, resyncs, Prepared, owed]

/-! ## Sections that leave grants alone -/

/-- Neither the snapshot nor a session's roles are this section's business. -/
def Section.light : Section → Bool
  | swap _ | updateLive _ _ | stripLive _ => false
  | _ => true

theorem owed_frames {more : List Section} (h : ∀ y ∈ more, y.frame = true) (rest : List Section) :
    owed (more ++ rest) = owed rest := by
  induction more with
  | nil => rfl
  | cons y more ih =>
    have hy := h y (List.mem_cons_self ..)
    cases y <;> first
      | exact ih fun z hz => h z (List.mem_cons_of_mem _ hz)
      | cases hy

theorem prepared_frames {more : List Section} (h : ∀ y ∈ more, y.frame = true) {p : PermState} {rest : List Section}
    (hr : Prepared p rest) : Prepared p (more ++ rest) := by
  induction more with
  | nil => exact hr
  | cons y more ih =>
    have hy := h y (List.mem_cons_self ..)
    cases y <;> first
      | exact ih fun z hz => h z (List.mem_cons_of_mem _ hz)
      | cases hy

theorem owed_light {x : Section} (hx : x.light = true) (rest : List Section) : owed (x :: rest) = owed rest := by
  cases x <;> first | rfl | cases hx

theorem prepared_tail {p : PermState} {x : Section} {rest : List Section} (h : Prepared p (x :: rest)) :
    Prepared p rest := by
  cases x <;> first | exact h | exact h.2

def SameRoles (s t : Shared) : Prop :=
  ∀ e' ∈ t.clients, ∃ e ∈ s.clients, e'.info.fingerprint = e.info.fingerprint ∧ e'.info.roles = e.info.roles

theorem SameRoles.refl (s : Shared) : SameRoles s s := fun e he => ⟨e, he, rfl, rfl⟩

theorem SameRoles.of_map {s t : Shared} {f : ConnectedClient → ConnectedClient} (ht : t.clients = s.clients.map f)
    (hf : ∀ e, (f e).info.fingerprint = e.info.fingerprint ∧ (f e).info.roles = e.info.roles) : SameRoles s t := by
  intro e' he'
  rw [ht] at he'
  obtain ⟨e, he, rfl⟩ := List.mem_map.mp he'
  exact ⟨e, he, hf e⟩

theorem SameRoles.deliver (s : Shared) (f : UserInfo → List ServerControl) : SameRoles s (s.deliver f) :=
  .of_map rfl fun _ => ⟨rfl, rfl⟩

theorem run_light {x : Section} (hx : x.light = true) (d : Desk) (s : Shared) :
    (x.run d s).1.perms = s.perms ∧ SameRoles s (x.run d s).1 := by
  cases x with
  | swap | updateLive | stripLive => cases hx
  | tell m => exact ⟨rfl, by simp only [Section.run, Shared.broadcast_none]; exact .deliver s _⟩
  | post k m => exact ⟨rfl, by simp only [Section.run, Shared.send_eq]; exact .deliver s _⟩
  | removeChannel id =>
    refine ⟨Shared.removeChannelMem_perms id, ?_⟩
    change SameRoles s (s.removeChannelMem id).2
    unfold Shared.removeChannelMem
    split
    · exact .refl s
    · refine .of_map rfl fun e => ?_
      split <;> exact ⟨rfl, rfl⟩
  | _ => exact ⟨rfl, .refl _⟩

theorem Elsewhere.sameRoles {s t : Shared} (h : Elsewhere s t) : t.perms = s.perms ∧ SameRoles s t := by
  cases h with
  | told f _ => exact ⟨rfl, .deliver s f⟩
  | removed k => exact ⟨rfl, fun e he => ⟨e, (Keyed.mem_erase.mp he).1, rfl, rfl⟩⟩
  | edited k f hf =>
    refine ⟨rfl, .of_map rfl fun e => ?_⟩
    split
    · exact ⟨congrArg PublicIdentity.fingerprint (hf e.info).identity, (hf e.info).roles⟩
    · exact ⟨rfl, rfl⟩
  | voiced k packet =>
    refine ⟨(relayVoice_rooms s k packet).perms, ?_⟩
    unfold Shared.relayVoice
    repeat' split
    all_goals first | exact .refl s | refine .of_map rfl fun e => ?_
    split <;> exact ⟨rfl, rfl⟩
  | numbered => exact ⟨rfl, .refl s⟩
  | ticked now => exact ⟨rfl, .refl s⟩

/-! ## The invariant -/

structure Mended (p : Floor) : Prop where
  entries : ∀ e ∈ p.shared.clients, p.Current e.info.fingerprint e.info.roles
  agrees : ∀ i m, p.Owes i m → m.Agrees p.shared.perms
  prepared : ∀ i snapshot rest, p.Works i snapshot rest → Prepared snapshot rest

section
variable {p : Floor} {i : Nat} {s : Shared}

theorem Floor.Current.mono {p' : Floor} (hperms : p'.shared.perms = p.shared.perms)
    (howes : ∀ k m, p.Owes k m → p'.Owes k m) {f : Fingerprint} {roles : List RoleId} (h : p.Current f roles) :
    p'.Current f roles := by
  intro id
  rw [hperms]
  rcases h id with hsame | ⟨k, m, hm, hc⟩
  · exact .inl hsame
  · exact .inr ⟨k, m, howes k m hm, hc⟩

/-- Nothing is owed that was not, nor has been paid; the sessions have their roles, or come with current ones. -/
theorem Mended.keep {p' : Floor} (h : Mended p) (hperms : p'.shared.perms = p.shared.perms)
    (howes : ∀ k m, p'.Owes k m ↔ p.Owes k m)
    (hclients : ∀ e' ∈ p'.shared.clients, (∃ e ∈ p.shared.clients, e'.info.fingerprint = e.info.fingerprint ∧
      e'.info.roles = e.info.roles) ∨ p.Current e'.info.fingerprint e'.info.roles)
    (hprep : ∀ k snapshot rest, p'.Works k snapshot rest → Prepared snapshot rest) : Mended p' where
  entries := by
    intro e' he'
    refine Floor.Current.mono hperms (fun k m => (howes k m).mpr) ?_
    rcases hclients e' he' with ⟨e, he, hf, hr⟩ | hc
    · rw [hf, hr]
      exact h.entries e he
    · exact hc
  agrees := by
    intro k m hm
    rw [hperms]
    exact h.agrees k m ((howes k m).mp hm)
  prepared := hprep

theorem works_set_working {client : ClientId} {nonce : UInt64} {snapshot : PermState} {d : Desk} {rest : List Section}
    {k : Nat} {snapshot' : PermState} {rest' : List Section}
    (h : (p.set i (some (.working client nonce snapshot d rest)) s).Works k snapshot' rest') :
    (k = i ∧ snapshot' = snapshot ∧ rest' = rest) ∨ (k ≠ i ∧ p.Works k snapshot' rest') := by
  obtain ⟨client', nonce', d', hj⟩ := h
  rcases Floor.set_some hj with ⟨hk, he⟩ | ⟨hk, hj⟩
  · cases he
    exact .inl ⟨hk, rfl, rfl⟩
  · exact .inr ⟨hk, client', nonce', d', hj⟩

theorem works_set_ne {k : Nat} (hk : k ≠ i) (j : Option Job) {snapshot : PermState} {rest : List Section} :
    (p.set i j s).Works k snapshot rest ↔ p.Works k snapshot rest := by
  unfold Floor.Works
  rw [Floor.set_ne hk]

theorem works_set_idle (hi : ∀ snapshot rest, ¬ p.Works i snapshot rest) {j : Option Job}
    (hj : ∀ client nonce snapshot d rest, j ≠ some (.working client nonce snapshot d rest)) {k : Nat}
    {snapshot : PermState} {rest : List Section} :
    (p.set i j s).Works k snapshot rest ↔ p.Works k snapshot rest := by
  by_cases hk : k = i
  · subst hk
    refine ⟨fun h => ?_, fun h => absurd h (hi _ _)⟩
    obtain ⟨client, nonce, d, hw⟩ := h
    rw [Floor.set_self] at hw
    exact absurd hw (hj _ _ _ _ _)
  · exact works_set_ne hk j

theorem Mended.idle (h : Mended p) (hi : ∀ snapshot rest, ¬ p.Works i snapshot rest) {j : Option Job}
    (hj : ∀ client nonce snapshot d rest, j ≠ some (.working client nonce snapshot d rest))
    (hperms : s.perms = p.shared.perms)
    (hclients : ∀ e' ∈ s.clients, (∃ e ∈ p.shared.clients, e'.info.fingerprint = e.info.fingerprint ∧
      e'.info.roles = e.info.roles) ∨ p.Current e'.info.fingerprint e'.info.roles) : Mended (p.set i j s) := by
  refine h.keep hperms (fun k m => ?_) hclients fun k snapshot rest hw => ?_
  · unfold Floor.Owes
    simp only [works_set_idle hi hj]
  · exact h.prepared k snapshot rest ((works_set_idle hi hj).mp hw)

theorem owes_unique {m m' : Mend} (h : p.Owes i m) (h' : p.Owes i m') : m = m' := by
  obtain ⟨_, _, ⟨_, _, _, hj⟩, hm⟩ := h
  obtain ⟨_, _, ⟨_, _, _, hj'⟩, hm'⟩ := h'
  rw [hj] at hj'
  cases hj'
  rw [hm] at hm'
  exact Option.some.inj hm'

theorem not_works {j : Job} (hi : p.jobs i = some j)
    (hj : ∀ client nonce snapshot d rest, j ≠ .working client nonce snapshot d rest) (snapshot : PermState)
    (rest : List Section) : ¬ p.Works i snapshot rest := by
  rintro ⟨client, nonce, d, hw⟩
  rw [hi] at hw
  exact hj _ _ _ _ _ (Option.some.inj hw)

section
variable {client : ClientId} {nonce : UInt64} {snapshot : PermState} {d d' : Desk} {x : Section}
  {rest : List Section} (h : Mended p) (hi : p.jobs i = some (.working client nonce snapshot d (x :: rest)))
include h hi

theorem Mended.light (hx : x.light = true) :
    Mended (p.set i (some (.working client nonce snapshot (x.run d p.shared).2.1 ((x.run d p.shared).2.2 ++ rest)))
      (x.run d p.shared).1) := by
  have hmore := run_more x d p.shared
  have howed : owed ((x.run d p.shared).2.2 ++ rest) = owed (x :: rest) := by
    rw [owed_frames hmore, owed_light hx]
  obtain ⟨hperms, hsame⟩ := run_light hx d p.shared
  refine h.keep hperms (fun k m => ?_) (fun e' he' => .inl (hsame e' he')) fun k snapshot' rest' hw => ?_
  · by_cases hk : k = i
    · subst hk
      constructor
      · rintro ⟨snapshot', rest', hw, hm⟩
        rcases works_set_working hw with ⟨-, rfl, rfl⟩ | ⟨hne, -⟩
        · exact ⟨_, _, ⟨_, _, _, hi⟩, by rw [← howed, hm]⟩
        · exact absurd rfl hne
      · rintro ⟨snapshot', rest', ⟨client', nonce', d', hw⟩, hm⟩
        rw [hi] at hw
        cases hw
        exact ⟨_, _, ⟨_, _, _, Floor.set_self _⟩, by rw [howed, hm]⟩
    · unfold Floor.Owes
      simp only [works_set_ne hk]
  · rcases works_set_working hw with ⟨-, rfl, rfl⟩ | ⟨-, hw⟩
    · exact prepared_frames hmore (prepared_tail (h.prepared i snapshot' _ ⟨_, _, _, hi⟩))
    · exact h.prepared k snapshot' rest' hw

theorem Mended.swap {next : PermState} (hx : x = .swap next)
    (hcurrent : ∀ f id, id ∈ snapshot.grants f ↔ id ∈ p.shared.perms.grants f)
    (hothers : ∀ k m, k ≠ i → p.Owes k m → m.Agrees next) :
    Mended (p.set i (some (.working client nonce snapshot d rest)) (p.shared.swapPermState next)) := by
  subst hx
  obtain ⟨hleads, hprep⟩ := h.prepared i snapshot _ ⟨_, _, _, hi⟩
  have howes : ∀ k m, p.Owes k m → (p.set i (some (.working client nonce snapshot d rest))
      (p.shared.swapPermState next)).Owes k m := by
    rintro k m ⟨snapshot', rest', hw, hm⟩
    refine ⟨snapshot', rest', (works_set_ne ?_ _).mpr hw, hm⟩
    rintro rfl
    obtain ⟨_, _, _, hw⟩ := hw
    rw [hi] at hw
    cases hw
    cases hm
  refine ⟨fun e he id => ?_, fun k m hm => ?_, fun k snapshot' rest' hw => ?_⟩
  · rcases h.entries e he id with hsame | ⟨k, m, hm, hc⟩
    · cases hm : owed rest with
      | none =>
        rw [hm] at hleads
        left
        rw [hsame, ← hcurrent, ← hleads]
        rfl
      | some m =>
        rw [hm] at hleads
        by_cases hc : m.Covers e.info.fingerprint id
        · exact .inr ⟨i, m, ⟨snapshot, rest, ⟨_, _, _, Floor.set_self _⟩, hm⟩, hc⟩
        · left
          rw [hsame, ← hcurrent, ← hleads.2 _ _ hc]
          rfl
    · exact .inr ⟨k, m, howes k m hm, hc⟩
  · obtain ⟨snapshot', rest', hw, hm⟩ := hm
    rcases works_set_working hw with ⟨-, rfl, rfl⟩ | ⟨hk, hw⟩
    · rw [hm] at hleads
      exact hleads.1
    · exact hothers k m hk ⟨snapshot', rest', hw, hm⟩
  · rcases works_set_working hw with ⟨-, rfl, rfl⟩ | ⟨-, hw⟩
    · exact hprep
    · exact h.prepared k snapshot' rest' hw

/-- The update that is owed is made: what it decides is as the snapshot says, and the rest as it was. -/
theorem Mended.paid {m : Mend} (hm : owed (x :: rest) = some m) (hrest : owed rest = none)
    (hperms : s.perms = p.shared.perms)
    (hclients : ∀ e' ∈ s.clients, ∃ e ∈ p.shared.clients, e'.info.fingerprint = e.info.fingerprint ∧
      ∀ id, (m.Covers e.info.fingerprint id → (id ∈ e'.info.roles ↔ id ∈ p.shared.perms.grants e.info.fingerprint)) ∧
        (¬ m.Covers e.info.fingerprint id → (id ∈ e'.info.roles ↔ id ∈ e.info.roles))) :
    Mended (p.set i (some (.working client nonce snapshot d' rest)) s) := by
  have hown : p.Owes i m := ⟨snapshot, _, ⟨_, _, _, hi⟩, hm⟩
  refine ⟨fun e' he' id => ?_, fun k m' hm' => ?_, fun k snapshot' rest' hw => ?_⟩
  · obtain ⟨e, he, hf, hroles⟩ := hclients e' he'
    obtain ⟨hcovered, hkept⟩ := hroles id
    rw [hf]
    simp only [Floor.set_shared, hperms]
    by_cases hc : m.Covers e.info.fingerprint id
    · exact .inl (hcovered hc)
    · rw [hkept hc]
      rcases h.entries e he id with hsame | ⟨k, m', hm', hc'⟩
      · exact .inl hsame
      · have hk : k ≠ i := by
          rintro rfl
          exact hc (owes_unique hown hm' ▸ hc')
        obtain ⟨snapshot', rest', hw, hm'⟩ := hm'
        exact .inr ⟨k, m', ⟨snapshot', rest', (works_set_ne hk _).mpr hw, hm'⟩, hc'⟩
  · obtain ⟨snapshot', rest', hw, hm'⟩ := hm'
    simp only [Floor.set_shared, hperms]
    rcases works_set_working hw with ⟨-, rfl, rfl⟩ | ⟨-, hw⟩
    · rw [hrest] at hm'
      cases hm'
    · exact h.agrees k m' ⟨snapshot', rest', hw, hm'⟩
  · rcases works_set_working hw with ⟨-, rfl, rfl⟩ | ⟨-, hw⟩
    · exact prepared_tail (h.prepared i snapshot' _ ⟨_, _, _, hi⟩)
    · exact h.prepared k snapshot' rest' hw

end

theorem Mended.advance {client : ClientId} {nonce : UInt64} {snapshot : PermState} {d : Desk} {x : Section}
    {rest : List Section} (h : Mended p) (hok : Steady p (.advance i))
    (hi : p.jobs i = some (.working client nonce snapshot d (x :: rest))) :
    Mended (p.set i (some (.working client nonce snapshot (x.run d p.shared).2.1 ((x.run d p.shared).2.2 ++ rest)))
      (x.run d p.shared).1) := by
  have hagrees : ∀ m, owed (x :: rest) = some m → m.Agrees p.shared.perms := fun m hm =>
    h.agrees i m ⟨snapshot, _, ⟨_, _, _, hi⟩, hm⟩
  cases x with
  | swap next =>
    obtain ⟨hcurrent, hothers⟩ := hok snapshot next rest ⟨_, _, _, hi⟩
    exact h.swap hi rfl hcurrent hothers
  | updateLive f roles =>
    refine h.paid hi rfl (h.prepared i snapshot _ ⟨_, _, _, hi⟩).1 rfl fun e' he' => ?_
    obtain ⟨e, he, rfl⟩ := List.mem_map.mp he'
    refine ⟨e, he, by split <;> rfl, fun id => ⟨?_, ?_⟩⟩
    · rintro rfl
      rw [if_pos rfl]
      exact hagrees _ rfl id
    · intro hc
      rw [if_neg (Ne.symm hc)]
  | stripLive role =>
    refine h.paid hi rfl (h.prepared i snapshot _ ⟨_, _, _, hi⟩).1 rfl fun e' he' => ?_
    obtain ⟨e, he, rfl⟩ := List.mem_map.mp he'
    refine ⟨e, he, by split <;> rfl, fun id => ⟨?_, fun hc => ?_⟩⟩
    · rintro rfl
      have hgone := hagrees _ rfl e.info.fingerprint
      split <;> simp_all
    · have hne : id ≠ role := Ne.symm hc
      split <;> simp [hne]
  | _ => exact h.light hi rfl

theorem Mended.step {p' : Floor} {t : Turn} (h : Mended p) (hok : Steady p t) (hst : p.Step t p') : Mended p' := by
  have hkept : ∀ {s : Shared}, SameRoles p.shared s → ∀ e' ∈ s.clients, (∃ e ∈ p.shared.clients,
      e'.info.fingerprint = e.info.fingerprint ∧ e'.info.roles = e.info.roles) ∨
      p.Current e'.info.fingerprint e'.info.roles := fun hs e' he' => .inl (hs e' he')
  have hnone : ∀ {i snapshot rest}, p.jobs i = none → ¬ p.Works i snapshot rest := by
    rintro i snapshot rest hi ⟨_, _, _, hw⟩
    rw [hi] at hw
    cases hw
  cases hst with
  | knock identity hi => exact h.idle (fun _ _ => hnone hi) (by simp) rfl (hkept (.refl _))
  | @insert i identity nickname roles hi hfull =>
    refine h.idle (not_works hi (by simp)) (by simp) rfl fun e' he' => ?_
    rcases Keyed.mem_put.mp he' with rfl | ⟨he', -⟩
    · exact .inr (hok identity nickname roles hi)
    · exact .inl ⟨e', he', rfl, rfl⟩
  | turnAway hi => exact h.idle (not_works hi (by simp)) (by simp) rfl (hkept (.refl _))
  | seePerms hi => exact h.idle (not_works hi (by simp)) (by simp) rfl (hkept (.refl _))
  | look hi => exact h.idle (not_works hi (by simp)) (by simp) rfl (hkept (.refl _))
  | greet hi =>
    refine h.idle (not_works hi (by simp)) (by simp) rfl (hkept ?_)
    rw [Shared.broadcast_eq]
    exact .deliver _ _
  | leave hi hinfo =>
    refine h.idle (not_works hi ?_) (by simp) rfl (hkept fun e he => ⟨e, (Keyed.mem_erase.mp he).1, rfl, rfl⟩)
    rintro _ _ _ _ _ rfl
    cases hinfo
  | @begin i client nonce o hi =>
    refine h.keep rfl (fun k m => ?_) (hkept (.refl _)) fun k snapshot rest hw => ?_
    · by_cases hk : k = i
      · subst hk
        refine ⟨?_, fun ⟨_, _, hw, _⟩ => absurd hw (hnone hi)⟩
        rintro ⟨snapshot, rest, hw, hm⟩
        rcases works_set_working hw with ⟨-, rfl, rfl⟩ | ⟨hne, -⟩
        · cases o <;> cases hm
        · exact absurd rfl hne
      · unfold Floor.Owes
        simp only [works_set_ne hk]
    · rcases works_set_working hw with ⟨-, rfl, rfl⟩ | ⟨-, hw⟩
      · exact o.prepared ..
      · exact h.prepared k snapshot rest hw
  | advance hi => exact h.advance hok hi
  | @fail i client nonce snapshot d call detail rest hi =>
    have hrest : owed rest = none := (h.prepared i snapshot _ ⟨_, _, _, hi⟩).1
    refine h.keep rfl (fun k m => ?_) (hkept ?_) fun k snapshot' rest' hw => ?_
    · by_cases hk : k = i
      · subst hk
        constructor
        · rintro ⟨_, _, ⟨_, _, _, hw⟩, -⟩
          rw [Floor.set_self] at hw
          cases hw
        · rintro ⟨_, _, ⟨_, _, _, hw⟩, hm⟩
          rw [hi] at hw
          cases hw
          rw [owed_light rfl, hrest] at hm
          cases hm
      · unfold Floor.Owes
        simp only [works_set_ne hk]
    · rw [refuse_eq]
      exact .deliver _ _
    · obtain ⟨_, _, _, hw⟩ := hw
      rcases Floor.set_some hw with ⟨-, he⟩ | ⟨-, hw⟩
      · cases he
      · exact h.prepared k snapshot' rest' ⟨_, _, _, hw⟩
  | elsewhere he =>
    obtain ⟨hperms, hs⟩ := he.sameRoles
    exact h.keep hperms (fun _ _ => Iff.rfl) (hkept hs) h.prepared

end

/-- Every session has the grants in force, and its bits are theirs. -/
def Enforced (s : Shared) : Prop :=
  ∀ e ∈ s.clients, (∀ id, id ∈ e.info.roles ↔ id ∈ s.perms.grants e.info.fingerprint) ∧
    ∀ overwrites, s.bits e.info overwrites =
      resolve s.perms.roles (s.perms.grants e.info.fingerprint) e.info.fingerprint e.info.owner overwrites

theorem enforced_of_roles {s : Shared}
    (h : ∀ e ∈ s.clients, ∀ id, id ∈ e.info.roles ↔ id ∈ s.perms.grants e.info.fingerprint) : Enforced s := by
  refine fun e he => ⟨h e he, fun overwrites => ?_⟩
  cases overwrites with
  | none => exact resolve_none_congr (fun _ => rfl) (h e he) ..
  | some ows => exact resolve_some_congr (fun _ => rfl) (h e he) (fun _ => rfl) ..

/-- In every steady run, whenever no command and no handshake is in flight the
sessions enforce the grants in force. -/
theorem enforced_of_steady {p₀ p : Floor} (hjobs : ∀ i, p₀.jobs i = none) (h₀ : Enforced p₀.shared)
    (h : Run Floor.Step Steady p₀ p) (hquiet : ∀ i j, p.jobs i = some j → j.settled) : Enforced p.shared := by
  have hstart : Mended p₀ := by
    refine ⟨fun e he id => .inl ((h₀ e he).1 id), ?_, ?_⟩
    · rintro i m ⟨_, _, ⟨_, _, _, hw⟩, -⟩
      rw [hjobs] at hw
      cases hw
    · rintro i snapshot rest ⟨_, _, _, hw⟩
      rw [hjobs] at hw
      cases hw
  have hm := h.invariant Mended hstart fun _ _ _ hi hok hst => hi.step hok hst
  refine enforced_of_roles fun e he id => ?_
  rcases hm.entries e he id with hsame | ⟨i, m, ⟨snapshot, rest, ⟨client, nonce, d, hw⟩, hm⟩, -⟩
  · exact hsame
  · obtain rfl : rest = [] := hquiet i _ hw
    cases hm

/-! ## A revocation between the two locks of an admission -/

/-- Clients 1 and 2 manage roles; a third member, who holds the role below theirs, is not connected. -/
def doorServer : Shared := ((exampleServer
  [exampleRole 0 0 .defaultEveryone, exampleRole 1 1 .banMembers, exampleRole 2 2 .manageRoles] []
  [exampleClient 1 1 [2] none, exampleClient 2 2 [2] none, exampleClient 3 3 [1] none]).remove 3).2

def doorFloor : Floor := ⟨doorServer, fun _ => none⟩

theorem doorServer_enforced : Enforced doorServer := by
  have hroles : ∀ e ∈ doorServer.clients, e.info.roles = doorServer.perms.grants e.info.fingerprint := by decide
  exact enforced_of_roles fun e he id => by rw [hroles e he]

/-- The role is out of the snapshot. -/
def doorSwapped : Shared := doorServer.swapPermState (grantedPerms doorServer.perms (.rep 3) [])

/-- The third member as it is inserted there, with the grants read before. -/
def doorMember : UserInfo := doorSwapped.newcomer ⟨.rep 3, 8⟩ "n" [1]

theorem steady_advance {p : Floor} {i : Nat} {client : ClientId} {nonce : UInt64} {snapshot : PermState} {d : Desk}
    {x : Section} {rest : List Section} (hi : p.jobs i = some (.working client nonce snapshot d (x :: rest)))
    (hx : ∀ next, x ≠ .swap next) : Steady p (.advance i) := by
  rintro _ next _ ⟨_, _, _, hw⟩
  cases hi.symm.trans hw
  exact absurd rfl (hx next)

/-- A command that has swapped already is steady to its end. -/
theorem steady_through {p : Floor} {i : Nat} {client : ClientId} {nonce : UInt64} {snapshot : PermState} {d : Desk}
    {rest : List Section} (hi : p.jobs i = some (.working client nonce snapshot d rest))
    (hrest : ∀ x ∈ rest, ∀ next, x ≠ .swap next) :
    ∃ d', Run Floor.Step Steady p
      (p.set i (some (.working client nonce snapshot d' [])) (alone rest d p.shared)) := by
  refine Floor.run_through (I := fun _ rest => ∀ x ∈ rest, ∀ next, x ≠ .swap next)
    (fun q d x rest _ hi hI => ⟨steady_advance hi (hI x (List.mem_cons_self ..)), fun s y hy => ?_⟩) (fun _ _ => rfl) hi
    hrest
  rcases List.mem_append.mp hy with hy | hy
  · rintro _ rfl
    cases run_more x d s _ hy
  · exact hI y (List.mem_cons_of_mem _ hy)

/-- The third member is inserted with the role that is just being taken away, which
the command has still to strip from its sessions. -/
theorem enforced_of_steady_revoked : ∃ p, Run Floor.Step Steady doorFloor p ∧
    (∃ e ∈ p.shared.clients, e.info.fingerprint = .rep 3 ∧ e.info.roles = []) ∧ Enforced p.shared := by
  have hinsert : ∃ p d, Run Floor.Step Steady doorFloor p ∧ p.shared = doorSwapped.insertNewcomer doorMember ∧
      d = ⟨doorServer.perms, doorServer.idsUnder doorServer.perms, [], [], []⟩ ∧
      p.jobs 0 = some (.admitted doorMember) ∧ (∀ k, k ≠ 0 → k ≠ 1 → p.jobs k = none) ∧
      p.jobs 1 = some (.working 1 8 doorServer.perms d
        (((Order.setMemberRoles (.rep 3) []).sections 1 8 doorServer.perms).drop 4)) := by
    refine ⟨_, _, .step (.insert 0) (.step (.advance 1) (.step (.advance 1) (.step (.advance 1) (.step (.advance 1)
      (.step (.begin 1 1 8 (.setMemberRoles (.rep 3) [])) (.step (.knock 0 ⟨.rep 3, 8⟩ "n") .refl
      trivial (.knock ⟨.rep 3, 8⟩ rfl (by decide) (by decide +kernel)))
      trivial (.begin 1 8 _ rfl))
      (steady_advance rfl fun _ h => by cases h) (.advance rfl))
      (steady_advance rfl fun _ h => by cases h) (.advance rfl))
      (steady_advance rfl fun _ h => by cases h) (.advance rfl))
      ?_ (.advance rfl))
      ?_ (.insert rfl (by decide +kernel)), rfl, rfl, rfl, ?_, rfl⟩
    · rintro snapshot next rest ⟨_, _, _, hw⟩
      cases hw
      refine ⟨fun _ _ => Iff.rfl, ?_⟩
      rintro k m hk ⟨_, _, ⟨_, _, _, hw⟩, -⟩
      simp only [Floor.set_set] at hw
      rcases Floor.set_some hw with ⟨h, -⟩ | ⟨-, hw⟩
      · exact absurd h hk
      · rcases Floor.set_some hw with ⟨-, hw⟩ | ⟨-, hw⟩ <;> cases hw
    · intro identity nickname roles hi id
      cases hi
      exact .inr ⟨1, _, ⟨_, _, ⟨_, _, _, rfl⟩, rfl⟩, rfl⟩
    · intro k h₀ h₁
      simp [Floor.set, h₀, h₁, doorFloor]
  obtain ⟨p, d, hrun, hs, rfl, hadmitted, hnone, hworks⟩ := hinsert
  have hnoswap : ∀ x ∈ ((Order.setMemberRoles (.rep 3) []).sections 1 8 doorServer.perms).drop 4,
      ∀ next, x ≠ .swap next := by
    rintro _ hx next rfl
    simp [Order.sections, Order.captures, Order.resyncs] at hx
  obtain ⟨d', hwork⟩ := steady_through hworks hnoswap
  rw [hs] at hwork
  have hgreet : ∃ p', Run Floor.Step Steady doorFloor p' ∧ (∀ i j, p'.jobs i = some j → j.settled) ∧
      ∃ e ∈ p'.shared.clients, e.info.fingerprint = .rep 3 ∧ e.info.roles = [] := by
    refine ⟨_, .step (.greet 0) (.step (.look 0) (.step (.seePerms 0) (hrun.trans hwork)
      trivial (.seePerms hadmitted)) trivial (.look (Floor.set_self _))) trivial (.greet (Floor.set_self _)), ?_, ?_⟩
    · intro i j hj
      simp only [Floor.set_set] at hj
      rcases Floor.set_some hj with ⟨-, he⟩ | ⟨h₀, hj⟩
      · cases he
        trivial
      rcases Floor.set_some hj with ⟨-, he⟩ | ⟨h₁, hj⟩
      · cases he
        exact rfl
      rw [hnone i h₀ h₁] at hj
      cases hj
    · simp only [Floor.set_shared]
      decide +kernel
  obtain ⟨p', hrun', hquiet, he⟩ := hgreet
  exact ⟨p', hrun', he, enforced_of_steady (fun _ => rfl) doorServer_enforced hrun' hquiet⟩

/-- The third member's grants have been read, and client 1 has asked to take its role away. -/
def doorBegun : Floor :=
  (doorFloor.set 0 (some (.admitting ⟨.rep 3, 8⟩ "n" (doorServer.memberRoles (.rep 3)))) doorServer).set 1
    (some (.working 1 8 doorServer.perms (.empty doorServer.perms)
      ((Order.setMemberRoles (.rep 3) []).sections 1 8 doorServer.perms))) doorServer

def doorRevoked : Shared :=
  alone ((Order.setMemberRoles (.rep 3) []).sections 1 8 doorServer.perms) (.empty doorServer.perms) doorServer

/-- While the third member is being admitted, client 1 takes its role away. The
handler passes its checks and is acknowledged, both are through, and the session
still holds the role. -/
theorem revocation_missed : Enforced doorServer ∧
    setMemberRoles 1 8 (.rep 3) [] doorServer = (doorServer,
      (Order.setMemberRoles (.rep 3) []).todo 1 8 doorServer.perms
      doorServer.visibleIdsByClient) ∧
    ∃ p, Run Floor.Step (fun _ _ => True) doorFloor p ∧ (∀ i j, p.jobs i = some j → j.settled) ∧
      Acked doorServer p.shared 1 8 ∧ ¬ Enforced p.shared := by
  refine ⟨doorServer_enforced, rfl, ?_⟩
  have hbegin : Run Floor.Step (fun _ _ => True) doorFloor doorBegun :=
    .step (.begin 1 1 8 (.setMemberRoles (.rep 3) [])) (.step (.knock 0 ⟨.rep 3, 8⟩ "n") .refl trivial
      (.knock ⟨.rep 3, 8⟩ rfl (by decide) (by decide +kernel))) trivial (.begin 1 8 _ rfl)
  obtain ⟨d', hwork⟩ := Floor.run_alone (i := 1) (p := doorBegun) rfl
  have hgreet := Floor.run_admitting (i := 0) (p := doorBegun.set 1
    (some (.working 1 8 doorServer.perms d' [])) doorRevoked) rfl (by rw [Floor.set_shared]; decide +kernel)
  refine ⟨_, (hbegin.trans hwork).trans hgreet, ?_, ?_, ?_⟩
  · intro i j hj
    rcases Floor.set_some hj with ⟨-, he⟩ | ⟨h₀, hj⟩
    · cases he
      trivial
    rcases Floor.set_some hj with ⟨-, he⟩ | ⟨h₁, hj⟩
    · cases he
      exact rfl
    simp [doorBegun, doorFloor, Floor.set, h₀, h₁] at hj
  · simp only [Floor.set_shared]
    decide +kernel
  · intro h
    simp only [Floor.set_shared] at h
    have hheld := fun e he => List.all_eq_true.mpr fun id hid => decide_eq_true (((h e he).1 id).mp hid)
    revert hheld
    decide +kernel

end PickleChat
