import Mathlib.Data.Set.Defs
import PickleChat.Perms

/-!
# What resolution decides

A bit of `resolve` by what decides it: sets of roles, grants and overwrites, and
for each channel-scoped bit the first of them to mention it.
-/

namespace PickleChat

open Classical in
/-- The first that applies of a list of verdicts, or what holds without any. -/
noncomputable def firstOf (otherwise : Prop) : List (Prop × Prop) → Prop
  | [] => otherwise
  | (mentioned, verdict) :: rest => if mentioned then verdict else firstOf otherwise rest

/-- Some overwrite for one of these targets has the bit in this half. -/
def Mentions (overwrites : Set Overwrite) (targets : Set OverwriteTarget) (half : Overwrite → Permissions)
    (i : Nat) : Prop :=
  ∃ o ∈ overwrites, o.target ∈ targets ∧ (half o).has i = true

/-- Everyone has it, or an existing role that is granted. -/
def BaseHas (roles : Set Role) (grants : Set RoleId) (i : Nat) : Prop :=
  ∃ r ∈ roles, (r.id = everyoneRoleId ∨ r.id ∈ grants) ∧ r.permissions.has i = true

def grantedTargets (grants : Set RoleId) : Set OverwriteTarget := {t | ∃ id ∈ grants, t = .role id}

/-- What decides a channel-scoped bit, most specific first. -/
noncomputable def DecidedHas (roles : Set Role) (grants : Set RoleId) (member : Fingerprint)
    (overwrites : Set Overwrite) (i : Nat) : Prop :=
  firstOf (BaseHas roles grants i)
    [(Mentions overwrites {.member member} Overwrite.allow i, True),
     (Mentions overwrites {.member member} Overwrite.deny i, False),
     (Mentions overwrites (grantedTargets grants) Overwrite.allow i, True),
     (Mentions overwrites (grantedTargets grants) Overwrite.deny i, False),
     (Mentions overwrites {.role everyoneRoleId} Overwrite.allow i, True),
     (Mentions overwrites {.role everyoneRoleId} Overwrite.deny i, False)]

open Classical in
noncomputable def ChannelHas (roles : Set Role) (grants : Set RoleId) (member : Fingerprint)
    (overwrites : Set Overwrite) (i : Nat) : Prop :=
  if Permissions.channelScoped.has i = true then DecidedHas roles grants member overwrites i
  else BaseHas roles grants i

/-- The permissions of a member, server-wide or in a channel. -/
structure Resolved (roles : Set Role) (grants : Set RoleId) (member : Fingerprint) (owner : Bool)
    (overwrites : Option (Set Overwrite)) (p : Permissions) : Prop where
  everything : (owner = true ∨ BaseHas roles grants 0) → p = .all
  serverWide : ¬ (owner = true ∨ BaseHas roles grants 0) → overwrites = none →
    ∀ i, p.has i = true ↔ BaseHas roles grants i
  inChannel : ¬ (owner = true ∨ BaseHas roles grants 0) → ∀ ows ∈ overwrites, ChannelHas roles grants member ows 16 →
    ∀ i, p.has i = true ↔ ChannelHas roles grants member ows i
  hidden : ¬ (owner = true ∨ BaseHas roles grants 0) → ∀ ows ∈ overwrites, ¬ ChannelHas roles grants member ows 16 →
    p = .none

theorem Resolved.unique {roles : Set Role} {grants : Set RoleId} {member : Fingerprint} {owner : Bool}
    {overwrites : Option (Set Overwrite)} {p q : Permissions} (hp : Resolved roles grants member owner overwrites p)
    (hq : Resolved roles grants member owner overwrites q) : p = q := by
  by_cases h : owner = true ∨ BaseHas roles grants 0
  · rw [hp.everything h, hq.everything h]
  · cases overwrites with
    | none =>
      apply Permissions.ext_has
      intro i
      rw [Bool.eq_iff_iff, hp.serverWide h rfl, hq.serverWide h rfl]
    | some ows =>
      by_cases hv : ChannelHas roles grants member ows 16
      · apply Permissions.ext_has
        intro i
        rw [Bool.eq_iff_iff, hp.inChannel h ows rfl hv, hq.inChannel h ows rfl hv]
      · rw [hp.hidden h ows rfl hv, hq.hidden h ows rfl hv]

/-! ## The code's bits -/

section
variable {roles : List Role} {g : List RoleId} {ows : List Overwrite} {m : Fingerprint}

theorem has_rolePermissions (hu : Keyed.Unique Role.id roles) (id : RoleId) (i : Nat) :
    (rolePermissions roles id).has i = true ↔ ∃ r ∈ roles, r.id = id ∧ r.permissions.has i = true := by
  unfold rolePermissions
  constructor
  · intro h
    cases hget : Keyed.get Role.id id roles with
    | none => simp [hget] at h
    | some r => exact ⟨r, Keyed.get_mem hget, Keyed.get_key hget, by simpa [hget] using h⟩
  · rintro ⟨r, hr, rfl, h⟩
    simpa [Keyed.get_of_mem hu hr] using h

theorem has_base_iff (hu : Keyed.Unique Role.id roles) (i : Nat) :
    (basePermissions roles g).has i = true ↔ BaseHas {r | r ∈ roles} {id | id ∈ g} i := by
  rw [has_base, Bool.or_eq_true, List.any_eq_true, has_rolePermissions hu]
  simp only [has_rolePermissions hu]
  constructor
  · rintro (⟨r, hr, hid, h⟩ | ⟨id, hid, r, hr, rfl, h⟩)
    · exact ⟨r, hr, .inl hid, h⟩
    · exact ⟨r, hr, .inr hid, h⟩
  · rintro ⟨r, hr, hid | hid, h⟩
    · exact .inl ⟨r, hr, hid, h⟩
    · exact .inr ⟨r.id, hid, r, hr, rfl, h⟩

def halfHas (ows : List Overwrite) (t : OverwriteTarget) (half : Overwrite → Permissions) (i : Nat) : Bool :=
  ((Keyed.get Overwrite.target t ows).map fun o => (half o).has i).getD false

theorem halfHas_iff (hu : Keyed.Unique Overwrite.target ows) (t : OverwriteTarget) (half : Overwrite → Permissions)
    (i : Nat) : halfHas ows t half i = true ↔ Mentions {o | o ∈ ows} {t} half i := by
  unfold halfHas
  constructor
  · intro h
    cases hget : Keyed.get Overwrite.target t ows with
    | none => simp [hget] at h
    | some o => exact ⟨o, Keyed.get_mem hget, Keyed.get_key hget, by simpa [hget] using h⟩
  · rintro ⟨o, ho, rfl, h⟩
    simpa [Keyed.get_of_mem hu ho] using h

theorem anyRoleOverwrite_iff (hu : Keyed.Unique Overwrite.target ows) (half : Overwrite → Permissions) (i : Nat) :
    anyRoleOverwrite ows g half i = true ↔ Mentions {o | o ∈ ows} (grantedTargets {id | id ∈ g}) half i := by
  change (g.any fun id => halfHas ows (.role id) half i) = true ↔ _
  rw [List.any_eq_true]
  simp only [halfHas_iff hu]
  constructor
  · rintro ⟨id, hid, o, ho, ht, h⟩
    exact ⟨o, ho, ⟨id, hid, ht⟩, h⟩
  · rintro ⟨o, ho, ⟨id, hid, ht⟩, h⟩
    exact ⟨id, hid, o, ho, ht, h⟩

theorem has_applyTarget (p : Permissions) (t : OverwriteTarget) (i : Nat) :
    (applyOverwrite p (Keyed.get Overwrite.target t ows)).has i =
      (p.has i && !(halfHas ows t Overwrite.deny i && Permissions.channelScoped.has i) ||
        halfHas ows t Overwrite.allow i && Permissions.channelScoped.has i) := by
  unfold halfHas applyOverwrite
  cases Keyed.get Overwrite.target t ows <;> simp

theorem has_channelPermissions_unscoped (base : Permissions) (ows : List Overwrite) (g : List RoleId)
    (m : Fingerprint) {i : Nat} (hi : Permissions.channelScoped.has i = false) :
    (channelPermissions base ows g m).has i = base.has i := by
  rw [has_channelPermissions, overwriteForRole, overwriteForMember, has_applyTarget, has_applyBits,
    has_applyTarget, hi]
  simp

/-- The most specific half of the overwrites to mention a bit, if any does. -/
def verdict (ows : List Overwrite) (g : List RoleId) (m : Fingerprint) (i : Nat) : Option Bool :=
  if halfHas ows (.member m) Overwrite.allow i then some true
  else if halfHas ows (.member m) Overwrite.deny i then some false
  else if anyRoleOverwrite ows g Overwrite.allow i then some true
  else if anyRoleOverwrite ows g Overwrite.deny i then some false
  else if halfHas ows (.role everyoneRoleId) Overwrite.allow i then some true
  else if halfHas ows (.role everyoneRoleId) Overwrite.deny i then some false
  else none

theorem has_channelPermissions_verdict (base : Permissions) (ows : List Overwrite) (g : List RoleId) (m : Fingerprint)
    {i : Nat} (hi : Permissions.channelScoped.has i = true) :
    (channelPermissions base ows g m).has i = (verdict ows g m i).getD (base.has i) := by
  rw [has_channelPermissions, overwriteForRole, overwriteForMember, has_applyTarget, has_applyBits,
    has_applyTarget, (has_roleOverwrites ..).1,
    (has_roleOverwrites ..).2, hi]
  unfold verdict
  -- Each half in turn, from the most specific on.
  cases halfHas ows (.member m) Overwrite.allow i with
  | true => simp
  | false =>
    cases halfHas ows (.member m) Overwrite.deny i with
    | true => simp
    | false =>
      cases anyRoleOverwrite ows g Overwrite.allow i with
      | true => simp
      | false =>
        cases anyRoleOverwrite ows g Overwrite.deny i with
        | true => simp
        | false =>
          cases halfHas ows (.role everyoneRoleId) Overwrite.allow i with
          | true => simp
          | false => cases halfHas ows (.role everyoneRoleId) Overwrite.deny i <;> simp

theorem has_channelPermissions_iff (hu : Keyed.Unique Role.id roles) (ho : Keyed.Unique Overwrite.target ows)
    (i : Nat) :
    (channelPermissions (basePermissions roles g) ows g m).has i = true ↔
      ChannelHas {r | r ∈ roles} {id | id ∈ g} m {o | o ∈ ows} i := by
  unfold ChannelHas
  cases hi : Permissions.channelScoped.has i with
  | false => simpa [has_channelPermissions_unscoped _ _ _ _ hi] using has_base_iff hu i
  | true =>
    rw [if_pos rfl, has_channelPermissions_verdict _ _ _ _ hi]
    unfold DecidedHas verdict
    simp only [firstOf, ← has_base_iff hu, ← halfHas_iff ho, ← anyRoleOverwrite_iff ho]
    split_ifs <;> simp

theorem resolve_resolved (hu : Keyed.Unique Role.id roles) {overwrites : Option (List Overwrite)}
    (ho : ∀ l ∈ overwrites, Keyed.Unique Overwrite.target l) (owner : Bool) :
    Resolved {r | r ∈ roles} {id | id ∈ g} m owner (overwrites.map fun l => {o | o ∈ l})
      (resolve roles g m owner overwrites) := by
  by_cases howner : owner = true
  · subst howner
    exact ⟨fun _ => resolve_owner .., fun h => absurd (.inl rfl) h, fun h => absurd (.inl rfl) h,
      fun h => absurd (.inl rfl) h⟩
  · obtain rfl := Bool.eq_false_iff.mpr howner
    have hadmin := has_base_iff (g := g) hu 0
    cases overwrites with
    | none =>
      rw [resolve_none]
      constructor
      · rintro (h | h)
        · cases h
        · rw [if_pos (hadmin.mpr h)]
      · intro h _ i
        rw [if_neg fun hb => h (.inr (hadmin.mp hb))]
        exact has_base_iff hu i
      · rintro _ ows ⟨⟩
      · rintro _ ows ⟨⟩
    | some l =>
      have hbits := has_channelPermissions_iff (g := g) (m := m) hu (ho l rfl)
      rw [resolve_some]
      constructor
      · rintro (h | h)
        · cases h
        · rw [if_pos (hadmin.mpr h)]
      · intro _ h
        cases h
      · intro h ows hows hview i
        cases hows
        rw [if_neg fun hb => h (.inr (hadmin.mp hb)), if_pos ((hbits 16).mpr hview)]
        exact hbits i
      · intro h ows hows hview
        cases hows
        rw [if_neg fun hb => h (.inr (hadmin.mp hb)), if_neg fun hv => hview ((hbits 16).mp hv)]

end

/-! ## What plays no part -/

/-- An overwrite that can decide something for a member with these grants, whether
or not a role has the id it names. -/
def Applies (g : List RoleId) (m : Fingerprint) (o : Overwrite) : Prop :=
  o.target = .member m ∨ o.target = .role everyoneRoleId ∨ ∃ id ∈ g, o.target = .role id

/-- The same roles, the same grants of them, and the same overwrites that apply. -/
structure SameRules (m : Fingerprint) (roles roles' : List Role) (g g' : List RoleId)
    (ows ows' : Option (List Overwrite)) : Prop where
  table : ∀ r, r ∈ roles ↔ r ∈ roles'
  held : ∀ r ∈ roles, (r.id ∈ g ↔ r.id ∈ g')
  channel : ows = none ↔ ows' = none
  applying : ∀ l ∈ ows, ∀ l' ∈ ows', ∀ o, (o ∈ l ∧ Applies g m o) ↔ (o ∈ l' ∧ Applies g' m o)

section
variable {roles roles' : List Role} {g g' : List RoleId} {m : Fingerprint}

theorem SameRules.base {ows ows' : Option (List Overwrite)} (h : SameRules m roles roles' g g' ows ows')
    (i : Nat) : BaseHas {r | r ∈ roles'} {id | id ∈ g'} i ↔ BaseHas {r | r ∈ roles} {id | id ∈ g} i := by
  constructor
  · rintro ⟨r, hr, hid, hb⟩
    have hr := (h.table r).mpr hr
    exact ⟨r, hr, hid.imp_right (h.held r hr).mpr, hb⟩
  · rintro ⟨r, hr, hid, hb⟩
    exact ⟨r, (h.table r).mp hr, hid.imp_right (h.held r hr).mp, hb⟩

theorem SameRules.mentions {l l' : List Overwrite} (h : SameRules m roles roles' g g' (some l) (some l'))
    (hg : everyoneRoleId ∉ g) (hg' : everyoneRoleId ∉ g') (half : Overwrite → Permissions) (i : Nat) :
    Mentions {o | o ∈ l'} {.member m} half i = Mentions {o | o ∈ l} {.member m} half i ∧
    Mentions {o | o ∈ l'} (grantedTargets {id | id ∈ g'}) half i =
      Mentions {o | o ∈ l} (grantedTargets {id | id ∈ g}) half i ∧
    Mentions {o | o ∈ l'} {.role everyoneRoleId} half i = Mentions {o | o ∈ l} {.role everyoneRoleId} half i := by
  have hcongr : ∀ {targets targets' : Set OverwriteTarget},
      (∀ o, o ∈ l' ∧ o.target ∈ targets' ↔ o ∈ l ∧ o.target ∈ targets) →
      Mentions {o | o ∈ l'} targets' half i = Mentions {o | o ∈ l} targets half i := by
    intro targets targets' hiff
    apply propext
    constructor
    · rintro ⟨o, ho, ht, hb⟩
      exact ⟨o, ((hiff o).mp ⟨ho, ht⟩).1, ((hiff o).mp ⟨ho, ht⟩).2, hb⟩
    · rintro ⟨o, ho, ht, hb⟩
      exact ⟨o, ((hiff o).mpr ⟨ho, ht⟩).1, ((hiff o).mpr ⟨ho, ht⟩).2, hb⟩
  have happly := h.applying l rfl l' rfl
  refine ⟨hcongr fun o => ?_, hcongr fun o => ?_, hcongr fun o => ?_⟩
  · apply and_congr_left
    intro ht
    exact ⟨fun ho => ((happly o).mpr ⟨ho, .inl ht⟩).1, fun ho => ((happly o).mp ⟨ho, .inl ht⟩).1⟩
  · -- Nobody is granted everyone's role, so the grant is what the overwrite applies by.
    have hgranted : ∀ {g : List RoleId}, everyoneRoleId ∉ g → Applies g m o →
        (∃ id, o.target = .role id ∧ id ≠ everyoneRoleId) → ∃ id ∈ g, o.target = .role id := by
      rintro g hg (ht | ht | ht) ⟨id, hid, hne⟩
      · cases ht.symm.trans hid
      · cases ht.symm.trans hid
        exact absurd rfl hne
      · exact ht
    constructor
    · rintro ⟨ho, id, hid, ht⟩
      have hl := (happly o).mpr ⟨ho, .inr (.inr ⟨id, hid, ht⟩)⟩
      exact ⟨hl.1, hgranted hg hl.2 ⟨id, ht, fun he => hg' (he ▸ hid)⟩⟩
    · rintro ⟨ho, id, hid, ht⟩
      have hl := (happly o).mp ⟨ho, .inr (.inr ⟨id, hid, ht⟩)⟩
      exact ⟨hl.1, hgranted hg' hl.2 ⟨id, ht, fun he => hg (he ▸ hid)⟩⟩
  · apply and_congr_left
    intro ht
    exact ⟨fun ho => ((happly o).mpr ⟨ho, .inr (.inl ht)⟩).1, fun ho => ((happly o).mp ⟨ho, .inr (.inl ht)⟩).1⟩

theorem SameRules.channelHas {l l' : List Overwrite} (h : SameRules m roles roles' g g' (some l) (some l'))
    (hg : everyoneRoleId ∉ g) (hg' : everyoneRoleId ∉ g') (i : Nat) :
    ChannelHas {r | r ∈ roles'} {id | id ∈ g'} m {o | o ∈ l'} i =
      ChannelHas {r | r ∈ roles} {id | id ∈ g} m {o | o ∈ l} i := by
  obtain ⟨hm, hr, he⟩ := h.mentions hg hg' Overwrite.allow i
  obtain ⟨hm', hr', he'⟩ := h.mentions hg hg' Overwrite.deny i
  unfold ChannelHas DecidedHas
  rw [hm, hr, he, hm', hr', he', propext (h.base i)]

theorem Resolved.same {ows ows' : Option (List Overwrite)} {owner : Bool} {p : Permissions}
    (h : SameRules m roles roles' g g' ows ows') (hg : everyoneRoleId ∉ g) (hg' : everyoneRoleId ∉ g')
    (hp : Resolved {r | r ∈ roles'} {id | id ∈ g'} m owner (ows'.map fun l => {o | o ∈ l}) p) :
    Resolved {r | r ∈ roles} {id | id ∈ g} m owner (ows.map fun l => {o | o ∈ l}) p := by
  have hbase := fun i => propext (h.base i)
  cases ows with
  | none =>
    obtain rfl := h.channel.mp rfl
    constructor
    · simpa only [hbase] using hp.everything
    · simpa only [hbase] using hp.serverWide
    · rintro _ ows ⟨⟩
    · rintro _ ows ⟨⟩
  | some l =>
    cases ows' with
    | none => cases h.channel.mpr rfl
    | some l' =>
      have hchannel := h.channelHas hg hg'
      constructor
      · simpa only [hbase] using hp.everything
      · intro _ he
        cases he
      · intro hnot ows hows
        cases hows
        have := hp.inChannel
        simp only [hbase] at this
        simpa only [hchannel] using this hnot _ rfl
      · intro hnot ows hows
        cases hows
        have := hp.hidden
        simp only [hbase] at this
        simpa only [hchannel] using this hnot _ rfl

/-- `resolve` gives what is described; so order and repetition play no part, nor do
grants that name neither a role nor the target of an overwrite, nor overwrites
for others or for a role not held. -/
theorem resolve_decided (hu : Keyed.Unique Role.id roles) (hg : everyoneRoleId ∉ g) (owner : Bool)
    {ows : Option (List Overwrite)} (ho : ∀ l ∈ ows, Keyed.Unique Overwrite.target l) :
    Resolved {r | r ∈ roles} {id | id ∈ g} m owner (ows.map fun l => {o | o ∈ l}) (resolve roles g m owner ows) ∧
    ∀ roles' g' ows', Keyed.Unique Role.id roles' → everyoneRoleId ∉ g' →
      (∀ l ∈ ows', Keyed.Unique Overwrite.target l) → SameRules m roles roles' g g' ows ows' →
      resolve roles' g' m owner ows' = resolve roles g m owner ows := by
  refine ⟨resolve_resolved hu ho owner, ?_⟩
  intro roles' g' ows' hu' hg' ho' hsame
  have hother := Resolved.same hsame hg hg' (resolve_resolved hu' ho' owner)
  exact hother.unique (resolve_resolved hu ho owner)

end

def stageRoles : List Role :=
  [⟨0, "everyone", none, 0, .viewChannel⟩, ⟨2, "speaker", none, 1, .none⟩]

def stageOverwrites : List Overwrite := [⟨.role 2, .speak, .none⟩, ⟨.role 5, .none, .viewChannel⟩]

theorem resolve_decided_stage :
    Resolved {r | r ∈ stageRoles} {id | id ∈ [2]} (.rep 1) false (some {o | o ∈ stageOverwrites})
      (resolve stageRoles [2] (.rep 1) false (some stageOverwrites)) ∧
    resolve stageRoles.reverse [9, 2, 2] (.rep 1) false (some (stageOverwrites.take 1)) =
      resolve stageRoles [2] (.rep 1) false (some stageOverwrites) := by
  have huniq : Keyed.Unique Role.id stageRoles := by simp [stageRoles, Keyed.Unique]
  have howners : ∀ l ∈ some stageOverwrites, Keyed.Unique Overwrite.target l := by simp [stageOverwrites, Keyed.Unique]
  have hspec := resolve_decided (m := .rep 1) (g := [2]) huniq (by decide) false howners
  refine ⟨hspec.1, hspec.2 _ _ _ (by simp [stageRoles, Keyed.Unique]) (by decide)
    (by simp [stageOverwrites, Keyed.Unique]) ?_⟩
  refine ⟨by simp, by simp [stageRoles], by simp, ?_⟩
  rintro l ⟨⟩ l' ⟨⟩ o
  simp only [stageOverwrites, Applies, everyoneRoleId, List.take, List.mem_cons, List.not_mem_nil, or_false]
  constructor
  · rintro ⟨rfl | rfl, ht⟩
    · simp
    · simp at ht
  · rintro ⟨rfl, -⟩
    simp

end PickleChat
