import PickleChat.Config
import PickleChat.Restart

/-!
# A start that is cut short

On an empty database `Server::bind` writes the channels of the config one by
one, then the default roles. Each table is seeded only when it is found empty,
so what a start that stopped inside one of the two loops left is taken for the
whole table by the next.
-/

namespace PickleChat

inductive SeedWrite where
  | channel (c : Channel)
  | role (r : Role)

def SeedWrite.perform (db : Db) : SeedWrite → Option Db
  | .channel c => db.insertChannel c
  | .role r => db.insertRole r

def seedWrites (config : ServerConfig) (db : Db) : List SeedWrite :=
  (if db.loadChannels = [] then (buildChannels config).map .channel else []) ++
    if db.loadRoles = [] then defaultRoles.map .role else []

/-- What a first start leaves when it stops after `k` writes; the calls between only read. -/
def stoppedAfter (config : ServerConfig) (k : Nat) : Option Db :=
  ((seedWrites config .empty).take k).foldlM SeedWrite.perform .empty

/-! ## The two loops -/

theorem insertChannels_eq (l : List Channel) (db : Db) :
    l.foldlM Db.insertChannel db =
      ((l.map channelRow).foldlM Keyed.Table.insert db.channels).map fun t => { db with channels := t } := by
  induction l generalizing db with
  | nil => rfl
  | cons c l ih =>
    rw [List.map_cons, List.foldlM_cons, List.foldlM_cons]
    unfold Db.insertChannel
    cases db.channels.insert (channelRow c) with
    | none => rfl
    | some t => exact ih _

theorem insertRoles_eq (l : List Role) (db : Db) :
    l.foldlM Db.insertRole db =
      ((l.map roleRow).foldlM Keyed.Table.insert db.roles).map fun t => { db with roles := t } := by
  induction l generalizing db with
  | nil => rfl
  | cons r l ih =>
    rw [List.map_cons, List.foldlM_cons, List.foldlM_cons]
    unfold Db.insertRole
    cases db.roles.insert (roleRow r) with
    | none => rfl
    | some t => exact ih _

theorem insertChannels_tables {l : List Channel} {db db' : Db} (h : l.foldlM Db.insertChannel db = some db') :
    db' = { db with channels := db'.channels } := by
  rw [insertChannels_eq] at h
  obtain ⟨t, -, rfl⟩ := Option.map_eq_some_iff.mp h
  rfl

theorem insertRoles_tables {l : List Role} {db db' : Db} (h : l.foldlM Db.insertRole db = some db') :
    db' = { db with roles := db'.roles } := by
  rw [insertRoles_eq] at h
  obtain ⟨t, -, rfl⟩ := Option.map_eq_some_iff.mp h
  rfl

theorem insertRoles_default {db : Db} (h : db.roles.rows = []) :
    ∃ db', defaultRoles.foldlM Db.insertRole db = some db' := by
  obtain ⟨t, ht⟩ := Keyed.Table.foldlM_insert (t := db.roles) (l := defaultRoles.map roleRow) (by rw [h]; decide)
  rw [insertRoles_eq, ht]
  exact ⟨_, rfl⟩

theorem seedWrites_perform (channels : List Channel) (roles : List Role) (db : Db) :
    (channels.map SeedWrite.channel ++ roles.map SeedWrite.role).foldlM SeedWrite.perform db =
      (channels.foldlM Db.insertChannel db).bind fun db => roles.foldlM Db.insertRole db := by
  rw [List.foldlM_append, List.foldlM_map]
  simp only [List.foldlM_map]
  rfl

theorem bind_writes {config : ServerConfig} {now : UInt64} {db db' : Db} {s : Shared}
    (h : Server.bind config now db = some (s, db')) :
    (seedWrites config db).foldlM SeedWrite.perform db = some db' := by
  obtain ⟨channels, db₁, roles, hc, hr, -⟩ := bind_some h
  have hroles : db₁.loadRoles = db.loadRoles := by
    unfold loadOrSeedChannels at hc
    split at hc
    · obtain ⟨db₂, h₂, he⟩ := Option.map_eq_some_iff.mp hc
      cases he
      rw [insertChannels_tables h₂]
      rfl
    · cases hc
      rfl
  have hall : (seedWrites config db).foldlM SeedWrite.perform db =
      ((if db.loadChannels = [] then buildChannels config else []).foldlM Db.insertChannel db).bind fun db₁ =>
        (if db.loadRoles = [] then defaultRoles else []).foldlM Db.insertRole db₁ := by
    rw [← seedWrites_perform]
    unfold seedWrites
    split <;> split <;> rfl
  rw [hall]
  have hfirst : (if db.loadChannels = [] then buildChannels config else []).foldlM Db.insertChannel db = some db₁ := by
    unfold loadOrSeedChannels at hc
    split at hc
    · obtain ⟨db₂, h₂, he⟩ := Option.map_eq_some_iff.mp hc
      cases he
      rwa [if_pos ‹_›]
    · cases hc
      rw [if_neg ‹_›]
      rfl
  rw [hfirst, Option.bind_some]
  unfold loadOrSeedRoles at hr
  rw [← hroles]
  split at hr
  · obtain ⟨db₂, h₂, he⟩ := Option.map_eq_some_iff.mp hr
    cases he
    rwa [if_pos ‹_›]
  · cases hr
    rw [if_neg ‹_›]
    rfl

/-! ## Where a start may stop -/

theorem stoppedAfter_eq (config : ServerConfig) (k : Nat) :
    stoppedAfter config k = (((buildChannels config).take k).foldlM Db.insertChannel .empty).bind fun db =>
      (defaultRoles.take (k - config.channels.length)).foldlM Db.insertRole db := by
  have hlen : (buildChannels config).length = config.channels.length := by
    rw [buildChannels_eq, List.length_map, List.length_zipIdx]
  have hwrites : seedWrites config .empty = (buildChannels config).map .channel ++ defaultRoles.map .role := rfl
  unfold stoppedAfter
  rw [hwrites, List.take_append, ← List.map_take, ← List.map_take, seedWrites_perform, List.length_map, hlen]

theorem stoppedAfter_some {config : ServerConfig} {k : Nat} {mid : Db} (h : stoppedAfter config k = some mid) :
    ∃ db₁, ((buildChannels config).take k).foldlM Db.insertChannel .empty = some db₁ ∧
      (defaultRoles.take (k - config.channels.length)).foldlM Db.insertRole db₁ = some mid ∧
      mid.channels.rows = ((buildChannels config).take k).map channelRow ∧
      mid.roles.rows = (defaultRoles.take (k - config.channels.length)).map roleRow := by
  rw [stoppedAfter_eq] at h
  obtain ⟨db₁, h₁, h₂⟩ := Option.bind_eq_some_iff.mp h
  have hroles := (insertRoles_rows h₂).1
  rw [(insertRoles_rows h₂).2.1, (insertChannels_rows h₁).1]
  rw [insertChannels_tables h₁] at hroles
  exact ⟨db₁, h₁, h₂, rfl, hroles⟩

/-! ## The next start -/

section
variable {config : ServerConfig}

theorem loadRoles_seeded {db : Db} (h : db.roles.rows = defaultRoles.map roleRow) : db.loadRoles = defaultRoles := by
  unfold Db.loadRoles
  rw [h]
  decide +kernel

theorem loadChannels_nil {db : Db} : db.loadChannels = [] ↔ db.channels.rows = [] := by
  unfold Db.loadChannels
  rw [List.map_eq_nil_iff]
  constructor
  · intro h
    have hlen := congrArg List.length h
    rw [List.length_insertionSort] at hlen
    exact List.length_eq_zero_iff.mp hlen
  · intro h
    rw [h]
    rfl

theorem loadRoles_nil {db : Db} : db.loadRoles = [] ↔ db.roles.rows = [] := by
  unfold Db.loadRoles
  rw [List.map_eq_nil_iff]
  constructor
  · intro h
    have hlen := congrArg List.length h
    rw [List.length_insertionSort] at hlen
    exact List.length_eq_zero_iff.mp hlen
  · intro h
    rw [h]
    rfl

/-- Channels read back from the rows of a seed are the seed, in another order. -/
theorem loadChannels_seeded {db : Db} (h : db.channels.rows = (buildChannels config).map channelRow) :
    db.loadChannels.Perm (buildChannels config) := by
  have hback : (buildChannels config).map (rowToChannel ∘ channelRow) = buildChannels config := by
    refine (List.map_congr_left fun c hc => ?_).trans (List.map_id _)
    obtain ⟨d, i, -, rfl⟩ := mem_buildChannels.mp hc
    exact rowToChannel_channelRow _
  unfold Db.loadChannels
  rw [h]
  refine ((List.perm_insertionSort _ _).map rowToChannel).trans ?_
  rw [List.map_map, hback]

theorem insertChannels_seed (hlen : config.channels.length ≤ 2 ^ 32) :
    ∃ db, (buildChannels config).foldlM Db.insertChannel .empty = some db := by
  have hids : (((buildChannels config).map channelRow).map ChannelRow.id).Nodup := by
    rw [List.map_map, show ChannelRow.id ∘ channelRow = Word.toColumn ∘ Channel.id from rfl, ← List.map_map]
    exact List.Nodup.map (fun a b hab => Word.toColumn_inj hab) (unique_buildChannels hlen)
  obtain ⟨t, ht⟩ := Keyed.Table.foldlM_insert (t := Db.empty.channels) (l := (buildChannels config).map channelRow) hids
  rw [insertChannels_eq, ht]
  exact ⟨_, rfl⟩

/-- What start-up makes of what it read, when there are no messages and no overwrites. -/
theorem bind_of_loads {now : UInt64} {db db₁ db₂ : Db} {channels : List Channel} {roles : List Role}
    (hmessages : db.messages = Db.empty.messages) (hc : loadOrSeedChannels config db = some (channels, db₁))
    (hr : loadOrSeedRoles db₁ = some (roles, db₂)) (hover : db₂.channelOverwrites = Db.empty.channelOverwrites) :
    Server.bind config now db =
      some (Shared.new config channels ⟨roles, gatherGrants db₂.loadRoleMembers⟩ true now, db₂) := by
  have hhighest : db.highestMessageId = none := by
    unfold Db.highestMessageId
    rw [hmessages]
    rfl
  have hnone : db₂.loadOverwrites = [] := by
    unfold Db.loadOverwrites
    rw [hover]
    rfl
  unfold Server.bind
  rw [hhighest, hc]
  dsimp only
  rw [hr]
  dsimp only
  rw [hnone]
  rfl

/-! ## A first start -/

/-- Tables and memory hold the channels of the config and the default roles. -/
structure FullSeed (config : ServerConfig) (s : Shared) (db : Db) : Prop where
  channelRows : db.channels.rows = (buildChannels config).map channelRow
  roleRows : db.roles.rows = defaultRoles.map roleRow
  channels : s.channels.Perm (buildChannels config)
  roles : s.perms.roles = defaultRoles

theorem firstBoot {now : UInt64} {db₁ db₂ : Db} (h₁ : (buildChannels config).foldlM Db.insertChannel .empty = some db₁)
    (h₂ : defaultRoles.foldlM Db.insertRole db₁ = some db₂) :
    Server.bind config now .empty =
      some (Shared.new config (buildChannels config) ⟨defaultRoles, gatherGrants db₂.loadRoleMembers⟩ true now,
        db₂) := by
  have hc : loadOrSeedChannels config .empty = some (buildChannels config, db₁) := by
    unfold loadOrSeedChannels
    rw [if_pos (by rfl), h₁]
    rfl
  have hr : loadOrSeedRoles db₁ = some (defaultRoles, db₂) := by
    have hnil : db₁.loadRoles = [] := by
      rw [insertChannels_tables h₁]
      rfl
    unfold loadOrSeedRoles
    rw [if_pos hnil, h₂]
    rfl
  refine bind_of_loads rfl hc hr ?_
  rw [insertRoles_tables h₂, insertChannels_tables h₁]

theorem firstBoot_full {now : UInt64} {s : Shared} {db : Db} (h : Server.bind config now .empty = some (s, db)) :
    FullSeed config s db := by
  have hwrites := bind_writes h
  have hwrites : (((buildChannels config).map SeedWrite.channel) ++ defaultRoles.map SeedWrite.role).foldlM
      SeedWrite.perform .empty = some db := hwrites
  rw [seedWrites_perform] at hwrites
  obtain ⟨db₁, h₁, h₂⟩ := Option.bind_eq_some_iff.mp hwrites
  have hchannels : db.channels.rows = (buildChannels config).map channelRow := by
    rw [(insertRoles_rows h₂).2.1]
    exact (insertChannels_rows h₁).1
  have hroles : db.roles.rows = defaultRoles.map roleRow := by
    have hrows := (insertRoles_rows h₂).1
    rwa [insertChannels_tables h₁] at hrows
  have hids : Keyed.Unique Channel.id (buildChannels config) :=
    unique_of_rows (by rw [← hchannels])
  rw [firstBoot h₁ h₂] at h
  cases h
  refine ⟨hchannels, hroles, ?_, rfl⟩
  obtain ⟨hsorted, hmem⟩ := Keyed.foldl_putSorted hids List.Pairwise.nil (by simp)
  refine (List.perm_ext_iff_of_nodup (List.Nodup.of_map _ (Keyed.Unique.of_sorted hsorted))
    (List.Nodup.of_map _ hids)).mpr fun c => ?_
  rw [hmem]
  simp

theorem firstBoot_completes (hlen : config.channels.length ≤ 2 ^ 32) (now : UInt64) :
    ∃ s db, Server.bind config now .empty = some (s, db) := by
  obtain ⟨db₁, h₁⟩ := insertChannels_seed hlen
  obtain ⟨db₂, h₂⟩ := insertRoles_default (show db₁.roles.rows = [] by rw [insertChannels_tables h₁]; rfl)
  exact ⟨_, _, firstBoot h₁ h₂⟩

/-! ## After a stop -/

/-- The next start ends as a first start that was never interrupted: with the
same tables and memory, which hold the whole seed. -/
structure SeedsAgain (config : ServerConfig) (mid : Db) : Prop where
  same : ∀ now, Server.bind config now mid = Server.bind config now .empty
  full : ∀ now s db, Server.bind config now mid = some (s, db) → FullSeed config s db
  completes : config.channels.length ≤ 2 ^ 32 → ∀ now, ∃ s db, Server.bind config now mid = some (s, db)

theorem SeedsAgain.of_same {mid : Db} (h : ∀ now, Server.bind config now mid = Server.bind config now .empty) :
    SeedsAgain config mid where
  same := h
  full now s db hb := firstBoot_full (by rw [← h, hb])
  completes hlen now := by
    rw [h]
    exact firstBoot_completes hlen now

/-- Once the channels are all there, a start with no roles or with all of them loses nothing. -/
theorem same_of_channels {mid db₁ db₂ : Db} (h₁ : (buildChannels config).foldlM Db.insertChannel .empty = some db₁)
    (h₂ : defaultRoles.foldlM Db.insertRole db₁ = some db₂) (hrows : mid.channels = db₁.channels)
    (hmessages : mid.messages = Db.empty.messages) (hr : loadOrSeedRoles mid = some (defaultRoles, db₂))
    (now : UInt64) :
    Server.bind config now mid = Server.bind config now .empty := by
  have hrows' : mid.channels.rows = (buildChannels config).map channelRow := by
    rw [hrows]
    exact (insertChannels_rows h₁).1
  have hperm := loadChannels_seeded hrows'
  have hids : Keyed.Unique Channel.id (buildChannels config) := unique_of_rows (by rw [← hrows'])
  have hc : ∃ channels, loadOrSeedChannels config mid = some (channels, mid) ∧
      channels.Perm (buildChannels config) := by
    unfold loadOrSeedChannels
    split
    · rename_i hempty
      have hnil : buildChannels config = [] := by
        rw [hempty] at hperm
        exact hperm.symm.eq_nil
      rw [hnil]
      exact ⟨[], rfl, .refl _⟩
    · exact ⟨_, rfl, hperm⟩
  obtain ⟨channels, hc, hperm⟩ := hc
  rw [firstBoot h₁ h₂, bind_of_loads hmessages hc hr (by rw [insertRoles_tables h₂, insertChannels_tables h₁])]
  unfold Shared.new
  rw [Keyed.foldl_putSorted_perm hperm (hids.perm hperm.symm)]

theorem bind_keeps_channels {now : UInt64} {mid db : Db} {s : Shared} (h : Server.bind config now mid = some (s, db))
    (hne : mid.channels.rows ≠ []) : db.channels.rows = mid.channels.rows := by
  obtain ⟨channels, db₁, roles, hc, hr, -⟩ := bind_some h
  unfold loadOrSeedChannels at hc
  rw [if_neg fun hnil => hne (loadChannels_nil.mp hnil)] at hc
  cases hc
  rw [(loadOrSeedRoles_tables hr).1]

theorem bind_keeps_roles {now : UInt64} {mid db : Db} {s : Shared} (h : Server.bind config now mid = some (s, db))
    (hne : mid.roles.rows ≠ []) : db.roles.rows = mid.roles.rows := by
  obtain ⟨channels, db₁, roles, hc, hr, -⟩ := bind_some h
  have hsame : db₁.roles = mid.roles := by
    unfold loadOrSeedChannels at hc
    split at hc
    · obtain ⟨db₂, h₂, he⟩ := Option.map_eq_some_iff.mp hc
      cases he
      rw [insertChannels_tables h₂]
    · cases hc
      rfl
  unfold loadOrSeedRoles at hr
  rw [if_neg fun hnil => hne (hsame ▸ loadRoles_nil.mp hnil)] at hr
  cases hr
  rw [hsame]

theorem bind_completes {mid : Db} (hne : mid.channels.rows ≠ []) (now : UInt64) :
    ∃ s db, Server.bind config now mid = some (s, db) := by
  have hc : loadOrSeedChannels config mid = some (mid.loadChannels, mid) := by
    unfold loadOrSeedChannels
    rw [if_neg fun hnil => hne (loadChannels_nil.mp hnil)]
  have hr : ∃ roles db, loadOrSeedRoles mid = some (roles, db) := by
    unfold loadOrSeedRoles
    split
    · obtain ⟨db, hdb⟩ := insertRoles_default (loadRoles_nil.mp ‹_›)
      rw [hdb]
      exact ⟨_, _, rfl⟩
    · exact ⟨_, _, rfl⟩
  obtain ⟨roles, db, hr⟩ := hr
  unfold Server.bind
  rw [hc]
  dsimp only
  rw [hr]
  dsimp only
  split <;> exact ⟨_, _, rfl⟩

/-- The next start makes up for one that stopped just when that one had not
begun to write, had written every channel and no role, or had written it all. -/
theorem seedsAgain_iff {k : Nat} {mid : Db} (hstop : stoppedAfter config k = some mid) :
    SeedsAgain config mid ↔
      k = 0 ∨ k = config.channels.length ∨ config.channels.length + defaultRoles.length ≤ k := by
  obtain ⟨db₁, h₁, h₂, hchannels, hroles⟩ := stoppedAfter_some hstop
  have hlen : (buildChannels config).length = config.channels.length := by
    rw [buildChannels_eq, List.length_map, List.length_zipIdx]
  constructor
  · intro h
    by_contra hk
    simp only [not_or, Nat.not_le] at hk
    obtain ⟨hzero, hall, hend⟩ := hk
    -- Both loops leave fewer rows than a whole seed has; a start that finds rows adds none.
    by_cases hlt : k < config.channels.length
    · have hcount : mid.channels.rows.length = k := by
        rw [hchannels, List.length_map, List.length_take, hlen]
        omega
      have hne : mid.channels.rows ≠ [] := fun hnil => hzero (by rw [← hcount, hnil]; rfl)
      obtain ⟨s, db, hb⟩ := bind_completes hne 0
      have hfull := (h.full 0 s db hb).channelRows
      rw [bind_keeps_channels hb hne] at hfull
      rw [hfull, List.length_map, hlen] at hcount
      omega
    · have hcount : mid.roles.rows.length = k - config.channels.length := by
        rw [hroles, List.length_map, List.length_take]
        omega
      have hne : mid.roles.rows ≠ [] := by
        intro hnil
        rw [hnil, List.length_nil] at hcount
        omega
      have hsome : ∃ s db, Server.bind config 0 mid = some (s, db) := by
        by_cases hempty : mid.channels.rows = []
        · rw [h.same]
          refine firstBoot_completes ?_ 0
          rw [hchannels, List.map_eq_nil_iff, List.take_eq_nil_iff] at hempty
          rcases hempty with hempty | hempty
          · exact absurd hempty hzero
          · rw [← hlen, hempty]
            exact Nat.zero_le _
        · exact bind_completes hempty 0
      obtain ⟨s, db, hb⟩ := hsome
      have hfull := (h.full 0 s db hb).roleRows
      rw [bind_keeps_roles hb hne] at hfull
      rw [hfull, List.length_map] at hcount
      omega
  · intro hk
    apply SeedsAgain.of_same
    intro now
    by_cases hzero : k = 0
    · subst hzero
      obtain rfl := Option.some.inj (hstop : some Db.empty = some mid)
      rfl
    have hle : config.channels.length ≤ k := by omega
    rw [List.take_of_length_le (by rw [hlen]; exact hle)] at h₁
    obtain ⟨db₂, h₃⟩ := insertRoles_default (show db₁.roles.rows = [] by rw [insertChannels_tables h₁]; rfl)
    by_cases hend : config.channels.length + defaultRoles.length ≤ k
    · rw [List.take_of_length_le (by omega)] at h₂ hroles
      obtain rfl := Option.some.inj (h₂.symm.trans h₃)
      have hr : loadOrSeedRoles mid = some (defaultRoles, mid) := by
        unfold loadOrSeedRoles
        rw [loadRoles_seeded hroles, if_neg (by decide)]
      refine same_of_channels h₁ h₃ (insertRoles_rows h₂).2.1 ?_ hr now
      rw [insertRoles_tables h₂, insertChannels_tables h₁]
    · have hkn : k - config.channels.length = 0 := by omega
      rw [hkn] at h₂
      obtain rfl := Option.some.inj (h₂ : some db₁ = some mid)
      have hr : loadOrSeedRoles db₁ = some (defaultRoles, db₂) := by
        have hnil : db₁.loadRoles = [] := by
          rw [insertChannels_tables h₁]
          rfl
        unfold loadOrSeedRoles
        rw [if_pos hnil, h₃]
        rfl
      refine same_of_channels h₁ h₃ rfl ?_ hr now
      rw [insertChannels_tables h₁]

end

/-- The start that stopped between the two loops. -/
theorem seedsAgain_iff_lobby : ∃ mid, stoppedAfter lobbyFile 2 = some mid ∧ SeedsAgain lobbyFile mid :=
  ⟨_, rfl, (@seedsAgain_iff lobbyFile 2 _ rfl).mpr (.inr (.inl rfl))⟩

/-- A start that stopped after the first of two channels: the second never comes. -/
theorem lobby_half_seeded : lobbyFile.validate = .ok () ∧
    ∃ mid, stoppedAfter lobbyFile 1 = some mid ∧ ¬ SeedsAgain lobbyFile mid := by
  refine ⟨by decide +kernel, _, rfl, fun h => ?_⟩
  have hsame := congrArg (Option.map fun r => r.1.channels.length) (h.same 5)
  revert hsame
  decide +kernel

end PickleChat
