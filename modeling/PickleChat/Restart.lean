import PickleChat.ChannelMirror
import PickleChat.Serve
import PickleChat.Bind

/-!
# Restarts

Memory and tables are written by separate code. A server whose tables hold its
snapshot and its channel map keeps them in step input after input, and
`Server::bind` then gives the same roles, grants, channels and overwrites back.
-/

namespace PickleChat

open Async (Run exec)

structure ServerMirror (s : Shared) (db : Db) : Prop where
  order : RoleOrder s.perms.roles
  roles : RolesMirror s.perms db
  channels : ChannelsMirror s.channels db

/-! ## Tables untouched -/

theorem RolesMirror.of_tables {p : PermState} {db db' : Db} (h : RolesMirror p db) (hr : db'.roles = db.roles)
    (hm : db'.roleMembers = db.roleMembers) : RolesMirror p db' := by
  obtain ⟨hids, hroles, hgrants⟩ := h
  unfold RoleRows at hroles
  unfold GrantRows at hgrants
  rw [← hr] at hroles
  rw [← hm] at hgrants
  exact ⟨hids, hroles, hgrants⟩

theorem ChannelsMirror.of_tables {channels : List Channel} {db db' : Db} (h : ChannelsMirror channels db)
    (hc : db'.channels = db.channels) (ho : db'.channelOverwrites = db.channelOverwrites) :
    ChannelsMirror channels db' := by
  obtain ⟨hsorted, hrows, htargets, hover, hwritten⟩ := h
  unfold ChannelRows at hrows
  unfold OverwriteRows at hover
  unfold OverwritesWritten at hwritten
  rw [← hc] at hrows
  rw [← ho] at hover hwritten
  exact ⟨hsorted, hrows, htargets, hover, hwritten⟩

def permTables (db : Db) := (db.roles, db.roleMembers, db.channelOverwrites, db.channels)

theorem ServerMirror.of_undisturbed {s s' : Shared} {w w' : World} (h : ServerMirror s w.db)
    (hu : Undisturbed permTables s w s' w') : ServerMirror s' w'.db := by
  obtain ⟨hrooms, hkeep⟩ := hu
  simp only [permTables, Prod.mk.injEq] at hkeep
  obtain ⟨hr, hm, ho, hc⟩ := hkeep
  refine ⟨?_, ?_, ?_⟩
  · rw [hrooms.perms]; exact h.order
  · rw [hrooms.perms]; exact h.roles.of_tables hr hm
  · rw [hrooms.channels]; exact h.channels.of_tables hc ho

/-! ## Role commands -/

section
variable {s : Shared} {w : World} {client : ClientId} {nonce : UInt64}

theorem ChannelsMirror.swapped {cmd : RoleCommand} {p next : PermState} {db db' : Db} {s' : Shared}
    (h : ChannelsMirror s.channels db) (hs : Swapped s cmd next s') (hw : Written p db cmd next db') :
    ChannelsMirror s'.channels db' := by
  rw [hs.channels]
  cases hw with
  | create _ hdb =>
    obtain ⟨t, -, rfl⟩ := Option.map_eq_some_iff.mp hdb
    exact h.of_tables rfl rfl
  | update => exact h.of_tables rfl rfl
  | delete => exact (h.stripped _).of_tables rfl rfl
  | reorder => exact h.of_tables rfl rfl
  | grant hdb =>
    obtain ⟨t, -, rfl⟩ := Option.map_eq_some_iff.mp hdb
    exact h.of_tables rfl rfl

theorem RoleCommand.mirror {cmd : RoleCommand} (h : ServerMirror s w.db)
    (hsafe : ∀ name permissions, cmd = .create name permissions → Accepted s client nonce cmd → RoleIdsLeft s.perms) :
    ServerMirror (exec Await.perform (cmd.handle client nonce) s w).1
      (exec Await.perform (cmd.handle client nonce) s w).2.db := by
  rcases RoleCommand.settled h.order.ids h.roles.roles hsafe with ⟨hr, hw⟩ | ⟨next, s', db, hs, hw, he⟩
  · rw [hw]
    exact h.of_undisturbed ⟨hr.rooms, rfl⟩
  · rw [he]
    refine ⟨?_, ?_, h.channels.swapped hs hw⟩
    · rw [hs.perms]; exact hw.order h.order h.roles.roles
    · rw [hs.perms]; exact hw.mirror h.roles

/-! ## Channel commands -/

/-- No overwrite row is left over under the id the next channel gets. -/
def ChannelIdClean (s : Shared) (db : Db) : Prop :=
  ∀ row ∈ db.channelOverwrites.rows, row.channel ≠ Word.toColumn s.nextChannelId

theorem ChannelPasses.mirror {cmd : ChannelCommand} {c : Change} (hp : ChannelPasses s client nonce cmd c)
    (h : ServerMirror s w.db) {db : Db} (hdb : c.call.perform w.db = some db)
    (hsafe : ∀ name parent topic kind maxUsers order, cmd = .create name parent topic kind maxUsers order →
      ChannelIdClean s w.db) :
    ServerMirror (c.mem s) db := by
  cases hp with
  | setOverwrite =>
    obtain rfl := Option.some.inj hdb
    exact ⟨h.order, h.roles.of_tables rfl rfl, h.channels.setOverwrite ..⟩
  | deleteOverwrite =>
    obtain rfl := Option.some.inj hdb
    exact ⟨h.order, h.roles.of_tables rfl rfl, h.channels.deleteOverwrite ..⟩
  | create =>
    refine ⟨h.order, ?_, h.channels.created rfl (hsafe _ _ _ _ _ _ rfl) hdb⟩
    obtain ⟨t, -, rfl⟩ := Option.map_eq_some_iff.mp hdb
    exact h.roles.of_tables rfl rfl
  | update =>
    obtain rfl := Option.some.inj hdb
    exact ⟨h.order, h.roles.of_tables rfl rfl, h.channels.updated _⟩
  | @delete id _ _ =>
    obtain rfl := Option.some.inj hdb
    rw [show (Change.delete id).mem s = (s.removeChannelMem id).2 from rfl]
    refine ⟨?_, ?_, ?_⟩
    · rw [Shared.removeChannelMem_perms]; exact h.order
    · rw [Shared.removeChannelMem_perms]; exact h.roles.of_tables rfl rfl
    · rw [Shared.removeChannelMem_channels]; exact h.channels.deleted id

theorem ChannelCommand.mirror {cmd : ChannelCommand} (h : ServerMirror s w.db)
    (hsafe : ∀ name parent topic kind maxUsers order, cmd = .create name parent topic kind maxUsers order →
      ChannelAccepted s client nonce cmd → ChannelIdClean s w.db) :
    ServerMirror (exec Await.perform (cmd.handle client nonce) s w).1
      (exec Await.perform (cmd.handle client nonce) s w).2.db := by
  rcases cmd.exec_cases Await.faulty s w client nonce with ⟨hr, hw⟩ | ⟨c, db, hstore, hp, hdb, he⟩
  · rw [hw]
    exact h.of_undisturbed ⟨hr.rooms, rfl⟩
  · rw [he]
    have := hp.mirror h hdb fun name parent topic kind maxUsers order hc =>
      hsafe name parent topic kind maxUsers order hc ⟨hstore, c, hp⟩
    exact ⟨this.order, this.roles, this.channels⟩

end

/-! ## Whole runs -/

/-- One input, handled alone; store calls fail only where they break a key. -/
def ServeStep (x : Shared × World) (i : Input) (y : Shared × World) : Prop := serve Await.perform i x.1 x.2 = y

/-- A role that may be created gets an id that is not taken, a channel one without overwrite rows. -/
def RestartSafe (x : Shared × World) : Input → Prop
  | .control client (.createRole nonce name permissions) =>
    Accepted x.1 client nonce (.create name permissions) → RoleIdsLeft x.1.perms
  | .control client (.createChannel nonce name parent topic kind maxUsers order) =>
    ChannelAccepted x.1 client nonce (.create name parent topic kind maxUsers order) → ChannelIdClean x.1 x.2.db
  | _ => True

theorem ServerMirror.step {x y : Shared × World} {i : Input} (h : ServerMirror x.1 x.2.db) (hsafe : RestartSafe x i)
    (hst : ServeStep x i y) : ServerMirror y.1 y.2.db := by
  subst hst
  have hban : ∀ b, Spares permTables (.insertBan b) := fun b db db' hdb => by cases hdb; rfl
  have hunban : ∀ f, Spares permTables (.deleteBan f) := fun f db db' hdb => by cases hdb; rfl
  have hmsg : ∀ m, Spares permTables (.insertMessage m) := by
    intro m db db' hdb
    obtain ⟨t, -, rfl⟩ := Option.map_eq_some_iff.mp hdb
    rfl
  have quiet := fun hi => h.of_undisturbed (i.undisturbed Await.faulty hban hunban x.1 x.2 hi)
  cases i with
  | control client frame =>
    rcases frame.kinds with ⟨nonce, cmd, rfl⟩ | ⟨nonce, cmd, rfl⟩ | hm | hp
    · rw [serve_role]
      refine RoleCommand.mirror h fun name permissions he => ?_
      subst he
      exact hsafe
    · rw [serve_channel]
      refine ChannelCommand.mirror h fun name parent topic kind maxUsers order he => ?_
      subst he
      exact hsafe
    · exact quiet fun _ _ he => by cases he; exact .inr ⟨hmsg, hm⟩
    · exact quiet fun _ _ he => by cases he; exact .inl hp
  | connect => exact quiet fun _ _ he => nomatch he
  | voice => exact quiet fun _ _ he => nomatch he
  | disconnect => exact quiet fun _ _ he => nomatch he
  | tick => exact quiet fun _ _ he => nomatch he

/-! ## Loading -/

/-- Roles, grants, channels and overwrites are rows the server writes, roles in order. -/
structure Tidy (db : Db) : Prop where
  order : RoleOrder db.loadRoles
  roles : ∀ row ∈ db.roles.rows, roleRow (rowToRole row) = row
  grants : ∀ row ∈ db.roleMembers.rows, ∃ f id, memberRow f id = row
  channels : ∀ row ∈ db.channels.rows, channelRow (rowToChannel row) = row
  overwrites : OverwritesWritten db

theorem ServerMirror.tidy {s : Shared} {db : Db} (h : ServerMirror s db) : Tidy db where
  order := by rw [h.roles.loadRoles h.order]; exact h.order
  roles row hrow := by
    obtain ⟨r, -, rfl⟩ := (h.roles.roles row).mp hrow
    rw [rowToRole_roleRow]
  grants row hrow := by
    obtain ⟨f, id, -, he⟩ := (h.roles.grants row).mp hrow
    exact ⟨f, id, he⟩
  channels row hrow := by
    obtain ⟨c, -, rfl⟩ := (h.channels.rows row).mp hrow
    rw [rowToChannel_channelRow]
    rfl
  overwrites := h.channels.written

def attached (entries : List (ChannelId × Overwrite)) (c : Channel) : Channel :=
  { c with overwrites := c.overwrites ++ (entries.filter fun e => e.1 = c.id).map Prod.snd }

theorem foldl_attach (entries : List (ChannelId × Overwrite)) {channels : List Channel}
    (hu : Keyed.Unique Channel.id channels) :
    entries.foldl attachOverwrite channels = channels.map (attached entries) := by
  induction entries generalizing channels with
  | nil =>
    have hid : attached [] = id := by funext c; simp [attached]
    rw [hid, List.map_id]
    rfl
  | cons e entries ih =>
    have he : attachOverwrite channels e = channels.map fun c =>
        if c.id = e.1 then { c with overwrites := c.overwrites ++ [e.2] } else c := Keyed.modifyFirst_eq _ hu
    have hid : ∀ c : Channel, (if c.id = e.1 then { c with overwrites := c.overwrites ++ [e.2] } else c).id = c.id := by
      intro c; split <;> rfl
    rw [List.foldl_cons, he, ih (hu.map hid), List.map_map]
    apply List.map_congr_left
    intro c _
    by_cases hc : c.id = e.1
    · simp [attached, hc]
    · simp [attached, hc, Ne.symm hc]

theorem insertChannels_rows {l : List Channel} {db db' : Db} (h : l.foldlM Db.insertChannel db = some db') :
    db'.channels.rows = db.channels.rows ++ l.map channelRow ∧ db'.messages = db.messages := by
  induction l generalizing db with
  | nil => cases h; simp
  | cons c l ih =>
    obtain ⟨db₁, h₁, h⟩ := Option.bind_eq_some_iff.mp h
    obtain ⟨t, ht, rfl⟩ := Option.map_eq_some_iff.mp h₁
    obtain ⟨hrows, hrest⟩ := ih h
    exact ⟨by simp [hrows, (Keyed.Table.insert_rows ht).1], hrest⟩

theorem insertRoles_rows {l : List Role} {db db' : Db} (h : l.foldlM Db.insertRole db = some db') :
    db'.roles.rows = db.roles.rows ++ l.map roleRow ∧ db'.channels = db.channels ∧ db'.messages = db.messages := by
  induction l generalizing db with
  | nil => cases h; simp
  | cons r l ih =>
    obtain ⟨db₁, h₁, h⟩ := Option.bind_eq_some_iff.mp h
    obtain ⟨t, ht, rfl⟩ := Option.map_eq_some_iff.mp h₁
    obtain ⟨hrows, hrest⟩ := ih h
    exact ⟨by simp [hrows, (Keyed.Table.insert_rows ht).1], hrest⟩

theorem loadOrSeedRoles_tables {db db' : Db} {roles : List Role} (h : loadOrSeedRoles db = some (roles, db')) :
    db'.channels = db.channels ∧ db'.messages = db.messages := by
  unfold loadOrSeedRoles at h
  split at h
  · obtain ⟨db₁, h₁, he⟩ := Option.map_eq_some_iff.mp h
    cases he
    exact (insertRoles_rows h₁).2
  · cases h
    exact ⟨rfl, rfl⟩

theorem loadOrSeedChannels_rows {config : ServerConfig} {db db' : Db} {channels : List Channel}
    (h : loadOrSeedChannels config db = some (channels, db'))
    (ht : ∀ row ∈ db'.channels.rows, channelRow (rowToChannel row) = row) :
    (channels.map channelRow).Perm db'.channels.rows ∧ ∀ c ∈ channels, c.overwrites = [] := by
  unfold loadOrSeedChannels at h
  split at h
  · rename_i hempty
    obtain ⟨db₁, h₁, he⟩ := Option.map_eq_some_iff.mp h
    cases he
    obtain ⟨hrows, -⟩ := insertChannels_rows h₁
    have hnil : db.channels.rows = [] := by
      have := congrArg List.length hempty
      simpa [Db.loadChannels] using this
    refine ⟨by rw [hrows, hnil]; exact .refl _, ?_⟩
    intro c hc
    unfold buildChannels at hc
    obtain ⟨q, -, rfl⟩ := List.mem_map.mp hc
    rfl
  · cases h
    refine ⟨?_, ?_⟩
    · unfold Db.loadChannels
      rw [List.map_map]
      have hmap : ∀ l : List ChannelRow, (∀ row ∈ l, row ∈ db.channels.rows) →
          l.map (channelRow ∘ rowToChannel) = l := by
        intro l hl
        exact (List.map_congr_left fun row hrow => ht row (hl row hrow)).trans (List.map_id l)
      rw [hmap _ fun row hrow => List.mem_insertionSort _ |>.mp hrow]
      exact List.perm_insertionSort _ _
    · intro c hc
      obtain ⟨row, -, rfl⟩ := List.mem_map.mp hc
      rfl

theorem defaultRoles_order : RoleOrder defaultRoles where
  ids := by unfold Keyed.Unique; decide
  positions := by decide
  everyone := ⟨_, List.mem_cons_self, rfl, rfl⟩

theorem loadOrSeedRoles_rows {db db' : Db} {roles : List Role} (h : loadOrSeedRoles db = some (roles, db'))
    (ht : ∀ row ∈ db'.roles.rows, roleRow (rowToRole row) = row) (ho : RoleOrder db'.loadRoles) :
    (roles.map roleRow).Perm db'.roles.rows ∧ RoleOrder roles := by
  unfold loadOrSeedRoles at h
  split at h
  · rename_i hempty
    obtain ⟨db₁, h₁, he⟩ := Option.map_eq_some_iff.mp h
    cases he
    obtain ⟨hrows, -⟩ := insertRoles_rows h₁
    have hnil : db.roles.rows = [] := by
      have := congrArg List.length hempty
      simpa [Db.loadRoles] using this
    exact ⟨by rw [hrows, hnil]; exact .refl _, defaultRoles_order⟩
  · cases h
    refine ⟨?_, ho⟩
    unfold Db.loadRoles
    rw [List.map_map]
    have hmap : ∀ l : List RoleRow, (∀ row ∈ l, row ∈ db.roles.rows) → l.map (roleRow ∘ rowToRole) = l := by
      intro l hl
      exact (List.map_congr_left fun row hrow => ht row (hl row hrow)).trans (List.map_id l)
    rw [hmap _ fun row hrow => List.mem_insertionSort _ |>.mp hrow]
    exact List.perm_insertionSort _ _

/-! ### Grants and overwrites -/

theorem mem_gatherGrants (grants : List (Fingerprint × RoleId)) (f : Fingerprint) (id : RoleId) :
    id ∈ (gatherGrants grants f).getD [] ↔ (f, id) ∈ grants := by
  have hget : (gatherGrants grants f).getD [] = grants.filterMap fun g => if g.1 = f then some g.2 else none := by
    unfold gatherGrants
    generalize (grants.filterMap fun g => if g.1 = f then some g.2 else none) = l
    cases l <;> rfl
  rw [hget, List.mem_filterMap]
  constructor
  · rintro ⟨⟨g, j⟩, hg, he⟩
    split at he
    · rename_i hgf
      cases he
      cases hgf
      exact hg
    · cases he
  · intro hg
    exact ⟨(f, id), hg, by simp⟩

theorem mem_loadRoleMembers {db : Db} (h : ∀ row ∈ db.roleMembers.rows, ∃ f id, memberRow f id = row)
    (f : Fingerprint) (id : RoleId) : (f, id) ∈ db.loadRoleMembers ↔ memberRow f id ∈ db.roleMembers.rows := by
  simp only [Db.loadRoleMembers, List.mem_filterMap]
  constructor
  · rintro ⟨row, hrow, he⟩
    obtain ⟨g, j, rfl⟩ := h row hrow
    simp only [memberRow, Fingerprint.parse_toText, Option.map_some, Word.ofColumn_toColumn, Option.some.injEq,
      Prod.mk.injEq] at he
    rw [← he.1, ← he.2]
    exact hrow
  · intro hrow
    exact ⟨_, hrow, by simp [memberRow, Fingerprint.parse_toText]⟩

theorem mem_loadOverwrites {db : Db} (h : OverwritesWritten db) (id : ChannelId) (o : Overwrite) :
    (id, o) ∈ db.loadOverwrites ↔ overwriteRow id o ∈ db.channelOverwrites.rows := by
  simp only [Db.loadOverwrites, List.mem_filterMap]
  constructor
  · rintro ⟨row, hrow, he⟩
    obtain ⟨id', o', rfl⟩ := h row hrow
    simp only [rowToOverwrite_overwriteRow, Option.some.injEq, Prod.mk.injEq] at he
    rw [← he.1, ← he.2]
    exact hrow
  · intro hrow
    exact ⟨_, hrow, rowToOverwrite_overwriteRow id o⟩

theorem loadOverwrites_unique {db : Db} (h : OverwritesWritten db) :
    db.loadOverwrites.Pairwise fun a b => ¬ (a.1 = b.1 ∧ a.2.target = b.2.target) := by
  have hrows : ∀ rows : List OverwriteRow, (∀ row ∈ rows, ∃ id o, overwriteRow id o = row) →
      (rows.filterMap rowToOverwrite).map (fun e => overwriteRow e.1 e.2) = rows := by
    intro rows
    induction rows with
    | nil => intro _; rfl
    | cons row rows ih =>
      intro hall
      obtain ⟨id, o, rfl⟩ := hall row (by simp)
      simp only [List.filterMap_cons, rowToOverwrite_overwriteRow, List.map_cons]
      rw [ih fun row hrow => hall row (by simp [hrow])]
  have hu := db.channelOverwrites.unique
  rw [← hrows _ h, List.map_map] at hu
  apply (List.pairwise_map.mp hu).imp
  intro a b hne he
  exact hne (overwriteRow_key.mpr he)

/-! ### `Server::bind` -/

theorem unique_of_rows {channels : List Channel} {db : Db} (h : (channels.map channelRow).Perm db.channels.rows) :
    Keyed.Unique Channel.id channels := by
  have hu : ((channels.map channelRow).map ChannelRow.id).Nodup :=
    ((h.map ChannelRow.id).nodup_iff).mpr db.channels.unique
  rw [List.map_map, show ChannelRow.id ∘ channelRow = Word.toColumn ∘ Channel.id from rfl, ← List.map_map] at hu
  exact hu.of_map

theorem bind_some {config : ServerConfig} {now : UInt64} {db db' : Db} {s : Shared}
    (h : Server.bind config now db = some (s, db')) :
    ∃ channels db₁ roles, loadOrSeedChannels config db = some (channels, db₁) ∧
      loadOrSeedRoles db₁ = some (roles, db') ∧ s.perms = ⟨roles, gatherGrants db'.loadRoleMembers⟩ ∧
      s.channels = (db'.loadOverwrites.foldl attachOverwrite channels).foldl
        (fun m c => Keyed.putSorted Channel.id c m) [] := by
  unfold Server.bind at h
  split at h; · cases h
  rename_i channels db₁ hc
  split at h; · cases h
  rename_i roles db₂ hr
  dsimp only at h
  split at h <;> cases h <;> exact ⟨channels, db₁, roles, hc, hr, rfl, rfl⟩

theorem bind_nobody {config : ServerConfig} {now : UInt64} {db db' : Db} {s : Shared}
    (h : Server.bind config now db = some (s, db')) : s.clients = [] := by
  unfold Server.bind at h
  split at h; · cases h
  split at h; · cases h
  dsimp only at h
  split at h <;> cases h <;> rfl

theorem bind_mirror {config : ServerConfig} {now : UInt64} {db db₂ : Db} {s : Shared}
    (h : Server.bind config now db = some (s, db₂)) (ht : Tidy db₂) : ServerMirror s db₂ := by
  obtain ⟨channels, db₁, roles, hc, hr, hperms, hchannels⟩ := bind_some h
  obtain ⟨hrperm, horder⟩ := loadOrSeedRoles_rows hr ht.roles ht.order
  have hsame := (loadOrSeedRoles_tables hr).1
  obtain ⟨hcperm, hbare⟩ := loadOrSeedChannels_rows hc (by rw [← hsame]; exact ht.channels)
  rw [← hsame] at hcperm
  have hids : Keyed.Unique Channel.id channels := unique_of_rows hcperm
  have hattach : ∀ c, (attached db₂.loadOverwrites c).id = c.id := fun _ => rfl
  rw [foldl_attach _ hids] at hchannels
  obtain ⟨hsorted, hmem⟩ := Keyed.foldl_putSorted (hids.map hattach) List.Pairwise.nil (by simp)
  rw [← hchannels] at hsorted hmem
  have hmem : ∀ c, c ∈ s.channels ↔ ∃ c₀ ∈ channels, attached db₂.loadOverwrites c₀ = c := by
    intro c
    rw [hmem c]
    simp
  -- Overwrites come from the rows alone: channels are loaded without any.
  have hover : ∀ c₀ ∈ channels, (attached db₂.loadOverwrites c₀).overwrites =
      (db₂.loadOverwrites.filter fun e => e.1 = c₀.id).map Prod.snd := by
    intro c₀ hc₀
    simp [attached, hbare c₀ hc₀]
  refine ⟨?_, ⟨?_, ?_, ?_⟩, ⟨hsorted, ?_, ?_, ?_, ht.overwrites⟩⟩
  · rw [hperms]; exact horder
  · rw [hperms]; exact horder.ids
  · intro row
    rw [hperms, ← hrperm.mem_iff, List.mem_map]
  · intro row
    rw [hperms]
    simp only [PermState.grants, mem_gatherGrants, mem_loadRoleMembers ht.grants]
    constructor
    · intro hrow
      obtain ⟨f, id, rfl⟩ := ht.grants row hrow
      exact ⟨f, id, hrow, rfl⟩
    · rintro ⟨f, id, hrow, rfl⟩
      exact hrow
  · intro row
    rw [← hcperm.mem_iff, List.mem_map]
    simp only [hmem]
    constructor
    · rintro ⟨c, hc, rfl⟩
      exact ⟨_, ⟨c, hc, rfl⟩, rfl⟩
    · rintro ⟨_, ⟨c, hc, rfl⟩, rfl⟩
      exact ⟨c, hc, rfl⟩
  · intro c hc
    obtain ⟨c₀, hc₀, rfl⟩ := (hmem c).mp hc
    rw [hover c₀ hc₀]
    apply List.pairwise_map.mpr
    apply List.pairwise_map.mpr
    apply ((loadOverwrites_unique ht.overwrites).filter _).imp_of_mem
    intro a b ha hb hne he
    have ha : a.1 = c₀.id := by simpa using (List.mem_filter.mp ha).2
    have hb : b.1 = c₀.id := by simpa using (List.mem_filter.mp hb).2
    exact hne ⟨ha.trans hb.symm, he⟩
  · intro c hc o
    obtain ⟨c₀, hc₀, rfl⟩ := (hmem c).mp hc
    rw [hover c₀ hc₀, hattach, ← mem_loadOverwrites ht.overwrites]
    simp only [List.mem_map, List.mem_filter, decide_eq_true_eq]
    constructor
    · intro ho
      exact ⟨_, ⟨ho, rfl⟩, rfl⟩
    · rintro ⟨⟨id, o'⟩, ⟨ho, rfl⟩, rfl⟩
      exact ho

theorem ServerMirror.rebind {s : Shared} {db : Db} (h : ServerMirror s db) (hne : s.channels ≠ [])
    (config : ServerConfig) (now : UInt64) :
    ∃ s', Server.bind config now db = some (s', db) ∧ ServerMirror s' db := by
  have hroles : db.loadRoles ≠ [] := by
    obtain ⟨e, he, -⟩ := h.order.everyone
    rw [h.roles.loadRoles h.order]
    exact List.ne_nil_of_mem he
  have hchannels : db.loadChannels ≠ [] := by
    obtain ⟨c, hc⟩ := List.exists_mem_of_ne_nil _ hne
    have hrow := (h.channels.rows _).mpr ⟨c, hc, rfl⟩
    unfold Db.loadChannels
    exact List.ne_nil_of_mem (List.mem_map_of_mem ((List.mem_insertionSort _).mpr hrow))
  have hbind : ∃ s', Server.bind config now db = some (s', db) := by
    unfold Server.bind loadOrSeedChannels loadOrSeedRoles
    simp only [hroles, hchannels, if_false]
    split <;> exact ⟨_, rfl⟩
  obtain ⟨s', hs'⟩ := hbind
  exact ⟨s', hs', bind_mirror hs' h.tidy⟩

/-! ## What a restart gives back -/

structure Restored (s s' : Shared) : Prop where
  roles : s'.perms.roles = s.perms.roles
  grants : ∀ f id, id ∈ s'.perms.grants f ↔ id ∈ s.perms.grants f
  channels : s'.channels.map Channel.bare = s.channels.map Channel.bare
  overwrites : ∀ c ∈ s.channels, ∀ c' ∈ s'.channels, c'.id = c.id → ∀ o, o ∈ c'.overwrites ↔ o ∈ c.overwrites
  base : ∀ f owner, resolve s'.perms.roles (s'.perms.grants f) f owner none =
    resolve s.perms.roles (s.perms.grants f) f owner none
  bits : ∀ c ∈ s.channels, ∀ c' ∈ s'.channels, c'.id = c.id → ∀ f owner,
    resolve s'.perms.roles (s'.perms.grants f) f owner (some c'.overwrites) =
      resolve s.perms.roles (s.perms.grants f) f owner (some c.overwrites)

theorem Restored.no_new {s s' : Shared} (h : Restored s s') :
    ∀ c ∈ s.channels, ∀ c' ∈ s'.channels, c'.id = c.id → ∀ o ∈ c'.overwrites, o ∈ c.overwrites :=
  fun c hc c' hc' hid o ho => (h.overwrites c hc c' hc' hid o).mp ho

section
variable {s s' : Shared} {db : Db} (h : ServerMirror s db) (h' : ServerMirror s' db)
include h h'

theorem ServerMirror.bare_channels : s'.channels.map Channel.bare = s.channels.map Channel.bare :=
  h.channels.rows.bare_eq h'.channels.rows h.channels.sorted h'.channels.sorted

theorem ServerMirror.restored : Restored s s' := by
  have hroles : s'.perms.roles = s.perms.roles := by
    rw [← h.roles.loadRoles h.order, ← h'.roles.loadRoles h'.order]
  have hgrants : ∀ f id, id ∈ s'.perms.grants f ↔ id ∈ s.perms.grants f := by
    intro f id
    rw [← h.roles.loadRoleMembers, ← h'.roles.loadRoleMembers]
  have hover : ∀ c ∈ s.channels, ∀ c' ∈ s'.channels, c'.id = c.id → ∀ o, o ∈ c'.overwrites ↔ o ∈ c.overwrites := by
    intro c hc c' hc' hid o
    rw [← h.channels.overwrites c hc o, ← h'.channels.overwrites c' hc' o, hid]
  refine ⟨hroles, hgrants, h.bare_channels h', hover, ?_, ?_⟩
  · intro f owner
    rw [hroles]
    exact (resolve_congr h.order.ids h.order.ids (fun _ => Iff.rfl) (hgrants f) Keyed.Unique.nil Keyed.Unique.nil
      (fun _ => Iff.rfl) f owner).1
  · intro c hc c' hc' hid f owner
    rw [hroles]
    exact (resolve_congr h.order.ids h.order.ids (fun _ => Iff.rfl) (hgrants f) (h'.channels.targets c' hc')
      (h.channels.targets c hc) (hover c hc c' hc' hid) f owner).2

end

/-- In every run from a loaded state in which new roles and channels get ids
that are clean, a restart gives back what was in memory. -/
theorem restart_invisible {config : ServerConfig} {now now' : UInt64} {db db₀ : Db} {s₀ : Shared}
    {wire : List ServerControl} {x : Shared × World} (hb : Server.bind config now db = some (s₀, db₀))
    (ht : Tidy db₀) (hrun : Run ServeStep RestartSafe (s₀, ⟨db₀, wire⟩) x) (hne : x.1.channels ≠ []) :
    ∃ s', Server.bind config now' x.2.db = some (s', x.2.db) ∧ Restored x.1 s' := by
  have hm : ServerMirror x.1 x.2.db :=
    hrun.invariant (fun x => ServerMirror x.1 x.2.db) (bind_mirror hb ht) fun _ _ _ hi hok hst => hi.step hok hst
  obtain ⟨s', hs', hm'⟩ := hm.rebind hne config now'
  exact ⟨s', hs', hm.restored hm'⟩

/-! ## Left-over overwrites -/

def ownedConfig : ServerConfig :=
  { minSecurityLevel := 0, password := none, owner := some (Fingerprint.rep 1).toText, maxUsers := 8,
    historyEnabled := true, channels := [] }

def exampleChannel (id : ChannelId) : Channel :=
  { id, parent := none, name := "c", topic := "", kind := .voiceAndText, maxUsers := none, order := 0, overwrites := [] }

/-- The default roles and channel 1; an overwrite row of a channel 2 that is gone. -/
def leftoverDb : Db :=
  { Db.empty with
    roles := ⟨defaultRoles.map roleRow, by decide⟩
    channels := ⟨[exampleChannel 1].map channelRow, by decide⟩
    channelOverwrites := ⟨[overwriteRow 2 ⟨.role 0, .none, .viewChannel⟩], by decide⟩ }

theorem leftoverDb_tidy : Tidy leftoverDb where
  order := by
    rw [show leftoverDb.loadRoles = defaultRoles by decide +kernel]
    exact defaultRoles_order
  roles row hrow := by
    obtain ⟨r, -, rfl⟩ := List.mem_map.mp hrow
    rw [rowToRole_roleRow]
  grants row hrow := nomatch hrow
  channels row hrow := by
    obtain ⟨c, -, rfl⟩ := List.mem_map.mp hrow
    rw [rowToChannel_channelRow]
    rfl
  overwrites row hrow := ⟨2, ⟨.role 0, .none, .viewChannel⟩, (List.mem_singleton.mp hrow).symm⟩

def ownerConnects : Input := .connect ⟨protocolVersion, ⟨.rep 1, 8⟩, "n", none, true⟩

/-- A new channel gets the id of one that is gone, and after a restart its overwrites. -/
theorem createChannel_inherits :
    ∃ s₀ x s', Server.bind ownedConfig 5 leftoverDb = some (s₀, leftoverDb) ∧ Tidy leftoverDb ∧
      Run ServeStep (fun _ _ => True) (s₀, ⟨leftoverDb, []⟩) x ∧ x.1.channels ≠ [] ∧
      Server.bind ownedConfig 5 x.2.db = some (s', x.2.db) ∧ ¬ Restored x.1 s' := by
  refine ⟨_, _, _, rfl, leftoverDb_tidy,
    .step (.control 1 (.createChannel 7 "door" none "" .text none 0)) (.step ownerConnects .refl trivial rfl)
      trivial rfl, by decide +kernel, rfl, fun h => ?_⟩
  have := h.no_new
  revert this
  decide +kernel

/-- The owner creates a role, and restarts. -/
theorem restart_invisible_createRole :
    ∃ s₀ x s', Server.bind ownedConfig 5 leftoverDb = some (s₀, leftoverDb) ∧
      Run ServeStep RestartSafe (s₀, ⟨leftoverDb, []⟩) x ∧ x.1.perms.roles.length = 4 ∧
      Server.bind ownedConfig 5 x.2.db = some (s', x.2.db) ∧ Restored x.1 s' := by
  have hrun : ∃ s₀ x, Server.bind ownedConfig 5 leftoverDb = some (s₀, leftoverDb) ∧
      Run ServeStep RestartSafe (s₀, ⟨leftoverDb, []⟩) x ∧ x.1.perms.roles.length = 4 ∧ x.1.channels ≠ [] :=
    ⟨_, _, rfl, .step (.control 1 (.createRole 7 "door" .viewChannel)) (.step ownerConnects .refl trivial rfl)
      (by unfold RestartSafe RoleIdsLeft; exact fun _ => by decide +kernel) rfl, by decide +kernel, by decide +kernel⟩
  obtain ⟨s₀, x, hb, hrun, hlen, hne⟩ := hrun
  obtain ⟨s', hs', hr⟩ := restart_invisible hb leftoverDb_tidy hrun hne
  exact ⟨s₀, x, s', hb, hrun, hlen, hs', hr⟩

end PickleChat
