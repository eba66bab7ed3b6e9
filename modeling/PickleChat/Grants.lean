import PickleChat.RoleIds
import PickleChat.Seeding

/-!
# Grants name roles

In memory and in the tables every grant names a role there is, and the two have
the same roles, though a command that fails half way may leave them with
different positions. Inputs and restarts keep it so, whatever the store answers.
-/

namespace PickleChat

open Async (exec)

def PermState.roleIds (p : PermState) : List RoleId := p.roles.map Role.id

structure RolesIntact (p : PermState) (db : Db) : Prop where
  ids : p.roleIds.Nodup
  everyone : everyoneRoleId ∈ p.roleIds
  granted : ∀ f, ∀ id ∈ p.grants f, id ∈ p.roleIds
  rows : ∀ n, n ∈ db.roleIds ↔ ∃ id ∈ p.roleIds, Word.toColumn id = n
  members : ∀ row ∈ db.roleMembers.rows, row.roleId ∈ db.roleIds

section
variable {p p' : PermState} {db db' : Db} (h : RolesIntact p db)
include h

/-- The same roles and grants, but for what the roles are called and where they stand. -/
theorem RolesIntact.of_ids (hids : p'.roleIds.Perm p.roleIds) (hg : ∀ f, p'.grants f = p.grants f)
    (hr : db'.roleIds = db.roleIds) (hm : db'.roleMembers = db.roleMembers) : RolesIntact p' db' where
  ids := hids.nodup_iff.mpr h.ids
  everyone := hids.mem_iff.mpr h.everyone
  granted f id hid := hids.mem_iff.mpr (h.granted f id (hg f ▸ hid))
  rows n := by
    rw [hr, h.rows]
    simp only [hids.mem_iff]
  members row hrow := by
    rw [hr]
    rw [hm] at hrow
    exact h.members row hrow

theorem RolesIntact.created {role : Role}
    (hdb : (db.setRolePositions (shiftedPositions p.roles)).insertRole role = some db') :
    RolesIntact (createdPerms p role) db' := by
  obtain ⟨hids, hnew⟩ := insertRole_roleIds hdb
  rw [setRolePositions_roleIds] at hids hnew
  have hfresh : role.id ∉ p.roleIds := fun hin => hnew ((h.rows _).mpr ⟨_, hin, rfl⟩)
  have hperm : (createdPerms p role).roleIds.Perm (role.id :: p.roleIds) := created_ids p role
  refine ⟨hperm.nodup_iff.mpr (List.nodup_cons.mpr ⟨hfresh, h.ids⟩), ?_, fun f id hid => ?_, fun n => ?_, ?_⟩
  · exact hperm.mem_iff.mpr (List.mem_cons_of_mem _ h.everyone)
  · exact hperm.mem_iff.mpr (List.mem_cons_of_mem _ (h.granted f id hid))
  · rw [hids, List.mem_append, List.mem_singleton, h.rows]
    simp only [hperm.mem_iff, List.mem_cons, exists_eq_or_imp]
    rw [or_comm, eq_comm]
  · obtain ⟨t, -, rfl⟩ := Option.map_eq_some_iff.mp hdb
    intro row hrow
    rw [hids]
    exact List.mem_append_left _ (h.members row hrow)

theorem RolesIntact.deleted {id : RoleId} (hne : id ≠ everyoneRoleId) :
    RolesIntact (deletedPerms p id) (db.deleteRole id) := by
  have hmem : ∀ j, j ∈ (deletedPerms p id).roleIds ↔ j ∈ p.roleIds ∧ j ≠ id := fun _ => mem_deletedPerms_ids
  refine ⟨?_, (hmem _).mpr ⟨h.everyone, hne.symm⟩, fun f j hj => ?_, fun n => ?_, fun row hrow => ?_⟩
  · have hids : Keyed.Unique Role.id p.roles := h.ids
    exact unique_compacted (hids.erase id)
  · rw [deletedPerms_grants] at hj
    obtain ⟨hj, hj'⟩ := List.mem_filter.mp hj
    exact (hmem j).mpr ⟨h.granted f j hj, by simpa using hj'⟩
  · rw [mem_deleteRole_roleIds, h.rows]
    simp only [hmem]
    constructor
    · rintro ⟨⟨j, hj, rfl⟩, hn⟩
      exact ⟨j, ⟨hj, fun e => hn (congrArg Word.toColumn e)⟩, rfl⟩
    · rintro ⟨j, ⟨hj, hn⟩, rfl⟩
      exact ⟨⟨j, hj, rfl⟩, fun e => hn (Word.toColumn_inj e)⟩
  · have hrow : row ∈ db.roleMembers.rows ∧ row.roleId ≠ Word.toColumn id := by
      simpa [Db.deleteRole, Keyed.Table.mem_delete] using hrow
    exact mem_deleteRole_roleIds.mpr ⟨h.members row hrow.1, hrow.2⟩

theorem RolesIntact.regranted {f : Fingerprint} {roles : List RoleId} (hroles : ∀ id ∈ roles, ∃ r ∈ p.roles, r.id = id)
    (hdb : db.replaceMemberRoles f roles = some db') : RolesIntact (grantedPerms p f roles) db' := by
  have hin : ∀ id ∈ roles, id ∈ p.roleIds := fun id hid => List.mem_map.mpr (hroles id hid)
  have hr := replaceMemberRoles_roleIds hdb
  refine ⟨h.ids, h.everyone, fun m id hid => ?_, fun n => by rw [hr]; exact h.rows n, fun row hrow => ?_⟩
  · rw [grantedPerms_grants] at hid
    split at hid
    · exact hin id hid
    · exact h.granted m id hid
  · rw [hr]
    obtain ⟨t, ht, rfl⟩ := Option.map_eq_some_iff.mp hdb
    rcases (mem_replaced ht).mp hrow with hrow | ⟨id, hid, rfl⟩
    · exact h.members row (Keyed.Table.mem_delete.mp hrow).1
    · exact (h.rows _).mpr ⟨id, hin id hid, rfl⟩

end

/-! ## Role commands -/

section
variable {perform : (op : Await) → World → op.Reply × World} {s : Shared} {w : World} {client : ClientId}
  {nonce : UInt64} {cmd : RoleCommand}

theorem Written.intact {p next : PermState} {db db' : Db} (hw : Written p db cmd next db') (h : RolesIntact p db)
    (hgrant : ∀ f roles, cmd = .grant f roles → ∀ id ∈ roles, ∃ r ∈ p.roles, r.id = id) : RolesIntact next db' := by
  cases hw with
  | create _ hdb => exact h.created hdb
  | @update _ _ _ _ _ updated =>
    refine h.of_ids (.of_eq ?_) (fun _ => rfl) (updateRole_roleIds ..) rfl
    exact Keyed.map_key_modifyFirst (fun _ _ => rfl) p.roles
  | @delete id hne => exact (h.deleted hne).of_ids (.refl _) (fun _ => rfl) (setRolePositions_roleIds ..) rfl
  | @reorder positions _ _ =>
    refine h.of_ids ?_ (fun _ => rfl) (setRolePositions_roleIds ..) rfl
    unfold PermState.roleIds
    rw [← map_id_of_unplaced (withPositions_unplaced positions p.roles)]
    exact (perm_sortByPosition _).map Role.id
  | grant hdb => exact h.regranted (hgrant _ _ rfl) hdb

theorem RoleCommand.intact (hf : Faulty perform) (h : RolesIntact s.perms w.db) :
    RolesIntact (exec perform (cmd.handle client nonce) s w).1.perms
      (exec perform (cmd.handle client nonce) s w).2.db := by
  unfold exec
  rcases RoleCommand.handle_cases (rfl : cmd.handle client nonce s = _) with ⟨hd, hr⟩ | ⟨a, next, save, -, -, hp, he⟩
  · rw [hd, Async.Task.run_done, hr.perms]
    exact h
  · rw [he]
    have hout := hp.outcome hf w
    generalize save.run perform s w = y at hout
    cases hout with
    | unsaved => exact h
    | halfCreated => exact h.of_ids (.refl _) (fun _ => rfl) (setRolePositions_roleIds ..) rfl
    | uncompacted hswap =>
      rw [hswap.perms]
      cases hp with
      | delete hne => exact h.deleted hne
    | saved hswap hw =>
      rw [hswap.perms]
      refine hw.intact h ?_
      rintro f roles rfl
      cases hp with
      | grant _ hex => exact hex

end

/-! ## Every input -/

def grantTables (db : Db) := (db.roles, db.roleMembers)

theorem RolesIntact.of_tables {p p' : PermState} {db db' : Db} (h : RolesIntact p db) (hp : p' = p)
    (hdb : grantTables db' = grantTables db) : RolesIntact p' db' := by
  simp only [grantTables, Prod.mk.injEq] at hdb
  subst hp
  refine h.of_ids (.refl _) (fun _ => rfl) ?_ hdb.2
  unfold Db.roleIds
  rw [hdb.1]

theorem ChannelPasses.grantTables {s : Shared} {client : ClientId} {nonce : UInt64} {cmd : ChannelCommand} {c : Change}
    (hp : ChannelPasses s client nonce cmd c) {db db' : Db} (hdb : c.call.perform db = some db') :
    PickleChat.grantTables db' = PickleChat.grantTables db := by
  cases hp with
  | create =>
    obtain ⟨t, -, rfl⟩ := Option.map_eq_some_iff.mp hdb
    rfl
  | setOverwrite => cases hdb; rfl
  | deleteOverwrite => cases hdb; rfl
  | update => cases hdb; rfl
  | delete => cases hdb; rfl

theorem ChannelPasses.perms {s : Shared} {client : ClientId} {nonce : UInt64} {cmd : ChannelCommand} {c : Change}
    (hp : ChannelPasses s client nonce cmd c) : (c.mem s).perms = s.perms := by
  cases hp with
  | @delete id => exact s.removeChannelMem_perms id
  | _ => rfl

theorem Input.intact {x y : Shared × World} {i : Input} (h : RolesIntact x.1.perms x.2.db) (hst : FaultyStep x i y) :
    RolesIntact y.1.perms y.2.db := by
  obtain ⟨perform, hf, rfl⟩ := hst
  obtain ⟨s, w⟩ := x
  have hban : ∀ b, Spares grantTables (.insertBan b) := fun b db db' hdb => by cases hdb; rfl
  have hunban : ∀ f, Spares grantTables (.deleteBan f) := fun f db db' hdb => by cases hdb; rfl
  have hmsg : ∀ m, Spares grantTables (.insertMessage m) := by
    intro m db db' hdb
    obtain ⟨t, -, rfl⟩ := Option.map_eq_some_iff.mp hdb
    rfl
  have quiet := fun hi => by
    have hu := i.undisturbed hf hban hunban s w hi
    exact h.of_tables hu.1.perms hu.2
  cases i with
  | control client frame =>
    rcases frame.kinds with ⟨nonce, cmd, rfl⟩ | ⟨nonce, cmd, rfl⟩ | hm | hp
    · rw [serve_role]
      exact RoleCommand.intact hf h
    · rw [serve_channel]
      rcases cmd.exec_cases hf s w client nonce with ⟨hr, hw⟩ | ⟨c, db, -, hp, hdb, he⟩
      · rw [hw, hr.perms]
        exact h
      · rw [he]
        exact h.of_tables hp.perms (hp.grantTables hdb)
    · exact quiet fun _ _ he => by cases he; exact .inr ⟨hmsg, hm⟩
    · exact quiet fun _ _ he => by cases he; exact .inl hp
  | connect => exact quiet fun _ _ he => nomatch he
  | voice => exact quiet fun _ _ he => nomatch he
  | disconnect => exact quiet fun _ _ he => nomatch he
  | tick => exact quiet fun _ _ he => nomatch he

/-! ## Restarts -/

/-- Tables a start can be made from: rows of roles that a server wrote, everyone
among them if there are any, and rows of grants that name them. -/
structure GrantTables (db : Db) : Prop where
  written : ∀ n ∈ db.roleIds, ∃ id, Word.toColumn id = n
  everyone : db.roleIds = [] ∨ Word.toColumn everyoneRoleId ∈ db.roleIds
  members : ∀ row ∈ db.roleMembers.rows, row.roleId ∈ db.roleIds

theorem GrantTables.empty : GrantTables .empty := ⟨nofun, .inl rfl, nofun⟩

theorem RolesIntact.tables {p : PermState} {db : Db} (h : RolesIntact p db) : GrantTables db where
  written n hn := by
    obtain ⟨id, -, he⟩ := (h.rows n).mp hn
    exact ⟨id, he⟩
  everyone := .inr ((h.rows _).mpr ⟨_, h.everyone, rfl⟩)
  members := h.members

/-- What is read from the rows is what they say. -/
theorem RolesIntact.loaded {p : PermState} {db : Db} (h : GrantTables db) (hne : db.roleIds ≠ [])
    (hids : p.roleIds.Perm (db.roleIds.map Word.ofColumn))
    (hgrants : ∀ f id, id ∈ p.grants f → ∃ row ∈ db.roleMembers.rows, Word.ofColumn row.roleId = id) :
    RolesIntact p db := by
  have hback : ∀ n ∈ db.roleIds, Word.toColumn (Word.ofColumn n : UInt32) = n := by
    intro n hn
    obtain ⟨id, rfl⟩ := h.written n hn
    rw [Word.ofColumn_toColumn]
  have hmem : ∀ id, id ∈ p.roleIds ↔ ∃ n ∈ db.roleIds, Word.ofColumn n = id := fun id => by
    rw [hids.mem_iff, List.mem_map]
  refine ⟨?_, ?_, fun f id hid => ?_, fun n => ?_, h.members⟩
  · refine hids.nodup_iff.mpr (List.Nodup.map_on (fun n hn m hm he => ?_) db.roles.unique)
    rw [← hback n hn, he, hback m hm]
  · exact (hmem _).mpr ⟨_, h.everyone.resolve_left hne, Word.ofColumn_toColumn _⟩
  · obtain ⟨row, hrow, rfl⟩ := hgrants f id hid
    exact (hmem _).mpr ⟨_, h.members row hrow, rfl⟩
  · simp only [hmem]
    constructor
    · intro hn
      exact ⟨_, ⟨n, hn, rfl⟩, hback n hn⟩
    · rintro ⟨_, ⟨m, hm, rfl⟩, rfl⟩
      rw [hback m hm]
      exact hm

theorem bind_intact {config : ServerConfig} {now : UInt64} {db : Db} {y : Shared × World}
    (h : Server.bind config now db = some (y.1, y.2.db)) (hdb : GrantTables db) : RolesIntact y.1.perms y.2.db := by
  obtain ⟨channels, db₁, roles, hc, hr, hperms, -⟩ := bind_some h
  have hdb₁ : GrantTables db₁ := by
    have htables : db₁.roles = db.roles ∧ db₁.roleMembers = db.roleMembers := by
      unfold loadOrSeedChannels at hc
      split at hc
      · obtain ⟨db₂, h₂, he⟩ := Option.map_eq_some_iff.mp hc
        cases he
        rw [insertChannels_tables h₂]
        exact ⟨rfl, rfl⟩
      · cases hc
        exact ⟨rfl, rfl⟩
    obtain ⟨hw, he, hm⟩ := hdb
    unfold Db.roleIds at hw he hm
    rw [← htables.1] at hw he hm
    rw [← htables.2] at hm
    exact ⟨hw, he, hm⟩
  have hgrants : ∀ f id, id ∈ y.1.perms.grants f → ∃ row ∈ y.2.db.roleMembers.rows, Word.ofColumn row.roleId = id := by
    intro f id hid
    rw [hperms] at hid
    obtain ⟨row, hrow, he⟩ := List.mem_filterMap.mp ((mem_gatherGrants _ f id).mp hid)
    obtain ⟨g, -, he⟩ := Option.map_eq_some_iff.mp he
    exact ⟨row, hrow, congrArg Prod.snd he⟩
  unfold loadOrSeedRoles at hr
  split at hr
  · rename_i hempty
    obtain ⟨db₂, h₂, he⟩ := Option.map_eq_some_iff.mp hr
    obtain rfl : defaultRoles = roles := congrArg Prod.fst he
    obtain rfl : db₂ = y.2.db := congrArg Prod.snd he
    have hnil : db₁.roles.rows = [] := loadRoles_nil.mp hempty
    have hrows : y.2.db.roles.rows = defaultRoles.map roleRow := by
      rw [(insertRoles_rows h₂).1, hnil]
      rfl
    have hnone : db₁.roleMembers.rows = [] := by
      refine List.eq_nil_iff_forall_not_mem.mpr fun row hrow => ?_
      have hin := hdb₁.members row hrow
      unfold Db.roleIds at hin
      rw [hnil] at hin
      cases hin
    have hmembers : y.2.db.roleMembers.rows = [] := by
      rw [insertRoles_tables h₂]
      exact hnone
    have hids : y.2.db.roleIds = defaultRoles.map fun r => Word.toColumn r.id := by
      unfold Db.roleIds
      rw [hrows]
      rfl
    refine .loaded ⟨?_, ?_, ?_⟩ (by rw [hids]; decide) (.of_eq ?_) hgrants
    · intro n hn
      rw [hids] at hn
      obtain ⟨r, -, he⟩ := List.mem_map.mp hn
      exact ⟨r.id, he⟩
    · rw [hids]
      decide
    · rw [hmembers]
      nofun
    · rw [hids, hperms]
      have hback : defaultRoles.map Role.id =
          (defaultRoles.map fun r => Word.toColumn r.id).map (Word.ofColumn : Int64 → UInt32) := by decide
      exact hback
  · rename_i hne
    cases hr
    refine .loaded hdb₁ (fun hnil => hne ?_) ?_ hgrants
    · exact loadRoles_nil.mpr (List.map_eq_nil_iff.mp hnil)
    · unfold PermState.roleIds Db.roleIds
      rw [hperms, List.map_map]
      unfold Db.loadRoles
      rw [List.map_map]
      exact (List.perm_insertionSort _ _).map _

end PickleChat
