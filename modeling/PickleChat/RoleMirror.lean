import PickleChat.RoleTable

/-!
# Roles and grants in the database

A snapshot and the tables agree when the rows are the snapshot's roles and
grants as the server writes them. Each role command's writes take the tables
where its swap takes the snapshot, and loading the tables gives the snapshot
back.
-/

namespace PickleChat

def RoleRows (roles : List Role) (db : Db) : Prop := ∀ row, row ∈ db.roles.rows ↔ ∃ r ∈ roles, roleRow r = row

def GrantRows (grants : Fingerprint → List RoleId) (db : Db) : Prop :=
  ∀ row, row ∈ db.roleMembers.rows ↔ ∃ f, ∃ id ∈ grants f, memberRow f id = row

/-- The rows of roles and grants are those of the snapshot. -/
structure RolesMirror (p : PermState) (db : Db) : Prop where
  ids : Keyed.Unique Role.id p.roles
  roles : RoleRows p.roles db
  grants : GrantRows p.grants db

/-! ## Reading back -/

@[simp] theorem Permissions.ofColumn_toColumn (p : Permissions) : .ofColumn p.toColumn = p := by
  simp [ofColumn, toColumn]

@[simp] theorem rowToRole_roleRow (r : Role) : rowToRole (roleRow r) = r := by
  cases r with
  | mk id name color position permissions => cases color <;> simp [rowToRole, roleRow]

theorem roleRow_inj {r q : Role} (h : roleRow r = roleRow q) : r = q := by
  rw [← rowToRole_roleRow r, h, rowToRole_roleRow]

section
variable {roles : List Role} {db : Db} (h : RoleRows roles db)
include h

theorem RoleRows.perm (hids : Keyed.Unique Role.id roles) : (db.roles.rows.map rowToRole).Perm roles := by
  have hinj : ∀ row ∈ db.roles.rows, ∀ row' ∈ db.roles.rows, rowToRole row = rowToRole row' → row = row' := by
    intro row hrow row' hrow' he
    obtain ⟨r, -, rfl⟩ := (h row).mp hrow
    obtain ⟨q, -, rfl⟩ := (h row').mp hrow'
    rw [rowToRole_roleRow, rowToRole_roleRow] at he
    rw [he]
  have hrows : (db.roles.rows.map rowToRole).Nodup :=
    (List.Nodup.of_map _ db.roles.unique).map_on hinj
  rw [List.perm_ext_iff_of_nodup hrows (List.Nodup.of_map _ hids)]
  intro r
  simp only [List.mem_map, h _]
  constructor
  · rintro ⟨_, ⟨q, hq, rfl⟩, rfl⟩; rwa [rowToRole_roleRow]
  · intro hr; exact ⟨_, ⟨r, hr, rfl⟩, rowToRole_roleRow r⟩

theorem RoleRows.loadRoles_sort : db.loadRoles = sortByPosition (db.roles.rows.map rowToRole) := by
  have hle : ∀ row ∈ db.roles.rows, ∀ row' ∈ db.roles.rows,
      row.position ≤ row'.position ↔ (rowToRole row).position ≤ (rowToRole row').position := by
    intro row hrow row' hrow'
    obtain ⟨r, -, rfl⟩ := (h row).mp hrow
    obtain ⟨q, -, rfl⟩ := (h row').mp hrow'
    rw [rowToRole_roleRow, rowToRole_roleRow]
    exact Word.toColumn_le
  exact List.map_insertionSort _ _ rowToRole _ hle

/-- `load_roles` gives the role list, in its order. -/
theorem RoleRows.loadRoles (ht : RoleOrder roles) : db.loadRoles = roles := by
  rw [h.loadRoles_sort]
  refine List.Perm.eq_of_pairwise ?_ (List.pairwise_insertionSort _ _) (ht.sorted.imp UInt32.le_of_lt)
    ((perm_sortByPosition _).trans (h.perm ht.ids))
  intro r q hr hq hrq hqr
  have hr : r ∈ roles := ((perm_sortByPosition _).trans (h.perm ht.ids)).mem_iff.mp hr
  exact ht.position_inj hr hq (UInt32.le_antisymm hrq hqr)

end

section
variable {p : PermState} {db : Db} (h : RolesMirror p db)
include h

theorem RolesMirror.loadRoles_perm : db.loadRoles.Perm p.roles :=
  ((List.perm_insertionSort _ _).map rowToRole).trans (h.roles.perm h.ids)

theorem RolesMirror.loadRoles (ht : RoleOrder p.roles) : db.loadRoles = p.roles := h.roles.loadRoles ht

/-- `load_role_members` gives the snapshot's grants. -/
theorem RolesMirror.loadRoleMembers (f : Fingerprint) (id : RoleId) :
    (f, id) ∈ db.loadRoleMembers ↔ id ∈ p.grants f := by
  simp only [Db.loadRoleMembers, List.mem_filterMap, h.grants _]
  constructor
  · rintro ⟨_, ⟨g, j, hj, rfl⟩, he⟩
    simp only [memberRow, Fingerprint.parse_toText, Option.map_some, Word.ofColumn_toColumn, Option.some.injEq,
      Prod.mk.injEq] at he
    exact he.1 ▸ he.2 ▸ hj
  · intro hid
    exact ⟨_, ⟨f, id, hid, rfl⟩, by simp [memberRow, Fingerprint.parse_toText]⟩

end

/-! ## Positions -/

/-- A row with the position a list names for it. -/
def placed (positions : List (RoleId × UInt32)) (row : RoleRow) : RoleRow :=
  match positions.find? fun q => Word.toColumn q.1 = row.id with
  | some q => { row with position := Word.toColumn q.2 }
  | none => row

theorem placed_cons (q : RoleId × UInt32) (positions : List (RoleId × UInt32)) (row : RoleRow) :
    placed (q :: positions) row =
      if Word.toColumn q.1 = row.id then { row with position := Word.toColumn q.2 } else placed positions row := by
  unfold placed
  rw [List.find?_cons]
  by_cases h : Word.toColumn q.1 = row.id <;> simp [h]

theorem setRolePositions_rows {positions : List (RoleId × UInt32)} (hu : Keyed.Unique Prod.fst positions)
    (t : Keyed.Table RoleRow Int64 RoleRow.id) :
    (positions.foldl Db.placeRole t).rows = t.rows.map (placed positions) := by
  induction positions generalizing t with
  | nil => exact (List.map_id _).symm
  | cons q positions ih =>
    obtain ⟨hq, hu⟩ := List.nodup_cons.mp hu
    rw [List.foldl_cons, ih hu]
    simp only [Db.placeRole, Keyed.Table.update, Keyed.modify, List.map_map]
    refine List.map_congr_left fun row _ => ?_
    have hnone : ∀ row : RoleRow, Word.toColumn q.1 = row.id →
        positions.find? (fun q => Word.toColumn q.1 = row.id) = none := by
      intro row he
      rw [List.find?_eq_none]
      intro x hx hxe
      rw [decide_eq_true_eq] at hxe
      exact hq (List.mem_map.mpr ⟨x, hx, Word.toColumn_inj (hxe.trans he.symm)⟩)
    by_cases hrow : row.id = Word.toColumn q.1
    · rw [Function.comp_apply, if_pos hrow, placed_cons, if_pos hrow.symm]
      unfold placed
      rw [hnone _ hrow.symm]
    · rw [Function.comp_apply, if_neg hrow, placed_cons, if_neg (Ne.symm hrow)]

theorem find?_column (positions : List (RoleId × UInt32)) (id : RoleId) :
    positions.find? (fun q => Word.toColumn q.1 = Word.toColumn id) = Keyed.get Prod.fst id positions := by
  unfold Keyed.get
  congr 1
  funext q
  exact decide_eq_decide.mpr ⟨Word.toColumn_inj, congrArg _⟩

theorem placed_roleRow (positions : List (RoleId × UInt32)) (r : Role) :
    placed positions (roleRow r) = roleRow { r with position := newPosition positions r } := by
  unfold placed newPosition
  rw [show (roleRow r).id = Word.toColumn r.id from rfl, find?_column]
  cases Keyed.get Prod.fst r.id positions <;> rfl

theorem RoleRows.placed {db : Db} {roles : List Role} (h : RoleRows roles db) {positions : List (RoleId × UInt32)}
    (hu : Keyed.Unique Prod.fst positions) : RoleRows (withPositions positions roles)
    (db.setRolePositions positions) := by
  intro row
  unfold Db.setRolePositions
  rw [setRolePositions_rows hu, List.mem_map]
  simp only [h _, withPositions, List.mem_map]
  constructor
  · rintro ⟨_, ⟨r, hr, rfl⟩, rfl⟩; exact ⟨_, ⟨r, hr, rfl⟩, (placed_roleRow ..).symm⟩
  · rintro ⟨_, ⟨r, hr, rfl⟩, rfl⟩; exact ⟨_, ⟨r, hr, rfl⟩, placed_roleRow ..⟩

theorem RoleRows.of_mem {db : Db} {roles roles' : List Role} (h : RoleRows roles db)
    (hm : ∀ r, r ∈ roles' ↔ r ∈ roles) : RoleRows roles' db := by
  intro row
  rw [h row]
  simp only [hm]

theorem unique_shifted {p : PermState} (h : Keyed.Unique Role.id p.roles) :
    Keyed.Unique Prod.fst (shiftedPositions p.roles) := by
  unfold Keyed.Unique shiftedPositions
  rw [List.map_map]
  refine (List.map_congr_left fun r _ => ?_ : _ = p.roles.map Role.id) ▸ h
  rw [Function.comp_apply]
  split <;> rfl

theorem unplaced_eq {r r' : Role} (h : r'.unplaced = r.unplaced) : { r with position := r'.position } = r' := by
  cases r; cases r'
  simp_all [Role.unplaced]

theorem unique_ordering {l : List Role} (hu : Keyed.Unique Role.id l) : Keyed.Unique Prod.fst (ordering l) := by
  unfold Keyed.Unique ordering
  rw [List.map_map]
  exact hu

/-- The order of a list, given to the same roles placed otherwise, makes them those of the list. -/
theorem mem_withPositions_ordering {l next : List Role} (hu : Keyed.Unique Role.id next)
    (hsame : ∀ u, u ∈ l.map Role.unplaced ↔ u ∈ next.map Role.unplaced) (r : Role) :
    r ∈ withPositions (ordering next) l ↔ r ∈ next := by
  have hplaced : ∀ q : Role, ∀ r ∈ next, r.unplaced = q.unplaced →
      { q with position := newPosition (ordering next) q } = r := by
    intro q r hr he
    have hget : Keyed.get Prod.fst q.id (ordering next) = some (r.id, r.position) := by
      unfold ordering
      rw [Keyed.get_map (fun _ => rfl : ∀ r : Role, (r.id, r.position).1 = r.id), ← Role.id_of_unplaced he,
        Keyed.get_of_mem hu hr]
      rfl
    simp only [newPosition, hget]
    exact unplaced_eq he
  simp only [withPositions, List.mem_map]
  constructor
  · rintro ⟨q, hq, rfl⟩
    obtain ⟨r, hr, he⟩ := List.mem_map.mp ((hsame _).mp (List.mem_map_of_mem hq))
    rw [hplaced q r hr he]
    exact hr
  · intro hr
    obtain ⟨q, hq, he⟩ := List.mem_map.mp ((hsame _).mpr (List.mem_map_of_mem hr))
    exact ⟨q, hq, hplaced q r hr he.symm⟩

theorem mem_compacted_unplaced (l : List Role) (u : Role) :
    u ∈ l.map Role.unplaced ↔ u ∈ (compacted l).map Role.unplaced := by
  rw [compacted_unplaced]
  exact ((perm_sortByPosition l).map Role.unplaced).mem_iff.symm

theorem mem_withPositions_compacted {l : List Role} (hu : Keyed.Unique Role.id l) (r : Role) :
    r ∈ compacted l ↔ r ∈ withPositions (ordering (compacted l)) l :=
  (mem_withPositions_ordering (unique_compacted hu) (mem_compacted_unplaced l) r).symm

theorem mem_replaced {f : Fingerprint} {roles : List RoleId} {t t' : Keyed.Table MemberRow MemberRow id}
    (h : roles.foldlM (fun (t : Keyed.Table MemberRow MemberRow id) role => t.insert (memberRow f role)) t = some t')
    {row : MemberRow} : row ∈ t'.rows ↔ row ∈ t.rows ∨ ∃ id ∈ roles, memberRow f id = row := by
  induction roles generalizing t with
  | nil => cases h; simp
  | cons id roles ih =>
    obtain ⟨t₁, h₁, h⟩ := Option.bind_eq_some_iff.mp h
    rw [ih h, (Keyed.Table.insert_rows h₁).1]
    simp only [List.mem_append, List.mem_cons, List.not_mem_nil, or_false, exists_eq_or_imp,
      or_assoc, eq_comm (a := row)]

/-! ## The writes of each command -/

section
variable {p : PermState} {db db' : Db} (hids : Keyed.Unique Role.id p.roles) (h : RoleRows p.roles db)
include hids h

theorem RoleRows.created {role : Role}
    (hdb : (db.setRolePositions (shiftedPositions p.roles)).insertRole role = some db') :
    Keyed.Unique Role.id (createdPerms p role).roles ∧ RoleRows (createdPerms p role).roles db' := by
  have hplaced := h.placed (unique_shifted hids)
  obtain ⟨t, ht, rfl⟩ := Option.map_eq_some_iff.mp hdb
  obtain ⟨hrows, hnew⟩ := Keyed.Table.insert_rows ht
  have hfresh : ∀ r ∈ p.roles, r.id ≠ role.id := by
    intro r hr he
    refine hnew _ ((hplaced _).mpr ⟨_, List.mem_map_of_mem hr, rfl⟩) ?_
    exact congrArg Word.toColumn he
  have hu : Keyed.Unique Role.id (withPositions (shiftedPositions p.roles) p.roles ++ [role]) := by
    refine (unique_withPositions hids _).append_new fun r hr => ?_
    obtain ⟨q, hq, rfl⟩ := List.mem_map.mp hr
    exact hfresh q hq
  refine ⟨unique_sortByPosition hu, fun row => ?_⟩
  simp only [hrows, List.mem_append, List.mem_singleton, hplaced row, createdPerms, mem_sortByPosition]
  constructor
  · rintro (⟨r, hr, rfl⟩ | rfl)
    · exact ⟨r, .inl hr, rfl⟩
    · exact ⟨role, .inr rfl, rfl⟩
  · rintro ⟨r, hr | rfl, rfl⟩
    · exact .inl ⟨r, hr, rfl⟩
    · exact .inr rfl

theorem RoleRows.updated {existing updated : Role}
    (hget : Keyed.get Role.id updated.id p.roles = some existing) (hpos : updated.position = existing.position) :
    RoleRows (updatedPerms p updated).roles (db.updateRole updated) := by
  intro row
  -- The row of a role, once edited, is the row of the edited role.
  have hset : ∀ r ∈ p.roles,
      (if (roleRow r).id = Word.toColumn updated.id then
        { roleRow r with name := updated.name, color := updated.color.map Word.toColumn,
                         permissions := updated.permissions.toColumn } else roleRow r) =
      roleRow (if r.id = updated.id then updated else r) := by
    intro r hr
    by_cases hid : r.id = updated.id
    · have hex := Keyed.get_of_mem hids hr
      rw [hid, hget] at hex
      rw [if_pos hid, if_pos (show (roleRow r).id = _ from congrArg Word.toColumn hid)]
      simp [roleRow, hid, hpos, Option.some.inj hex]
    · rw [if_neg hid, if_neg (show ¬ (roleRow r).id = _ from fun e => hid (Word.toColumn_inj e))]
  simp only [Db.updateRole, updatedPerms, modifyFirst_updated hids, Keyed.Table.mem_update, List.mem_map]
  constructor
  · rintro ⟨row, hrow, rfl⟩
    obtain ⟨r, hr, rfl⟩ := (h row).mp hrow
    exact ⟨_, ⟨r, hr, rfl⟩, (hset r hr).symm⟩
  · rintro ⟨_, ⟨r, hr, rfl⟩, rfl⟩
    exact ⟨roleRow r, (h _).mpr ⟨r, hr, rfl⟩, hset r hr⟩

theorem RoleRows.reordered {positions : List (RoleId × UInt32)} (hd : densePermutation p.roles positions = true) :
    RoleRows (reorderedPerms p positions).roles (db.setRolePositions positions) :=
  (h.placed (unique_positions hids hd)).of_mem fun _ => mem_sortByPosition

omit hids in
theorem RoleRows.erased (id : RoleId) : RoleRows (Keyed.erase Role.id id p.roles) (db.deleteRole id) := by
  intro row
  simp only [Db.deleteRole, Keyed.Table.mem_delete, h _, Keyed.mem_erase, decide_eq_false_iff_not]
  constructor
  · rintro ⟨⟨r, hr, rfl⟩, hid⟩
    exact ⟨r, ⟨hr, fun e => hid (congrArg Word.toColumn e)⟩, rfl⟩
  · rintro ⟨r, ⟨hr, hid⟩, rfl⟩
    exact ⟨⟨r, hr, rfl⟩, fun e => hid (Word.toColumn_inj e)⟩

theorem RoleRows.deleted (id : RoleId) :
    RoleRows (deletedPerms p id).roles
      ((db.deleteRole id).setRolePositions (ordering (deletedPerms p id).roles)) := by
  have hordering := unique_ordering (unique_compacted (hids.erase id))
  exact ((h.erased id).placed hordering).of_mem (mem_withPositions_compacted (hids.erase id))

end

section
variable {p : PermState} {db db' : Db} (h : RolesMirror p db)
include h

theorem RolesMirror.created {role : Role}
    (hdb : (db.setRolePositions (shiftedPositions p.roles)).insertRole role = some db') :
    RolesMirror (createdPerms p role) db' := by
  obtain ⟨hu, hrows⟩ := h.roles.created h.ids hdb
  obtain ⟨t, ht, rfl⟩ := Option.map_eq_some_iff.mp hdb
  exact ⟨hu, hrows, h.grants⟩

theorem RolesMirror.updated {existing updated : Role}
    (hget : Keyed.get Role.id updated.id p.roles = some existing) (hpos : updated.position = existing.position) :
    RolesMirror (updatedPerms p updated) (db.updateRole updated) := by
  have hu : Keyed.Unique Role.id (updatedPerms p updated).roles := by
    unfold updatedPerms
    rw [modifyFirst_updated h.ids]
    exact h.ids.map fun r => by split <;> simp_all
  exact ⟨hu, h.roles.updated h.ids hget hpos, h.grants⟩

theorem RolesMirror.reordered {positions : List (RoleId × UInt32)} (hd : densePermutation p.roles positions = true) :
    RolesMirror (reorderedPerms p positions) (db.setRolePositions positions) :=
  ⟨unique_sortByPosition (unique_withPositions h.ids positions), h.roles.reordered h.ids hd, h.grants⟩

theorem RolesMirror.revoked (id : RoleId) : GrantRows (deletedPerms p id).grants (db.deleteRole id) := by
  intro row
  have hdel : row ∈ (db.deleteRole id).roleMembers.rows ↔ row ∈ db.roleMembers.rows ∧
      row.roleId ≠ Word.toColumn id := by
    simp [Db.deleteRole, Keyed.Table.mem_delete]
  rw [hdel, h.grants]
  simp only [deletedPerms_grants, List.mem_filter, decide_eq_true_eq]
  constructor
  · rintro ⟨⟨f, j, hj, rfl⟩, hid⟩
    exact ⟨f, j, ⟨hj, fun e => hid (congrArg Word.toColumn e)⟩, rfl⟩
  · rintro ⟨f, j, ⟨hj, hid⟩, rfl⟩
    exact ⟨⟨f, j, hj, rfl⟩, fun e => hid (Word.toColumn_inj e)⟩

theorem RolesMirror.deleted (id : RoleId) :
    RolesMirror (deletedPerms p id)
      ((db.deleteRole id).setRolePositions (ordering (deletedPerms p id).roles)) :=
  ⟨unique_compacted (h.ids.erase id), h.roles.deleted h.ids id, h.revoked id⟩

theorem RolesMirror.granted {f : Fingerprint} {roles : List RoleId} (hdb : db.replaceMemberRoles f roles = some db') :
    RolesMirror (grantedPerms p f roles) db' := by
  obtain ⟨t, ht, rfl⟩ := Option.map_eq_some_iff.mp hdb
  refine ⟨h.ids, h.roles, fun row => ?_⟩
  rw [mem_replaced ht]
  simp only [Keyed.Table.mem_delete, h.grants _, grantedPerms_grants, decide_eq_false_iff_not]
  constructor
  · rintro (⟨⟨g, id, hid, rfl⟩, hg⟩ | ⟨id, hid, rfl⟩)
    · exact ⟨g, id, by rwa [if_neg fun e => hg (congrArg Fingerprint.toText e)], rfl⟩
    · exact ⟨f, id, by rwa [if_pos rfl], rfl⟩
  · rintro ⟨g, id, hid, rfl⟩
    by_cases hg : g = f
    · subst hg; exact .inr ⟨id, by rwa [if_pos rfl] at hid, rfl⟩
    · exact .inl ⟨⟨g, id, by rwa [if_neg hg] at hid, rfl⟩, fun e => hg (Fingerprint.toText_inj e)⟩

end

/-! ## What a command leaves behind -/

theorem RoleRows.fresh {roles : List Role} {db db' : Db} {role : Role} (h : RoleRows roles db)
    (hdb : db.insertRole role = some db') : ∀ r ∈ roles, r.id ≠ role.id := by
  intro r hr he
  obtain ⟨t, ht, rfl⟩ := Option.map_eq_some_iff.mp hdb
  exact (Keyed.Table.insert_rows ht).2 _ ((h _).mpr ⟨r, hr, rfl⟩) (congrArg Word.toColumn he)

def Role.edited (existing : Role) (name : Option String) (color : Option (Option UInt32))
    (permissions : Option Permissions) : Role :=
  { existing with
    name := (name.map Text.trim).getD existing.name
    color := color.getD existing.color
    permissions := (permissions.map fun p => p.intersect .all).getD existing.permissions }

/-- The store calls of a command that passed its checks, in order. -/
def RoleCommand.calls (p : PermState) : RoleCommand → List StoreWrite
  | .create name permissions =>
    [.setRolePositions (shiftedPositions p.roles),
      .insertRole (newRole p (Text.trim name) (permissions.intersect .all))]
  | .update id name color permissions =>
    match Keyed.get Role.id id p.roles with
    | some existing => [.updateRole (existing.edited name color permissions)]
    | none => []
  | .delete id => [.deleteRole id, .setRolePositions (ordering (deletedPerms p id).roles)]
  | .reorder positions => [.setRolePositions positions]
  | .grant f roles => [.replaceMemberRoles f roles]

def SavesAll (perform : (op : Await) → World → op.Reply × World) : List StoreWrite → World → Prop
  | [], _ => True
  | call :: calls, w => (perform (.save call) w).1 = true ∧ SavesAll perform calls (perform (.save call) w).2

/-- The edit makes something else of the role. -/
def Edits (existing : Role) (name : Option String) (color : Option (Option UInt32))
    (permissions : Option Permissions) : Prop :=
  (∃ n, name = some n ∧ Text.trim n ≠ existing.name) ∨ (∃ c, color = some c ∧ c ≠ existing.color) ∨
    ∃ p, permissions = some p ∧ p.intersect .all ≠ existing.permissions

/-- All of a command's writes are in the tables: what `next` was made from, and where. -/
inductive Written (p : PermState) (db : Db) : RoleCommand → PermState → Db → Prop
  | create {name : String} {permissions : Permissions} {role : Role} {db' : Db} :
      role = newRole p (Text.trim name) (permissions.intersect .all) →
      (db.setRolePositions (shiftedPositions p.roles)).insertRole role = some db' →
      Written p db (.create name permissions) (createdPerms p role) db'
  | update {id : RoleId} {name : Option String} {color : Option (Option UInt32)} {permissions : Option Permissions}
      {existing updated : Role} : Keyed.get Role.id updated.id p.roles = some existing →
      updated.position = existing.position → (updated.id = everyoneRoleId → updated.name = existing.name) →
      updated.id = id → (updated = existing ↔ ¬ Edits existing name color permissions) →
      Written p db (.update id name color permissions) (updatedPerms p updated) (db.updateRole updated)
  | delete {id : RoleId} : id ≠ everyoneRoleId →
      Written p db (.delete id) (deletedPerms p id)
        ((db.deleteRole id).setRolePositions (ordering (deletedPerms p id).roles))
  | reorder {positions : List (RoleId × UInt32)} : densePermutation p.roles positions = true →
      (∀ q ∈ positions, q.1 = everyoneRoleId → q.2 = 0) →
      Written p db (.reorder positions) (reorderedPerms p positions) (db.setRolePositions positions)
  | grant {f : Fingerprint} {roles : List RoleId} {db' : Db} : db.replaceMemberRoles f roles = some db' →
      Written p db (.grant f roles) (grantedPerms p f roles) db'

/-- What a command makes of a member that is connected. -/
def RoleCommand.regrant (u : UserInfo) : RoleCommand → UserInfo
  | .delete id => { u with roles := u.roles.filter (· ≠ id) }
  | .grant f roles => if u.fingerprint = f then { u with roles } else u
  | _ => u

/-- The new snapshot is in, and nothing else moved but the overwrites of a deleted role and the cached grants. -/
structure Swapped (s : Shared) (cmd : RoleCommand) (next : PermState) (s' : Shared) : Prop where
  perms : s'.perms = next
  sessions : SameSessions s s'
  channels : s'.channels = match cmd with
    | .delete id => (s.stripRoleOverwrites id).2.channels
    | _ => s.channels
  unfailed : ∀ k nonce, ¬ Failed s s' k nonce
  users : ∀ k, s'.user k = (s.user k).map cmd.regrant

/-- How a command that passed its checks may end, alone. -/
inductive RoleOutcome (perform : (op : Await) → World → op.Reply × World) (s : Shared) (w : World) (client : ClientId)
    (nonce : UInt64) : RoleCommand → PermState → Shared × World → Prop
  | unsaved {cmd : RoleCommand} {next : PermState} (detail : String) : ¬ SavesAll perform (cmd.calls s.perms) w →
      RoleOutcome perform s w client nonce cmd next (refuse s client nonce .internal detail, w)
  | halfCreated {name : String} {permissions : Permissions} {next : PermState} {role : Role} (detail : String) :
      role = newRole s.perms (Text.trim name) (permissions.intersect .all) →
      (perform (.save (.setRolePositions (shiftedPositions s.perms.roles))) w).1 = true →
      (perform (.save (.insertRole role))
        { w with db := w.db.setRolePositions (shiftedPositions s.perms.roles) }).1 = false →
      RoleOutcome perform s w client nonce (.create name permissions) next
        (refuse s client nonce .internal detail,
          { w with db := w.db.setRolePositions (shiftedPositions s.perms.roles) })
  | uncompacted {id : RoleId} {s' : Shared} : Swapped s (.delete id) (deletedPerms s.perms id) s' →
      (perform (.save (.deleteRole id)) w).1 = true →
      (perform (.save (.setRolePositions (ordering (deletedPerms s.perms id).roles)))
        { w with db := w.db.deleteRole id }).1 = false →
      RoleOutcome perform s w client nonce (.delete id) (deletedPerms s.perms id)
        (s', { w with db := w.db.deleteRole id })
  | saved {cmd : RoleCommand} {next : PermState} {s' : Shared} {db : Db} : Swapped s cmd next s' →
      Written s.perms w.db cmd next db → SavesAll perform (cmd.calls s.perms) w →
      RoleOutcome perform s w client nonce cmd next (s', { w with db })

theorem editedRole_eq {a : Actor} {existing updated : Role} {name : Option String} {color : Option (Option UInt32)}
    {permissions : Option Permissions} (h : editedRole a existing name color permissions = .ok updated) :
    updated = existing.edited name color permissions := by
  unfold editedRole at h
  split at h; · cases h
  split at h
  · cases h; rfl
  · dsimp only at h
    split at h
    · cases h
    · cases h; rfl

theorem Role.edited_same (existing : Role) (name : Option String) (color : Option (Option UInt32))
    (permissions : Option Permissions) :
    existing.edited name color permissions = existing ↔ ¬ Edits existing name color permissions := by
  have hsame : existing.edited name color permissions = existing ↔
      (name.map Text.trim).getD existing.name = existing.name ∧ color.getD existing.color = existing.color ∧
        (permissions.map fun p => p.intersect .all).getD existing.permissions = existing.permissions := by
    unfold edited
    cases existing
    simp
  rw [hsame]
  unfold Edits
  cases name <;> cases color <;> cases permissions <;> simp

theorem editedRole_name {a : Actor} {existing updated : Role} {color : Option (Option UInt32)}
    {permissions : Option Permissions} (h : editedRole a existing none color permissions = .ok updated) :
    updated.name = existing.name := by
  unfold editedRole at h
  simp only [Option.any_none, Bool.false_eq_true, if_false, Option.map_none, Option.getD_none] at h
  split at h
  · cases h; rfl
  · split at h
    · cases h
    · cases h; rfl

section
variable {perform : (op : Await) → World → op.Reply × World} {s : Shared} {client : ClientId} {nonce : UInt64}

theorem Swapped.of_eq {cmd : RoleCommand} {next : PermState} {t s' : Shared} {f : UserInfo → List ServerControl}
    (he : s' = t.deliver f) (hperms : t.perms = next) (hs : SameSessions s t)
    (hc : t.channels = match cmd with
      | .delete id => (s.stripRoleOverwrites id).2.channels
      | _ => s.channels)
    (hu : ∀ k, t.user k = (s.user k).map cmd.regrant) (hq : ∀ k, t.queue k = s.queue k)
    (hf : ∀ i nonce code detail, .commandFailed nonce code detail ∉ f i) : Swapped s cmd next s' := by
  subst he
  refine ⟨hperms, hs.deliver f, hc, not_failed_deliver hq hf, fun k => ?_⟩
  rw [← hu k, Shared.user, Shared.user, Shared.deliver_client?, Option.map_map]
  rfl

theorem user_same (s : Shared) (k : ClientId) : s.user k = (s.user k).map fun u => u := Option.map_id'.symm

theorem withoutRole_user (s : Shared) (p : PermState) (id : RoleId) (k : ClientId) :
    (s.withoutRole p id).user k = (s.user k).map (RoleCommand.delete id).regrant := by
  have hstrip : ∀ e : ConnectedClient, (if id ∈ e.info.roles then
      { e with info := { e.info with roles := e.info.roles.filter (· ≠ id) } } else e).info =
        (RoleCommand.delete id).regrant e.info := by
    intro e
    split
    · rfl
    · rename_i hid
      have hroles : e.info.roles.filter (· ≠ id) = e.info.roles :=
        List.filter_eq_self.mpr fun j hj => decide_eq_true fun he => hid (he ▸ hj)
      simp only [RoleCommand.regrant, hroles]
  have hclient : (s.withoutRole p id).client? k = (s.client? k).map _ :=
    Shared.client?_map s (fun e => by split <;> rfl) k
  rw [Shared.user, hclient, Shared.user, Option.map_map, Option.map_map]
  exact congrArg (Option.map · _) (funext hstrip)

theorem withGrants_user (s : Shared) (p : PermState) (f : Fingerprint) (roles : List RoleId) (k : ClientId) :
    (s.withGrants p f roles).user k = (s.user k).map (RoleCommand.grant f roles).regrant := by
  have hclient : (s.withGrants p f roles).client? k = (s.client? k).map _ :=
    Shared.client?_map s (fun e => by split <;> rfl) k
  rw [Shared.user, hclient, Shared.user, Option.map_map, Option.map_map]
  refine congrArg (Option.map · _) (funext fun e => ?_)
  simp only [Function.comp_apply, RoleCommand.regrant]
  split <;> rfl

theorem withoutRole_queue (s : Shared) (p : PermState) (id : RoleId) (k : ClientId) :
    (s.withoutRole p id).queue k = s.queue k :=
  Shared.queue_of_map rfl (fun e => by split <;> exact ⟨rfl, rfl⟩) k

theorem withGrants_queue (s : Shared) (p : PermState) (f : Fingerprint) (roles : List RoleId) (k : ClientId) :
    (s.withGrants p f roles).queue k = s.queue k :=
  Shared.queue_of_map rfl (fun e => by split <;> exact ⟨rfl, rfl⟩) k

theorem deleteRole_swapped (s : Shared) (client : ClientId) (nonce : UInt64) (id : RoleId) :
    Swapped s (.delete id) (deletedPerms s.perms id)
      (deleteRoleSwap s client nonce s.perms s.visibleIdsByClient id) := by
  refine .of_eq (deleteRoleSwap_eq ..) rfl (withoutRole_sessions ..) rfl (withoutRole_user s _ id)
    (withoutRole_queue s _ _) ?_
  simp [commandFailed_not_mem_acks, Shared.commandFailed_not_mem_resync]

/-- A command that passed its checks is saved and swapped in, or refused; in
between stand a creation without its row and a deletion without compaction. -/
theorem Passes.outcome (hf : Faulty perform) {a : Actor} {cmd : RoleCommand} {next : PermState} {save : Todo}
    (h : Passes s client nonce a cmd next save) (w : World) :
    RoleOutcome perform s w client nonce cmd next (save.run perform s w) := by
  cases h with
  | @create name permissions _ _ =>
    unfold createRoleSave
    simp only [run_onSaved]
    rcases hf.save (.setRolePositions (shiftedPositions s.perms.roles)) w with ⟨db, hdb, hp⟩ | hp
    · obtain rfl : w.db.setRolePositions (shiftedPositions s.perms.roles) = db := Option.some.inj hdb
      simp only [hp, if_true]
      rcases hf.save (.insertRole (newRole s.perms (Text.trim name) (permissions.intersect .all)))
        { w with db := w.db.setRolePositions (shiftedPositions s.perms.roles) } with ⟨db', hdb', hp'⟩ | hp'
      · simp only [hp', if_true, Async.Task.run_done]
        refine .saved (.of_eq (createRoleSwap_eq ..) rfl (swap_sessions ..) rfl (user_same s) (fun _ => rfl) ?_)
          (.create rfl hdb') (by simp [RoleCommand.calls, SavesAll, hp, hp'])
        simp [commandFailed_not_mem_acks]
      · simp only [hp', Bool.false_eq_true, if_false]
        exact .halfCreated _ rfl (by rw [hp]) (by rw [hp'])
    · simp only [hp, Bool.false_eq_true, if_false]
      exact .unsaved _ (by simp [RoleCommand.calls, SavesAll, hp])
  | @update id name color permissions existing updated hget _ hname hedit =>
    obtain ⟨hid, hpos, -, -⟩ := editedRole_ok hedit
    have hcalls : (RoleCommand.update id name color permissions).calls s.perms = [.updateRole updated] := by
      simp only [RoleCommand.calls, hget, editedRole_eq hedit]
    have hget' : Keyed.get Role.id updated.id s.perms.roles = some existing := by
      rw [hid, ← hget, Keyed.get_key hget]
    unfold updateRoleSave
    simp only [run_onSaved]
    rcases hf.save (.updateRole updated) w with ⟨db, hdb, hp⟩ | hp
    · obtain rfl : w.db.updateRole updated = db := Option.some.inj hdb
      simp only [hp, if_true, Async.Task.run_done]
      refine .saved (.of_eq (updateRoleSwap_eq ..) rfl (swap_sessions ..) rfl (user_same s) (fun _ => rfl) ?_)
        (.update hget' hpos (fun he => ?_) (hid.trans (Keyed.get_key hget))
          (editedRole_eq hedit ▸ existing.edited_same name color permissions))
        (by simp [hcalls, SavesAll, hp])
      · simp [commandFailed_not_mem_acks, Shared.commandFailed_not_mem_resync]
      · cases name with
        | none => exact editedRole_name hedit
        | some n => exact absurd ⟨(Keyed.get_key hget).symm.trans (hid.symm.trans he), rfl⟩ hname
    · simp only [hp, Bool.false_eq_true, if_false]
      exact .unsaved _ (by simp [hcalls, SavesAll, hp])
  | @delete id hne _ _ =>
    have hswap := deleteRole_swapped s client nonce id
    unfold deleteRoleSave
    simp only [run_onSaved, run_onWritten]
    rcases hf.save (.deleteRole id) w with ⟨db, hdb, hp⟩ | hp
    · obtain rfl : w.db.deleteRole id = db := Option.some.inj hdb
      simp only [hp, if_true, Async.Task.run_done]
      rcases hf.save (.setRolePositions (ordering (deletedPerms s.perms id).roles)) { w with db := w.db.deleteRole id }
        with ⟨db', hdb', hp'⟩ | hp'
      · obtain rfl := Option.some.inj hdb'
        rw [hp']
        exact .saved hswap (.delete hne) (by simp [RoleCommand.calls, SavesAll, hp, hp'])
      · have hfail : (perform (.save (.setRolePositions (ordering (deletedPerms s.perms id).roles)))
            { w with db := w.db.deleteRole id }).1 = false := by rw [hp']
        rw [hp']
        exact .uncompacted hswap (by rw [hp]) hfail
    · simp only [hp, Bool.false_eq_true, if_false]
      exact .unsaved _ (by simp [RoleCommand.calls, SavesAll, hp])
  | @reorder positions hd hev _ =>
    unfold reorderRolesSave
    simp only [run_onSaved]
    rcases hf.save (.setRolePositions positions) w with ⟨db, hdb, hp⟩ | hp
    · obtain rfl : w.db.setRolePositions positions = db := Option.some.inj hdb
      simp only [hp, if_true, Async.Task.run_done]
      refine .saved (.of_eq (reorderRolesSwap_eq ..) rfl (swap_sessions ..) rfl (user_same s) (fun _ => rfl) ?_)
        (.reorder hd hev) (by simp [RoleCommand.calls, SavesAll, hp])
      simp [commandFailed_not_mem_acks]
    · simp only [hp, Bool.false_eq_true, if_false]
      exact .unsaved _ (by simp [RoleCommand.calls, SavesAll, hp])
  | @grant f roles _ _ _ _ =>
    unfold setMemberRolesSave
    simp only [run_onSaved]
    rcases hf.save (.replaceMemberRoles f roles) w with ⟨db, hdb, hp⟩ | hp
    · simp only [hp, if_true, Async.Task.run_done]
      refine .saved (.of_eq (setMemberRolesSwap_eq ..) rfl (withGrants_sessions ..) rfl
        (withGrants_user s _ f roles) (withGrants_queue s _ _ _) ?_)
        (.grant hdb) (by simp [RoleCommand.calls, SavesAll, hp])
      simp [commandFailed_not_mem_acks, Shared.commandFailed_not_mem_resync]
    · simp only [hp, Bool.false_eq_true, if_false]
      exact .unsaved _ (by simp [RoleCommand.calls, SavesAll, hp])

theorem Passes.handle_eq {a : Actor} {cmd : RoleCommand} {next : PermState} {save : Todo} (hs : s.store = true)
    (ha : actor s client nonce = .ok a) (h : Passes s client nonce a cmd next save) :
    cmd.handle client nonce s = (s, save) := by
  cases h with
  | create hname hgrant => simp [RoleCommand.handle, createRole, ha, hs, hname, hgrant]
  | update hget hrank hname hedit =>
    simp only [RoleCommand.handle, updateRole, ha, hget, hrank, hedit, hs]
    simp [hname]
  | delete hne hex hrank =>
    have hany : s.perms.roles.any (fun r => r.id = _) = true := List.any_eq_true.mpr (by simpa using hex)
    simp [RoleCommand.handle, deleteRole, ha, hs, hne, hrank, hany]
  | @reorder positions hd hev hrank =>
    have hany : positions.any (fun p => p.1 = everyoneRoleId ∧ p.2 ≠ 0) = false := by simpa using hev
    have hmoves : (!a.owner &&
        positions.any (movesAbove s.perms.roles (topRolePosition s.perms.roles a.roles))) = false := by
      cases ho : a.owner with
      | true => rfl
      | false => simpa [ho] using hrank ho
    simp only [RoleCommand.handle, reorderRoles, ha, hd, hany, hs, hmoves]
    rfl
  | @grant f roles hne hex howner hrank =>
    have hany : (roles.any fun id => !s.perms.roles.any fun r => r.id = id) = false := by simpa using hex
    have hown : (s.isOwner f && !a.owner) = false := by
      cases ho : s.isOwner f with
      | true => simp [howner ho]
      | false => rfl
    have hchanged : (changedRoles (s.perms.grants f) roles).any
        (fun role => !canManageRole s.perms.roles a.roles a.owner role) = false := by simpa using hrank
    simp [RoleCommand.handle, setMemberRoles, ha, hs, hne, hany, hown, hchanged]

theorem RoleCommand.outcome (hf : Faulty perform) (cmd : RoleCommand) (w : World) :
    (Refused s client (Async.exec perform (cmd.handle client nonce) s w).1 ∧
        (Async.exec perform (cmd.handle client nonce) s w).2 = w) ∨
      ∃ next, RoleOutcome perform s w client nonce cmd next (Async.exec perform (cmd.handle client nonce) s w) := by
  unfold Async.exec
  rcases handle_cases (rfl : cmd.handle client nonce s = _) with ⟨hd, hr⟩ | ⟨a, next, save, -, -, hp, he⟩
  · rw [hd]
    exact .inl ⟨hr, rfl⟩
  · rw [he]
    exact .inr ⟨next, hp.outcome hf w⟩

/-- The ids of new roles have not run out: the highest one has a successor. -/
def RoleIdsLeft (p : PermState) : Prop := (Word.maxOr0 (p.roles.map Role.id)).toNat + 1 < 2 ^ 32

/-- When no store call fails and ids are left, a command is refused or saved as a whole. -/
theorem RoleCommand.settled {cmd : RoleCommand} {w : World} (hids : Keyed.Unique Role.id s.perms.roles)
    (hrows : RoleRows s.perms.roles w.db)
    (hsafe : ∀ name permissions, cmd = .create name permissions → Accepted s client nonce cmd → RoleIdsLeft s.perms) :
    (Refused s client (Async.exec Await.perform (cmd.handle client nonce) s w).1 ∧
        (Async.exec Await.perform (cmd.handle client nonce) s w).2 = w) ∨
      ∃ next s' db, Swapped s cmd next s' ∧ Written s.perms w.db cmd next db ∧
        Async.exec Await.perform (cmd.handle client nonce) s w = (s', { w with db }) := by
  unfold Async.exec
  rcases handle_cases (rfl : cmd.handle client nonce s = _) with ⟨hd, hr⟩ | ⟨a, next, save, ha, hstore, hp, he⟩
  · rw [hd]
    exact .inl ⟨hr, rfl⟩
  rw [he]
  have ho := hp.outcome Await.faulty w
  generalize save.run Await.perform s w = r at ho ⊢
  cases ho with
  | unsaved detail => exact .inl ⟨.refuse .., rfl⟩
  | @halfCreated name permissions _ role detail hrole _ hins =>
    have hplaced := hrows.placed (unique_shifted hids)
    cases hdb : StoreWrite.perform (.insertRole role) (w.db.setRolePositions (shiftedPositions s.perms.roles)) with
    | some db => rw [Await.perform_saved hdb] at hins; cases hins
    | none =>
      -- A row has the new id, and so has a role.
      obtain ⟨row, hrow, hid⟩ := Keyed.Table.insert_eq_none (Option.map_eq_none_iff.mp hdb)
      obtain ⟨r, hr, rfl⟩ := (hplaced row).mp hrow
      obtain ⟨q, hq, rfl⟩ := List.mem_map.mp hr
      have he : q.id = role.id := Word.toColumn_inj hid
      have hm : role.id ∈ s.perms.roles.map Role.id := List.mem_map.mpr ⟨q, hq, he⟩
      rw [hrole] at hm
      exact absurd hm (Word.maxOr0_succ_not_mem (hsafe name permissions rfl ⟨hstore, a, next, save, ha, hp⟩))
  | uncompacted _ _ hfail => cases hfail
  | saved hswap hw => exact .inr ⟨_, _, _, hswap, hw, rfl⟩

end

section
variable {p next : PermState} {db db' : Db} {cmd : RoleCommand} (h : Written p db cmd next db')
include h

theorem Written.order (ho : RoleOrder p.roles) (hr : RoleRows p.roles db) : RoleOrder next.roles := by
  cases h with
  | create hrole hdb =>
    refine ho.created (hrole ▸ rfl) fun r hr' => ?_
    have hfresh := (hr.placed (unique_shifted ho.ids)).fresh hdb
    exact hfresh { r with position := newPosition (shiftedPositions p.roles) r } (List.mem_map_of_mem hr')
  | update hget hpos => exact ho.updated hget hpos
  | delete hne => exact ho.deleted hne
  | reorder hd hev => exact ho.reordered hd hev
  | grant => exact ho

theorem Written.rows (hids : Keyed.Unique Role.id p.roles) (hr : RoleRows p.roles db) : RoleRows next.roles db' := by
  cases h with
  | create _ hdb => exact (hr.created hids hdb).2
  | update hget hpos => exact hr.updated hids hget hpos
  | delete => exact hr.deleted hids _
  | reorder hd _ => exact hr.reordered hids hd
  | grant hdb =>
    obtain ⟨t, -, rfl⟩ := Option.map_eq_some_iff.mp hdb
    exact hr

theorem Written.mirror (hm : RolesMirror p db) : RolesMirror next db' := by
  cases h with
  | create _ hdb => exact hm.created hdb
  | update hget hpos => exact hm.updated hget hpos
  | delete => exact hm.deleted _
  | reorder hd _ => exact hm.reordered hd
  | grant hdb => exact hm.granted hdb

end

end PickleChat
