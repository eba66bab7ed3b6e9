import PickleChat.Lib.Values
import PickleChat.ChannelMirror
import PickleChat.Roster

/-!
# What memory and tables say

Memory and tables each say who a role is and where it stands, who holds it,
what a channel is and what an overwrite of it allows. A command may find them
saying different things; what it changes, it should leave them at one about.
-/

namespace PickleChat

open Keyed (values)

/-- Something that memory and tables may both speak of. -/
inductive Fact where
  | role (id : RoleId)
  | place (id : RoleId)
  | grant (f : Fingerprint) (id : RoleId)
  | room (id : ChannelId)
  | overwrite (channel : ChannelId) (target : OverwriteTarget)

/-- What can be said of it, as columns. -/
def Fact.Value : Fact → Type
  | role _ => String × Option Int64 × Int64
  | place _ => Int64
  | grant .. => Unit
  | room _ => ChannelRow
  | overwrite .. => Int64 × Int64

def RoleRow.traits (row : RoleRow) : String × Option Int64 × Int64 := (row.name, row.color, row.permissions)

def Role.traits (r : Role) : String × Option Int64 × Int64 := (roleRow r).traits

theorem Role.eq_of_traits {r q : Role} (hid : r.id = q.id) (hpos : r.position = q.position) (h : r.traits = q.traits) :
    r = q := by
  obtain ⟨hname, hcolor, hpermissions⟩ : r.name = q.name ∧ (roleRow r).color = (roleRow q).color ∧
      (roleRow r).permissions = (roleRow q).permissions := by
    simpa [Role.traits, RoleRow.traits, roleRow] using h
  apply roleRow_inj
  cases r
  cases q
  simp_all [roleRow]

def Role.place (r : Role) : Int64 := Word.toColumn r.position

def Overwrite.bits (o : Overwrite) : Int64 × Int64 := (o.allow.toColumn, o.deny.toColumn)

def OverwriteRow.bits (row : OverwriteRow) : Int64 × Int64 := (row.allow, row.deny)

def overwritesIn (channels : List Channel) (channel : ChannelId) (target : OverwriteTarget) : Set (Int64 × Int64) :=
  {v | ∃ c ∈ channels, c.id = channel ∧ v ∈ values Overwrite.target Overwrite.bits c.overwrites target}

def overwritesOf (rows : List OverwriteRow) (channel : ChannelId) (target : OverwriteTarget) : Set (Int64 × Int64) :=
  values OverwriteRow.key OverwriteRow.bits rows (Word.toColumn channel, overwriteKey target)

def Fact.memory (s : Shared) : (k : Fact) → Set k.Value
  | role id => values Role.id Role.traits s.perms.roles id
  | place id => values Role.id Role.place s.perms.roles id
  | grant f id => {_v | id ∈ s.perms.grants f}
  | room id => values Channel.id channelRow s.channels id
  | overwrite channel target => overwritesIn s.channels channel target

def Fact.stored (db : Db) : (k : Fact) → Set k.Value
  | role id => values RoleRow.id RoleRow.traits db.roles.rows (Word.toColumn id)
  | place id => values RoleRow.id RoleRow.position db.roles.rows (Word.toColumn id)
  | grant f id => {_v | memberRow f id ∈ db.roleMembers.rows}
  | room id => values ChannelRow.id (fun row => row) db.channels.rows (Word.toColumn id)
  | overwrite channel target => overwritesOf db.channelOverwrites.rows channel target

/-- Either nothing else is said of it than before, or memory and tables now say the same. -/
def Fact.Agreed (x y : Shared × World) (k : Fact) : Prop :=
  Keyed.Agreed (k.memory x.1) (k.stored x.2.db) (k.memory y.1) (k.stored y.2.db)

/-- Memory and tables are at one about all that has changed from `x` to `y`, and so is the
roster about the roles of everyone who is connected. -/
structure Settled (x y : Shared × World) : Prop where
  facts : ∀ k : Fact, k.Agreed x y
  roster : ∀ client u v, x.1.user client = some u → y.1.user client = some v → ∀ id,
    ((id ∈ v.roles ↔ id ∈ u.roles) ∧
        (Fact.grant v.fingerprint id).stored y.2.db = (Fact.grant v.fingerprint id).stored x.2.db) ∨
      (id ∈ v.roles ↔ () ∈ (Fact.grant v.fingerprint id).stored y.2.db)

def Rowless (db : Db) (id : RoleId) : Prop := ∀ row ∈ db.roles.rows, row.id ≠ Word.toColumn id

instance (db : Db) (id : RoleId) : Decidable (Rowless db id) := inferInstanceAs (Decidable (∀ _ ∈ _, _))

/-! ## Moving roles -/

structure Names (positions : List (RoleId × UInt32)) (roles : List Role) : Prop where
  unique : Keyed.Unique Prod.fst positions
  ids : ∀ id, (∃ q ∈ positions, q.1 = id) ↔ ∃ r ∈ roles, r.id = id

theorem names_shifted {p : PermState} (hids : Keyed.Unique Role.id p.roles) :
    Names (shiftedPositions p.roles) p.roles where
  unique := unique_shifted hids
  ids id := by
    have hmap : (shiftedPositions p.roles).map Prod.fst = p.roles.map Role.id := by
      unfold shiftedPositions
      rw [List.map_map]
      refine List.map_congr_left fun r _ => ?_
      rw [Function.comp_apply]
      split <;> rfl
    rw [← List.mem_map, hmap, List.mem_map]

theorem names_reordered {roles : List Role} {positions : List (RoleId × UInt32)} (hids : Keyed.Unique Role.id roles)
    (hd : densePermutation roles positions = true) : Names positions roles where
  unique := unique_positions hids hd
  ids id := by rw [← List.mem_map, ← (densePermutation_spec hids hd).1.mem_iff, List.mem_map]

theorem names_compacted {roles : List Role} (hids : Keyed.Unique Role.id roles) :
    Names (ordering (compacted roles)) roles where
  unique := unique_ordering (unique_compacted hids)
  ids id := by
    have hmap : ∀ l : List Role, l.map Role.id = (l.map Role.unplaced).map Role.id := by
      intro l
      rw [List.map_map]
      rfl
    have hkeys : (ordering (compacted roles)).map Prod.fst = (compacted roles).map Role.id := by
      unfold ordering
      rw [List.map_map]
      rfl
    rw [← List.mem_map, hkeys, ← List.mem_map, hmap, hmap roles, List.mem_map, List.mem_map]
    exact exists_congr fun u => and_congr_left fun _ => (mem_compacted_unplaced roles u).symm

theorem names_deleted {p : PermState} (hids : Keyed.Unique Role.id p.roles) (gone : RoleId) :
    Names (ordering (deletedPerms p gone).roles) (Keyed.erase Role.id gone p.roles) := names_compacted (hids.erase gone)

theorem setRolePositions_roles {positions : List (RoleId × UInt32)} (hu : Keyed.Unique Prod.fst positions) (db : Db) :
    (db.setRolePositions positions).roles.rows = db.roles.rows.map (placed positions) :=
  setRolePositions_rows hu db.roles

theorem placed_id (positions : List (RoleId × UInt32)) (row : RoleRow) : (placed positions row).id = row.id := by
  unfold placed
  split <;> rfl

theorem placed_traits (positions : List (RoleId × UInt32)) (row : RoleRow) :
    (placed positions row).traits = row.traits := by
  unfold placed
  split <;> rfl

/-- A role that is named is placed where the list says. -/
theorem placed_position {positions : List (RoleId × UInt32)} (hu : Keyed.Unique Prod.fst positions) {r : Role}
    (hr : ∃ q ∈ positions, q.1 = r.id) {row : RoleRow} (hid : row.id = Word.toColumn r.id) :
    (placed positions row).position = Word.toColumn (newPosition positions r) := by
  obtain ⟨q, hq, hqid⟩ := hr
  have hget : Keyed.get Prod.fst r.id positions = some q := hqid ▸ Keyed.get_of_mem hu hq
  unfold placed newPosition
  rw [hid, find?_column, hget]

theorem placed_unnamed {positions : List (RoleId × UInt32)} {id : RoleId} (h : ∀ q ∈ positions, q.1 ≠ id)
    {row : RoleRow} (hid : row.id = Word.toColumn id) : placed positions row = row := by
  unfold placed
  rw [hid, find?_column, Keyed.get_eq_none.mpr h]

theorem traits_withPositions (positions : List (RoleId × UInt32)) (roles : List Role) (id : RoleId) :
    values Role.id Role.traits (withPositions positions roles) id = values Role.id Role.traits roles id :=
  Keyed.values_map (fun _ _ => rfl) fun _ _ _ => rfl

theorem traits_placed (positions : List (RoleId × UInt32)) (rows : List RoleRow) (id : RoleId) :
    values RoleRow.id RoleRow.traits (rows.map (placed positions)) (Word.toColumn id) =
      values RoleRow.id RoleRow.traits rows (Word.toColumn id) :=
  Keyed.values_map (fun _ _ => placed_id ..) fun _ _ _ => placed_traits ..

/-- When roles are moved in memory and in the table, both are at one exactly if those that move have rows. -/
theorem placed_agreed {roles : List Role} {positions : List (RoleId × UInt32)} (hids : Keyed.Unique Role.id roles)
    (hn : Names positions roles) (t : Keyed.Table RoleRow Int64 RoleRow.id) (id : RoleId) :
    Keyed.Agreed (values Role.id Role.place roles id) (values RoleRow.id RoleRow.position t.rows (Word.toColumn id))
      (values Role.id Role.place (withPositions positions roles) id)
      (values RoleRow.id RoleRow.position (t.rows.map (placed positions)) (Word.toColumn id)) ↔
    ∀ r ∈ roles, r.id = id → newPosition positions r ≠ r.position → ∃ row ∈ t.rows, row.id = Word.toColumn r.id := by
  by_cases hr : ∃ r ∈ roles, r.id = id
  · obtain ⟨r, hr, rfl⟩ := hr
    have hmemory : values Role.id Role.place (withPositions positions roles) r.id =
        {Word.toColumn (newPosition positions r)} :=
      Keyed.values_of_mem (unique_withPositions hids positions) (List.mem_map_of_mem hr) rfl
    rw [hmemory, Keyed.values_of_mem hids hr rfl]
    by_cases hrow : ∃ row ∈ t.rows, row.id = Word.toColumn r.id
    · obtain ⟨row, hrow, hid⟩ := hrow
      have hstored : values RoleRow.id RoleRow.position (t.rows.map (placed positions)) (Word.toColumn r.id) =
          {Word.toColumn (newPosition positions r)} := by
        refine Keyed.values_eq ⟨_, List.mem_map_of_mem hrow, (placed_id ..).trans hid⟩ fun row' hrow' hid' => ?_
        obtain ⟨old, -, rfl⟩ := List.mem_map.mp hrow'
        exact placed_position hn.unique ((hn.ids _).mpr ⟨r, hr, rfl⟩) ((placed_id ..).symm.trans hid')
      rw [hstored]
      exact iff_of_true (.inr rfl) fun q hq he _ => ⟨row, hrow, hid.trans (congrArg Word.toColumn he.symm)⟩
    · have hnone : ∀ row ∈ t.rows, row.id ≠ Word.toColumn r.id := fun row hm he => hrow ⟨row, hm, he⟩
      have hnone' : ∀ row ∈ t.rows.map (placed positions), row.id ≠ Word.toColumn r.id := by
        intro row hm
        obtain ⟨old, hold, rfl⟩ := List.mem_map.mp hm
        rw [placed_id]
        exact hnone old hold
      rw [Keyed.values_empty hnone, Keyed.values_empty hnone']
      constructor
      · rintro (⟨hsame, -⟩ | hsame) q hq hid hmoves
        · rw [Keyed.eq_of_key hids hq hr hid] at hmoves
          exact absurd (Word.toColumn_inj (Set.singleton_injective hsame)) hmoves
        · exact absurd hsame (Set.singleton_ne_empty _)
      · intro hmoves
        have hsame : newPosition positions r = r.position := by
          by_contra hne
          exact hrow (hmoves r hr rfl hne)
        rw [hsame]
        exact .inl ⟨rfl, rfl⟩
  · have hnone : ∀ r ∈ roles, r.id ≠ id := fun r hm he => hr ⟨r, hm, he⟩
    have hunnamed : ∀ q ∈ positions, q.1 ≠ id := fun q hq he => hr ((hn.ids id).mp ⟨q, hq, he⟩)
    refine iff_of_true (.inl ⟨?_, ?_⟩) fun r hm he => absurd he (hnone r hm)
    · exact Keyed.values_map (fun _ _ => rfl) fun r hm he => absurd he (hnone r hm)
    · exact Keyed.values_map (fun _ _ => placed_id ..) fun row _ he => by rw [placed_unnamed hunnamed he]

/-- When roles are moved in memory only, the table is at one with it exactly if it had them there already. -/
theorem moved_agreed {roles : List Role} (hids : Keyed.Unique Role.id roles) (positions : List (RoleId × UInt32))
    (t : Keyed.Table RoleRow Int64 RoleRow.id) (id : RoleId) :
    Keyed.Agreed (values Role.id Role.place roles id) (values RoleRow.id RoleRow.position t.rows (Word.toColumn id))
      (values Role.id Role.place (withPositions positions roles) id)
      (values RoleRow.id RoleRow.position t.rows (Word.toColumn id)) ↔
    ∀ r ∈ roles, r.id = id → newPosition positions r ≠ r.position →
      ∃ row ∈ t.rows, row.id = Word.toColumn r.id ∧ row.position = Word.toColumn (newPosition positions r) := by
  by_cases hr : ∃ r ∈ roles, r.id = id
  · obtain ⟨r, hr, rfl⟩ := hr
    have hmemory : values Role.id Role.place (withPositions positions roles) r.id =
        {Word.toColumn (newPosition positions r)} :=
      Keyed.values_of_mem (unique_withPositions hids positions) (List.mem_map_of_mem hr) rfl
    rw [hmemory, Keyed.values_of_mem hids hr rfl]
    constructor
    · rintro hsame q hq hid hmoves
      obtain rfl := Keyed.eq_of_key hids hq hr hid
      rcases hsame with ⟨hsame, -⟩ | hsame
      · exact absurd (Word.toColumn_inj (Set.singleton_injective hsame)) hmoves
      · exact Keyed.exists_of_values hsame.symm
    · intro hmoves
      by_cases hsame : newPosition positions r = r.position
      · rw [hsame]
        exact .inl ⟨rfl, rfl⟩
      · obtain ⟨row, hrow, hid, hpos⟩ := hmoves r hr rfl hsame
        rw [Keyed.values_of_mem t.unique hrow hid, hpos]
        exact .inr rfl
  · have hnone : ∀ r ∈ roles, r.id ≠ id := fun r hm he => hr ⟨r, hm, he⟩
    refine iff_of_true (.inl ⟨?_, rfl⟩) fun r hm he => absurd he (hnone r hm)
    exact Keyed.values_map (fun _ _ => rfl) fun r hm he => absurd he (hnone r hm)

/-! ## Role commands -/

/-- The list by which the command moves the roles of a snapshot. -/
def RoleCommand.positions (p : PermState) : RoleCommand → List (RoleId × UInt32)
  | .create _ _ => shiftedPositions p.roles
  | .delete id => ordering (deletedPerms p id).roles
  | .reorder positions => positions
  | .update .. | .grant .. => []

/-- Of what the command changes in memory, the tables cannot hold something: a role
that moves or is edited has no row, or a new role shares its id with another. -/
inductive RoleCommand.Adrift (p : PermState) (db : Db) : RoleCommand → Prop
  | moved {cmd : RoleCommand} {r : Role} : r ∈ p.roles → newPosition (cmd.positions p) r ≠ r.position →
      Rowless db r.id → Adrift p db cmd
  | edited {id : RoleId} {name : Option String} {color : Option (Option UInt32)} {permissions : Option Permissions}
      {existing : Role} : Keyed.get Role.id id p.roles = some existing → Edits existing name color permissions →
      Rowless db id → Adrift p db (.update id name color permissions)
  | taken {name : String} {permissions : Permissions} {r : Role} : r ∈ p.roles →
      r.id = (newRole p name permissions).id → Adrift p db (.create name permissions)

/-! ### What they leave alone -/

section
variable {p : PermState} {db db' : Db} {role : Role} {id : RoleId}
  (hdb : (db.setRolePositions (shiftedPositions p.roles)).insertRole role = some db')

theorem created_elsewhere {β : Type} (g : Role → β) (hne : id ≠ role.id) :
    values Role.id g (createdPerms p role).roles id =
      values Role.id g (withPositions (shiftedPositions p.roles) p.roles) id := by
  apply Keyed.values_congr
  intro r hr
  simp only [createdPerms, mem_sortByPosition, List.mem_append, List.mem_singleton]
  exact or_iff_left fun he => hne (hr.symm.trans (congrArg Role.id he))

/-- The new role is all that has its id, if no role had it. -/
theorem created_here {β : Type} (g : Role → β) (hids : Keyed.Unique Role.id p.roles)
    (hfresh : ∀ r ∈ p.roles, r.id ≠ role.id) : values Role.id g (createdPerms p role).roles role.id = {g role} := by
  refine Keyed.values_eq ⟨role, (mem_created hids).mpr (.inl rfl), rfl⟩ fun r hr hid => ?_
  rcases (mem_created hids).mp hr with rfl | ⟨q, hq, rfl⟩
  · rfl
  · exact absurd hid (hfresh q hq)

include hdb

theorem created_rows_elsewhere {β : Type} (g : RoleRow → β) (hids : Keyed.Unique Role.id p.roles) (hne : id ≠ role.id) :
    values RoleRow.id g db'.roles.rows (Word.toColumn id) =
      values RoleRow.id g (db.roles.rows.map (placed (shiftedPositions p.roles))) (Word.toColumn id) := by
  obtain ⟨t, ht, rfl⟩ := Option.map_eq_some_iff.mp hdb
  apply Keyed.values_congr
  intro row hid
  rw [(Keyed.Table.insert_rows ht).1, setRolePositions_roles (unique_shifted hids), List.mem_append, List.mem_singleton]
  exact or_iff_left fun he => hne (Word.toColumn_inj (hid.symm.trans (congrArg RoleRow.id he)))

/-- The new role is stored, and its id had no row. -/
theorem created_row : roleRow role ∈ db'.roles.rows ∧ Rowless db role.id := by
  constructor
  · obtain ⟨t, ht, rfl⟩ := Option.map_eq_some_iff.mp hdb
    simp [(Keyed.Table.insert_rows ht).1]
  · intro row hrow hid
    have hnew := (insertRole_roleIds hdb).2
    rw [setRolePositions_roleIds] at hnew
    exact hnew (List.mem_map.mpr ⟨row, hrow, hid⟩)

theorem created_row_here {β : Type} (g : RoleRow → β) :
    values RoleRow.id g db'.roles.rows (Word.toColumn role.id) = {g (roleRow role)} :=
  Keyed.values_of_mem db'.roles.unique (created_row hdb).1 rfl

/-- A new role that shares its id has two places in memory and one in the table. -/
theorem created_shared (hids : Keyed.Unique Role.id p.roles) {r : Role} (hr : r ∈ p.roles) (hid : r.id = role.id)
    (hpos : role.position = 1) :
    ¬ Keyed.Agreed (values Role.id Role.place p.roles r.id)
      (values RoleRow.id RoleRow.position db.roles.rows (Word.toColumn r.id))
      (values Role.id Role.place (createdPerms p role).roles r.id)
      (values RoleRow.id RoleRow.position db'.roles.rows (Word.toColumn r.id)) := by
  rw [hid, created_row_here hdb, Keyed.values_empty (created_row hdb).2]
  rintro (⟨-, hsame⟩ | hsame)
  · exact Set.singleton_ne_empty _ hsame
  · have hmem : (shifted r).place ∈ values Role.id Role.place (createdPerms p role).roles role.id :=
      Keyed.mem_values ((mem_created hids).mpr (.inr ⟨r, hr, rfl⟩)) hid
    rw [hsame] at hmem
    have hone : shift r.position = 1 := Word.toColumn_inj (hmem.trans (congrArg Word.toColumn hpos))
    unfold shift at hone
    split at hone
    · cases hone
    · rename_i hzero
      exact hzero (by simpa using hone)

end

section
variable {p : PermState} {gone id : RoleId}

theorem deleted_elsewhere {β : Type} (g : Role → β) (hids : Keyed.Unique Role.id p.roles) :
    values Role.id g (deletedPerms p gone).roles id =
      values Role.id g (withPositions (ordering (deletedPerms p gone).roles) (Keyed.erase Role.id gone p.roles)) id :=
  Keyed.values_congr fun r _ => mem_withPositions_compacted (hids.erase gone) r

theorem erased_elsewhere {β : Type} (g : Role → β) (hne : id ≠ gone) :
    values Role.id g (Keyed.erase Role.id gone p.roles) id = values Role.id g p.roles id := by
  apply Keyed.values_congr
  intro r hr
  rw [Keyed.mem_erase]
  exact and_iff_left fun he => hne (hr.symm.trans he)

theorem deleted_rows_elsewhere {β : Type} (g : RoleRow → β) (db : Db) (hne : id ≠ gone) :
    values RoleRow.id g (db.deleteRole gone).roles.rows (Word.toColumn id) =
      values RoleRow.id g db.roles.rows (Word.toColumn id) := by
  apply Keyed.values_congr
  intro row hid
  simp only [Db.deleteRole, Keyed.Table.mem_delete, decide_eq_false_iff_not]
  exact and_iff_left fun he => hne (Word.toColumn_inj (hid.symm.trans he))

theorem deleted_here {β : Type} (g : Role → β) (hids : Keyed.Unique Role.id p.roles) :
    values Role.id g (deletedPerms p gone).roles gone = ∅ := by
  rw [deleted_elsewhere g hids]
  apply Keyed.values_empty
  intro r hr
  obtain ⟨q, hq, rfl⟩ := List.mem_map.mp hr
  exact (Keyed.mem_erase.mp hq).2

theorem deleted_row_gone (db : Db) (hids : Keyed.Unique Role.id p.roles) :
    Rowless ((db.deleteRole gone).setRolePositions (ordering (deletedPerms p gone).roles)) gone := by
  unfold Rowless
  rw [setRolePositions_roles (names_deleted hids gone).unique]
  intro row hrow
  obtain ⟨old, hold, rfl⟩ := List.mem_map.mp hrow
  rw [placed_id]
  simpa using (Keyed.Table.mem_delete.mp hold).2

theorem reordered_values {β : Type} (g : Role → β) (positions : List (RoleId × UInt32)) :
    values Role.id g (reorderedPerms p positions).roles id = values Role.id g (withPositions positions p.roles) id :=
  Keyed.values_congr fun _ _ => mem_sortByPosition

/-- A role that is deleted is not named. -/
theorem newPosition_deleted (hids : Keyed.Unique Role.id p.roles) {r : Role} :
    newPosition (ordering (deletedPerms p r.id).roles) r = r.position := by
  have hnone : Keyed.get Prod.fst r.id (ordering (deletedPerms p r.id).roles) = none := by
    apply Keyed.get_eq_none.mpr
    intro q hq he
    obtain ⟨x, hx, hid⟩ := ((names_deleted hids r.id).ids r.id).mp ⟨q, hq, he⟩
    exact (Keyed.mem_erase.mp hx).2 hid
  unfold newPosition
  rw [hnone]

theorem updated_elsewhere {β : Type} (g : Role → β) (hids : Keyed.Unique Role.id p.roles) {updated : Role}
    (hne : id ≠ updated.id) : values Role.id g (updatedPerms p updated).roles id = values Role.id g p.roles id := by
  unfold updatedPerms
  rw [modifyFirst_updated hids]
  refine Keyed.values_map (fun r _ => by split <;> simp_all) fun r _ hid => ?_
  rw [if_neg (hid ▸ hne)]

theorem updated_rows_elsewhere {β : Type} (g : RoleRow → β) (db : Db) {updated : Role} (hne : id ≠ updated.id) :
    values RoleRow.id g (db.updateRole updated).roles.rows (Word.toColumn id) =
      values RoleRow.id g db.roles.rows (Word.toColumn id) := by
  refine Keyed.values_map (fun row _ => by dsimp only; split <;> rfl) fun row _ hid => ?_
  rw [if_neg fun he => hne (Word.toColumn_inj (hid.symm.trans he))]

end

section
variable {p : PermState} {db : Db} {existing updated : Role} (hids : Keyed.Unique Role.id p.roles)
  (hget : Keyed.get Role.id updated.id p.roles = some existing)

include hids hget in
theorem updated_here {β : Type} (g : Role → β) :
    values Role.id g (updatedPerms p updated).roles updated.id = {g updated} := by
  unfold updatedPerms
  rw [modifyFirst_updated hids]
  refine Keyed.values_eq ⟨_, List.mem_map_of_mem (Keyed.get_mem hget), ?_⟩ fun r hr he => ?_
  · rw [if_pos (Keyed.get_key hget)]
  · obtain ⟨q, hq, rfl⟩ := List.mem_map.mp hr
    split
    · rfl
    · rename_i hne
      rw [if_neg hne] at he
      exact absurd he hne

theorem updated_row_here {row : RoleRow} (hrow : row ∈ db.roles.rows) (hid : row.id = Word.toColumn updated.id) :
    values RoleRow.id RoleRow.traits (db.updateRole updated).roles.rows (Word.toColumn updated.id) =
      {updated.traits} := by
  refine Keyed.values_eq ⟨_, List.mem_map_of_mem hrow, ?_⟩ fun r hr he => ?_
  · rw [if_pos hid]
    exact hid
  · obtain ⟨old, -, rfl⟩ := List.mem_map.mp hr
    split
    · rfl
    · rename_i hne
      rw [if_neg hne] at he
      exact absurd he hne

theorem updateRole_rowless (id : RoleId) : Rowless (db.updateRole updated) id ↔ Rowless db id := by
  have hkept : (db.updateRole updated).roles.rows.map RoleRow.id = db.roles.rows.map RoleRow.id :=
    Keyed.Table.update_keys _ _ _ fun _ => by rfl
  have hrowless : ∀ d : Db, Rowless d id ↔ Word.toColumn id ∉ d.roles.rows.map RoleRow.id := by
    intro d
    unfold Rowless
    simp
  rw [hrowless, hrowless, hkept]

end

theorem mem_deleteRole_members {db : Db} {gone id : RoleId} {f : Fingerprint} :
    memberRow f id ∈ (db.deleteRole gone).roleMembers.rows ↔ memberRow f id ∈ db.roleMembers.rows ∧ id ≠ gone := by
  simp only [Db.deleteRole, Keyed.Table.mem_delete, decide_eq_false_iff_not]
  exact and_congr_right fun _ => not_congr ⟨Word.toColumn_inj, congrArg Word.toColumn⟩

theorem mem_replaceMemberRoles {db db' : Db} {g : Fingerprint} {roles : List RoleId}
    (hdb : db.replaceMemberRoles g roles = some db') {f : Fingerprint} {id : RoleId} :
    memberRow f id ∈ db'.roleMembers.rows ↔ if f = g then id ∈ roles else memberRow f id ∈ db.roleMembers.rows := by
  obtain ⟨t, ht, rfl⟩ := Option.map_eq_some_iff.mp hdb
  rw [mem_replaced ht, Keyed.Table.mem_delete, decide_eq_false_iff_not]
  have hrow : ∀ j, memberRow g j = memberRow f id ↔ g = f ∧ j = id := by
    intro j
    simp only [memberRow, MemberRow.mk.injEq]
    exact and_congr ⟨Fingerprint.toText_inj, congrArg _⟩ ⟨Word.toColumn_inj, congrArg _⟩
  have hname : (memberRow f id).fingerprint = g.toText ↔ f = g := ⟨Fingerprint.toText_inj, congrArg Fingerprint.toText⟩
  simp only [hrow, hname]
  by_cases hf : f = g
  · simp [hf]
  · simp [hf, Ne.symm hf]

/-! ### What they change -/

section
variable {p next : PermState} {db db' : Db} {cmd : RoleCommand} (hids : Keyed.Unique Role.id p.roles)
  (hw : Written p db cmd next db') (h : ¬ cmd.Adrift p db)
include hids hw h

theorem Written.places (id : RoleId) :
    Keyed.Agreed (values Role.id Role.place p.roles id)
      (values RoleRow.id RoleRow.position db.roles.rows (Word.toColumn id))
      (values Role.id Role.place next.roles id)
      (values RoleRow.id RoleRow.position db'.roles.rows (Word.toColumn id)) := by
  have hrows : ∀ r ∈ p.roles, newPosition (cmd.positions p) r ≠ r.position →
      ∃ row ∈ db.roles.rows, row.id = Word.toColumn r.id := by
    intro r hr hm
    by_contra hn
    exact h (.moved hr hm fun row hrow he => hn ⟨row, hrow, he⟩)
  cases hw with
  | @create name permissions role _ hrole hdb =>
    have hfresh : ∀ r ∈ p.roles, r.id ≠ role.id := fun r hr he => h (.taken hr (he.trans (hrole ▸ rfl)))
    by_cases hid : id = role.id
    · subst hid
      rw [created_here _ hids hfresh, created_row_here hdb]
      exact .inr rfl
    · rw [created_elsewhere _ hid, created_rows_elsewhere hdb _ hids hid]
      exact (placed_agreed hids (names_shifted hids) db.roles id).mpr fun r hr _ => hrows r hr
  | @update _ _ _ _ existing updated hget hpos _ hid _ =>
    refine .inl ⟨?_, ?_⟩
    · unfold updatedPerms
      rw [modifyFirst_updated hids]
      have hsame : ∀ r ∈ p.roles, (if r.id = updated.id then updated else r).id = r.id ∧
          Role.place (if r.id = updated.id then updated else r) = r.place := by
        intro r hr
        split
        · rename_i he
          have hex := Keyed.get_of_mem hids hr
          rw [he, hget] at hex
          exact ⟨he.symm, congrArg Word.toColumn (hpos.trans (congrArg Role.position (Option.some.inj hex)))⟩
        · exact ⟨rfl, rfl⟩
      exact Keyed.values_map (fun r hr => (hsame r hr).1) fun r hr _ => (hsame r hr).2
    · exact Keyed.values_map (fun row _ => by dsimp only; split <;> rfl) fun row _ _ => by dsimp only; split <;> rfl
  | @delete gone _ =>
    by_cases hid : id = gone
    · subst hid
      rw [deleted_here _ hids]
      exact .inr (Keyed.values_empty (deleted_row_gone db hids)).symm
    · rw [deleted_elsewhere _ hids, ← erased_elsewhere _ hid, ← deleted_rows_elsewhere _ db hid,
        setRolePositions_roles (names_deleted hids gone).unique]
      refine (placed_agreed (hids.erase gone) (names_deleted hids gone) _ id).mpr fun r hr hrid hm => ?_
      obtain ⟨hr, hne⟩ := Keyed.mem_erase.mp hr
      obtain ⟨row, hrow, he⟩ := hrows r hr hm
      refine ⟨row, Keyed.Table.mem_delete.mpr ⟨hrow, ?_⟩, he⟩
      rw [decide_eq_false_iff_not, he]
      exact fun hc => hne (Word.toColumn_inj hc)
  | @reorder positions hd =>
    rw [reordered_values, setRolePositions_roles (unique_positions hids hd)]
    exact (placed_agreed hids (names_reordered hids hd) db.roles id).mpr fun r hr _ => hrows r hr
  | grant hdb =>
    obtain ⟨t, -, rfl⟩ := Option.map_eq_some_iff.mp hdb
    exact .inl ⟨rfl, rfl⟩

theorem Written.traits (id : RoleId) :
    Keyed.Agreed (values Role.id Role.traits p.roles id)
      (values RoleRow.id RoleRow.traits db.roles.rows (Word.toColumn id))
      (values Role.id Role.traits next.roles id)
      (values RoleRow.id RoleRow.traits db'.roles.rows (Word.toColumn id)) := by
  cases hw with
  | @create name permissions role _ hrole hdb =>
    have hfresh : ∀ r ∈ p.roles, r.id ≠ role.id := fun r hr he => h (.taken hr (he.trans (hrole ▸ rfl)))
    by_cases hid : id = role.id
    · subst hid
      rw [created_here _ hids hfresh, created_row_here hdb]
      exact .inr rfl
    · rw [created_elsewhere _ hid, created_rows_elsewhere hdb _ hids hid, traits_withPositions, traits_placed]
      exact .inl ⟨rfl, rfl⟩
  | @update uid name color permissions existing updated hget hpos _ huid hsame =>
    by_cases hid : id = updated.id
    · subst hid
      rw [updated_here hids hget]
      by_cases hrow : Rowless db updated.id
      · have hkept : updated = existing := hsame.mpr fun hedit => h (.edited (huid ▸ hget) hedit (huid ▸ hrow))
        rw [Keyed.values_empty hrow, Keyed.values_empty ((updateRole_rowless _).mpr hrow),
          Keyed.values_of_mem hids (Keyed.get_mem hget) (Keyed.get_key hget), hkept]
        exact .inl ⟨rfl, rfl⟩
      · obtain ⟨row, hrow, hrid⟩ : ∃ row ∈ db.roles.rows, row.id = Word.toColumn updated.id := by
          by_contra hn
          exact hrow fun row hm he => hn ⟨row, hm, he⟩
        rw [updated_row_here hrow hrid]
        exact .inr rfl
    · rw [updated_elsewhere _ hids hid, updated_rows_elsewhere _ db hid]
      exact .inl ⟨rfl, rfl⟩
  | @delete gone _ =>
    by_cases hid : id = gone
    · subst hid
      rw [deleted_here _ hids]
      exact .inr (Keyed.values_empty (deleted_row_gone db hids)).symm
    · rw [setRolePositions_roles (names_deleted hids gone).unique, traits_placed, deleted_elsewhere _ hids,
        traits_withPositions, erased_elsewhere _ hid, deleted_rows_elsewhere _ db hid]
      exact .inl ⟨rfl, rfl⟩
  | @reorder positions hd =>
    rw [reordered_values, setRolePositions_roles (unique_positions hids hd), traits_withPositions, traits_placed]
    exact .inl ⟨rfl, rfl⟩
  | grant hdb =>
    obtain ⟨t, -, rfl⟩ := Option.map_eq_some_iff.mp hdb
    exact .inl ⟨rfl, rfl⟩

end

section
variable {p next : PermState} {db db' : Db} {cmd : RoleCommand} (hw : Written p db cmd next db')
include hw

/-- A grant is what it was in memory and in the table, or the same in both. -/
theorem Written.grants (f : Fingerprint) (id : RoleId) :
    ((id ∈ next.grants f ↔ id ∈ p.grants f) ∧
        (memberRow f id ∈ db'.roleMembers.rows ↔ memberRow f id ∈ db.roleMembers.rows)) ∨
      (id ∈ next.grants f ↔ memberRow f id ∈ db'.roleMembers.rows) := by
  cases hw with
  | create _ hdb =>
    obtain ⟨t, -, rfl⟩ := Option.map_eq_some_iff.mp hdb
    exact .inl ⟨.rfl, .rfl⟩
  | update => exact .inl ⟨.rfl, .rfl⟩
  | reorder => exact .inl ⟨.rfl, .rfl⟩
  | @delete gone _ =>
    simp only [deletedPerms_grants, Db.setRolePositions, mem_deleteRole_members, List.mem_filter, decide_eq_true_eq]
    by_cases hid : id = gone
    · exact .inr (by simp [hid])
    · exact .inl (by simp [hid])
  | @grant g roles db' hdb =>
    rw [mem_replaceMemberRoles hdb, grantedPerms_grants]
    by_cases hf : f = g
    · exact .inr (by simp [hf])
    · exact .inl (by simp [hf])

/-- And so is one that the roster caches. -/
theorem Written.roster (u : UserInfo) (id : RoleId) :
    ((id ∈ (cmd.regrant u).roles ↔ id ∈ u.roles) ∧
        (memberRow u.fingerprint id ∈ db'.roleMembers.rows ↔ memberRow u.fingerprint id ∈ db.roleMembers.rows)) ∨
      (id ∈ (cmd.regrant u).roles ↔ memberRow u.fingerprint id ∈ db'.roleMembers.rows) := by
  cases hw with
  | create _ hdb =>
    obtain ⟨t, -, rfl⟩ := Option.map_eq_some_iff.mp hdb
    exact .inl ⟨.rfl, .rfl⟩
  | update => exact .inl ⟨.rfl, .rfl⟩
  | reorder => exact .inl ⟨.rfl, .rfl⟩
  | @delete gone _ =>
    simp only [RoleCommand.regrant, Db.setRolePositions, mem_deleteRole_members, List.mem_filter, decide_eq_true_eq]
    by_cases hid : id = gone
    · exact .inr (by simp [hid])
    · exact .inl (by simp [hid])
  | @grant g roles db' hdb =>
    rw [mem_replaceMemberRoles hdb]
    unfold RoleCommand.regrant
    by_cases hf : u.fingerprint = g
    · exact .inr (by simp [hf])
    · exact .inl (by simp [hf])

end

/-! ### Channels and overwrites -/

section
variable {channels channels' : List Channel} {channel : ChannelId} {target : OverwriteTarget}

theorem overwritesIn_map {f : Channel → Channel} (hf : ∀ c ∈ channels, (f c).id = c.id)
    (ho : ∀ c ∈ channels, c.id = channel → ∀ o, o.target = target → (o ∈ (f c).overwrites ↔ o ∈ c.overwrites)) :
    overwritesIn (channels.map f) channel target = overwritesIn channels channel target := by
  ext v
  constructor
  · rintro ⟨_, hm, hid, hv⟩
    obtain ⟨c, hc, rfl⟩ := List.mem_map.mp hm
    have hcid := (hf c hc).symm.trans hid
    rw [Keyed.values_congr (ho c hc hcid)] at hv
    exact ⟨c, hc, hcid, hv⟩
  · rintro ⟨c, hc, hid, hv⟩
    rw [← Keyed.values_congr (ho c hc hid)] at hv
    exact ⟨f c, List.mem_map_of_mem hc, (hf c hc).trans hid, hv⟩

theorem overwritesIn_congr (h : ∀ c, c.id = channel → (c ∈ channels' ↔ c ∈ channels)) :
    overwritesIn channels' channel target = overwritesIn channels channel target := by
  ext v
  constructor
  · rintro ⟨c, hc, hid, hv⟩
    exact ⟨c, (h c hid).mp hc, hid, hv⟩
  · rintro ⟨c, hc, hid, hv⟩
    exact ⟨c, (h c hid).mpr hc, hid, hv⟩

theorem overwritesIn_empty (h : ∀ c ∈ channels, c.id = channel → ∀ o ∈ c.overwrites, o.target ≠ target) :
    overwritesIn channels channel target = ∅ := by
  ext v
  simp only [Set.mem_empty_iff_false, iff_false]
  rintro ⟨c, hc, hid, o, ho, ht, -⟩
  exact h c hc hid o ho ht

/-- Rows that go are those of other overwrites, or all that there are of this one. -/
theorem overwritesOf_delete {t : Keyed.Table OverwriteRow (Int64 × Int64 × String) OverwriteRow.key}
    {p : OverwriteRow → Bool} {gone : Prop} [Decidable gone]
    (h : ∀ row : OverwriteRow, row.key = (Word.toColumn channel, overwriteKey target) → (p row = true ↔ gone)) :
    overwritesOf (t.delete p).rows channel target = if gone then ∅ else overwritesOf t.rows channel target := by
  split
  · rename_i hg
    apply Keyed.values_empty
    intro row hrow hkey
    rw [Keyed.Table.mem_delete, (h row hkey).mpr hg] at hrow
    cases hrow.2
  · rename_i hg
    apply Keyed.values_congr
    intro row hkey
    rw [Keyed.Table.mem_delete]
    exact and_iff_left (Bool.eq_false_iff.mpr fun hp => hg ((h row hkey).mp hp))

theorem overwriteRow_key_eq {row : OverwriteRow} :
    row.key = (Word.toColumn channel, overwriteKey target) ↔
      row.channel = Word.toColumn channel ∧ row.targetKind = (overwriteKey target).1 ∧
        row.target = (overwriteKey target).2 := by
  simp [OverwriteRow.key, Prod.ext_iff]

theorem overwritesOf_deleteRole (db : Db) (id : RoleId) :
    overwritesOf (db.deleteRole id).channelOverwrites.rows channel target =
      if target = .role id then ∅ else overwritesOf db.channelOverwrites.rows channel target := by
  refine overwritesOf_delete fun row hkey => ?_
  obtain ⟨-, hkind, htarget⟩ := overwriteRow_key_eq.mp hkey
  rw [decide_eq_true_eq, hkind, htarget]
  exact ⟨fun h => overwriteKey_inj (Prod.ext h.1 h.2), fun h => by simp [h, overwriteKey]⟩

end

section
variable {s s' : Shared} {w : World} {cmd : RoleCommand} {next : PermState} {db : Db} (hs : Swapped s cmd next s')
  (hw : Written s.perms w.db cmd next db)
include hs hw

theorem Swapped.rooms (id : ChannelId) : (Fact.room id).Agreed (s, w) (s', { w with db }) := by
  refine .inl ⟨?_, ?_⟩
  · show values Channel.id channelRow s'.channels id = values Channel.id channelRow s.channels id
    rw [hs.channels]
    split
    · exact Keyed.values_map (fun c _ => by dsimp only; split <;> rfl) fun c _ _ => by dsimp only; split <;> rfl
    · rfl
  · have hchannels : db.channels = w.db.channels := by
      cases hw with
      | create _ hdb => obtain ⟨t, -, rfl⟩ := Option.map_eq_some_iff.mp hdb; rfl
      | update => rfl
      | delete => rfl
      | reorder => rfl
      | grant hdb => obtain ⟨t, -, rfl⟩ := Option.map_eq_some_iff.mp hdb; rfl
    show values ChannelRow.id _ db.channels.rows _ = _
    rw [hchannels]
    rfl

theorem Swapped.overwrites (channel : ChannelId) (target : OverwriteTarget) :
    (Fact.overwrite channel target).Agreed (s, w) (s', { w with db }) := by
  show Keyed.Agreed (overwritesIn s.channels channel target) (overwritesOf w.db.channelOverwrites.rows channel target)
    (overwritesIn s'.channels channel target) (overwritesOf db.channelOverwrites.rows channel target)
  have same : s'.channels = s.channels → db.channelOverwrites = w.db.channelOverwrites →
      Keyed.Agreed (overwritesIn s.channels channel target) (overwritesOf w.db.channelOverwrites.rows channel target)
        (overwritesIn s'.channels channel target) (overwritesOf db.channelOverwrites.rows channel target) := by
    intro hc hd
    rw [hc, hd]
    exact .inl ⟨rfl, rfl⟩
  cases hw with
  | create _ hdb => obtain ⟨t, -, rfl⟩ := Option.map_eq_some_iff.mp hdb; exact same hs.channels rfl
  | update => exact same hs.channels rfl
  | reorder => exact same hs.channels rfl
  | grant hdb => obtain ⟨t, -, rfl⟩ := Option.map_eq_some_iff.mp hdb; exact same hs.channels rfl
  | @delete id _ =>
    have hstored : overwritesOf ((w.db.deleteRole id).setRolePositions (ordering (deletedPerms s.perms id).roles)
        ).channelOverwrites.rows channel target = _ := overwritesOf_deleteRole w.db id
    rw [hs.channels, hstored]
    have hover : ∀ c : Channel, ∀ o, o ∈ (if c.overwrites.any (fun o => o.target = .role id) then
        { c with overwrites := Keyed.erase Overwrite.target (.role id) c.overwrites } else c).overwrites ↔
          o ∈ c.overwrites ∧ o.target ≠ .role id := by
      intro c o
      split
      · exact Keyed.mem_erase
      · rename_i hany
        exact ⟨fun ho => ⟨ho, fun ht => hany (List.any_eq_true.mpr ⟨o, ho, by simpa using ht⟩)⟩, And.left⟩
    by_cases ht : target = .role id
    · rw [if_pos ht]
      refine .inr (overwritesIn_empty fun c hc _ o ho => ?_)
      obtain ⟨d, -, rfl⟩ := List.mem_map.mp hc
      exact ht ▸ ((hover d o).mp ho).2
    · rw [if_neg ht]
      refine .inl ⟨overwritesIn_map (fun c _ => by split <;> rfl) fun c _ _ o ho => ?_, rfl⟩
      rw [hover]
      exact and_iff_left (ho ▸ ht)

theorem Swapped.grants (f : Fingerprint) (id : RoleId) : (Fact.grant f id).Agreed (s, w) (s', { w with db }) := by
  rw [← hs.perms] at hw
  rcases hw.grants f id with ⟨hm, hd⟩ | hsame
  · exact .inl ⟨Set.ext fun _ => hm, Set.ext fun _ => hd⟩
  · exact .inr (Set.ext fun _ => hsame)

theorem Swapped.roster {client : ClientId} {u v : UserInfo} (hu : s.user client = some u) (hv : s'.user client = some v)
    (id : RoleId) :
    ((id ∈ v.roles ↔ id ∈ u.roles) ∧
        (Fact.grant v.fingerprint id).stored db = (Fact.grant v.fingerprint id).stored w.db) ∨
      (id ∈ v.roles ↔ () ∈ (Fact.grant v.fingerprint id).stored db) := by
  have hmap := hs.users client
  rw [hu, hv] at hmap
  obtain rfl : v = cmd.regrant u := Option.some.inj hmap
  have hf : (cmd.regrant u).fingerprint = u.fingerprint := by
    unfold RoleCommand.regrant
    split
    · rfl
    · split <;> rfl
    · rfl
  rw [hf]
  rcases hw.roster u id with ⟨hm, hd⟩ | hsame
  · exact .inl ⟨hm, Set.ext fun _ => hd⟩
  · exact .inr hsame

/-- When a command is saved as a whole and the tables can hold what it changes, they do. -/
theorem Swapped.settled (hids : Keyed.Unique Role.id s.perms.roles) (h : ¬ cmd.Adrift s.perms w.db) :
    Settled (s, w) (s', { w with db }) where
  facts k := by
    cases k with
    | role id =>
      show Keyed.Agreed _ _ (values Role.id Role.traits s'.perms.roles id) _
      rw [hs.perms]
      exact hw.traits hids h id
    | place id =>
      show Keyed.Agreed _ _ (values Role.id Role.place s'.perms.roles id) _
      rw [hs.perms]
      exact hw.places hids h id
    | grant f id => exact hs.grants hw f id
    | room id => exact hs.rooms hw id
    | overwrite channel target => exact hs.overwrites hw channel target
  roster _ _ _ hu hv id := hs.roster hw hu hv id

omit hw in
/-- Of a role without a row, nothing can be said at one once it is not what it was. -/
theorem Swapped.adrift (hids : Keyed.Unique Role.id s.perms.roles) (hw : Written s.perms w.db cmd next db)
    (h : cmd.Adrift s.perms w.db) : ¬ Settled (s, w) (s', { w with db }) := by
  intro hsettled
  have hplaces : ∀ id, Keyed.Agreed (values Role.id Role.place s.perms.roles id)
      (values RoleRow.id RoleRow.position w.db.roles.rows (Word.toColumn id))
      (values Role.id Role.place next.roles id)
      (values RoleRow.id RoleRow.position db.roles.rows (Word.toColumn id)) := by
    intro id
    rw [← hs.perms]
    exact hsettled.facts (.place id)
  have htraits : ∀ id, Keyed.Agreed (values Role.id Role.traits s.perms.roles id)
      (values RoleRow.id RoleRow.traits w.db.roles.rows (Word.toColumn id))
      (values Role.id Role.traits next.roles id)
      (values RoleRow.id RoleRow.traits db.roles.rows (Word.toColumn id)) := by
    intro id
    rw [← hs.perms]
    exact hsettled.facts (.role id)
  cases h with
  | @moved _ r hr hm hrow =>
    have rowless : ¬ ∃ row ∈ w.db.roles.rows, row.id = Word.toColumn r.id := fun ⟨row, hm, he⟩ => hrow row hm he
    have hplace := hplaces r.id
    cases hw with
    | @create name permissions role _ hrole hdb =>
      by_cases hid : r.id = role.id
      · exact created_shared hdb hids hr hid (hrole ▸ rfl) hplace
      · rw [created_elsewhere _ hid, created_rows_elsewhere hdb _ hids hid] at hplace
        exact rowless ((placed_agreed hids (names_shifted hids) w.db.roles r.id).mp hplace r hr rfl hm)
    | update => exact hm rfl
    | grant => exact hm rfl
    | @delete gone _ =>
      by_cases hid : r.id = gone
      · subst hid
        exact hm (newPosition_deleted hids)
      · rw [deleted_elsewhere _ hids, ← erased_elsewhere _ hid, ← deleted_rows_elsewhere _ w.db hid,
          setRolePositions_roles (names_deleted hids gone).unique] at hplace
        obtain ⟨row, hm, he⟩ := (placed_agreed (hids.erase gone) (names_deleted hids gone) _ r.id).mp hplace r
          (Keyed.mem_erase.mpr ⟨hr, hid⟩) rfl hm
        exact hrow row (Keyed.Table.mem_delete.mp hm).1 he
    | @reorder positions hd =>
      rw [reordered_values, setRolePositions_roles (unique_positions hids hd)] at hplace
      exact rowless ((placed_agreed hids (names_reordered hids hd) w.db.roles r.id).mp hplace r hr rfl hm)
  | @edited id name color permissions existing hget hedit hrow =>
    have hrole := htraits id
    cases hw with
    | @update _ _ _ _ existing' updated hget' hpos _ hid hsame =>
      subst hid
      obtain rfl := Option.some.inj (hget.symm.trans hget')
      have hne : updated ≠ existing := fun he => hsame.mp he hedit
      rw [updated_here hids hget, Keyed.values_of_mem hids (Keyed.get_mem hget) (Keyed.get_key hget),
        Keyed.values_empty ((updateRole_rowless _).mpr hrow)] at hrole
      rcases hrole with ⟨htraits, -⟩ | htraits
      · exact hne (Role.eq_of_traits (Keyed.get_key hget).symm hpos (Set.singleton_injective htraits))
      · exact Set.singleton_ne_empty _ htraits
  | taken hr hid =>
    cases hw with
    | create hrole hdb => exact created_shared hdb hids hr (hid.trans (hrole ▸ rfl)) (hrole ▸ rfl) (hplaces _)

end

/-- A role that moves when one is deleted does not stand in the table where it moves to. -/
def Uncompacted (p : PermState) (db : Db) (gone : RoleId) : Prop :=
  ∃ r ∈ p.roles, newPosition (ordering (deletedPerms p gone).roles) r ≠ r.position ∧
    ∀ row ∈ db.roles.rows, row.id = Word.toColumn r.id →
      row.position ≠ Word.toColumn (newPosition (ordering (deletedPerms p gone).roles) r)

/-- A deletion whose compaction is not saved. -/
theorem Swapped.uncompacted_iff {s s' : Shared} {w : World} {gone : RoleId} (hids : Keyed.Unique Role.id s.perms.roles)
    (hne : gone ≠ everyoneRoleId) (hs : Swapped s (.delete gone) (deletedPerms s.perms gone) s') :
    Settled (s, w) (s', { w with db := w.db.deleteRole gone }) ↔ ¬ Uncompacted s.perms w.db gone := by
  have hw : Written s.perms w.db (.delete gone) (deletedPerms s.perms gone) _ := .delete hne
  have hgone : Rowless (w.db.deleteRole gone) gone := by
    intro row hrow
    simpa using (Keyed.Table.mem_delete.mp hrow).2
  have hplace : ∀ id, (Fact.place id).Agreed (s, w) (s', { w with db := w.db.deleteRole gone }) ↔
      ∀ r ∈ s.perms.roles, r.id = id → newPosition (ordering (deletedPerms s.perms gone).roles) r ≠ r.position →
        ∃ row ∈ w.db.roles.rows, row.id = Word.toColumn r.id ∧
          row.position = Word.toColumn (newPosition (ordering (deletedPerms s.perms gone).roles) r) := by
    intro id
    show Keyed.Agreed (values Role.id Role.place s.perms.roles id) _ (values Role.id Role.place s'.perms.roles id)
      (values RoleRow.id RoleRow.position (w.db.deleteRole gone).roles.rows (Word.toColumn id)) ↔ _
    rw [hs.perms]
    by_cases hid : id = gone
    · subst hid
      rw [deleted_here _ hids, Keyed.values_empty hgone]
      refine iff_of_true (.inr rfl) fun r hr he hm => absurd (newPosition_deleted hids) (he ▸ hm)
    · rw [deleted_elsewhere _ hids, ← erased_elsewhere _ hid, deleted_rows_elsewhere _ w.db hid]
      refine (moved_agreed (hids.erase gone) _ w.db.roles id).trans ?_
      constructor
      · intro h r hr he
        exact h r (Keyed.mem_erase.mpr ⟨hr, he ▸ hid⟩) he
      · intro h r hr he
        exact h r (Keyed.mem_erase.mp hr).1 he
  constructor
  · rintro h ⟨r, hr, hm, hrow⟩
    obtain ⟨row, hm, hid, hpos⟩ := (hplace r.id).mp (h.facts (.place r.id)) r hr rfl hm
    exact hrow row hm hid hpos
  · intro h
    refine ⟨fun k => ?_, fun client u v hu hv id => hs.roster hw hu hv id⟩
    cases k with
    | role id =>
      show Keyed.Agreed _ _ (values Role.id Role.traits s'.perms.roles id)
        (values RoleRow.id RoleRow.traits (w.db.deleteRole gone).roles.rows (Word.toColumn id))
      rw [hs.perms]
      by_cases hid : id = gone
      · subst hid
        rw [deleted_here _ hids, Keyed.values_empty hgone]
        exact .inr rfl
      · rw [deleted_elsewhere _ hids, deleted_rows_elsewhere _ w.db hid]
        refine .inl ⟨?_, rfl⟩
        exact (traits_withPositions ..).trans (erased_elsewhere _ hid)
    | place id =>
      refine (hplace id).mpr fun r hr _ hm => ?_
      by_contra hn
      exact h ⟨r, hr, hm, fun row hrow hid hpos => hn ⟨row, hrow, hid, hpos⟩⟩
    | grant f id => exact hs.grants hw f id
    | room id => exact hs.rooms hw id
    | overwrite channel target => exact hs.overwrites hw channel target

/-! ## Overwrite and channel commands -/

/-- Of what the command changes in memory, the tables cannot hold something: an edited
channel has no row, or a new one takes the id of one whose overwrites are stored. -/
inductive ChannelCommand.Adrift (s : Shared) (db : Db) : ChannelCommand → Prop
  | updated {c : Channel} {parent : Option ChannelId} {name topic : String} {kind : ChannelKind}
      {maxUsers : Option UInt16} {order : Int32} : c ∈ s.channels →
      channelRow c ≠ channelRow
        { id := c.id, parent, name := Text.trim name, topic, kind, maxUsers, order, overwrites := [] } →
      (∀ row ∈ db.channels.rows, row.id ≠ Word.toColumn c.id) →
      Adrift s db (.update c.id parent name topic kind maxUsers order)
  | taken {c : Channel} {o : Overwrite} {row : OverwriteRow} {name : String} {parent : Option ChannelId}
      {topic : String} {kind : ChannelKind} {maxUsers : Option UInt16} {order : Int32} : c ∈ s.channels →
      c.id = s.nextChannelId → o ∈ c.overwrites → row ∈ db.channelOverwrites.rows →
      row.key = (overwriteRow c.id o).key → Adrift s db (.create name parent topic kind maxUsers order)

section
variable {s : Shared} {w : World} {client : ClientId} {nonce : UInt64} {cmd : ChannelCommand} {c : Change} {db : Db}

theorem validateChannel_name {id : Option ChannelId} {name trimmed : String} {parent : Option ChannelId}
    (h : validateChannel s client nonce id name parent = .ok trimmed) : trimmed = Text.trim name := by
  unfold validateChannel at h
  dsimp only at h
  split at h; · cases h
  split at h; · cases h; rfl
  split at h; · cases h
  split at h; · cases h; rfl
  split at h
  · cases h
  · cases h
  · cases h; rfl

def RoomAgreed (channels channels' : List Channel) (db db' : Db) (id : ChannelId) : Prop :=
  Keyed.Agreed (values Channel.id channelRow channels id)
    (values ChannelRow.id (fun row => row) db.channels.rows (Word.toColumn id))
    (values Channel.id channelRow channels' id)
    (values ChannelRow.id (fun row => row) db'.channels.rows (Word.toColumn id))

def OverwriteAgreed (channels channels' : List Channel) (db db' : Db) (id : ChannelId) (target : OverwriteTarget) :
    Prop :=
  Keyed.Agreed (overwritesIn channels id target) (overwritesOf db.channelOverwrites.rows id target)
    (overwritesIn channels' id target) (overwritesOf db'.channelOverwrites.rows id target)

theorem removeChannelMem_roles (s : Shared) (id : ChannelId) (k : ClientId) :
    ((s.removeChannelMem id).2.user k).map UserInfo.roles = (s.user k).map UserInfo.roles := by
  unfold Shared.removeChannelMem
  split
  · rfl
  · let g (e : ConnectedClient) : ConnectedClient :=
      if e.info.channel = some id then { e with info := { e.info with channel := none } } else e
    have hid : ∀ e, (g e).id = e.id := fun e => by unfold g; split <;> rfl
    have hroles : ∀ e, (g e).info.roles = e.info.roles := fun e => by unfold g; split <;> rfl
    have hget : Keyed.get ConnectedClient.id k (s.clients.map g) = (s.client? k).map g := Keyed.get_map hid k _
    show ((Keyed.get ConnectedClient.id k (s.clients.map g)).map ConnectedClient.info).map UserInfo.roles = _
    rw [hget]
    unfold Shared.user
    cases s.client? k with
    | none => rfl
    | some e => exact congrArg some (hroles e)

/-- A channel command leaves roles, grants and roster as they are. -/
theorem ChannelPasses.settled_iff_rooms (hp : ChannelPasses s client nonce cmd c)
    (hdb : c.call.perform w.db = some db) (f : UserInfo → List ServerControl) :
    Settled (s, w) ((c.mem s).deliver f, { w with db }) ↔
      (∀ id, RoomAgreed s.channels (c.mem s).channels w.db db id) ∧
        ∀ id target, OverwriteAgreed s.channels (c.mem s).channels w.db db id target := by
  have hperms : (c.mem s).perms = s.perms := by
    cases hp with
    | @delete id => exact s.removeChannelMem_perms id
    | _ => rfl
  have hroles : db.roles = w.db.roles ∧ db.roleMembers = w.db.roleMembers := by
    cases hp with
    | create => obtain ⟨t, -, rfl⟩ := Option.map_eq_some_iff.mp hdb; exact ⟨rfl, rfl⟩
    | _ => obtain rfl := Option.some.inj hdb; exact ⟨rfl, rfl⟩
  have hroster : ∀ k u v, s.user k = some u → ((c.mem s).deliver f).user k = some v →
      v.roles = u.roles := by
    intro k u v hu hv
    have hmem : (c.mem s).user k = some v := by
      rw [← hv, Shared.user, Shared.user, Shared.deliver_client?, Option.map_map]
      rfl
    have hmap : ((c.mem s).user k).map UserInfo.roles = (s.user k).map UserInfo.roles := by
      cases hp with
      | @delete id => exact removeChannelMem_roles s id k
      | _ => rfl
    rw [hmem, hu] at hmap
    exact Option.some.inj hmap
  constructor
  · intro h
    exact ⟨fun id => h.facts (.room id), fun id target => h.facts (.overwrite id target)⟩
  · rintro ⟨hrooms, hover⟩
    refine ⟨fun k => ?_, fun k u v hu hv id => ?_⟩
    · cases k with
      | role id =>
        refine .inl ⟨?_, ?_⟩
        · show values Role.id Role.traits (c.mem s).perms.roles id = _
          rw [hperms]
          rfl
        · show values RoleRow.id RoleRow.traits db.roles.rows _ = _
          rw [hroles.1]
          rfl
      | place id =>
        refine .inl ⟨?_, ?_⟩
        · show values Role.id Role.place (c.mem s).perms.roles id = _
          rw [hperms]
          rfl
        · show values RoleRow.id RoleRow.position db.roles.rows _ = _
          rw [hroles.1]
          rfl
      | grant g id =>
        refine .inl ⟨Set.ext fun _ => ?_, Set.ext fun _ => ?_⟩
        · show id ∈ (c.mem s).perms.grants g ↔ _
          rw [hperms]
          rfl
        · show memberRow g id ∈ db.roleMembers.rows ↔ _
          rw [hroles.2]
          rfl
      | room id => exact hrooms id
      | overwrite id target => exact hover id target
    · refine .inl ⟨by rw [hroster k u v hu hv], Set.ext fun _ => ?_⟩
      show memberRow v.fingerprint id ∈ db.roleMembers.rows ↔ _
      rw [hroles.2]
      rfl

theorem RoomAgreed.of_map {channels : List Channel} {db db' : Db} {f : Channel → Channel}
    (hf : ∀ c, (f c).bare = c.bare) (hdb : db'.channels = db.channels) (id : ChannelId) :
    RoomAgreed channels (channels.map f) db db' id := by
  unfold RoomAgreed
  rw [hdb]
  refine .inl ⟨Keyed.values_map (fun c _ => ?_) fun c _ _ => ?_, rfl⟩
  · exact Channel.id_of_bare (hf c)
  · exact channelRow_of_bare (hf c)

theorem OverwriteAgreed.of_map {channels : List Channel} {db db' : Db} {f : Channel → Channel} {id : ChannelId}
    {target : OverwriteTarget} (hf : ∀ c, (f c).id = c.id) (hover : ∀ c ∈ channels, c.id = id → ∀ o, o.target = target →
      (o ∈ (f c).overwrites ↔ o ∈ c.overwrites))
    (hrows : overwritesOf db'.channelOverwrites.rows id target = overwritesOf db.channelOverwrites.rows id target) :
    OverwriteAgreed channels (channels.map f) db db' id target :=
  .inl ⟨overwritesIn_map (fun c _ => hf c) hover, hrows⟩

/-- The overwrite that is set stands in the channel and in its row. -/
theorem OverwriteAgreed.set {channels : List Channel} (db : Db) (channel : ChannelId) (o : Overwrite)
    (hin : ∃ c ∈ channels, c.id = channel) (id : ChannelId) (target : OverwriteTarget) :
    OverwriteAgreed channels
      (Keyed.modify Channel.id channel (fun c => { c with overwrites := Keyed.put Overwrite.target o c.overwrites })
        channels) db (db.upsertOverwrite channel o) id target := by
  by_cases hsame : id = channel ∧ target = o.target
  · obtain ⟨rfl, rfl⟩ := hsame
    right
    have hmemory : overwritesIn (Keyed.modify Channel.id id
        (fun c => { c with overwrites := Keyed.put Overwrite.target o c.overwrites }) channels) id o.target =
          {o.bits} := by
      ext v
      constructor
      · rintro ⟨_, hm, hid, o', ho, ht, rfl⟩
        obtain ⟨c, hc, rfl⟩ := List.mem_map.mp hm
        by_cases hcid : c.id = id
        · rw [if_pos hcid] at ho
          rcases Keyed.mem_put.mp ho with rfl | ⟨-, hne⟩
          · rfl
          · exact absurd ht hne
        · rw [if_neg hcid] at hid
          exact absurd hid hcid
      · rintro rfl
        obtain ⟨c, hc, hid⟩ := hin
        refine ⟨_, List.mem_map_of_mem hc, ?_, o, ?_, rfl, rfl⟩
        · rw [if_pos hid]
          exact hid
        · rw [if_pos hid]
          exact Keyed.mem_put.mpr (.inl rfl)
    have hstored : overwritesOf (db.upsertOverwrite id o).channelOverwrites.rows id o.target = {o.bits} :=
      Keyed.values_of_mem (db.upsertOverwrite id o).channelOverwrites.unique (mem_upsertOverwrite.mpr (.inl rfl)) rfl
    rw [hmemory, hstored]
  · refine .of_map (fun c => by split <;> rfl) (fun c _ hid o' ho => ?_) (Keyed.values_congr fun row hkey => ?_)
    · split
      · rename_i hc
        rw [Keyed.mem_put]
        constructor
        · rintro (rfl | ⟨hmem, -⟩)
          · exact absurd ⟨hid.symm.trans hc, ho.symm⟩ hsame
          · exact hmem
        · intro hmem
          exact .inr ⟨hmem, fun he => hsame ⟨hid.symm.trans hc, ho.symm.trans he⟩⟩
      · rfl
    · rw [mem_upsertOverwrite]
      have hne : row.key ≠ (overwriteRow channel o).key := by
        intro he
        rw [hkey] at he
        obtain ⟨hid, ht⟩ := Prod.mk.inj he
        exact hsame ⟨Word.toColumn_inj hid, overwriteKey_inj ht⟩
      constructor
      · rintro (rfl | ⟨hrow, -⟩)
        · exact absurd rfl hne
        · exact hrow
      · intro hrow
        exact .inr ⟨hrow, hne⟩

theorem OverwriteAgreed.delete {channels : List Channel} (db : Db) (channel : ChannelId) (gone : OverwriteTarget)
    (id : ChannelId) (target : OverwriteTarget) :
    OverwriteAgreed channels
      (Keyed.modify Channel.id channel
        (fun c => { c with overwrites := Keyed.erase Overwrite.target gone c.overwrites }) channels)
      db (db.deleteOverwrite channel gone) id target := by
  have hrows : overwritesOf (db.deleteOverwrite channel gone).channelOverwrites.rows id target =
      if id = channel ∧ target = gone then ∅ else overwritesOf db.channelOverwrites.rows id target := by
    refine overwritesOf_delete fun row hkey => ?_
    obtain ⟨hchannel, hkind, htarget⟩ := overwriteRow_key_eq.mp hkey
    rw [decide_eq_true_eq, hchannel, hkind, htarget]
    constructor
    · rintro ⟨hid, hk, ht⟩
      exact ⟨Word.toColumn_inj hid, overwriteKey_inj (Prod.ext hk ht)⟩
    · rintro ⟨rfl, rfl⟩
      exact ⟨rfl, rfl, rfl⟩
  by_cases hsame : id = channel ∧ target = gone
  · rw [if_pos hsame] at hrows
    obtain ⟨rfl, rfl⟩ := hsame
    right
    rw [hrows]
    apply overwritesIn_empty
    intro c hc hid o ho
    obtain ⟨d, -, rfl⟩ := List.mem_map.mp hc
    split at ho
    · exact (Keyed.mem_erase.mp ho).2
    · rename_i hne
      rw [if_neg hne] at hid
      exact absurd hid hne
  · rw [if_neg hsame] at hrows
    refine .of_map (fun c => by split <;> rfl) (fun c _ hid o ho => ?_) hrows
    split
    · rename_i hc
      rw [Keyed.mem_erase]
      exact and_iff_left fun he => hsame ⟨hid.symm.trans hc, ho.symm.trans he⟩
    · rfl

theorem can_channel {channel : ChannelId} {bits : Permissions} (h : s.can client channel bits = true) :
    ∃ c ∈ s.channels, c.id = channel := by
  unfold Shared.can at h
  split at h; · cases h
  split at h; · cases h
  rename_i c hc
  exact ⟨c, Keyed.get_mem hc, Keyed.get_key hc⟩

theorem RoomAgreed.created {channels : List Channel} {db db' : Db} {c : Channel} (hdb : db.insertChannel c = some db')
    (id : ChannelId) : RoomAgreed channels (Keyed.putSorted Channel.id c channels) db db' id := by
  obtain ⟨t, ht, rfl⟩ := Option.map_eq_some_iff.mp hdb
  have hrows := (Keyed.Table.insert_rows ht).1
  by_cases hid : id = c.id
  · subst hid
    right
    have hmemory : values Channel.id channelRow (Keyed.putSorted Channel.id c channels) c.id = {channelRow c} := by
      refine Keyed.values_eq ⟨c, Keyed.mem_putSorted.mpr (.inl rfl), rfl⟩ fun d hd he => ?_
      rcases Keyed.mem_putSorted.mp hd with rfl | ⟨-, hne⟩
      · rfl
      · exact absurd he hne
    have hstored : values ChannelRow.id (fun row => row) t.rows (Word.toColumn c.id) = {channelRow c} :=
      Keyed.values_of_mem t.unique (by simp [hrows]) rfl
    exact hmemory.trans hstored.symm
  · refine .inl ⟨Keyed.values_congr fun d hd => ?_, Keyed.values_congr fun row hrow => ?_⟩
    · rw [Keyed.mem_putSorted]
      constructor
      · rintro (rfl | ⟨hmem, -⟩)
        · exact absurd hd.symm hid
        · exact hmem
      · exact fun hmem => .inr ⟨hmem, fun he => hid (hd.symm.trans he)⟩
    · rw [hrows, List.mem_append, List.mem_singleton]
      refine or_iff_left fun he => hid (Word.toColumn_inj (hrow.symm.trans ?_))
      rw [he]
      rfl

theorem overwritesIn_created {channels : List Channel} {c : Channel} (hbare : c.overwrites = []) (id : ChannelId)
    (target : OverwriteTarget) :
    overwritesIn (Keyed.putSorted Channel.id c channels) id target =
      if id = c.id then ∅ else overwritesIn channels id target := by
  split
  · rename_i hid
    apply overwritesIn_empty
    intro d hd he o ho
    rcases Keyed.mem_putSorted.mp hd with rfl | ⟨-, hne⟩
    · rw [hbare] at ho
      cases ho
    · exact absurd (he.trans hid) hne
  · rename_i hid
    apply overwritesIn_congr
    intro d hd
    rw [Keyed.mem_putSorted]
    constructor
    · rintro (rfl | ⟨hmem, -⟩)
      · exact absurd hd.symm hid
      · exact hmem
    · exact fun hmem => .inr ⟨hmem, fun he => hid (hd.symm.trans he)⟩

theorem RoomAgreed.deleted (channels : List Channel) (db : Db) (gone id : ChannelId) :
    RoomAgreed channels (Keyed.erase Channel.id gone channels) db (db.deleteChannel gone) id := by
  by_cases hid : id = gone
  · right
    rw [Keyed.values_empty, Keyed.values_empty]
    · intro row hrow
      rw [hid]
      simpa using (Keyed.Table.mem_delete.mp hrow).2
    · intro c hc
      rw [hid]
      exact (Keyed.mem_erase.mp hc).2
  · refine .inl ⟨Keyed.values_congr fun c hc => ?_, Keyed.values_congr fun row hrow => ?_⟩
    · rw [Keyed.mem_erase]
      exact and_iff_left (hc ▸ hid)
    · simp only [Db.deleteChannel, Keyed.Table.mem_delete, decide_eq_false_iff_not]
      exact and_iff_left fun he => hid (Word.toColumn_inj (hrow.symm.trans he))

theorem OverwriteAgreed.channelDeleted (channels : List Channel) (db : Db) (gone id : ChannelId)
    (target : OverwriteTarget) :
    OverwriteAgreed channels (Keyed.erase Channel.id gone channels) db (db.deleteChannel gone) id target := by
  have hrows : overwritesOf (db.deleteChannel gone).channelOverwrites.rows id target =
      if id = gone then ∅ else overwritesOf db.channelOverwrites.rows id target := by
    refine overwritesOf_delete fun row hkey => ?_
    rw [decide_eq_true_eq, (overwriteRow_key_eq.mp hkey).1]
    exact ⟨Word.toColumn_inj, congrArg Word.toColumn⟩
  by_cases hid : id = gone
  · right
    rw [hrows, if_pos hid]
    exact overwritesIn_empty fun c hc he => absurd (he.trans hid) (Keyed.mem_erase.mp hc).2
  · rw [if_neg hid] at hrows
    refine .inl ⟨overwritesIn_congr fun c hc => ?_, hrows⟩
    rw [Keyed.mem_erase]
    exact and_iff_left (hc ▸ hid)

theorem OverwriteAgreed.updated {channels : List Channel} (db : Db) (c : Channel) (id : ChannelId)
    (target : OverwriteTarget) :
    OverwriteAgreed channels
      (Keyed.modify Channel.id c.id (fun old => { c with overwrites := old.overwrites }) channels) db
      (db.updateChannel c) id target :=
  .of_map (fun d => by split <;> simp_all) (fun d _ _ o _ => by split <;> rfl) rfl

/-- An edited channel is at one with its row exactly if it has one, or is not changed. -/
theorem roomAgreed_updated {channels : List Channel} (db : Db) (c : Channel) (hin : ∃ d ∈ channels, d.id = c.id) :
    (∀ id, RoomAgreed channels
        (Keyed.modify Channel.id c.id (fun old => { c with overwrites := old.overwrites }) channels) db
        (db.updateChannel c) id) ↔
      (∀ row ∈ db.channels.rows, row.id ≠ Word.toColumn c.id) →
        ∀ d ∈ channels, d.id = c.id → channelRow d = channelRow c := by
  have hkept : ∀ d : Channel, (if d.id = c.id then { c with overwrites := d.overwrites } else d).id = d.id := by
    intro d
    split
    · rename_i he
      exact he.symm
    · rfl
  have hmemory : values Channel.id channelRow
      (Keyed.modify Channel.id c.id (fun old => { c with overwrites := old.overwrites }) channels) c.id =
        {channelRow c} := by
    obtain ⟨d, hd, hid⟩ := hin
    refine Keyed.values_eq ⟨_, List.mem_map_of_mem hd, (hkept d).trans hid⟩ fun e he heid => ?_
    obtain ⟨e, -, rfl⟩ := List.mem_map.mp he
    rw [if_pos ((hkept e).symm.trans heid)]
    rfl
  have hrowkept : ∀ row : ChannelRow,
      (if row.id = Word.toColumn c.id then { channelRow c with id := row.id } else row).id = row.id := by
    intro row
    split <;> rfl
  have hmapped : (db.updateChannel c).channels.rows = db.channels.rows.map fun row =>
      if row.id = Word.toColumn c.id then { channelRow c with id := row.id } else row := rfl
  constructor
  · intro h hrows d hd hid
    rcases h c.id with ⟨hsame, -⟩ | hsame
    · rw [hmemory] at hsame
      have hmem : channelRow d ∈ values Channel.id channelRow channels c.id := Keyed.mem_values hd hid
      rw [← hsame] at hmem
      exact hmem
    · rw [hmemory, Keyed.values_empty] at hsame
      · exact absurd hsame (Set.singleton_ne_empty _)
      · rw [hmapped]
        intro row hrow
        obtain ⟨old, hold, rfl⟩ := List.mem_map.mp hrow
        rw [hrowkept]
        exact hrows old hold
  · intro h id
    by_cases hid : id = c.id
    · subst hid
      by_cases hrow : ∃ row ∈ db.channels.rows, row.id = Word.toColumn c.id
      · obtain ⟨row, hrow, hrid⟩ := hrow
        have hstored : values ChannelRow.id (fun row => row) (db.updateChannel c).channels.rows (Word.toColumn c.id) =
            {channelRow c} := by
          rw [hmapped]
          refine Keyed.values_eq ⟨_, List.mem_map_of_mem hrow, (hrowkept row).trans hrid⟩ fun row' hrow' he => ?_
          obtain ⟨old, -, rfl⟩ := List.mem_map.mp hrow'
          have hold := (hrowkept old).symm.trans he
          rw [if_pos hold, hold]
          rfl
        exact .inr (hmemory.trans hstored.symm)
      · have hrows : ∀ row ∈ db.channels.rows, row.id ≠ Word.toColumn c.id := fun row hm he => hrow ⟨row, hm, he⟩
        left
        rw [hmemory, Keyed.values_eq hin (h hrows)]
        rw [hmapped]
        refine ⟨rfl, Keyed.values_map (fun row _ => hrowkept row) fun row hm _ => ?_⟩
        rw [if_neg (hrows row hm)]
    · left
      rw [hmapped]
      refine ⟨Keyed.values_map (fun d _ => hkept d) fun d _ hd => ?_,
        Keyed.values_map (fun row _ => hrowkept row) fun row _ hrow => ?_⟩
      · rw [if_neg (hd ▸ hid)]
      · rw [if_neg fun he => hid (Word.toColumn_inj (hrow.symm.trans he))]

theorem ChannelPasses.settled (hp : ChannelPasses s client nonce cmd c) (hdb : c.call.perform w.db = some db)
    (f : UserInfo → List ServerControl) :
    Settled (s, w) ((c.mem s).deliver f, { w with db }) ↔ ¬ cmd.Adrift s w.db := by
  rw [hp.settled_iff_rooms hdb f]
  cases hp with
  | @setOverwrite channel target allow deny _ _ hview _ _ _ =>
    obtain rfl := Option.some.inj hdb
    refine iff_of_true ⟨fun id => .of_map (fun c => by split <;> rfl) rfl id, fun id t => ?_⟩ (fun h => by cases h)
    exact .set w.db channel _ (can_channel hview) id t
  | @deleteOverwrite channel target _ _ hview =>
    obtain rfl := Option.some.inj hdb
    refine iff_of_true ⟨fun id => .of_map (fun c => by split <;> rfl) rfl id, fun id t => ?_⟩ (fun h => by cases h)
    exact .delete w.db channel target id t
  | @create name trimmed parent topic kind maxUsers order hcan hvalid =>
    generalize hc : Channel.mk s.nextChannelId parent trimmed topic kind maxUsers order [] = c at hdb ⊢
    have hid : c.id = s.nextChannelId := by rw [← hc]
    have hbare : c.overwrites = [] := by rw [← hc]
    have hrows : db.channelOverwrites = w.db.channelOverwrites := by
      obtain ⟨t, -, rfl⟩ := Option.map_eq_some_iff.mp hdb
      rfl
    have hover : ∀ i t, OverwriteAgreed s.channels (Keyed.putSorted Channel.id c s.channels) w.db db i t ↔
        (i = c.id → overwritesIn s.channels i t = ∅ ∨ overwritesOf w.db.channelOverwrites.rows i t = ∅) := by
      intro i t
      unfold OverwriteAgreed
      rw [overwritesIn_created hbare, hrows]
      split
      · rename_i hi
        rw [Keyed.Agreed, and_iff_left rfl, eq_comm, eq_comm (a := ∅)]
        exact ⟨fun h _ => h, fun h => h hi⟩
      · rename_i hi
        exact iff_of_true (.inl ⟨rfl, rfl⟩) fun he => absurd he hi
    constructor
    · rintro ⟨-, h⟩ hadrift
      cases hadrift with
      | @taken d o row _ _ _ _ _ _ hd hdid ho hrow hkey =>
        rcases (hover d.id o.target).mp (h d.id o.target) (hdid.trans hid.symm) with hnone | hnone
        · have hmem : o.bits ∈ overwritesIn s.channels d.id o.target := ⟨d, hd, rfl, Keyed.mem_values ho rfl⟩
          rw [hnone] at hmem
          exact hmem
        · have hmem : row.bits ∈ overwritesOf w.db.channelOverwrites.rows d.id o.target := Keyed.mem_values hrow hkey
          rw [hnone] at hmem
          exact hmem
    · intro h
      refine ⟨fun i => .created hdb i, fun i t => (hover i t).mpr fun hi => ?_⟩
      by_contra hn
      rw [not_or] at hn
      obtain ⟨v, d, hd, hdid, o, ho, rfl, -⟩ := Set.nonempty_iff_ne_empty.mpr hn.1
      obtain ⟨v', row, hrow, hkey, -⟩ := Set.nonempty_iff_ne_empty.mpr hn.2
      exact h (.taken hd (hdid.trans (hi.trans hid)) ho hrow (hkey.trans (by rw [hdid]; rfl)))
  | @update id name trimmed parent topic kind maxUsers order hcan hview hvalid =>
    obtain rfl := Option.some.inj hdb
    obtain rfl := validateChannel_name hvalid
    have hrooms := roomAgreed_updated w.db ⟨id, parent, Text.trim name, topic, kind, maxUsers, order, []⟩
      (can_channel hview)
    constructor
    · rintro ⟨h, -⟩ hadrift
      cases hadrift with
      | updated hd hne hrow => exact hne (hrooms.mp h hrow _ hd rfl)
    · intro h
      refine ⟨hrooms.mpr fun hrow d hd hid => ?_, fun i t => .updated w.db _ i t⟩
      by_contra hne
      subst hid
      exact h (.updated hd hne hrow)
  | @delete id _ _ =>
    obtain rfl := Option.some.inj hdb
    rw [show (Change.delete id).mem s = (s.removeChannelMem id).2 from rfl, s.removeChannelMem_channels]
    refine iff_of_true ⟨fun i => .deleted .., fun i t => .channelDeleted ..⟩ (fun h => by cases h)

end

end PickleChat
