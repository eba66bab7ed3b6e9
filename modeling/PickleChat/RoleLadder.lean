import PickleChat.Restart

/-!
# The order of roles over whole runs

Creations shift positions, deletions compact them and reorders take them from
the client. Whatever is sent, the role list and the rows of the role table stay
numbered from zero without a gap, everyone at the bottom under its own name.
-/

namespace PickleChat

open Async (Run exec)

/-- A role list in order, whose everyone is called `name`. -/
structure Ladder (name : String) (roles : List Role) : Prop extends RoleOrder roles where
  named : ∀ r ∈ roles, r.id = everyoneRoleId → r.name = name

/-- The same of the rows of the role table, which come in any order. -/
structure RowLadder (name : String) (rows : List RoleRow) : Prop where
  ids : (rows.map RoleRow.id).Nodup
  positions : (rows.map fun row => row.position.toInt).Perm ((List.range rows.length).map Int.ofNat)
  everyone : ∃ row ∈ rows, row.id = 0 ∧ row.position = 0 ∧ row.name = name

/-! ## One command -/

section
variable {name : String} {p next : PermState} {db db' : Db} {cmd : RoleCommand}

theorem Ladder.written (h : Ladder name p.roles) (hr : RoleRows p.roles db) (hw : Written p db cmd next db') :
    Ladder name next.roles := by
  refine ⟨hw.order h.toRoleOrder hr, ?_⟩
  intro r hm hid
  cases hw with
  | @create _ _ role _ _ hdb =>
    rcases (mem_created h.ids).mp hm with rfl | ⟨q, hq, rfl⟩
    · -- The new role is not everyone: everyone has a row already.
      obtain ⟨e, he, heid, -⟩ := h.everyone
      have hfresh := (hr.placed (unique_shifted h.ids)).fresh hdb
      exact absurd (heid.trans hid.symm) (hfresh { e with position := newPosition _ e } (List.mem_map_of_mem he))
    · exact h.named q hq hid
  | @update _ _ _ _ existing updated hget _ hname =>
    change r ∈ Keyed.modifyFirst Role.id updated.id (fun _ => updated) p.roles at hm
    rw [modifyFirst_updated h.ids] at hm
    obtain ⟨q, hq, rfl⟩ := List.mem_map.mp hm
    split at hid
    · rename_i he
      rw [if_pos he, hname hid]
      exact h.named existing (Keyed.get_mem hget) ((Keyed.get_key hget).trans hid)
    · rename_i he
      rw [if_neg he]
      exact h.named q hq hid
  | @delete id _ =>
    have hun : r.unplaced ∈ (compacted (Keyed.erase Role.id id p.roles)).map Role.unplaced := List.mem_map_of_mem hm
    rw [compacted_unplaced] at hun
    obtain ⟨q, hq, he⟩ := List.mem_map.mp hun
    obtain ⟨hq, -⟩ := Keyed.mem_erase.mp (mem_sortByPosition.mp hq)
    have hname : q.unplaced.name = r.unplaced.name := congrArg Role.name he
    rw [show r.name = q.name from hname.symm]
    exact h.named q hq ((Role.id_of_unplaced he).trans hid)
  | reorder =>
    obtain ⟨q, hq, rfl⟩ := List.mem_map.mp (mem_sortByPosition.mp hm)
    exact h.named q hq hid
  | grant => exact h.named r hm hid

theorem RoleRows.ladder {roles : List Role} (hr : RoleRows roles db) (h : Ladder name roles) :
    RowLadder name db.roles.rows := by
  have hperm := hr.perm h.ids
  refine ⟨db.roles.unique, ?_, ?_⟩
  · have hpos : (db.roles.rows.map fun row => row.position.toInt) =
        (db.roles.rows.map rowToRole).map fun r => (r.position.toNat : Int) := by
      rw [List.map_map]
      refine List.map_congr_left fun row hrow => ?_
      obtain ⟨r, -, rfl⟩ := (hr row).mp hrow
      rw [Function.comp_apply, rowToRole_roleRow]
      exact Word.toColumn_toInt r.position
    have hrange : (roles.map fun r => (r.position.toNat : Int)) = (List.range roles.length).map Int.ofNat := by
      have hnat : (fun r : Role => (r.position.toNat : Int)) = (fun n : UInt32 => (n.toNat : Int)) ∘ Role.position :=
          rfl
      rw [hnat, ← List.map_map, h.positions, List.map_map]
      refine List.map_congr_left fun i hi => ?_
      rw [Function.comp_apply, Word.toNat_ofNat_lt h.length_le (List.mem_range.mp hi)]
      rfl
    have hlen : db.roles.rows.length = roles.length := by simpa using hperm.length_eq
    rw [hpos, hlen, ← hrange]
    exact hperm.map _
  · obtain ⟨e, he, hid, h0⟩ := h.everyone
    refine ⟨roleRow e, (hr _).mpr ⟨e, he, rfl⟩, ?_, ?_, h.named e he hid⟩
    · simp only [roleRow, hid]; rfl
    · simp only [roleRow, h0]; rfl

end

/-! ## Whole runs -/

/-- A role is created only while ids are left. -/
def RoleIdsSuffice (x : Shared × World) : Input → Prop
  | .control client (.createRole nonce name permissions) =>
    Accepted x.1 client nonce (.create name permissions) → RoleIdsLeft x.1.perms
  | _ => True

theorem ChannelPasses.roles {s : Shared} {client : ClientId} {nonce : UInt64} {cmd : ChannelCommand} {c : Change}
    (hp : ChannelPasses s client nonce cmd c) {db db' : Db} (hdb : c.call.perform db = some db') :
    (c.mem s).perms = s.perms ∧ db'.roles = db.roles := by
  cases hp with
  | create =>
    obtain ⟨t, -, rfl⟩ := Option.map_eq_some_iff.mp hdb
    exact ⟨rfl, rfl⟩
  | delete =>
    obtain rfl := Option.some.inj hdb
    exact ⟨Shared.removeChannelMem_perms .., rfl⟩
  | setOverwrite => obtain rfl := Option.some.inj hdb; exact ⟨rfl, rfl⟩
  | deleteOverwrite => obtain rfl := Option.some.inj hdb; exact ⟨rfl, rfl⟩
  | update => obtain rfl := Option.some.inj hdb; exact ⟨rfl, rfl⟩

theorem RoleRows.of_table {roles : List Role} {db db' : Db} (h : RoleRows roles db) (he : db'.roles = db.roles) :
    RoleRows roles db' := by
  intro row
  rw [he]
  exact h row

theorem Ladder.step {name : String} {x y : Shared × World} {i : Input}
    (h : Ladder name x.1.perms.roles ∧ RoleRows x.1.perms.roles x.2.db) (hsafe : RoleIdsSuffice x i)
    (hst : ServeStep x i y) : Ladder name y.1.perms.roles ∧ RoleRows y.1.perms.roles y.2.db := by
  subst hst
  have keep : ∀ {s : Shared} {w : World}, s.perms = x.1.perms → w.db.roles = x.2.db.roles →
      Ladder name s.perms.roles ∧ RoleRows s.perms.roles w.db := by
    intro s w hp hdb
    rw [hp]
    exact ⟨h.1, h.2.of_table hdb⟩
  have hban : ∀ b, Spares Db.roles (.insertBan b) := fun b db db' hdb => by cases hdb; rfl
  have hunban : ∀ f, Spares Db.roles (.deleteBan f) := fun f db db' hdb => by cases hdb; rfl
  have hmsg : ∀ m, Spares Db.roles (.insertMessage m) := by
    intro m db db' hdb
    obtain ⟨t, -, rfl⟩ := Option.map_eq_some_iff.mp hdb
    rfl
  have quiet := fun hi =>
    have hu := i.undisturbed Await.faulty hban hunban x.1 x.2 hi
    keep hu.1.perms hu.2
  cases i with
  | control client frame =>
    rcases frame.kinds with ⟨nonce, cmd, rfl⟩ | ⟨nonce, cmd, rfl⟩ | hm | hp
    · rw [serve_role]
      have hleft : ∀ name permissions, cmd = .create name permissions →
          Accepted x.1 client nonce cmd → RoleIdsLeft x.1.perms := by
        intro name permissions he
        subst he
        exact hsafe
      rcases RoleCommand.settled h.1.ids h.2 hleft with ⟨hr, hw⟩ | ⟨next, s', db, hs, hw, he⟩
      · exact keep hr.perms (by rw [hw])
      · rw [he, hs.perms]
        exact ⟨h.1.written h.2 hw, hw.rows h.1.ids h.2⟩
    · rw [serve_channel]
      rcases cmd.exec_cases Await.faulty x.1 x.2 client nonce with ⟨hr, hw⟩ | ⟨c, db, -, hp, hdb, he⟩
      · exact keep hr.perms (by rw [hw])
      · rw [he]
        exact keep (hp.roles hdb).1 (hp.roles hdb).2
    · exact quiet fun _ _ he => by cases he; exact .inr ⟨hmsg, hm⟩
    · exact quiet fun _ _ he => by cases he; exact .inl hp
  | connect => exact quiet fun _ _ he => nomatch he
  | voice => exact quiet fun _ _ he => nomatch he
  | disconnect => exact quiet fun _ _ he => nomatch he
  | tick => exact quiet fun _ _ he => nomatch he

/-! ## Where a run starts -/

/-- The role table at start-up: empty, and then seeded, or in order already and
with values the server writes. -/
def LadderStart (name : String) (db : Db) : Prop :=
  (db.roles.rows = [] ∧ name = "everyone") ∨
    (RowLadder name db.roles.rows ∧ ∀ row ∈ db.roles.rows, roleRow (rowToRole row) = row)

section
variable {name : String} {db : Db}

theorem roleRows_of_written (hw : ∀ row ∈ db.roles.rows, roleRow (rowToRole row) = row) :
    RoleRows (db.roles.rows.map rowToRole) db := by
  intro row
  constructor
  · intro hrow
    exact ⟨_, List.mem_map_of_mem hrow, hw row hrow⟩
  · rintro ⟨_, hr, rfl⟩
    obtain ⟨row, hrow, rfl⟩ := List.mem_map.mp hr
    rwa [hw row hrow]

theorem RowLadder.load (h : RowLadder name db.roles.rows)
    (hw : ∀ row ∈ db.roles.rows, roleRow (rowToRole row) = row) :
    Ladder name db.loadRoles ∧ RoleRows db.loadRoles db := by
  have hrows := roleRows_of_written hw
  generalize hl : db.roles.rows.map rowToRole = l at hrows
  have hcol : ∀ row ∈ db.roles.rows, Word.toColumn (rowToRole row).id = row.id ∧
      Word.toColumn (rowToRole row).position = row.position ∧ (rowToRole row).name = row.name := by
    intro row hrow
    exact ⟨congrArg RoleRow.id (hw row hrow), congrArg RoleRow.position (hw row hrow), rfl⟩
  have hids : Keyed.Unique Role.id l := by
    have hmap : (l.map Role.id).map Word.toColumn = db.roles.rows.map RoleRow.id := by
      rw [← hl, List.map_map, List.map_map]
      exact List.map_congr_left fun row hrow => (hcol row hrow).1
    exact List.Nodup.of_map Word.toColumn (hmap ▸ h.ids)
  have hlen : l.length ≤ 2 ^ 32 := by simpa using Word.length_le hids
  have hsort : db.loadRoles = sortByPosition l := hrows.loadRoles_sort.trans (by rw [hl])
  have hpos : (l.map Role.position).Perm ((List.range l.length).map UInt32.ofNat) := by
    have hp := h.positions.map fun z : Int => UInt32.ofNat z.toNat
    have hleft : (db.roles.rows.map fun row => row.position.toInt).map (fun z : Int => UInt32.ofNat z.toNat) =
        l.map Role.position := by
      rw [← hl, List.map_map, List.map_map]
      refine List.map_congr_left fun row hrow => ?_
      rw [Function.comp_apply, Function.comp_apply, ← (hcol row hrow).2.1, Word.toColumn_toInt]
      simp
    rw [hleft, List.map_map] at hp
    have hl' : l.length = db.roles.rows.length := by rw [← hl, List.length_map]
    rw [hl']
    exact hp
  have hmem : ∀ r, r ∈ db.loadRoles ↔ r ∈ l := by
    intro r
    rw [hsort]
    exact mem_sortByPosition
  refine ⟨⟨⟨?_, ?_, ?_⟩, ?_⟩, hrows.of_mem hmem⟩
  · rw [hsort]
    exact unique_sortByPosition hids
  · rw [hsort, sortByPosition_positions, (perm_sortByPosition l).length_eq]
    exact Word.insertionSort_range hlen hpos
  · obtain ⟨row, hrow, hid, h0, -⟩ := h.everyone
    refine ⟨rowToRole row, (hmem _).mpr (hl ▸ List.mem_map_of_mem hrow), ?_, ?_⟩
    · exact Word.toColumn_inj ((hcol row hrow).1.trans hid)
    · exact Word.toColumn_inj ((hcol row hrow).2.1.trans h0)
  · intro r hr hid
    obtain ⟨row, hrow, rfl⟩ := List.mem_map.mp (hl ▸ (hmem r).mp hr)
    obtain ⟨e, he, heid, -, hname⟩ := h.everyone
    obtain rfl : row = e := by
      refine List.inj_on_of_nodup_map h.ids hrow he ?_
      rw [← (hcol row hrow).1, hid, heid]
      rfl
    rw [(hcol row hrow).2.2, hname]

theorem defaultRoles_ladder : Ladder "everyone" defaultRoles :=
  ⟨defaultRoles_order, by decide⟩

theorem LadderStart.load {db' : Db} {roles : List Role} (h : LadderStart name db)
    (hload : loadOrSeedRoles db = some (roles, db')) : Ladder name roles ∧ RoleRows roles db' := by
  unfold loadOrSeedRoles at hload
  rcases h with ⟨hnil, rfl⟩ | ⟨hl, hw⟩
  · have hempty : db.loadRoles = [] := by simp [Db.loadRoles, hnil]
    rw [if_pos hempty] at hload
    obtain ⟨db₁, h₁, he⟩ := Option.map_eq_some_iff.mp hload
    cases he
    obtain ⟨hrows, -⟩ := insertRoles_rows h₁
    refine ⟨defaultRoles_ladder, fun row => ?_⟩
    rw [hrows, hnil, List.nil_append, List.mem_map]
  · have hne : db.loadRoles ≠ [] := by
      obtain ⟨row, hrow, -⟩ := hl.everyone
      unfold Db.loadRoles
      exact List.ne_nil_of_mem (List.mem_map_of_mem ((List.mem_insertionSort _).mpr hrow))
    rw [if_neg hne] at hload
    cases hload
    exact hl.load hw

end

/-- From the default roles, or from any table in order, every run keeps the role
list and the rows of the role table in order. -/
theorem roles_stay_in_order {name : String} {db : Db} {s₀ : Shared} {w₀ : World} {x : Shared × World}
    (hload : loadOrSeedRoles db = some (s₀.perms.roles, w₀.db)) (hstart : LadderStart name db)
    (hrun : Run ServeStep RoleIdsSuffice (s₀, w₀) x) :
    Ladder name x.1.perms.roles ∧ RowLadder name x.2.db.roles.rows := by
  have h := hrun.invariant (fun x => Ladder name x.1.perms.roles ∧ RoleRows x.1.perms.roles x.2.db)
    (hstart.load hload) fun _ _ _ hi hok hst => Ladder.step hi hok hst
  exact ⟨h.1, h.2.ladder h.1⟩

/-- The owner of a new server creates a role and deletes another. -/
theorem roles_stay_in_order_seeded :
    ∃ s₀ db₀ x, Server.bind ownedConfig 5 .empty = some (s₀, db₀) ∧
      Run ServeStep RoleIdsSuffice (s₀, ⟨db₀, []⟩) x ∧ x.1.perms.roles.map Role.id = [0, 3, 2] ∧
      Ladder "everyone" x.1.perms.roles ∧ RowLadder "everyone" x.2.db.roles.rows := by
  have hrun : ∃ s₀ db₀ x, Server.bind ownedConfig 5 .empty = some (s₀, db₀) ∧
      loadOrSeedRoles .empty = some (s₀.perms.roles, db₀) ∧
      Run ServeStep RoleIdsSuffice (s₀, ⟨db₀, []⟩) x ∧ x.1.perms.roles.map Role.id = [0, 3, 2] :=
    ⟨_, _, _, rfl, rfl,
      .step (.control 1 (.deleteRole 8 1))
        (.step (.control 1 (.createRole 7 "door" .viewChannel)) (.step ownerConnects .refl trivial rfl)
          (by unfold RoleIdsSuffice RoleIdsLeft; exact fun _ => by decide +kernel) rfl) trivial rfl, by decide +kernel⟩
  obtain ⟨s₀, db₀, x, hb, hload, hrun, hids⟩ := hrun
  exact ⟨s₀, db₀, x, hb, hrun, hids, roles_stay_in_order hload (.inl ⟨rfl, rfl⟩) hrun⟩

end PickleChat
