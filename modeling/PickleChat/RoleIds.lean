import PickleChat.Authority
import PickleChat.ChannelIds

/-!
# Role ids over a run

A new role gets the id after the highest one in the list, so a role created
after the highest one was deleted gets the deleted one's id. Along every run in
which the highest role stays, through failing store calls and restarts, the next
id is one no role ever had.
-/

namespace PickleChat

open Async (Run exec)

/-- A step whose store calls may fail, or a restart on the tables it finds. -/
def RoleTraceStep (t : Trace) (e : Happening) (t' : Trace) : Prop :=
  t'.past = t.now :: t.past ∧
    match e with
    | .input i => FaultyStep t.now i t'.now
    | .restart config now => Server.bind config now t.now.2.db = some (t'.now.1, t'.now.2.db)

def RoleLive (x : Shared × World) (id : RoleId) : Prop := ∃ r ∈ x.1.perms.roles, r.id = id

instance instDecidableRoleLive (x : Shared × World) (id : RoleId) : Decidable (RoleLive x id) :=
  inferInstanceAs (Decidable (∃ r ∈ x.1.perms.roles, r.id = id))

/-- A role is created only while the highest id has a successor. -/
def RoleIdsLast (t : Trace) : Happening → Prop
  | .input (.control _ (.createRole ..)) => RoleIdsLeft t.now.1.perms
  | _ => True

/-- No role is deleted that has the highest id, and none created while that id has no successor. -/
def RoleIdsMoveOn (t : Trace) : Happening → Prop
  | .input (.control client (.deleteRole nonce id)) =>
    Accepted t.now.1 client nonce (.delete id) → ∃ higher, RoleLive t.now higher ∧ id < higher
  | .input (.control client (.createRole nonce name permissions)) =>
    Accepted t.now.1 client nonce (.create name permissions) → RoleIdsLeft t.now.1.perms
  | _ => True

/-- The id the next role gets is one that no role had. -/
def NextRoleFresh (t : Trace) : Prop :=
  RoleIdsLeft t.now.1.perms → ∀ name permissions,
    ∀ z ∈ t.now :: t.past, ¬ RoleLive z (newRole t.now.1.perms name permissions).id

/-- An id in the list that was not there a step ago was never there. -/
def RolesNeverBack (t : Trace) : Prop :=
  match t.past with
  | [] => True
  | prev :: older => ∀ id, RoleLive t.now id → ¬ RoleLive prev id → ∀ z ∈ older, ¬ RoleLive z id

structure RoleIdsSound (t : Trace) : Prop where
  /-- A restart finds every role there is. -/
  stored : ∀ id, RoleLive t.now id → ∃ n ∈ t.now.2.db.roleIds, Word.ofColumn n = id
  /-- Every id there was is at most one there is. -/
  below : ∀ z ∈ t.past, ∀ id, RoleLive z id → ∃ top, RoleLive t.now top ∧ id ≤ top

/-- It finds no others. -/
def RoleIdsExact (x : Shared × World) : Prop :=
  ∀ n ∈ x.2.db.roleIds, ∃ id, RoleLive x id ∧ Word.toColumn id = n

/-- What start-up makes of a table. -/
inductive RolesFound (db : Db) (y : Shared × World) : Prop
  | loaded (hlive : ∀ id, RoleLive y id ↔ ∃ n ∈ db.roleIds, Word.ofColumn n = id) (hids : y.2.db.roleIds = db.roleIds)
  | seeded (hempty : db.roleIds = []) (hids : ∀ n, n ∈ y.2.db.roleIds ↔ ∃ id, RoleLive y id ∧ Word.toColumn id = n)

/-- What one step does to the ids in the list and in the table. -/
inductive RoleIdsStep (x y : Shared × World) : Prop
  | same (hlive : ∀ id, RoleLive y id ↔ RoleLive x id) (hids : ∀ n, n ∈ y.2.db.roleIds ↔ n ∈ x.2.db.roleIds)
  | created (new : RoleId) (hfresh : ∀ id, RoleLive x id → id < new)
      (hlive : ∀ id, RoleLive y id ↔ RoleLive x id ∨ id = new)
      (hids : ∀ n, n ∈ y.2.db.roleIds ↔ n ∈ x.2.db.roleIds ∨ n = Word.toColumn new)
  | deleted (gone : RoleId) (htop : ∃ top, RoleLive x top ∧ gone < top)
      (hlive : ∀ id, RoleLive y id ↔ RoleLive x id ∧ id ≠ gone)
      (hids : ∀ n, n ∈ y.2.db.roleIds ↔ n ∈ x.2.db.roleIds ∧ n ≠ Word.toColumn gone)
  | restarted (hfound : RolesFound x.2.db y)

theorem RolesFound.stored {db : Db} {y : Shared × World} (h : RolesFound db y) :
    ∀ id, RoleLive y id → ∃ n ∈ y.2.db.roleIds, Word.ofColumn n = id := by
  intro id hid
  cases h with
  | loaded hlive hids =>
    rw [hids]
    exact (hlive id).mp hid
  | seeded _ hids => exact ⟨Word.toColumn id, (hids _).mpr ⟨id, hid, rfl⟩, by simp⟩

theorem RolesFound.exact {db : Db} {y : Shared × World} (h : RolesFound db y)
    (hcanon : ∀ n ∈ db.roleIds, ∃ id, Word.toColumn id = n) : RoleIdsExact y := by
  intro n hn
  cases h with
  | loaded hlive hids =>
    rw [hids] at hn
    obtain ⟨id, rfl⟩ := hcanon n hn
    exact ⟨id, (hlive id).mpr ⟨_, hn, by simp⟩, rfl⟩
  | seeded _ hids => exact (hids n).mp hn

section
variable {t : Trace} {y : Shared × World} (h : RoleIdsSound t)
include h

theorem RoleIdsSound.below_now {z : Shared × World} (hz : z ∈ t.now :: t.past) {id : RoleId} (hid : RoleLive z id) :
    ∃ top, RoleLive t.now top ∧ id ≤ top := by
  rcases List.mem_cons.mp hz with rfl | hz
  · exact ⟨id, hid, UInt32.le_refl _⟩
  · exact h.below z hz id hid

/-- The highest id goes nowhere. -/
theorem RoleIdsSound.top_stays (hst : RoleIdsStep t.now y) {top : RoleId} (htop : RoleLive t.now top) :
    ∃ top', RoleLive y top' ∧ top ≤ top' := by
  cases hst with
  | same hlive => exact ⟨top, (hlive top).mpr htop, UInt32.le_refl _⟩
  | created new _ hlive => exact ⟨top, (hlive top).mpr (.inl htop), UInt32.le_refl _⟩
  | deleted gone hhigher hlive =>
    by_cases he : top = gone
    · obtain ⟨higher, hin, hlt⟩ := hhigher
      have hne : higher ≠ gone := fun e => UInt32.lt_irrefl _ (e ▸ hlt)
      exact ⟨higher, (hlive higher).mpr ⟨hin, hne⟩, he ▸ UInt32.le_of_lt hlt⟩
    · exact ⟨top, (hlive top).mpr ⟨htop, he⟩, UInt32.le_refl _⟩
  | restarted hfound =>
    obtain ⟨n, hn, he⟩ := h.stored top htop
    cases hfound with
    | loaded hlive => exact ⟨top, (hlive top).mpr ⟨n, hn, he⟩, UInt32.le_refl _⟩
    | seeded hempty => simp [hempty] at hn

theorem RoleIdsSound.stored_step (hst : RoleIdsStep t.now y) :
    ∀ id, RoleLive y id → ∃ n ∈ y.2.db.roleIds, Word.ofColumn n = id := by
  intro id hid
  cases hst with
  | same hlive hids =>
    obtain ⟨n, hn, he⟩ := h.stored id ((hlive id).mp hid)
    exact ⟨n, (hids n).mpr hn, he⟩
  | created new _ hlive hids =>
    rcases (hlive id).mp hid with hid | rfl
    · obtain ⟨n, hn, he⟩ := h.stored id hid
      exact ⟨n, (hids n).mpr (.inl hn), he⟩
    · exact ⟨Word.toColumn id, (hids _).mpr (.inr rfl), by simp⟩
  | deleted gone _ hlive hids =>
    obtain ⟨hid, hne⟩ := (hlive id).mp hid
    obtain ⟨n, hn, he⟩ := h.stored id hid
    refine ⟨n, (hids n).mpr ⟨hn, fun hg => hne ?_⟩, he⟩
    rw [← he, hg, Word.ofColumn_toColumn]
  | restarted hfound => exact hfound.stored id hid

theorem RoleIdsSound.step (hst : RoleIdsStep t.now y) : RoleIdsSound ⟨y, t.now :: t.past⟩ := by
  refine ⟨h.stored_step hst, fun z hz id hid => ?_⟩
  obtain ⟨top, htop, hle⟩ := h.below_now hz hid
  obtain ⟨top', htop', hle'⟩ := h.top_stays hst htop
  exact ⟨top', htop', UInt32.le_trans hle hle'⟩

theorem RoleIdsSound.nextRoleFresh : NextRoleFresh t := by
  intro hleft name permissions z hz hid
  obtain ⟨top, ⟨r, hr, rfl⟩, hle⟩ := h.below_now hz hid
  exact UInt32.not_lt.mpr hle (lt_succ_maxOr0 hleft (List.mem_map_of_mem hr))

/-- An id that is in the list after a step and was not before it was never there. -/
theorem RoleIdsSound.fresh_step (hex : RoleIdsExact t.now) (hst : RoleIdsStep t.now y) {id : RoleId}
    (hid : RoleLive y id) (hnew : ¬ RoleLive t.now id) : ∀ z ∈ t.past, ¬ RoleLive z id := by
  intro z hz hlz
  obtain ⟨top, htop, hle⟩ := h.below z hz id hlz
  cases hst with
  | same hlive => exact hnew ((hlive id).mp hid)
  | created new hfresh hlive =>
    rcases (hlive id).mp hid with hid | rfl
    · exact hnew hid
    · exact UInt32.not_lt.mpr hle (hfresh top htop)
  | deleted gone _ hlive => exact hnew ((hlive id).mp hid).1
  | restarted hfound =>
    cases hfound with
    | loaded hlive =>
      obtain ⟨n, hn, he⟩ := (hlive id).mp hid
      obtain ⟨id', hid', rfl⟩ := hex n hn
      rw [Word.ofColumn_toColumn] at he
      exact hnew (he ▸ hid')
    | seeded hempty =>
      obtain ⟨n, hn, -⟩ := h.stored top htop
      simp [hempty] at hn

end

theorem RoleIdsExact.step {x y : Shared × World} (h : RoleIdsExact x) (hst : RoleIdsStep x y) : RoleIdsExact y := by
  intro n hn
  cases hst with
  | same hlive hids =>
    obtain ⟨id, hid, he⟩ := h n ((hids n).mp hn)
    exact ⟨id, (hlive id).mpr hid, he⟩
  | created new _ hlive hids =>
    rcases (hids n).mp hn with hn | rfl
    · obtain ⟨id, hid, he⟩ := h n hn
      exact ⟨id, (hlive id).mpr (.inl hid), he⟩
    · exact ⟨new, (hlive new).mpr (.inr rfl), rfl⟩
  | deleted gone _ hlive hids =>
    obtain ⟨hn, hne⟩ := (hids n).mp hn
    obtain ⟨id, hid, rfl⟩ := h n hn
    exact ⟨id, (hlive id).mpr ⟨hid, fun e => hne (congrArg Word.toColumn e)⟩, rfl⟩
  | restarted hfound =>
    refine hfound.exact (fun n hn => ?_) n hn
    obtain ⟨id, -, he⟩ := h n hn
    exact ⟨id, he⟩

/-! ## Role commands -/

theorem roleLive_iff {x : Shared × World} {id : RoleId} : RoleLive x id ↔ id ∈ x.1.perms.roles.map Role.id := by
  simp [RoleLive]

/-- Neither the list nor the table has other ids than before. -/
theorem RoleIdsStep.of_ids {x y : Shared × World}
    (hlive : (y.1.perms.roles.map Role.id).Perm (x.1.perms.roles.map Role.id))
    (hids : y.2.db.roleIds = x.2.db.roleIds) : RoleIdsStep x y := by
  refine .same (fun id => ?_) fun n => by rw [hids]
  rw [roleLive_iff, roleLive_iff, hlive.mem_iff]

theorem map_id_of_unplaced {l l' : List Role} (h : l.map Role.unplaced = l'.map Role.unplaced) :
    l.map Role.id = l'.map Role.id := by
  have hids := congrArg (List.map Role.id) h
  rwa [List.map_map, List.map_map] at hids

theorem created_ids (p : PermState) (role : Role) :
    ((createdPerms p role).roles.map Role.id).Perm (role.id :: p.roles.map Role.id) := by
  have hold := map_id_of_unplaced (withPositions_unplaced (shiftedPositions p.roles) p.roles)
  have hsort := (perm_sortByPosition (withPositions (shiftedPositions p.roles) p.roles ++ [role])).map Role.id
  rw [List.map_append, hold] at hsort
  exact hsort.trans (List.perm_append_singleton _ _)

theorem mem_deletedPerms_ids {p : PermState} {id j : RoleId} :
    j ∈ (deletedPerms p id).roles.map Role.id ↔ j ∈ p.roles.map Role.id ∧ j ≠ id := by
  have hids : (deletedPerms p id).roles.map Role.id = (sortByPosition (Keyed.erase Role.id id p.roles)).map Role.id :=
    map_id_of_unplaced (compacted_unplaced (Keyed.erase Role.id id p.roles))
  rw [hids]
  simp only [List.mem_map, mem_sortByPosition, Keyed.mem_erase]
  constructor
  · rintro ⟨r, ⟨hr, hne⟩, rfl⟩
    exact ⟨⟨r, hr, rfl⟩, hne⟩
  · rintro ⟨⟨r, hr, rfl⟩, hne⟩
    exact ⟨r, ⟨hr, hne⟩, rfl⟩

section
variable {perform : (op : Await) → World → op.Reply × World} {s : Shared} {w : World} {client : ClientId}
  {nonce : UInt64} {cmd : RoleCommand}

theorem Swapped.deleted_ids {id : RoleId} {s' : Shared} {db : Db}
    (h : Swapped s (.delete id) (deletedPerms s.perms id) s')
    (htop : ∃ top, RoleLive (s, w) top ∧ id < top)
    (hids : ∀ n, n ∈ db.roleIds ↔ n ∈ w.db.roleIds ∧ n ≠ Word.toColumn id) :
    RoleIdsStep (s, w) (s', { w with db }) := by
  refine .deleted id htop (fun j => ?_) hids
  rw [roleLive_iff, roleLive_iff, ← mem_deletedPerms_ids, ← h.perms]

theorem Written.roleIds {next : PermState} {db : Db} {s' : Shared} (hw : Written s.perms w.db cmd next db)
    (hswap : Swapped s cmd next s')
    (hnew : ∀ name permissions, cmd = .create name permissions →
      ∃ role, next = createdPerms s.perms role ∧ ∀ id, RoleLive (s, w) id → id < role.id)
    (htop : ∀ id, cmd = .delete id → ∃ top, RoleLive (s, w) top ∧ id < top) :
    RoleIdsStep (s, w) (s', { w with db }) := by
  cases hw with
  | @create _ _ row _ _ hdb =>
    obtain ⟨role, he, hfresh⟩ := hnew _ _ rfl
    -- What is inserted has the id of what is swapped in.
    have hrow : row.id = role.id := by
      have hperm := (created_ids s.perms row).symm.trans (he ▸ created_ids s.perms role)
      exact List.singleton_perm_singleton.mp ((List.perm_append_right_iff (s.perms.roles.map Role.id)).mp hperm)
    obtain ⟨hids, -⟩ := insertRole_roleIds hdb
    rw [setRolePositions_roleIds, hrow] at hids
    refine .created role.id hfresh (fun id => ?_) fun n => by simp [hids]
    rw [roleLive_iff, roleLive_iff, hswap.perms, he, (created_ids s.perms role).mem_iff, List.mem_cons, or_comm]
  | @update _ _ _ _ _ updated _ _ _ =>
    refine .of_ids ?_ (updateRole_roleIds ..)
    have hids : (updatedPerms s.perms updated).roles.map Role.id = s.perms.roles.map Role.id :=
      Keyed.map_key_modifyFirst (fun _ _ => rfl) s.perms.roles
    rw [hswap.perms]
    exact .of_eq hids
  | delete _ =>
    refine hswap.deleted_ids (htop _ rfl) fun n => ?_
    rw [setRolePositions_roleIds, mem_deleteRole_roleIds]
  | @reorder positions _ _ =>
    refine .of_ids ?_ (setRolePositions_roleIds ..)
    rw [hswap.perms, ← map_id_of_unplaced (withPositions_unplaced positions s.perms.roles)]
    exact (perm_sortByPosition _).map Role.id
  | grant hdb =>
    refine .of_ids ?_ (replaceMemberRoles_roleIds hdb)
    rw [hswap.perms]
    exact .refl _

theorem RoleOutcome.roleIds {next : PermState} {y : Shared × World}
    (h : RoleOutcome perform s w client nonce cmd next y)
    (hnew : ∀ name permissions, cmd = .create name permissions →
      ∃ role, next = createdPerms s.perms role ∧ ∀ id, RoleLive (s, w) id → id < role.id)
    (htop : ∀ id, cmd = .delete id → ∃ top, RoleLive (s, w) top ∧ id < top) : RoleIdsStep (s, w) y := by
  cases h with
  | unsaved => exact .of_ids (.refl _) rfl
  | halfCreated => exact .of_ids (.refl _) (setRolePositions_roleIds ..)
  | uncompacted hswap => exact hswap.deleted_ids (htop _ rfl) fun _ => mem_deleteRole_roleIds
  | saved hswap hw => exact hw.roleIds hswap hnew htop

end

theorem ChannelPasses.roleIds {s : Shared} {w : World} {client : ClientId} {nonce : UInt64} {cmd : ChannelCommand}
    {c : Change} (hp : ChannelPasses s client nonce cmd c) {db : Db} (hdb : c.call.perform w.db = some db)
    (f : UserInfo → List ServerControl) : RoleIdsStep (s, w) ((c.mem s).deliver f, { w with db }) := by
  refine .of_ids (.of_eq ?_) ?_
  · cases hp with
    | @delete id => exact congrArg (fun p : PermState => p.roles.map Role.id) (s.removeChannelMem_perms id)
    | _ => rfl
  · cases hp with
    | create =>
      obtain ⟨t, -, rfl⟩ := Option.map_eq_some_iff.mp hdb
      rfl
    | setOverwrite => cases hdb; rfl
    | deleteOverwrite => cases hdb; rfl
    | update => cases hdb; rfl
    | delete => cases hdb; rfl

/-! ## Every input -/

theorem Input.roleIds {t : Trace} {y : Shared × World} {i : Input} (hok : RoleIdsMoveOn t (.input i))
    (hst : FaultyStep t.now i y) : RoleIdsStep t.now y := by
  obtain ⟨⟨s, w⟩, past⟩ := t
  obtain ⟨perform, hf, rfl⟩ := hst
  have hban : ∀ b, Spares Db.roleIds (.insertBan b) := fun b db db' hdb => by cases hdb; rfl
  have hunban : ∀ f, Spares Db.roleIds (.deleteBan f) := fun f db db' hdb => by cases hdb; rfl
  have hmsg : ∀ m, Spares Db.roleIds (.insertMessage m) := by
    intro m db db' hdb
    obtain ⟨t, -, rfl⟩ := Option.map_eq_some_iff.mp hdb
    rfl
  have quiet := fun hi => by
    have hu := i.undisturbed hf hban hunban s w hi
    exact RoleIdsStep.of_ids (x := (s, w)) (.of_eq (by rw [hu.1.perms])) hu.2
  cases i with
  | control client frame =>
    rcases frame.kinds with ⟨nonce, cmd, rfl⟩ | ⟨nonce, cmd, rfl⟩ | hm | hp
    · rw [serve_role]
      unfold exec
      rcases RoleCommand.handle_cases (rfl : cmd.handle client nonce s = _) with
        ⟨hd, hr⟩ | ⟨a, next, save, ha, hs, hp, he⟩
      · rw [hd, Async.Task.run_done]
        exact .of_ids (.of_eq (by rw [hr.perms])) rfl
      · rw [he]
        have hacc : Accepted s client nonce cmd := ⟨hs, a, next, save, ha, hp⟩
        refine (hp.outcome hf w).roleIds (fun name permissions hc => ?_) fun id hc => ?_
        · subst hc
          cases hp with
          | create => exact ⟨_, rfl, fun id hid => lt_succ_maxOr0 (hok hacc) (roleLive_iff.mp hid)⟩
        · subst hc
          exact hok hacc
    · rw [serve_channel]
      rcases cmd.exec_cases hf s w client nonce with ⟨hr, hw⟩ | ⟨c, db, -, hp, hdb, he⟩
      · exact .of_ids (.of_eq (by rw [hr.perms])) (by rw [hw])
      · rw [he]
        exact hp.roleIds hdb _
    · exact quiet fun _ _ he => by cases he; exact .inr ⟨hmsg, hm⟩
    · exact quiet fun _ _ he => by cases he; exact .inl hp
  | connect => exact quiet fun _ _ he => nomatch he
  | voice => exact quiet fun _ _ he => nomatch he
  | disconnect => exact quiet fun _ _ he => nomatch he
  | tick => exact quiet fun _ _ he => nomatch he

/-! ## Restarts -/

theorem loadOrSeedChannels_roleIds {config : ServerConfig} {db db' : Db} {channels : List Channel}
    (h : loadOrSeedChannels config db = some (channels, db')) : db'.roleIds = db.roleIds := by
  have inserted : ∀ (l : List Channel) (db : Db), l.foldlM Db.insertChannel db = some db' →
      db'.roleIds = db.roleIds := by
    intro l
    induction l with
    | nil => intro db h; cases h; rfl
    | cons c l ih =>
      intro db h
      obtain ⟨db₁, h₁, h⟩ := Option.bind_eq_some_iff.mp h
      obtain ⟨t, -, rfl⟩ := Option.map_eq_some_iff.mp h₁
      have hids := ih _ h
      exact hids
  unfold loadOrSeedChannels at h
  split at h
  · obtain ⟨db₁, h₁, he⟩ := Option.map_eq_some_iff.mp h
    cases he
    exact inserted _ db h₁
  · cases h
    rfl

/-- The roles loaded are those of the rows, and an empty table is seeded. -/
theorem bind_roleIds {config : ServerConfig} {now : UInt64} {db : Db} {y : Shared × World}
    (h : Server.bind config now db = some (y.1, y.2.db)) : RolesFound db y := by
  obtain ⟨channels, db₁, roles, hc, hr, hperms, -⟩ := bind_some h
  have hids := loadOrSeedChannels_roleIds hc
  have hlive : ∀ id, RoleLive y id ↔ ∃ r ∈ roles, r.id = id := fun id => by unfold RoleLive; rw [hperms]
  unfold loadOrSeedRoles at hr
  split at hr
  · rename_i hempty
    obtain ⟨db₂, h₂, he⟩ := Option.map_eq_some_iff.mp hr
    cases he
    have hnil : db₁.roles.rows = [] := by
      have := congrArg List.length hempty
      simpa [Db.loadRoles] using this
    refine .seeded (by rw [← hids, Db.roleIds, hnil]; rfl) fun n => ?_
    rw [Db.roleIds, (insertRoles_rows h₂).1, hnil]
    simp [hlive, roleRow]
  · cases hr
    refine .loaded (fun id => ?_) hids
    rw [hlive, ← hids]
    simp [Db.loadRoles, Db.roleIds, rowToRole]

/-! ## The run -/

theorem RoleIdsSound.run_step {t t' : Trace} {e : Happening} (hok : RoleIdsMoveOn t e) (hst : RoleTraceStep t e t') :
    RoleIdsStep t.now t'.now := by
  obtain ⟨-, hst⟩ := hst
  cases e with
  | input i => exact Input.roleIds hok hst
  | restart config now => exact .restarted (bind_roleIds hst)

/-- In every run that never deletes the role with the highest id and does not
run out of ids: the next id is one no role had, and, where the rows found at the
start were written by a server, no id comes back. -/
theorem roleIds_moveOn {config : ServerConfig} {now : UInt64} {db db₀ : Db} {s₀ : Shared} {wire : List ServerControl}
    {t : Trace} (hb : Server.bind config now db = some (s₀, db₀))
    (hrun : Run RoleTraceStep RoleIdsMoveOn ⟨(s₀, ⟨db₀, wire⟩), []⟩ t) :
    NextRoleFresh t ∧ ((∀ n ∈ db.roleIds, ∃ id, Word.toColumn id = n) → RolesNeverBack t) := by
  have hfound : RolesFound db (s₀, ⟨db₀, wire⟩) := bind_roleIds hb
  have h₀ : RoleIdsSound ⟨(s₀, ⟨db₀, wire⟩), []⟩ := ⟨hfound.stored, fun z hz => by cases hz⟩
  have hsound : RoleIdsSound t := by
    refine hrun.invariant RoleIdsSound h₀ ?_
    intro t e t' hi hok hst
    have hstep := RoleIdsSound.run_step hok hst
    obtain ⟨now', past'⟩ := t'
    obtain ⟨rfl, -⟩ := hst
    exact hi.step hstep
  refine ⟨hsound.nextRoleFresh, fun hcanon => ?_⟩
  have hback : (RoleIdsSound t ∧ RoleIdsExact t.now) ∧ RolesNeverBack t := by
    refine hrun.invariant (fun t => (RoleIdsSound t ∧ RoleIdsExact t.now) ∧ RolesNeverBack t)
      ⟨⟨h₀, hfound.exact hcanon⟩, trivial⟩ ?_
    intro t e t' hi hok hst
    obtain ⟨⟨hi, hex⟩, -⟩ := hi
    have hstep := RoleIdsSound.run_step hok hst
    obtain ⟨now', past'⟩ := t'
    obtain ⟨rfl, -⟩ := hst
    exact ⟨⟨hi.step hstep, hex.step hstep⟩, fun id hid hnew => hi.fresh_step hex hstep hid hnew⟩
  exact hback.2

/-! ## An id handed out twice -/

theorem Trace.role_serve {ok : Trace → Happening → Prop} {t₀ t : Trace} (h : Run RoleTraceStep ok t₀ t) (i : Input)
    (hok : ok t (.input i)) : Run RoleTraceStep ok t₀ (t.serve i) :=
  .step (.input i) h hok ⟨rfl, Await.perform, Await.faulty, rfl⟩

def roleMade : Trace := (twoChannelsStart.serve ownerConnects).serve (.control 1 (.createRole 6 "ops" .none))

def roleDropped : Trace := roleMade.serve (.control 1 (.deleteRole 7 3))

def roleRemade : Trace := roleDropped.serve (.control 1 (.createRole 8 "guests" .none))

theorem roleMade_run {ok : Trace → Happening → Prop} (hconnect : ok twoChannelsStart (.input ownerConnects))
    (hcreate : ok (twoChannelsStart.serve ownerConnects) (.input (.control 1 (.createRole 6 "ops" .none)))) :
    Run RoleTraceStep ok twoChannelsStart roleMade := by
  apply Trace.role_serve
  · apply Trace.role_serve
    · exact .refl
    · exact hconnect
  · exact hcreate

/-- The new role has the id of the deleted one. -/
theorem roleId_reused :
    Server.bind ownedConfig 5 twoChannelsDb = some (twoChannelsStart.now.1, twoChannelsDb) ∧
      Run RoleTraceStep RoleIdsLast twoChannelsStart roleRemade ∧
      ¬ NextRoleFresh roleDropped ∧ ¬ RolesNeverBack roleRemade := by
  have hleft : RoleIdsLeft (twoChannelsStart.serve ownerConnects).now.1.perms ∧
      RoleIdsLeft roleDropped.now.1.perms := by
    unfold RoleIdsLeft
    decide +kernel
  have hguests : RoleLive roleMade.now (newRole roleDropped.now.1.perms "guests" .none).id ∧
      RoleLive roleMade.now 3 ∧ ¬ RoleLive roleDropped.now 3 ∧ RoleLive roleRemade.now 3 := by decide +kernel
  obtain ⟨hconnected, hdropped⟩ := hleft
  obtain ⟨hsame, hmade, hgone, hremade⟩ := hguests
  refine ⟨twoChannelsStart_bind, ?_, fun h => ?_, fun h => ?_⟩
  · apply Trace.role_serve
    · apply Trace.role_serve
      · exact roleMade_run trivial hconnected
      · trivial
    · exact hdropped
  · exact h hdropped "guests" .none roleMade.now (List.mem_cons_of_mem _ List.mem_cons_self) hsame
  · exact h 3 hremade hgone roleMade.now List.mem_cons_self hmade

/-- With two roles made, the lower one may go. -/
theorem roleIds_moveOn_create :
    let t := ((roleMade.serve (.control 1 (.createRole 8 "guests" .none))).serve (.control 1 (.deleteRole 7 3)))
    RoleLive t.now 4 ∧ ¬ RoleLive t.now 3 ∧ NextRoleFresh t ∧ RolesNeverBack t := by
  have hleft : RoleIdsLeft (twoChannelsStart.serve ownerConnects).now.1.perms ∧ RoleIdsLeft roleMade.now.1.perms := by
    unfold RoleIdsLeft
    decide +kernel
  have hroles : RoleLive (roleMade.serve (.control 1 (.createRole 8 "guests" .none))).now 4 ∧
      RoleLive ((roleMade.serve (.control 1 (.createRole 8 "guests" .none))).serve
        (.control 1 (.deleteRole 7 3))).now 4 ∧
      ¬ RoleLive ((roleMade.serve (.control 1 (.createRole 8 "guests" .none))).serve
        (.control 1 (.deleteRole 7 3))).now 3 := by decide +kernel
  obtain ⟨hhigher, hguests, hgone⟩ := hroles
  have hrun : Run RoleTraceStep RoleIdsMoveOn twoChannelsStart
      ((roleMade.serve (.control 1 (.createRole 8 "guests" .none))).serve (.control 1 (.deleteRole 7 3))) := by
    apply Trace.role_serve
    · apply Trace.role_serve
      · exact roleMade_run trivial fun _ => hleft.1
      · exact fun _ => hleft.2
    · exact fun _ => ⟨4, hhigher, by decide⟩
  obtain ⟨hfresh, hback⟩ := roleIds_moveOn twoChannelsStart_bind hrun
  refine ⟨hguests, hgone, hfresh, hback fun n hn => ?_⟩
  obtain ⟨row, hrow, rfl⟩ := List.mem_map.mp hn
  obtain ⟨r, -, rfl⟩ := List.mem_map.mp hrow
  exact ⟨r.id, rfl⟩

end PickleChat
