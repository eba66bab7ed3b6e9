import PickleChat.Delivery

/-!
# Role commands

The five commands that replace the permission snapshot, as one type, and what
each of them can do: be refused on the state it finds, or pass its checks and
go on to save and swap.
-/

namespace PickleChat

open Async (exec)

inductive RoleCommand where
  | create (name : String) (permissions : Permissions)
  | update (id : RoleId) (name : Option String) (color : Option (Option UInt32))
      (permissions : Option Permissions)
  | delete (id : RoleId)
  | reorder (positions : List (RoleId × UInt32))
  | grant (f : Fingerprint) (roles : List RoleId)

def RoleCommand.handle (client : ClientId) (nonce : UInt64) : RoleCommand → Handler
  | .create name permissions => createRole client nonce name permissions
  | .update id name color permissions => updateRole client nonce id name color permissions
  | .delete id => deleteRole client nonce id
  | .reorder positions => reorderRoles client nonce positions
  | .grant f roles => setMemberRoles client nonce f roles

def RoleCommand.frame (nonce : UInt64) : RoleCommand → ClientControl
  | .create name permissions => .createRole nonce name permissions
  | .update id name color permissions => .updateRole nonce id name color permissions
  | .delete id => .deleteRole nonce id
  | .reorder positions => .reorderRoles nonce positions
  | .grant f roles => .setMemberRoles nonce f roles

theorem RoleCommand.handle_eq (client : ClientId) (nonce : UInt64) (cmd : RoleCommand) :
    handleControl client (cmd.frame nonce) = cmd.handle client nonce := by cases cmd <;> rfl

/-- Among the frames queued for `client` from `s` to `s'` is the command's `Ack`. -/
def Acked (s s' : Shared) (client : ClientId) (nonce : UInt64) : Prop :=
  .ack nonce ∈ (s'.queue client).drop (s.queue client).length

instance (s s' : Shared) (client : ClientId) (nonce : UInt64) : Decidable (Acked s s' client nonce) :=
  inferInstanceAs (Decidable (_ ∈ _))

/-- Among the frames queued for `client` from `s` to `s'` is the command's `CommandFailed`. -/
def Failed (s s' : Shared) (client : ClientId) (nonce : UInt64) : Prop :=
  ∃ code detail, .commandFailed nonce code detail ∈ (s'.queue client).drop (s.queue client).length

theorem Shared.queue_of_map {s s' : Shared} {f : ConnectedClient → ConnectedClient}
    (hclients : s'.clients = s.clients.map f) (hf : ∀ e, (f e).id = e.id ∧ (f e).control = e.control) (k : ClientId) :
    s'.queue k = s.queue k := by
  have h : s'.client? k = (s.client? k).map f := by
    unfold Shared.client?
    rw [hclients]
    exact Keyed.get_map (fun e => (hf e).1) k s.clients
  unfold Shared.queue
  rw [h, Option.map_map]
  exact congrArg (fun o => Option.getD o []) (congrArg (Option.map · _) (funext fun e => (hf e).2))

theorem not_failed_deliver {s t : Shared} {f : UserInfo → List ServerControl} (hq : ∀ k, t.queue k = s.queue k)
    (hf : ∀ i nonce code detail, .commandFailed nonce code detail ∉ f i) (k : ClientId) (nonce : UInt64) :
    ¬ Failed s (t.deliver f) k nonce := by
  rintro ⟨code, detail, hm⟩
  rw [Shared.queue_deliver, hq, List.drop_left] at hm
  cases he : t.client? k with
  | none => rw [he] at hm; cases hm
  | some e => rw [he] at hm; exact hf _ _ _ _ hm

/-- Nothing happened but, at most, a refusal. -/
def Refused (s : Shared) (client : ClientId) (s' : Shared) : Prop :=
  s' = s ∨ ∃ nonce code detail, s' = refuse s client nonce code detail

theorem Refused.perms {s s' : Shared} {client : ClientId} (h : Refused s client s') : s'.perms = s.perms := by
  rcases h with rfl | ⟨_, _, _, rfl⟩
  · rfl
  · simp [refuse_eq]

theorem Refused.not_acked {s s' : Shared} {client : ClientId} (h : Refused s client s') (nonce : UInt64) :
    ¬ Acked s s' client nonce := by
  unfold Acked
  rcases h with rfl | ⟨_, _, _, rfl⟩
  · simp
  · simp only [refuse_eq, Shared.queue_deliver, List.drop_left]
    cases he : s.client? client with
    | none => simp
    | some e => simp [Shared.client?_id he]

theorem Refused.refuse (s : Shared) (client : ClientId) (nonce : UInt64) (code : ErrorCode) (detail : String) :
    Refused s client (PickleChat.refuse s client nonce code detail) := .inr ⟨_, _, _, rfl⟩

/-! ## Saving -/

section
variable (perform : (op : Await) → World → op.Reply × World)

theorem run_onSaved (call : StoreWrite) (failed : Shared → Shared) (saved : Handler) (s : Shared) (w : World) :
    (onSaved call failed saved).run perform s w =
      if (perform (.save call) w).1 then (saved s).2.run perform (saved s).1 (perform (.save call) w).2
      else (failed s, (perform (.save call) w).2) := by
  unfold onSaved
  rw [Async.Task.run_wait]
  split <;> rfl

theorem run_onWritten (call : StoreWrite) (k : Handler) (s : Shared) (w : World) :
    (onWritten call k).run perform s w = (k s).2.run perform (k s).1 (perform (.save call) w).2 := rfl

end

/-! ## What passes the checks -/

def updatedPerms (p : PermState) (updated : Role) : PermState :=
  { p with roles := Keyed.modifyFirst Role.id updated.id (fun _ => updated) p.roles }

def reorderedPerms (p : PermState) (positions : List (RoleId × UInt32)) : PermState :=
  { p with roles := sortByPosition (withPositions positions p.roles) }

/-- The checks of a command of `a` on `s` pass: what it will swap in, and what
it still has to do. -/
inductive Passes (s : Shared) (client : ClientId) (nonce : UInt64) (a : Actor) : RoleCommand → PermState → Todo → Prop
  | create {name : String} {permissions : Permissions} :
      Text.trim name ≠ "" → a.mayGrant (permissions.intersect .all) = true →
      Passes s client nonce a (.create name permissions)
        (createdPerms s.perms (newRole s.perms (Text.trim name) (permissions.intersect .all)))
        (createRoleSave client nonce s.perms (newRole s.perms (Text.trim name) (permissions.intersect .all)))
  | update {id : RoleId} {name : Option String} {color : Option (Option UInt32)}
      {permissions : Option Permissions} {existing updated : Role} :
      Keyed.get Role.id id s.perms.roles = some existing →
      canManageRole s.perms.roles a.roles a.owner id = true →
      ¬ (id = everyoneRoleId ∧ name.isSome = true) →
      editedRole a existing name color permissions = .ok updated →
      Passes s client nonce a (.update id name color permissions)
        (updatedPerms s.perms updated)
        (updateRoleSave client nonce s.perms s.visibleIdsByClient updated)
  | delete {id : RoleId} :
      id ≠ everyoneRoleId → (∃ r ∈ s.perms.roles, r.id = id) →
      canManageRole s.perms.roles a.roles a.owner id = true →
      Passes s client nonce a (.delete id) (deletedPerms s.perms id)
        (deleteRoleSave client nonce s.perms s.visibleIdsByClient id)
  | reorder {positions : List (RoleId × UInt32)} :
      densePermutation s.perms.roles positions = true →
      (∀ p ∈ positions, p.1 = everyoneRoleId → p.2 = 0) →
      (a.owner = false → ∀ p ∈ positions,
        movesAbove s.perms.roles (topRolePosition s.perms.roles a.roles) p = false) →
      Passes s client nonce a (.reorder positions)
        (reorderedPerms s.perms positions)
        (reorderRolesSave client nonce s.perms positions)
  | grant {f : Fingerprint} {roles : List RoleId} :
      everyoneRoleId ∉ roles → (∀ id ∈ roles, ∃ r ∈ s.perms.roles, r.id = id) →
      (s.isOwner f = true → a.owner = true) →
      (∀ role ∈ changedRoles (s.perms.grants f) roles,
        canManageRole s.perms.roles a.roles a.owner role = true) →
      Passes s client nonce a (.grant f roles) (grantedPerms s.perms f roles)
        (setMemberRolesSave client nonce s.perms s.visibleIdsByClient f roles)

/-- The command passes the checks it makes before its first store call. -/
def Accepted (s : Shared) (client : ClientId) (nonce : UInt64) (cmd : RoleCommand) : Prop :=
  s.store = true ∧ ∃ a next save, actor s client nonce = .ok a ∧ Passes s client nonce a cmd next save

theorem actor_error {s s' : Shared} {client : ClientId} {nonce : UInt64} (h : actor s client nonce = .error s') :
    Refused s client s' := by
  unfold actor at h
  split at h
  · cases h; exact .refuse ..
  · split at h
    · cases h; exact .inl rfl
    · cases h

/-- Who the actor is: connected, allowed to manage roles, standing as the snapshot says. -/
theorem actor_ok {s : Shared} {client : ClientId} {nonce : UInt64} {a : Actor} (h : actor s client nonce = .ok a) :
    s.canGlobally client .manageRoles = true ∧ ∃ e, s.client? client = some e ∧
      a = { roles := s.perms.grants e.info.fingerprint, owner := s.isOwner e.info.fingerprint,
            base := resolve s.perms.roles (s.perms.grants e.info.fingerprint) e.info.fingerprint
              (s.isOwner e.info.fingerprint) none } := by
  unfold actor at h
  split at h
  · cases h
  · rename_i hcan
    split at h
    · cases h
    · rename_i f hf
      obtain ⟨e, he, rfl⟩ := Option.map_eq_some_iff.mp hf
      exact ⟨by simpa using hcan, e, he, (Except.ok.inj h).symm⟩

theorem RoleCommand.handle_cases {s : Shared} {client : ClientId} {nonce : UInt64} {cmd : RoleCommand}
    {r : Shared × Todo} (hr : cmd.handle client nonce s = r) :
    (r.2 = .done ∧ Refused s client r.1) ∨
      ∃ a next save, actor s client nonce = .ok a ∧ s.store = true ∧ Passes s client nonce a cmd next save ∧
        r = (s, save) := by
  cases ha : actor s client nonce with
  | error s' =>
    refine .inl ?_
    cases cmd <;>
      simp only [handle, createRole, updateRole, deleteRole, reorderRoles, setMemberRoles, ha] at hr <;>
      subst hr <;> exact ⟨rfl, actor_error ha⟩
  | ok a =>
    cases cmd with
    | create name permissions =>
      simp only [handle, createRole, ha] at hr
      split at hr; · subst hr; exact .inl ⟨rfl, .refuse ..⟩
      split at hr; · subst hr; exact .inl ⟨rfl, .refuse ..⟩
      split at hr; · subst hr; exact .inl ⟨rfl, .refuse ..⟩
      exact .inr ⟨a, _, _, rfl, by simp_all, .create ‹_› (by simp_all), hr.symm⟩
    | update id name color permissions =>
      simp only [handle, updateRole, ha] at hr
      split at hr; · subst hr; exact .inl ⟨rfl, .refuse ..⟩
      split at hr; · subst hr; exact .inl ⟨rfl, .refuse ..⟩
      split at hr; · subst hr; exact .inl ⟨rfl, .refuse ..⟩
      split at hr; · subst hr; exact .inl ⟨rfl, .refuse ..⟩
      split at hr; · subst hr; exact .inl ⟨rfl, .refuse ..⟩
      exact .inr ⟨a, _, _, rfl, by simp_all, .update ‹_› (by simp_all) ‹_› ‹_›, hr.symm⟩
    | delete id =>
      simp only [handle, deleteRole, ha] at hr
      split at hr; · subst hr; exact .inl ⟨rfl, .refuse ..⟩
      split at hr; · subst hr; exact .inl ⟨rfl, .refuse ..⟩
      split at hr; · subst hr; exact .inl ⟨rfl, .refuse ..⟩
      split at hr; · subst hr; exact .inl ⟨rfl, .refuse ..⟩
      exact .inr ⟨a, _, _, rfl, by simp_all, .delete ‹_› (by simp_all) (by simp_all), hr.symm⟩
    | reorder positions =>
      simp only [handle, reorderRoles, ha] at hr
      split at hr; · subst hr; exact .inl ⟨rfl, .refuse ..⟩
      split at hr; · subst hr; exact .inl ⟨rfl, .refuse ..⟩
      rename_i hev
      have hev : ∀ p ∈ positions, p.1 = everyoneRoleId → p.2 = 0 := by
        simp only [List.any_eq_true, decide_eq_true_eq, not_exists, not_and, not_not] at hev
        exact hev
      split at hr; · subst hr; exact .inl ⟨rfl, .refuse ..⟩
      split at hr; · subst hr; exact .inl ⟨rfl, .refuse ..⟩
      exact .inr ⟨a, _, _, rfl, by simp_all, .reorder (by simp_all) hev (by simp_all), hr.symm⟩
    | grant f roles =>
      simp only [handle, setMemberRoles, ha] at hr
      split at hr; · subst hr; exact .inl ⟨rfl, .refuse ..⟩
      split at hr; · subst hr; exact .inl ⟨rfl, .refuse ..⟩
      split at hr; · subst hr; exact .inl ⟨rfl, .refuse ..⟩
      split at hr; · subst hr; exact .inl ⟨rfl, .refuse ..⟩
      split at hr; · subst hr; exact .inl ⟨rfl, .refuse ..⟩
      exact .inr ⟨a, _, _, rfl, by simp_all, .grant ‹_› (by simp_all) (by simp_all) (by simp_all), hr.symm⟩

/-! ## What is swapped in -/

section
variable (s : Shared) (client : ClientId) (nonce : UInt64) (p : PermState) (before : List (ClientId × List ChannelId))

theorem createRoleSwap_eq (role : Role) :
    createRoleSwap s client nonce p role = (s.swapPermState (createdPerms p role)).deliver fun i =>
      [.roleCreated role, .rolesReordered (ordering (createdPerms p role).roles)] ++ acks client nonce i := by
  simp [createRoleSwap, Shared.broadcast_none, ack_eq]

theorem updateRoleSwap_eq (updated : Role) :
    updateRoleSwap s client nonce p before updated =
      (s.swapPermState (updatedPerms p updated)).deliver fun i =>
        [.roleUpdated updated] ++ (s.swapPermState (updatedPerms p updated)).resync before [] i ++
          acks client nonce i := by
  simp only [updateRoleSwap, Shared.broadcast_none, ack_eq, Shared.resyncVisibility_eq, Shared.deliver_deliver,
    Shared.deliver_resync]
  rfl

def Shared.withoutRole (s : Shared) (p : PermState) (id : RoleId) : Shared :=
  (((s.swapPermState (deletedPerms p id)).stripRoleOverwrites id).2.stripLiveRole id).2

theorem deleteRoleSwap_eq (id : RoleId) :
    deleteRoleSwap s client nonce p before id = (s.withoutRole p id).deliver fun i =>
      [.roleDeleted id, .rolesReordered (ordering (deletedPerms p id).roles)] ++
        (s.stripLiveRole id).1.map .userUpdated ++
        (s.withoutRole p id).resync before (s.stripRoleOverwrites id).1 i ++ acks client nonce i := by
  simp only [deleteRoleSwap, Shared.broadcast_none, ack_eq, Shared.resyncVisibility_eq, announceUsers_eq,
    Shared.deliver_deliver, Shared.deliver_resync]
  rfl

theorem reorderRolesSwap_eq (positions : List (RoleId × UInt32)) :
    reorderRolesSwap s client nonce p positions = (s.swapPermState (reorderedPerms p positions)).deliver fun i =>
      [.rolesReordered positions] ++ acks client nonce i := by
  simp only [reorderRolesSwap, Shared.broadcast_none, ack_eq, Shared.deliver_deliver]
  rfl

def Shared.withGrants (s : Shared) (p : PermState) (f : Fingerprint) (roles : List RoleId) : Shared :=
  ((s.swapPermState (grantedPerms p f roles)).updateLiveMemberRoles f roles).2

theorem setMemberRolesSwap_eq (f : Fingerprint) (roles : List RoleId) :
    setMemberRolesSwap s client nonce p before f roles = (s.withGrants p f roles).deliver fun i =>
      (s.updateLiveMemberRoles f roles).1.map .userUpdated ++ (s.withGrants p f roles).resync before [] i ++
        acks client nonce i := by
  simp only [setMemberRolesSwap, ack_eq, Shared.resyncVisibility_eq, announceUsers_eq, Shared.deliver_deliver,
    Shared.deliver_resync]
  rfl

end

/-- What role commands leave alone: who is connected as whom, who owns the server. -/
structure SameSessions (s s' : Shared) : Prop where
  owner : s'.owner = s.owner
  fingerprint : ∀ k, s'.fingerprintOf k = s.fingerprintOf k

theorem SameSessions.refl (s : Shared) : SameSessions s s := ⟨rfl, fun _ => rfl⟩

theorem SameSessions.deliver {s s' : Shared} (h : SameSessions s s') (f : UserInfo → List ServerControl) :
    SameSessions s (s'.deliver f) := ⟨h.owner, fun k => (Shared.deliver_fingerprintOf ..).trans (h.fingerprint k)⟩

theorem SameSessions.of_map {s s' : Shared} {f : ConnectedClient → ConnectedClient} (howner : s'.owner = s.owner)
    (hclients : s'.clients = s.clients.map f)
    (hf : ∀ e, (f e).id = e.id ∧ (f e).info.fingerprint = e.info.fingerprint) : SameSessions s s' := by
  refine ⟨howner, fun k => ?_⟩
  have h : s'.client? k = (s.client? k).map f := by
    unfold Shared.client?
    rw [hclients]
    exact Keyed.get_map (fun e => (hf e).1) k s.clients
  unfold Shared.fingerprintOf
  rw [h, Option.map_map]
  exact congrArg (Option.map · _) (funext fun e => (hf e).2)

theorem swap_sessions (s : Shared) (p : PermState) : SameSessions s (s.swapPermState p) := ⟨rfl, fun _ => rfl⟩

theorem withoutRole_sessions (s : Shared) (p : PermState) (id : RoleId) : SameSessions s (s.withoutRole p id) :=
  .of_map rfl rfl fun e => by split <;> exact ⟨rfl, rfl⟩

theorem withGrants_sessions (s : Shared) (p : PermState) (f : Fingerprint) (roles : List RoleId) :
    SameSessions s (s.withGrants p f roles) :=
  .of_map rfl rfl fun e => by split <;> exact ⟨rfl, rfl⟩

theorem Refused.sessions {s s' : Shared} {client : ClientId} (h : Refused s client s') : SameSessions s s' := by
  rcases h with rfl | ⟨_, _, _, rfl⟩
  · exact .refl s'
  · rw [refuse_eq]; exact (SameSessions.refl s).deliver _

section
variable {perform : (op : Await) → World → op.Reply × World} {s : Shared} {client : ClientId} {nonce : UInt64}
  {cmd : RoleCommand}

/-- Whatever the store answers and whatever state it resumes on, the rest of a
command ends in a refusal or with the new snapshot swapped in. -/
theorem Passes.run {a : Actor} {next : PermState} {save : Todo} (h : Passes s client nonce a cmd next save)
    (t : Shared) (w : World) :
    Refused t client (save.run perform t w).1 ∨
      ((save.run perform t w).1.perms = next ∧ SameSessions t (save.run perform t w).1) := by
  cases h with
  | create =>
    unfold createRoleSave
    simp only [run_onSaved]
    split; swap; · exact .inl (.refuse ..)
    split; swap; · exact .inl (.refuse ..)
    simp only [Async.Task.run_done, createRoleSwap_eq]
    exact .inr ⟨rfl, (swap_sessions ..).deliver _⟩
  | update =>
    unfold updateRoleSave
    simp only [run_onSaved]
    split; swap; · exact .inl (.refuse ..)
    simp only [Async.Task.run_done, updateRoleSwap_eq]
    exact .inr ⟨rfl, (swap_sessions ..).deliver _⟩
  | delete =>
    unfold deleteRoleSave
    simp only [run_onSaved, run_onWritten]
    split; swap; · exact .inl (.refuse ..)
    simp only [Async.Task.run_done, deleteRoleSwap_eq]
    exact .inr ⟨rfl, (withoutRole_sessions ..).deliver _⟩
  | reorder =>
    unfold reorderRolesSave
    simp only [run_onSaved]
    split; swap; · exact .inl (.refuse ..)
    simp only [Async.Task.run_done, reorderRolesSwap_eq]
    exact .inr ⟨rfl, (swap_sessions ..).deliver _⟩
  | grant =>
    unfold setMemberRolesSave
    simp only [run_onSaved]
    split; swap; · exact .inl (.refuse ..)
    simp only [Async.Task.run_done, setMemberRolesSwap_eq]
    exact .inr ⟨rfl, (withGrants_sessions ..).deliver _⟩

theorem RoleCommand.acked {w : World} (h : Acked s (exec perform (cmd.handle client nonce) s w).1 client nonce) :
    ∃ a next save, actor s client nonce = .ok a ∧ s.store = true ∧ Passes s client nonce a cmd next save ∧
      (exec perform (cmd.handle client nonce) s w).1.perms = next ∧
      SameSessions s (exec perform (cmd.handle client nonce) s w).1 := by
  unfold exec at h ⊢
  rcases handle_cases (rfl : cmd.handle client nonce s = _) with ⟨hd, hr⟩ | ⟨a, next, save, ha, hs, hp, he⟩
  · rw [hd] at h
    exact absurd h (hr.not_acked nonce)
  · rw [he] at h ⊢
    rcases hp.run s w with hr | ⟨hn, hsame⟩
    · exact absurd h (hr.not_acked nonce)
    · exact ⟨a, next, save, ha, hs, hp, hn, hsame⟩

end

/-! ## A manager, for examples -/

/-- Client 1 manages roles; below its own role stands one that bans. -/
def managerServer : Shared :=
  exampleServer [exampleRole 0 0 .defaultEveryone, exampleRole 1 1 .banMembers, exampleRole 2 2 .manageRoles] []
    [exampleClient 1 1 [2] none]

def managerWorld : World :=
  ⟨{ Db.empty with
      roles := ⟨[exampleRole 0 0 .defaultEveryone, exampleRole 1 1 .banMembers,
        exampleRole 2 2 .manageRoles].map roleRow, by decide⟩
      roleMembers := ⟨[memberRow (.rep 1) 2], by decide⟩ }, []⟩

end PickleChat
