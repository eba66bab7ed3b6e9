import PickleChat.ChannelRuns
import PickleChat.Grants
import PickleChat.Mirrors

/-!
# Every client renders what the server enforces

Inputs handled one after another, any operation failing, and restarts. The
mirror of a connected client is up to date after every input: a role command
sends its news and then what it changed for users and channels, a channel
command what it changed for channels, and every other input what is so.
-/

namespace PickleChat

open Async (Run exec)

/-! ## Commands -/

theorem tells_acks {t : Shared} {j : UserInfo} {client : ClientId} {nonce : UInt64} :
    ∀ m ∈ acks client nonce j, t.Tells j m := by
  intro m hm
  unfold acks at hm
  split at hm
  · rw [List.mem_singleton.mp hm]
    trivial
  · cases hm

section
variable {hello : ServerHello} {s t : Shared} {wire : List ServerControl}

/-- What a command does to the entries of clients: the entry stays the same client's,
its queue as it was. -/
structure Recast (s t : Shared) (g : ConnectedClient → ConnectedClient) : Prop where
  clients : t.clients = s.clients.map g
  id : ∀ e, (g e).id = e.id
  fingerprint : ∀ e, (g e).info.fingerprint = e.info.fingerprint
  owner : ∀ e, (g e).info.owner = e.info.owner
  control : ∀ e, (g e).control = e.control

theorem Recast.client? {g : ConnectedClient → ConnectedClient} (h : Recast s t g) (k : ClientId) :
    t.client? k = (s.client? k).map g := by
  unfold Shared.client?
  rw [h.clients]
  exact Keyed.get_map h.id k s.clients

theorem Recast.tells {g : ConnectedClient → ConnectedClient} (h : Recast s t g)
    (hu : Keyed.Unique ConnectedClient.id s.clients) {e : ConnectedClient} (he : e ∈ s.clients) (i : UserInfo) :
    t.Tells i (.userUpdated (g e).info) := by
  have hget : s.client? (g e).info.clientId = some e := by
    rw [show (g e).info.clientId = e.id from h.id e]
    exact Keyed.get_of_mem hu he
  change (t.client? (g e).info.clientId).map ConnectedClient.info = some (g e).info
  rw [h.client?, hget]
  rfl

/-- A command brings the mirrors up to date if everyone is told its news, and after
that what is so, all that changed for them included. -/
theorem Shown.changed (h : Shown hello s wire) (hc : Coherent t) {g : ConnectedClient → ConnectedClient}
    (hg : Recast s t g) {news : List ServerControl} (hnews : ∀ m ∈ news, m.aboutRoles = true)
    (hroles : ∀ p : PermMirror, p.HasRoles s.perms.roles → (p.read news).HasRoles t.perms.roles)
    {rest : UserInfo → List ServerControl}
    (htells : ∀ k e, s.client? k = some e → ∀ m ∈ rest (g e).info, t.Tells (g e).info m)
    (husers : ∀ k e, s.client? k = some e → (∀ i, .userUpdated (g e).info ∈ rest i) ∨ SameStanding e.info (g e).info ∧
      ∀ p : PermMirror, p.myRoles = e.info.roles → (p.read news).myRoles = e.info.roles)
    (hchannels : ∀ k e, s.client? k = some e → ∀ id, s.view e.info id = t.view (g e).info id ∨
      ∃ m ∈ rest (g e).info, ∃ a, m.update? = some (id, a)) :
    Shown hello (t.deliver fun i => news ++ rest i) wire := by
  refine h.step (hc.deliver _) news hnews hroles fun k e' he' => ?_
  rw [Shared.deliver_client?, hg.client?] at he'
  obtain ⟨e₁, he₁, rfl⟩ := Option.map_eq_some_iff.mp he'
  obtain ⟨e, he, rfl⟩ := Option.map_eq_some_iff.mp he₁
  refine ⟨e, rest (g e).info, he, hg.id e, hg.fingerprint e, hg.owner e, ?_, ?_, ?_, hchannels k e he, ?_⟩
  · exact congrArg (· ++ (news ++ rest (g e).info)) (hg.control e)
  · exact fun m hm => (htells k e he m hm).deliver _
  · intro p hp
    rcases husers k e he with hsaid | ⟨hsame, hkept⟩
    · exact .inr (hsaid _)
    · exact .inl ((hkept p hp).trans hsame.roles.symm)
  · intro k' u hu
    rw [user_deliver, Shared.user, hg.client?, Option.map_map] at hu
    obtain ⟨e₂, he₂, rfl⟩ := Option.map_eq_some_iff.mp hu
    rcases husers k' e₂ he₂ with hsaid | ⟨hsame, -⟩
    · have hid : (g e₂).info.clientId = k' := (hg.id e₂).trans (Shared.client?_id he₂)
      exact .inr ⟨_, hsaid _, _, congrArg (fun k => some (k, some (PermMirror.standing (g e₂).info).2)) hid⟩
    · exact .inl ⟨e₂.info, Option.map_eq_some_iff.mpr ⟨e₂, he₂, rfl⟩, hsame⟩

/-- A command that ends in a resync. -/
theorem Shown.resynced (h : Shown hello s wire) (hc : Coherent t) {g : ConnectedClient → ConnectedClient}
    (hg : Recast s t g) (hrooms : Keyed.Unique Channel.id s.channels) (hrooms' : Keyed.Unique Channel.id t.channels)
    {news : List ServerControl} (hnews : ∀ m ∈ news, m.aboutRoles = true)
    (hroles : ∀ p : PermMirror, p.HasRoles s.perms.roles → (p.read news).HasRoles t.perms.roles)
    {told : List ServerControl} (htold : ∀ i, ∀ m ∈ told, t.Tells i m)
    (husers : ∀ k e, s.client? k = some e → .userUpdated (g e).info ∈ told ∨ SameStanding e.info (g e).info ∧
      ∀ p : PermMirror, p.myRoles = e.info.roles → (p.read news).myRoles = e.info.roles)
    {touched : List ChannelId}
    (hkept : ∀ id c c', s.channel id = some c → t.channel id = some c' → c' = c ∨ id ∈ touched)
    (client : ClientId) (nonce : UInt64) :
    Shown hello (t.deliver fun i =>
      news ++ told ++ t.resync s.visibleIdsByClient touched i ++ acks client nonce i) wire := by
  have hids := h.coherent.ids
  have hmoved : ∀ k e, s.client? k = some e → t.client? k = some (g e) := fun k e he => by rw [hg.client?, he]; rfl
  simp only [List.append_assoc]
  refine h.changed hc hg hnews hroles ?_ ?_ ?_
  · intro k e he m hm
    rcases List.mem_append.mp hm with hm | hm
    · exact htold _ m hm
    · rcases List.mem_append.mp hm with hm | hm
      · exact Shared.resync_tells hids he (hmoved k e he) touched hrooms' m hm
      · exact tells_acks m hm
  · exact fun k e he => (husers k e he).imp_left fun hsaid i => List.mem_append_left _ hsaid
  · intro k e he id
    refine (Shared.resync_names hids he (hmoved k e he) touched hrooms' hrooms hkept id).imp_right ?_
    rintro ⟨m, hm, hu⟩
    exact ⟨m, List.mem_append_right _ (List.mem_append_left _ hm), hu⟩

end

/-! ## Role commands -/

/-- What a client sees depends on the bits of the roles it holds. -/
theorem Shared.view_swap {s : Shared} {next : PermState} {i : UserInfo}
    (hr : ∀ role, role = everyoneRoleId ∨ role ∈ i.roles →
      rolePermissions next.roles role = rolePermissions s.perms.roles role) (id : ChannelId) :
    s.view i id = (s.swapPermState next).view i id := by
  have hbase : basePermissions s.perms.roles i.roles = basePermissions next.roles i.roles := by
    apply Permissions.ext_has
    intro b
    have hany : (i.roles.any fun role => (rolePermissions s.perms.roles role).has b) =
        i.roles.any fun role => (rolePermissions next.roles role).has b := by
      rw [Bool.eq_iff_iff, List.any_eq_true, List.any_eq_true]
      exact exists_congr fun role => and_congr_right fun hrole => by rw [hr role (.inr hrole)]
    rw [has_base, has_base, hr _ (.inl rfl), hany]
  have hviews : ∀ c, s.views i c = (s.swapPermState next).views i c := by
    intro c
    unfold views bits
    rw [show (s.swapPermState next).perms = next from rfl]
    cases i.owner with
    | true => rw [resolve_owner, resolve_owner]
    | false => rw [resolve_some, resolve_some, hbase]
  unfold view
  rw [show s.views i = (s.swapPermState next).views i from funext hviews]
  rfl

theorem Recast.swap (s : Shared) (next : PermState) : Recast s (s.swapPermState next) fun e => e :=
  ⟨(List.map_id' _).symm, fun _ => rfl, fun _ => rfl, fun _ => rfl, fun _ => rfl⟩

/-- Some of the clients are edited; `infos` is what they are then. -/
theorem Recast.edited {s t : Shared} {P : ConnectedClient → Prop} [DecidablePred P] (f : UserInfo → UserInfo)
    (hf : ∀ i, (f i).clientId = i.clientId ∧ (f i).fingerprint = i.fingerprint ∧ (f i).owner = i.owner)
    (ht : t.clients = s.clients.map fun e => if P e then { e with info := f e.info } else e) {infos : List UserInfo}
    (hi : infos = (s.clients.filter P).map fun e => f e.info) :
    ∃ g, Recast s t g ∧ (∀ u ∈ infos, ∃ e ∈ s.clients, (g e).info = u) ∧
      ∀ e ∈ s.clients, (g e).info ∈ infos ∨ ¬ P e ∧ g e = e := by
  refine ⟨_, ⟨ht, fun e => ?_, fun e => ?_, fun e => ?_, fun e => ?_⟩, fun u hu => ?_, fun e he => ?_⟩
  · split
    · exact (hf e.info).1
    · rfl
  · split
    · exact (hf e.info).2.1
    · rfl
  · split
    · exact (hf e.info).2.2
    · rfl
  · split <;> rfl
  · rw [hi] at hu
    obtain ⟨e, he, rfl⟩ := List.mem_map.mp hu
    obtain ⟨he, hp⟩ := List.mem_filter.mp he
    exact ⟨e, he, by rw [if_pos (of_decide_eq_true hp)]⟩
  · by_cases hp : P e
    · rw [if_pos hp, hi]
      exact .inl (List.mem_map.mpr ⟨e, List.mem_filter.mpr ⟨he, decide_eq_true hp⟩, rfl⟩)
    · exact .inr ⟨hp, if_neg hp⟩

/-- Stripping a role's overwrites touches the channels that name it. -/
theorem stripRoleOverwrites_kept (s : Shared) (role : RoleId) (id : ChannelId) (c c' : Channel)
    (hc : s.channel id = some c) (hc' : (s.stripRoleOverwrites role).2.channel id = some c') :
    c' = c ∨ id ∈ (s.stripRoleOverwrites role).1 := by
  have hget : (Keyed.get Channel.id id s.channels).map _ = some c' :=
    (Keyed.get_map (fun c => by split <;> rfl) id s.channels).symm.trans hc'
  rw [show Keyed.get Channel.id id s.channels = some c from hc] at hget
  obtain rfl := Option.some.inj hget
  dsimp only
  split
  · exact .inr (List.mem_map.mpr ⟨c, List.mem_filter.mpr ⟨Keyed.get_mem hc, ‹_›⟩, Keyed.get_key hc⟩)
  · exact .inl rfl

section
variable {hello : ServerHello} {s : Shared} {wire : List ServerControl} (h : Shown hello s wire)
include h

theorem Shown.roleCreated {role : Role} (hids : s.perms.roleIds.Nodup) (hfresh : role.id ∉ s.perms.roleIds)
    (heveryone : everyoneRoleId ∈ s.perms.roleIds) (hgranted : ∀ f, ∀ id ∈ s.perms.grants f, id ∈ s.perms.roleIds)
    (client : ClientId) (nonce : UInt64) : Shown hello (createRoleSwap s client nonce s.perms role) wire := by
  rw [createRoleSwap_eq]
  have hu : Keyed.Unique Role.id (createdPerms s.perms role).roles :=
    (created_ids s.perms role).nodup_iff.mpr (List.nodup_cons.mpr ⟨hfresh, hids⟩)
  have hnew : ∀ r ∈ s.perms.roles, r.id ≠ role.id := fun r hr he => hfresh (List.mem_map.mpr ⟨r, hr, he⟩)
  have hc : Coherent (s.swapPermState (createdPerms s.perms role)) := h.coherent.swap fun _ => rfl
  have hnews : ∀ m ∈ [ServerControl.roleCreated role, .rolesReordered (ordering (createdPerms s.perms role).roles)],
      m.aboutRoles = true := by simp [ServerControl.aboutRoles]
  refine h.changed hc (.swap s _) hnews (fun p hp => hp.created hu hnew) (fun _ _ _ => tells_acks)
    (fun k e _ => .inr ⟨.refl _, fun p hp => hp⟩) fun k e he id => .inl (Shared.view_swap (fun id hid => ?_) id)
  -- Nobody holds the new role yet.
  have hin : id ∈ s.perms.roleIds := by
    rcases hid with rfl | hid
    · exact heveryone
    · rw [h.coherent.roles e (Keyed.get_mem he)] at hid
      exact hgranted _ id hid
  refine (rolePermissions_created hids role id).resolve_right ?_
  rintro ⟨rfl, -⟩
  exact hfresh hin

theorem Shown.rolesReordered {positions : List (RoleId × UInt32)} (hids : s.perms.roleIds.Nodup)
    (hp : Keyed.Unique Prod.fst positions) (client : ClientId) (nonce : UInt64) :
    Shown hello (reorderRolesSwap s client nonce s.perms positions) wire := by
  rw [reorderRolesSwap_eq]
  have hc : Coherent (s.swapPermState (reorderedPerms s.perms positions)) := h.coherent.swap fun _ => rfl
  have hnews : ∀ m ∈ [ServerControl.rolesReordered positions], m.aboutRoles = true := by simp [ServerControl.aboutRoles]
  refine h.changed hc (.swap s _) hnews (fun p hroles => ?_) (fun _ _ _ => tells_acks)
    (fun k e _ => .inr ⟨.refl _, fun p hp => hp⟩) fun k e he id => .inl (Shared.view_swap (fun id _ => ?_) id)
  · obtain ⟨hids, hmem⟩ := hroles.reordered hp
    exact ⟨hids, fun r => (hmem r).trans mem_sortByPosition.symm⟩
  · exact (rolePermissions_sort (unique_withPositions hids positions) id).trans
      (rolePermissions_of_unplaced (withPositions_unplaced _ _) id)

theorem Shown.roleUpdated (hids : s.perms.roleIds.Nodup) (hrooms : Keyed.Unique Channel.id s.channels)
    {existing updated : Role} (hget : Keyed.get Role.id updated.id s.perms.roles = some existing) (client : ClientId)
    (nonce : UInt64) :
    Shown hello (updateRoleSwap s client nonce s.perms s.visibleIdsByClient updated) wire := by
  rw [updateRoleSwap_eq]
  have hc : Coherent (s.swapPermState (updatedPerms s.perms updated)) := h.coherent.swap fun _ => rfl
  have hnews : ∀ m ∈ [ServerControl.roleUpdated updated], m.aboutRoles = true := by simp [ServerControl.aboutRoles]
  have htold : ∀ i, ∀ m ∈ ([] : List ServerControl),
      (s.swapPermState (updatedPerms s.perms updated)).Tells i m := by simp
  exact h.resynced hc (.swap s _) hrooms hrooms hnews (fun p hp => hp.updated hids hget) htold
    (fun k e _ => .inr ⟨.refl _, fun p hp => hp⟩) (fun id c c' hc hc' => .inl (Option.some.inj (hc'.symm.trans hc)))
    client nonce

theorem Shown.granted (hrooms : Keyed.Unique Channel.id s.channels) (f : Fingerprint) (roles : List RoleId)
    (client : ClientId) (nonce : UInt64) :
    Shown hello (setMemberRolesSwap s client nonce s.perms s.visibleIdsByClient f roles) wire := by
  rw [setMemberRolesSwap_eq]
  obtain ⟨g, hg, htold, hedited⟩ : ∃ g, Recast s (s.withGrants s.perms f roles) g ∧
      (∀ u ∈ (s.updateLiveMemberRoles f roles).1, ∃ e ∈ s.clients, (g e).info = u) ∧
      ∀ e ∈ s.clients, (g e).info ∈ (s.updateLiveMemberRoles f roles).1 ∨ ¬ e.info.fingerprint = f ∧ g e = e :=
    Recast.edited (fun i => { i with roles }) (fun _ => ⟨rfl, rfl, rfl⟩) rfl rfl
  have hnews : ∀ m ∈ ([] : List ServerControl), m.aboutRoles = true := by simp
  refine h.resynced (h.coherent.withGrants f roles) hg hrooms hrooms hnews (fun p hp => hp) (fun i m hm => ?_)
    (fun k e he => ?_) (fun id c c' hc hc' => .inl (Option.some.inj (hc'.symm.trans hc))) client nonce
  · obtain ⟨u, hu, rfl⟩ := List.mem_map.mp hm
    obtain ⟨e, he, rfl⟩ := htold u hu
    exact hg.tells h.coherent.ids he i
  · rcases hedited e (Keyed.get_mem he) with hin | ⟨-, hsame⟩
    · exact .inl (List.mem_map_of_mem hin)
    · rw [hsame]
      exact .inr ⟨.refl _, fun p hp => hp⟩

theorem Shown.roleDeleted (hids : s.perms.roleIds.Nodup) (hrooms : Keyed.Unique Channel.id s.channels) (id : RoleId)
    (client : ClientId) (nonce : UInt64) :
    Shown hello (deleteRoleSwap s client nonce s.perms s.visibleIdsByClient id) wire := by
  rw [deleteRoleSwap_eq]
  obtain ⟨g, hg, htold, hedited⟩ : ∃ g, Recast s (s.withoutRole s.perms id) g ∧
      (∀ u ∈ (s.stripLiveRole id).1, ∃ e ∈ s.clients, (g e).info = u) ∧
      ∀ e ∈ s.clients, (g e).info ∈ (s.stripLiveRole id).1 ∨ ¬ id ∈ e.info.roles ∧ g e = e :=
    Recast.edited (fun i => { i with roles := i.roles.filter (· ≠ id) }) (fun _ => ⟨rfl, rfl, rfl⟩) rfl rfl
  have hrooms' : Keyed.Unique Channel.id (s.withoutRole s.perms id).channels := hrooms.map fun c => by split <;> rfl
  have hnews : ∀ m ∈ [ServerControl.roleDeleted id, .rolesReordered (ordering (deletedPerms s.perms id).roles)],
      m.aboutRoles = true := by simp [ServerControl.aboutRoles]
  refine h.resynced (h.coherent.withoutRole id) hg hrooms hrooms' hnews (fun p hp => hp.deleted hids id)
    (fun i m hm => ?_)
    (fun k e he => ?_) (stripRoleOverwrites_kept s id) client nonce
  · obtain ⟨u, hu, rfl⟩ := List.mem_map.mp hm
    obtain ⟨e, he, rfl⟩ := htold u hu
    exact hg.tells h.coherent.ids he i
  · rcases hedited e (Keyed.get_mem he) with hin | ⟨hnot, hsame⟩
    · exact .inl (List.mem_map_of_mem hin)
    · -- The mirror strikes the role from its own list, where it is not.
      rw [hsame]
      refine .inr ⟨.refl _, fun p hp => ?_⟩
      change p.myRoles.filter _ = e.info.roles
      rw [hp]
      refine List.filter_eq_self.mpr fun j hj => ?_
      have hne : j ≠ id := fun he => hnot (he ▸ hj)
      simpa using hne

end

section
variable {perform : (op : Await) → World → op.Reply × World} (hf : Faulty perform)
include hf

theorem Faulty.save_wire (call : StoreWrite) (w : World) : (perform (.save call) w).2.wire = w.wire := by
  rcases hf.save call w with ⟨db, -, h⟩ | h <;> rw [h]

variable {hello : ServerHello} {s : Shared} {w : World} {client : ClientId} {nonce : UInt64} {cmd : RoleCommand}

/-- A command that passed its checks: the mirrors are in step with whatever was saved. -/
theorem Passes.shown {a : Actor} {next : PermState} {save : Todo} (hp : Passes s client nonce a cmd next save)
    (h : Shown hello s w.wire) (hi : RolesIntact s.perms w.db) (hrooms : Keyed.Unique Channel.id s.channels) :
    Shown hello (save.run perform s w).1 (save.run perform s w).2.wire := by
  have hrefused : ∀ {detail}, Shown hello (refuse s client nonce .internal detail) w.wire := fun {detail} =>
    (shown_gentle hello).refused (w := w) (.refuse ..) h
  cases hp with
  | @create name permissions _ _ =>
    unfold createRoleSave
    simp only [run_onSaved]
    rcases hf.save (.setRolePositions (shiftedPositions s.perms.roles)) w with ⟨db, hdb, hp⟩ | hp
    · simp only [hp, if_true]
      rcases hf.save (.insertRole (newRole s.perms (Text.trim name) (permissions.intersect .all))) { w with db }
        with ⟨db', hdb', hp'⟩ | hp'
      · simp only [hp', if_true, Async.Task.run_done]
        obtain rfl : w.db.setRolePositions (shiftedPositions s.perms.roles) = db := Option.some.inj hdb
        -- The row went in, so no role had the id.
        refine h.roleCreated hi.ids (fun hin => ?_) hi.everyone hi.granted client nonce
        have hnew := (insertRole_roleIds hdb').2
        rw [setRolePositions_roleIds] at hnew
        exact hnew ((hi.rows _).mpr ⟨_, hin, rfl⟩)
      · simp only [hp', Bool.false_eq_true, if_false]
        exact hrefused
    · simp only [hp, Bool.false_eq_true, if_false]
      exact hrefused
  | update hget _ _ hedit =>
    unfold updateRoleSave
    simp only [run_onSaved]
    split <;> simp only [Async.Task.run_done, hf.save_wire]
    swap
    · exact hrefused
    · have hid := (editedRole_ok hedit).1.trans (Keyed.get_key hget)
      exact h.roleUpdated hi.ids hrooms (hid.symm ▸ hget) client nonce
  | delete =>
    unfold deleteRoleSave
    simp only [run_onSaved, run_onWritten]
    split <;> simp only [Async.Task.run_done, hf.save_wire]
    swap
    · exact hrefused
    · exact h.roleDeleted hi.ids hrooms _ client nonce
  | reorder hdense =>
    unfold reorderRolesSave
    simp only [run_onSaved]
    split <;> simp only [Async.Task.run_done, hf.save_wire]
    swap
    · exact hrefused
    · exact h.rolesReordered hi.ids (unique_positions hi.ids hdense) client nonce
  | grant =>
    unfold setMemberRolesSave
    simp only [run_onSaved]
    split <;> simp only [Async.Task.run_done, hf.save_wire]
    swap
    · exact hrefused
    · exact h.granted hrooms _ _ client nonce

theorem RoleCommand.shown (h : Shown hello s w.wire) (hi : RolesIntact s.perms w.db)
    (hrooms : Keyed.Unique Channel.id s.channels) :
    Shown hello (exec perform (cmd.handle client nonce) s w).1 (exec perform (cmd.handle client nonce) s w).2.wire := by
  unfold exec
  rcases handle_cases (rfl : cmd.handle client nonce s = _) with ⟨hd, hr⟩ | ⟨a, next, save, -, -, hp, he⟩
  · rw [hd]
    exact (shown_gentle hello).refused (w := w) hr h
  · rw [he]
    exact hp.shown hf h hi hrooms

end

/-! ## Channel commands -/

section
variable {hello : ServerHello} {s t : Shared} {wire : List ServerControl} (h : Shown hello s wire)
  (hrooms : Keyed.Unique Channel.id s.channels)
include h hrooms

/-- A command that changes channels and nothing else. -/
theorem Shown.rearranged (hclients : t.clients = s.clients) (hperms : t.perms = s.perms) (howner : t.owner = s.owner)
    (hrooms' : Keyed.Unique Channel.id t.channels) {touched : List ChannelId}
    (hkept : ∀ id c c', s.channel id = some c → t.channel id = some c' → c' = c ∨ id ∈ touched)
    (client : ClientId) (nonce : UInt64) :
    Shown hello (t.deliver fun i => t.resync s.visibleIdsByClient touched i ++ acks client nonce i) wire := by
  have hg : Recast s t fun e => e :=
    ⟨hclients.trans (List.map_id' _).symm, fun _ => rfl, fun _ => rfl, fun _ => rfl, fun _ => rfl⟩
  have hc := h.coherent.of_map hperms howner hg.clients fun _ => .refl _
  have hnews : ∀ m ∈ ([] : List ServerControl), m.aboutRoles = true := by simp
  have htold : ∀ i, ∀ m ∈ ([] : List ServerControl), t.Tells i m := by simp
  exact h.resynced hc hg hrooms hrooms' hnews (fun p hp => hperms ▸ hp) htold
    (fun k e _ => .inr ⟨.refl _, fun p hp => hp⟩)
    hkept client nonce

theorem Shown.channelDeleted {id : ChannelId} {c : Channel} (hchannel : s.channel id = some c) (client : ClientId)
    (nonce : UInt64) :
    Shown hello ((s.removeChannelMem id).2.deliver fun i => (Change.delete id).frames s i ++ acks client nonce i)
      wire := by
  have hremove : s.removeChannelMem id =
      ((s.clients.filter fun e => e.info.channel = some id).map fun e => { e.info with channel := none },
        { s with
          channels := Keyed.erase Channel.id id s.channels
          clients := s.clients.map fun e =>
            if e.info.channel = some id then { e with info := { e.info with channel := none } } else e }) := by
    unfold Shared.removeChannelMem
    rw [hchannel]
  obtain ⟨g, hg, htold, hedited⟩ : ∃ g, Recast s (s.removeChannelMem id).2 g ∧
      (∀ u ∈ (s.removeChannelMem id).1, ∃ e ∈ s.clients, (g e).info = u) ∧
      ∀ e ∈ s.clients, (g e).info ∈ (s.removeChannelMem id).1 ∨ ¬ e.info.channel = some id ∧ g e = e := by
    rw [hremove]
    exact Recast.edited (fun i => { i with channel := none }) (fun _ => ⟨rfl, rfl, rfl⟩) rfl rfl
  have hperms : (s.removeChannelMem id).2.perms = s.perms := s.removeChannelMem_perms id
  have hchannels := Shared.removeChannelMem_channels (s := s) id
  have hc : Coherent (s.removeChannelMem id).2 := by
    rw [hremove]
    refine h.coherent.of_map rfl rfl rfl fun e => ?_
    split <;> exact ⟨rfl, rfl, rfl, rfl⟩
  have hnews : ∀ m ∈ ([] : List ServerControl), m.aboutRoles = true := by simp
  refine h.resynced hc hg hrooms (hchannels ▸ hrooms.erase id) hnews (fun p hp => hperms ▸ hp) (fun i m hm => ?_)
    (fun k e he => ?_) (fun id' c c' hc hc' => .inl ?_) client nonce
  · obtain ⟨u, hu, hm⟩ := List.mem_flatMap.mp hm
    obtain ⟨e, he, rfl⟩ := htold u hu
    rcases List.mem_cons.mp hm with rfl | hm
    · trivial
    · rw [List.mem_singleton.mp hm]
      exact hg.tells h.coherent.ids he i
  · rcases hedited e (Keyed.get_mem he) with hin | ⟨-, hsame⟩
    · exact .inl (List.mem_flatMap.mpr ⟨_, hin, by simp⟩)
    · rw [hsame]
      exact .inr ⟨.refl _, fun p hp => hp⟩
  · unfold Shared.channel at hc hc'
    rw [hchannels, Keyed.get_erase] at hc'
    split at hc'
    · cases hc'
    · exact Option.some.inj (hc'.symm.trans hc)

end

section
variable {perform : (op : Await) → World → op.Reply × World} (hf : Faulty perform) {hello : ServerHello} {s : Shared}
  {w : World} {client : ClientId} {nonce : UInt64} {cmd : ChannelCommand}
include hf

theorem ChannelCommand.shown (h : Shown hello s w.wire) (hx : RoomsStored (s, w)) :
    Shown hello (exec perform (cmd.handle client nonce) s w).1 (exec perform (cmd.handle client nonce) s w).2.wire := by
  have hrooms : Keyed.Unique Channel.id s.channels := .of_sorted hx.sorted
  rcases cmd.exec_cases hf s w client nonce with ⟨hr, hw⟩ | ⟨c, db, -, hp, hdb, he⟩
  · rw [hw]
    exact (shown_gentle hello).refused hr h
  · rw [he]
    -- An overwrite command edits one channel, and names it.
    have modified : ∀ channel (f : Channel → Channel), (∀ c, (f c).id = c.id) →
        Shown hello ((s.modifyChannel channel f).deliver fun i =>
          (s.modifyChannel channel f).resync s.visibleIdsByClient [channel] i ++ acks client nonce i) w.wire :=
      fun channel f hid => h.rearranged (t := s.modifyChannel channel f) hrooms rfl rfl rfl (hrooms.modify hid channel)
        (modifyChannel_content f hid channel) client nonce
    cases hp with
    | setOverwrite => exact modified _ _ fun _ => rfl
    | deleteOverwrite => exact modified _ _ fun _ => rfl
    | create =>
      refine h.rearranged (t := s.insertChannelMem _) hrooms rfl rfl rfl (hrooms.putSorted _)
        (fun id c c' hc hc' => .inl ?_) client nonce
      have hget := (Keyed.get_putSorted id _ s.channels).symm.trans hc'
      split at hget
      · rename_i hid
        exact absurd (Keyed.get_key hc) (hid ▸ hx.rows.fresh hdb c (Keyed.get_mem hc))
      · exact Option.some.inj (hget.symm.trans hc)
    | @update id _ trimmed parent topic kind maxUsers order _ _ _ =>
      have hmem := updateChannelMem_eq s { id, parent, name := trimmed, topic, kind, maxUsers, order, overwrites := [] }
      have hshown := modified id
        (fun old =>
          { id := old.id, parent, name := trimmed, topic, kind, maxUsers, order, overwrites := old.overwrites })
        fun _ => rfl
      rwa [← hmem] at hshown
    | delete _ hview =>
      obtain ⟨c, hc, hid⟩ := can_channel hview
      have hget : s.channel _ = some c := hid ▸ Keyed.get_of_mem hrooms hc
      exact h.channelDeleted hrooms hget client nonce

end

/-! ## Every input -/

theorem Input.shown {hello : ServerHello} {x y : Shared × World} {i : Input} (h : Shown hello x.1 x.2.wire)
    (hx : RoomsStored x) (hr : RolesIntact x.1.perms x.2.db) (hst : HandledStep x i y) : Shown hello y.1 y.2.wire := by
  obtain ⟨perform, hf, rfl⟩ := hst
  obtain ⟨s, w⟩ := x
  have hI := (shown_gentle hello).candid
  have hrooms : Keyed.Unique Channel.id s.channels := .of_sorted hx.sorted
  have quiet : ∀ client frame, (frame.plain = true ∨
      ∃ channel content replyTo nonce, frame = .sendMessage channel content replyTo nonce) →
      Shown hello (serve perform (.control client frame) s w).1 (serve perform (.control client frame) s w).2.wire := by
    intro client frame hframe
    refine (control_upholds hI hf (fun _ _ _ _ _ b => shown_allows hello _)
      (fun _ _ _ => shown_allows hello _) ?_).exec h
    exact hframe.imp_right fun hm => ⟨fun m => shown_allows hello _, hm⟩
  cases i with
  | connect auth => exact h.greeted hr.ids hrooms (greeted_handshake hf s w auth)
  | control client frame =>
    rcases frame.kinds with ⟨nonce, cmd, rfl⟩ | ⟨nonce, cmd, rfl⟩ | hm | hp
    · rw [serve_role]
      exact RoleCommand.shown hf h hr hrooms
    · rw [serve_channel]
      exact ChannelCommand.shown hf h hx
    · exact quiet client frame (.inr hm)
    · exact quiet client frame (.inl hp)
  | voice client packet =>
    have hkeeps : Upholds _ perform _ := voice_upholds hI client packet
    exact hkeeps.exec h
  | disconnect client =>
    have hkeeps : Upholds _ perform _ := disconnect_upholds hI client
    exact hkeeps.exec h
  | tick now =>
    have hkeeps : Upholds _ perform _ := tick_upholds hI now
    exact hkeeps.exec h

/-! ## Whole runs -/

/-- An input, handled alone with any of its operations failing, or a restart on the tables it finds. -/
def LifeStep (x : Shared × World) (e : Happening) (y : Shared × World) : Prop :=
  match e with
  | .input i => HandledStep x i y
  | .restart config now => Server.bind config now x.2.db = some (y.1, y.2.db)

/-- What holds of every state of a run. -/
structure InStepWithAll (hello : ServerHello) (x : Shared × World) : Prop where
  shown : Shown hello x.1 x.2.wire
  rooms : RoomsStored x
  roles : RolesIntact x.1.perms x.2.db

theorem InStepWithAll.bind (hello : ServerHello) {config : ServerConfig} {now : UInt64} {db : Db} {y : Shared × World}
    (h : Server.bind config now db = some (y.1, y.2.db)) (hrows : RowsWritten db) (hgrants : GrantTables db) :
    InStepWithAll hello y := by
  have hnobody := bind_nobody h
  refine ⟨⟨⟨?_, ?_, ?_⟩, fun k e he => ?_⟩, (bind_rooms h hrows).1, bind_intact h hgrants⟩
  · rw [hnobody]
    exact Keyed.Unique.nil
  · simp [hnobody]
  · simp [hnobody]
  · rw [Shared.client?, hnobody] at he
    cases he

theorem InStepWithAll.step {hello : ServerHello} {x y : Shared × World} {e : Happening} (h : InStepWithAll hello x)
    (hst : LifeStep x e y) : InStepWithAll hello y := by
  cases e with
  | input i =>
    exact ⟨Input.shown h.shown h.rooms h.roles hst, (Input.rooms h.rooms hst).1, Input.intact h.roles hst⟩
  | restart config now => exact .bind hello hst h.rooms.written h.roles.tables

/-- In every run from a first start, whatever fails on the way and however often
the server restarts, every connected client renders what the server enforces. -/
theorem mirrors_render {config : ServerConfig} {now : UInt64} {x₀ x : Shared × World}
    (hstart : Server.bind config now .empty = some (x₀.1, x₀.2.db)) (hrun : Run LifeStep (fun _ _ => True) x₀ x)
    (hello : ServerHello) {k : ClientId} {e : ConnectedClient} (he : x.1.client? k = some e) :
    ∃ p, clientMirror hello x.2.wire e = some p ∧ Renders x.1 e.info p := by
  have h₀ : InStepWithAll hello x₀ := .bind hello hstart nofun .empty
  have h := hrun.invariant (InStepWithAll hello) h₀ fun _ _ _ hi _ hst => hi.step hst
  obtain ⟨p, hp, hin⟩ := h.shown.mirrors k e he
  refine ⟨p, hp, hin.renders h.roles.ids h.shown.coherent h.rooms.sorted ?_⟩
  rw [Shared.client?_id he, Shared.user, he]
  rfl

/-- The owner and a guest are connected, and the owner creates a role: the guest's mirror shows it. -/
theorem mirrors_render_guest :
    ∃ s₀ db₀ x e, Server.bind ownedConfig 5 .empty = some (s₀, db₀) ∧
      Run LifeStep (fun _ _ => True) (s₀, ⟨db₀, []⟩) x ∧ x.1.perms.roles.length = defaultRoles.length + 1 ∧
      x.1.client? 2 = some e ∧ ∀ hello, ∃ p, clientMirror hello x.2.wire e = some p ∧ Renders x.1 e.info p := by
  have handled : ∀ {x : Shared × World} (i : Input), LifeStep x (.input i) (serve Await.perform i x.1 x.2) :=
    fun i => ⟨Await.perform, Await.faulty, rfl⟩
  obtain ⟨s₀, db₀, x, hstart, hrun, hroles, he⟩ : ∃ s₀ db₀ x, Server.bind ownedConfig 5 .empty = some (s₀, db₀) ∧
      Run LifeStep (fun _ _ => True) (s₀, ⟨db₀, []⟩) x ∧ x.1.perms.roles.length = defaultRoles.length + 1 ∧
      (x.1.client? 2).isSome = true :=
    ⟨_, _, _, rfl,
      .step (.input (.control 1 (.createRole 7 "r" .none)))
        (.step (.input (.connect ⟨protocolVersion, ⟨.rep 2, 8⟩, "n", none, true⟩))
          (.step (.input ownerConnects) .refl trivial (handled _)) trivial (handled _)) trivial (handled _),
      by decide +kernel, by decide +kernel⟩
  obtain ⟨e, he⟩ := Option.isSome_iff_exists.mp he
  exact ⟨s₀, db₀, x, e, hstart, hrun, hroles, he, fun hello => mirrors_render hstart hrun hello he⟩

end PickleChat
