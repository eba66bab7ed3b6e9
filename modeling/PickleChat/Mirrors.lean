import PickleChat.RoleMirror
import PickleChat.Rendering

/-!
# The mirrors of connected clients

Every connected client keeps a mirror, from its `AuthOk` and the frames queued
for it since. What a step has to tell each of them for all the mirrors to be up
to date after it, and that handshakes do.
-/

namespace PickleChat

open Async (exec)

/-! ## News of roles -/

structure PermMirror.HasRoles (p : PermMirror) (roles : List Role) : Prop where
  ids : Keyed.Unique Role.id p.roles
  same : ∀ r, r ∈ p.roles ↔ r ∈ roles

theorem foldl_modifyFirst {positions : List (RoleId × UInt32)} (hp : Keyed.Unique Prod.fst positions) {l : List Role}
    (hu : Keyed.Unique Role.id l) :
    positions.foldl (fun l q => Keyed.modifyFirst Role.id q.1 (fun r => { r with position := q.2 }) l) l =
      withPositions positions l := by
  induction positions generalizing l with
  | nil =>
    have hsame : ∀ r : Role, { r with position := newPosition [] r } = r := fun _ => rfl
    simp [withPositions, hsame]
  | cons q positions ih =>
    obtain ⟨hq, hp⟩ := List.nodup_cons.mp hp
    have hid : ∀ r : Role, ({ r with position := q.2 } : Role).id = r.id := fun _ => rfl
    rw [List.foldl_cons, Keyed.modifyFirst_eq _ hu, ih hp (hu.modify hid q.1)]
    unfold withPositions Keyed.modify
    rw [List.map_map]
    apply List.map_congr_left
    intro r _
    simp only [Function.comp_apply, newPosition, Keyed.get_cons]
    by_cases hr : r.id = q.1
    · have hnone : Keyed.get Prod.fst q.1 positions = none :=
        Keyed.get_eq_none.mpr fun a ha he => hq (List.mem_map.mpr ⟨a, ha, he⟩)
      simp [hr, hnone]
    · simp [hr, Ne.symm hr]

section
variable {p : PermMirror} {roles : List Role}

theorem PermMirror.HasRoles.reordered (h : p.HasRoles roles) {positions : List (RoleId × UInt32)}
    (hp : Keyed.Unique Prod.fst positions) :
    (p.read [.rolesReordered positions]).HasRoles (withPositions positions roles) := by
  have he : (p.read [.rolesReordered positions]).roles = sortByPosition (withPositions positions p.roles) :=
    congrArg sortByPosition (foldl_modifyFirst hp h.ids)
  refine ⟨?_, fun r => ?_⟩
  · rw [he]
    exact unique_sortByPosition (unique_withPositions h.ids positions)
  · rw [he, mem_sortByPosition]
    simp only [withPositions, List.mem_map, h.same]

/-- An order of roles that the mirror has but for their positions. -/
theorem PermMirror.HasRoles.ordered (h : p.HasRoles roles) {next : List Role} (hu : Keyed.Unique Role.id next)
    (hsame : ∀ u, u ∈ roles.map Role.unplaced ↔ u ∈ next.map Role.unplaced) :
    (p.read [.rolesReordered (ordering next)]).HasRoles next := by
  obtain ⟨hids, hmem⟩ := h.reordered (unique_ordering hu)
  exact ⟨hids, fun r => (hmem r).trans (mem_withPositions_ordering hu hsame r)⟩

theorem PermMirror.HasRoles.put (h : p.HasRoles roles) (role : Role) :
    (p.read [.roleCreated role]).HasRoles (Keyed.put Role.id role roles) := by
  have he : (p.read [.roleCreated role]).roles = sortByPosition (Keyed.put Role.id role p.roles) := rfl
  refine ⟨?_, fun r => ?_⟩
  · rw [he]
    exact unique_sortByPosition (h.ids.put role)
  · rw [he, mem_sortByPosition, Keyed.mem_put, Keyed.mem_put, h.same]

theorem PermMirror.HasRoles.erased (h : p.HasRoles roles) (id : RoleId) :
    (p.read [.roleDeleted id]).HasRoles (Keyed.erase Role.id id roles) := by
  have he : (p.read [.roleDeleted id]).roles = Keyed.erase Role.id id p.roles := rfl
  refine ⟨?_, fun r => ?_⟩
  · rw [he]
    exact h.ids.erase id
  · rw [he, Keyed.mem_erase, Keyed.mem_erase, h.same]

theorem PermMirror.HasRoles.created {q : PermState} (h : p.HasRoles q.roles) {role : Role}
    (hu : Keyed.Unique Role.id (createdPerms q role).roles) (hfresh : ∀ r ∈ q.roles, r.id ≠ role.id) :
    (p.read [.roleCreated role, .rolesReordered (ordering (createdPerms q role).roles)]).HasRoles
      (createdPerms q role).roles := by
  rw [PermMirror.read_cons]
  refine (h.put role).ordered hu fun u => ?_
  have hput : Keyed.put Role.id role q.roles = q.roles ++ [role] := Keyed.put_of_new hfresh
  have hnext : ((createdPerms q role).roles.map Role.unplaced).Perm
      ((withPositions (shiftedPositions q.roles) q.roles ++ [role]).map Role.unplaced) :=
    (perm_sortByPosition _).map Role.unplaced
  rw [hnext.mem_iff, hput, List.map_append, List.map_append, withPositions_unplaced]

theorem PermMirror.HasRoles.deleted {q : PermState} (h : p.HasRoles q.roles) (hu : Keyed.Unique Role.id q.roles)
    (id : RoleId) :
    (p.read [.roleDeleted id, .rolesReordered (ordering (deletedPerms q id).roles)]).HasRoles
      (deletedPerms q id).roles := by
  rw [PermMirror.read_cons]
  exact (h.erased id).ordered (unique_compacted (hu.erase id)) (mem_compacted_unplaced _)

theorem PermMirror.HasRoles.updated {q : PermState} (h : p.HasRoles q.roles) (hu : Keyed.Unique Role.id q.roles)
    {existing updated : Role} (hget : Keyed.get Role.id updated.id q.roles = some existing) :
    (p.read [.roleUpdated updated]).HasRoles (updatedPerms q updated).roles := by
  obtain ⟨hids, hmem⟩ := h.put updated
  refine ⟨hids, fun r => (hmem r).trans ?_⟩
  unfold updatedPerms
  rw [modifyFirst_updated hu, Keyed.mem_put, List.mem_map]
  constructor
  · rintro (rfl | ⟨hr, hne⟩)
    · exact ⟨existing, Keyed.get_mem hget, if_pos (Keyed.get_key hget)⟩
    · exact ⟨r, hr, if_neg hne⟩
  · rintro ⟨r', hr', rfl⟩
    split
    · exact .inl rfl
    · exact .inr ⟨hr', ‹_›⟩

end

/-! ## Resyncs -/

theorem Shared.Tells.of_update {t : Shared} {j : UserInfo} {m : ServerControl} {u : ChannelId × Option Channel}
    (hm : m.update? = some u) (hu : u.2 = t.view j u.1) : t.Tells j m := by
  cases m with
  | channelCreated c | channelUpdated c => cases hm; exact hu.symm
  | channelRemoved id => cases hm; exact hu.symm
  | _ => cases hm

section
variable {s t : Shared} {k : ClientId} {e e' : ConnectedClient} (hu : Keyed.Unique ConnectedClient.id s.clients)
  (he : s.client? k = some e) (he' : t.client? k = some e') (touched : List ChannelId)
include hu he he'

theorem Shared.resync_eq : t.resync s.visibleIdsByClient touched e'.info =
    t.resyncFrames touched (s.visibleIds e.info) (t.visibleIds e'.info) := by
  have hid : e'.info.clientId = k := client?_id he'
  unfold resync visibleIdsByClient
  rw [List.flatMap_map]
  refine (Keyed.flatMap_of_get hu he fun b _ hne => ?_).trans ?_
  · unfold resyncFrom
    exact if_neg (hid ▸ hne)
  · have hk : e.id = e'.info.clientId := (client?_id he).trans hid.symm
    unfold resyncFrom
    rw [if_pos hk]
    dsimp only
    rw [hk, hid, he']
    rfl

variable (hrooms : Keyed.Unique Channel.id t.channels)
include hrooms

theorem Shared.resync_tells : ∀ m ∈ t.resync s.visibleIdsByClient touched e'.info, t.Tells e'.info m := by
  rw [resync_eq hu he he']
  intro m hm
  obtain ⟨u, hmu, hu⟩ := resyncFrames_truthful (fun _ => mem_visibleIds hrooms) m hm
  exact .of_update hmu hu

/-- A channel that was there before, is there still and is not named is the same. -/
theorem Shared.resync_names (hrooms' : Keyed.Unique Channel.id s.channels)
    (hkept : ∀ id c c', s.channel id = some c → t.channel id = some c' → c' = c ∨ id ∈ touched) (id : ChannelId) :
    s.view e.info id = t.view e'.info id ∨
      ∃ m ∈ t.resync s.visibleIdsByClient touched e'.info, ∃ a, m.update? = some (id, a) := by
  rw [resync_eq hu he he']
  by_cases hnamed : (id ∈ s.visibleIds e.info ↔ id ∉ t.visibleIds e'.info) ∨ (id ∈ s.visibleIds e.info ∧ id ∈ touched)
  · exact .inr (resyncFrames_names (fun _ => mem_visibleIds hrooms) hnamed)
  · refine .inl ?_
    rw [mem_visibleIds hrooms, mem_visibleIds hrooms'] at hnamed
    cases hs : s.view e.info id with
    | none =>
      cases ht : t.view e'.info id with
      | none => rfl
      | some c => simp [hs, ht] at hnamed
    | some c =>
      cases ht : t.view e'.info id with
      | none => simp [hs, ht] at hnamed
      | some c' =>
        have hsame := hkept id c c' (view_eq_some.mp hs).1 (view_eq_some.mp ht).1
        have hnot : id ∉ touched := by simpa [hs, ht] using hnamed
        rw [hsame.resolve_right hnot]

end

/-! ## The mirrors of connected clients -/

/-- The `AuthOk` a client was last sent. -/
def loginOf (wire : List ServerControl) (client : ClientId) : Option AuthOk :=
  wire.reverse.findSome? fun m =>
    match m with
    | .authOk ok => if ok.clientId = client then some ok else none
    | _ => none

/-- The mirror of a client that was greeted with `hello`, from its `AuthOk` on. -/
def clientMirror (hello : ServerHello) (wire : List ServerControl) (e : ConnectedClient) : Option PermMirror := do
  let ok ← loginOf wire e.id
  let info ← (readVerdict hello (.control (.authOk ok))).toOption
  some ((PermMirror.fromSession e.info.fingerprint info).read e.control)

/-- Sessions are in step with the snapshot, and the mirrors of their clients with the state. -/
structure Shown (hello : ServerHello) (s : Shared) (wire : List ServerControl) : Prop where
  coherent : Coherent s
  mirrors : ∀ k e, s.client? k = some e → ∃ p, clientMirror hello wire e = some p ∧ InTouch s e.info p

theorem Shared.view_of_standing {s t : Shared} (hperms : t.perms = s.perms) (hchannels : t.channels = s.channels)
    {i j : UserInfo} (h : SameStanding i j) (id : ChannelId) : s.view i id = t.view j id := by
  have hfp : j.fingerprint = i.fingerprint := congrArg PublicIdentity.fingerprint h.identity
  refine (view_congr (congrArg PermState.roles hperms) ?_ h.roles hfp h.owner).symm
  unfold channel
  rw [hchannels]

/-- Delivery changes nothing that frames tell of. -/
theorem Shared.Tells.deliver {t : Shared} {j : UserInfo} {m : ServerControl} (h : t.Tells j m)
    (f : UserInfo → List ServerControl) : (t.deliver f).Tells j m := by
  cases m with
  | userJoined | userUpdated | userLeft => exact (user_deliver t f _).trans h
  | _ => exact h

section
variable {hello : ServerHello} {s t : Shared} {wire : List ServerControl}

theorem clientMirror_push {e e' : ConnectedClient} {frames : List ServerControl} {p : PermMirror}
    (h : clientMirror hello wire e = some p) (hid : e'.id = e.id) (hf : e'.info.fingerprint = e.info.fingerprint)
    (hc : e'.control = e.control ++ frames) : clientMirror hello wire e' = some (p.read frames) := by
  unfold clientMirror at h ⊢
  obtain ⟨ok, hok, h⟩ := Option.bind_eq_some_iff.mp h
  obtain ⟨info, hinfo, h⟩ := Option.bind_eq_some_iff.mp h
  cases h
  rw [hid, hok, hc, hf]
  simp only [Option.bind_eq_bind, Option.bind_some, hinfo, PermMirror.read_append]

/-- What a step must do for one client: who is now `e'` has been queued the news
and then the rest. -/
structure Follows (s t : Shared) (news : List ServerControl) (e e' : ConnectedClient) (rest : List ServerControl) :
    Prop where
  id : e'.id = e.id
  fingerprint : e'.info.fingerprint = e.info.fingerprint
  owner : e'.info.owner = e.info.owner
  control : e'.control = e.control ++ (news ++ rest)
  tells : ∀ m ∈ rest, t.Tells e'.info m
  mine : ∀ p : PermMirror, p.myRoles = e.info.roles →
    (p.read news).myRoles = e'.info.roles ∨ .userUpdated e'.info ∈ rest
  channels : ∀ id, s.view e.info id = t.view e'.info id ∨ ∃ m ∈ rest, ∃ a, m.update? = some (id, a)
  users : ∀ k u, t.user k = some u → (∃ v, s.user k = some v ∧ SameStanding v u) ∨
    ∃ m ∈ rest, ∃ a, m.standing? = some (k, a)

theorem Shown.step (h : Shown hello s wire) (hc : Coherent t) (news : List ServerControl)
    (hnews : ∀ m ∈ news, m.aboutRoles = true)
    (hroles : ∀ p : PermMirror, p.HasRoles s.perms.roles → (p.read news).HasRoles t.perms.roles)
    (hclients : ∀ k e', t.client? k = some e' → ∃ e rest, s.client? k = some e ∧ Follows s t news e e' rest) :
    Shown hello t wire := by
  refine ⟨hc, fun k e' he' => ?_⟩
  obtain ⟨e, rest, he, hstep⟩ := hclients k e' he'
  obtain ⟨p, hp, hin⟩ := h.mirrors k e he
  refine ⟨_, clientMirror_push hp hstep.id hstep.fingerprint hstep.control, ?_⟩
  have hj : t.user e'.info.clientId = some e'.info := by
    rw [Shared.client?_id he', Shared.user, he']
    rfl
  obtain ⟨hids, hsame⟩ := hroles p ⟨hin.ids, hin.roles⟩
  exact hin.step hc hj hstep.fingerprint hstep.owner news hnews hids hsame hstep.tells (hstep.mine p hin.mine)
    hstep.channels hstep.users

/-- Steps that tell no news of roles: entries keep their standing and are told what is so. -/
theorem Shown.told (h : Shown hello s wire) (hc : Coherent t) (hperms : t.perms = s.perms)
    (hchannels : t.channels = s.channels)
    (hclients : ∀ k e', t.client? k = some e' → ∃ e rest, s.client? k = some e ∧ SameStanding e.info e'.info ∧
      e'.control = e.control ++ rest ∧ ∀ m ∈ rest, t.Tells e'.info m) : Shown hello t wire := by
  refine h.step hc [] (by simp) (fun p hp => by rw [hperms]; exact hp) fun k e' he' => ?_
  obtain ⟨e, rest, he, hsame, hcontrol, htells⟩ := hclients k e' he'
  have hfp : e'.info.fingerprint = e.info.fingerprint := congrArg PublicIdentity.fingerprint hsame.identity
  refine ⟨e, rest, he, hsame.clientId, hfp, hsame.owner, hcontrol, htells, fun p hp => .inl (hp.trans hsame.roles.symm),
    fun id => .inl (Shared.view_of_standing hperms hchannels hsame id), fun k u hu => .inl ?_⟩
  · obtain ⟨e', he', rfl⟩ := Option.map_eq_some_iff.mp hu
    obtain ⟨e, rest, he, hsame, -⟩ := hclients k e' he'
    exact ⟨e.info, Option.map_eq_some_iff.mpr ⟨e, he, rfl⟩, hsame⟩

theorem Shown.deliver (h : Shown hello s wire) {f : UserInfo → List ServerControl}
    (hf : ∀ k e, s.client? k = some e → ∀ m ∈ f e.info, s.Tells e.info m) : Shown hello (s.deliver f) wire := by
  refine h.told (h.coherent.deliver f) rfl rfl fun k e' he' => ?_
  rw [Shared.deliver_client?] at he'
  obtain ⟨e, he, rfl⟩ := Option.map_eq_some_iff.mp he'
  exact ⟨e, f e.info, he, .refl _, rfl, fun m hm => (hf k e he m hm).deliver f⟩

end

/-! ## Handshakes -/

theorem loginOf_push (wire : List ServerControl) (m : ServerControl) (k : ClientId) :
    loginOf (wire ++ [m]) k =
      match m with
      | .authOk ok => if ok.clientId = k then some ok else loginOf wire k
      | _ => loginOf wire k := by
  unfold loginOf
  rw [List.reverse_append, List.reverse_singleton, List.singleton_append, List.findSome?_cons]
  cases m with
  | authOk ok => by_cases h : ok.clientId = k <;> simp [h]
  | _ => rfl

/-- How a handshake ends, alone. -/
inductive Greeted (s : Shared) (w : World) : Shared × World → Prop
  | rejected {w' : World} (hwire : ∀ k, loginOf w'.wire k = loginOf w.wire k) : Greeted s w (s, w')
  | vanished {identity : PublicIdentity} {nickname : String} {info : UserInfo} {t : Shared}
      (h : s.admitUser identity nickname = .ok (info, t)) : Greeted s w ((t.remove info.clientId).2, w)
  | greeted {identity : PublicIdentity} {nickname : String} {info : UserInfo} {t : Shared}
      (h : s.admitUser identity nickname = .ok (info, t)) :
      Greeted s w (t.broadcast (.userJoined info) (some info.clientId),
        { w with wire := w.wire ++ [.authOk (t.authOk info)] })

section
variable {perform : (op : Await) → World → op.Reply × World} (hf : Faulty perform) (s : Shared) (w : World)
include hf

theorem greeted_reject (failure : AuthFailure) : Greeted s w ((reject failure).run perform s w) := by
  unfold reject
  rw [Async.Task.run_wait]
  rcases hf (.write (.authFailed failure)) w with h | h <;> rw [h]
  · have hsleep : ∀ w, (perform .sleep w).2 = w := fun w => by
      rcases hf .sleep w with h | h
      · rw [h]; rfl
      · rw [h]
    change Greeted s w (s, (perform .sleep { w with wire := w.wire ++ [.authFailed failure] }).2)
    rw [hsleep]
    exact .rejected fun k => loginOf_push w.wire (.authFailed failure) k
  · exact .rejected fun _ => rfl

theorem greeted_admit (auth : ClientAuth) : Greeted s w (exec perform (admitClient auth) s w) := by
  unfold exec admitClient
  split
  · exact greeted_reject hf s w _
  · rename_i info t ht
    rw [Async.Task.run_wait]
    rcases hf (.write (.authOk (t.authOk info))) w with h | h <;> rw [h]
    · exact .greeted ht
    · exact .vanished ht

theorem greeted_handshake (auth : ClientAuth) : Greeted s w (exec perform (handshake auth) s w) := by
  unfold exec handshake
  split
  · exact greeted_reject hf s w _
  · split
    · exact greeted_admit hf s w auth
    · have hload : ∀ call, (perform (.load call) w).2 = w := fun call => by
        rcases hf (.load call) w with h | h
        · rw [h]; rfl
        · rw [h]
      unfold onLoad
      rw [Async.Task.run_wait, hload]
      split
      · exact greeted_reject hf s w _
      · exact greeted_admit hf s w auth

end

/-- A client that has read its `AuthOk` and nothing else. -/
theorem inTouch_session {t : Shared} {info : UserInfo} (hc : Coherent t)
    (hroles : Keyed.Unique Role.id t.perms.roles) (hrooms : Keyed.Unique Channel.id t.channels)
    (hin : t.user info.clientId = some info) {session : SessionInfo} (hid : session.clientId = info.clientId)
    (hchannels : session.channels = t.visibleChannels info) (husers : session.users = t.users)
    (hlist : session.roles = t.rolesSnapshot) : InTouch t info (PermMirror.fromSession info.fingerprint session) := by
  have hget : ∀ k, Keyed.get UserInfo.clientId k t.users = t.user k := fun k => Keyed.get_map (fun _ => rfl) k t.clients
  have hunique : Keyed.Unique UserInfo.clientId t.users := by
    unfold Keyed.Unique Shared.users
    rw [List.map_map]
    exact hc.ids
  have hme : (session.users.find? fun u => u.clientId = session.clientId) = some info := by
    rw [husers, hid]
    exact (hget _).trans hin
  have hsame : (PermMirror.fromSession info.fingerprint session).roles = t.perms.roles := hlist
  have hvisible : Keyed.Unique Channel.id (t.visibleChannels info) := hrooms.filter _
  obtain ⟨hsorted, hmem⟩ := Keyed.foldl_putSorted hvisible List.Pairwise.nil (by simp)
  refine ⟨rfl, ?_, ?_, ?_, ?_, ?_, ?_, ?_⟩
  · simp [PermMirror.fromSession, hme]
  · simp [PermMirror.fromSession, hme]
  · rw [hsame]
    exact hroles
  · intro r
    rw [hsame]
  · unfold PermMirror.fromSession
    rw [hchannels]
    exact hsorted
  · unfold PermMirror.fromSession
    rw [hchannels, ← Shared.listed_visibleChannels hrooms]
    funext id
    exact Keyed.get_congr (.of_sorted hsorted) hvisible (fun c => by simp [hmem c]) id
  · intro k u hu
    have hput : session.users.foldl (fun m u => Keyed.put Prod.fst (PermMirror.standing u) m) [] =
        t.users.map PermMirror.standing := by
      have hfst : Keyed.Unique Prod.fst (t.users.map PermMirror.standing) := by
        unfold Keyed.Unique
        rw [List.map_map]
        exact hunique
      rw [husers]
      exact (List.foldl_map (g := fun m u => Keyed.put Prod.fst u m)).symm.trans (Keyed.foldl_put hfst)
    have hkey : ∀ u, (PermMirror.standing u).1 = UserInfo.clientId u := fun _ => rfl
    unfold PermMirror.knows PermMirror.fromSession
    rw [hput, Keyed.get_map hkey, hget, hu]
    rfl

section
variable {hello : ServerHello} {s t : Shared} {wire : List ServerControl}

theorem clientMirror_login {e : ConnectedClient} {ok : AuthOk} {session : SessionInfo}
    (hlogin : loginOf wire e.id = some ok) (hsession : readVerdict hello (.control (.authOk ok)) = .ok session) :
    clientMirror hello wire e = some ((PermMirror.fromSession e.info.fingerprint session).read e.control) := by
  unfold clientMirror
  rw [hlogin]
  simp only [Option.bind_eq_bind, Option.bind_some, hsession, Except.toOption]

theorem clientMirror_wire {wire' : List ServerControl} {e : ConnectedClient}
    (h : loginOf wire' e.id = loginOf wire e.id) : clientMirror hello wire' e = clientMirror hello wire e := by
  unfold clientMirror
  rw [h]

theorem admitted_client? {identity : PublicIdentity} {nickname : String} {info : UserInfo}
    (ht : s.admitUser identity nickname = .ok (info, t)) (k : ClientId) :
    t.client? k = if k = info.clientId then some ⟨info, [], []⟩ else s.client? k := by
  obtain ⟨-, -, -, -, -, -, rfl⟩ := Shared.admitUser_ok ht
  exact Keyed.get_put k _ _

theorem Shown.vanished (h : Shown hello s wire) {identity : PublicIdentity} {nickname : String} {info : UserInfo}
    (ht : s.admitUser identity nickname = .ok (info, t)) : Shown hello (t.remove info.clientId).2 wire := by
  have hc := (KeepsSessions.tame.removed t info.clientId).2 ((KeepsSessions.tame.admitted ht).2 h.coherent)
  have hclient := admitted_client? ht
  obtain ⟨-, -, -, -, -, -, rfl⟩ := Shared.admitUser_ok ht
  refine h.told hc rfl rfl fun k e' he' => ⟨e', [], ?_, .refl _, (List.append_nil _).symm, by simp⟩
  have hgone := (Keyed.get_erase k info.clientId _).symm.trans he'
  split at hgone
  · cases hgone
  · exact (if_neg ‹_›).symm.trans ((hclient k).symm.trans hgone)

theorem Shown.admitted (h : Shown hello s wire) (hroles : Keyed.Unique Role.id s.perms.roles)
    (hrooms : Keyed.Unique Channel.id s.channels) {identity : PublicIdentity} {nickname : String} {info : UserInfo}
    (ht : s.admitUser identity nickname = .ok (info, t)) :
    Shown hello (t.broadcast (.userJoined info) (some info.clientId)) (wire ++ [.authOk (t.authOk info)]) := by
  have hc : Coherent t := (KeepsSessions.tame.admitted ht).2 h.coherent
  obtain ⟨-, -, -, -, -, -, he⟩ := Shared.admitUser_ok ht
  have hclient := admitted_client? ht
  have hperms : t.perms = s.perms := by rw [he]
  have hchannels : t.channels = s.channels := by rw [he]
  rw [Shared.broadcast_eq]
  generalize hf : (fun i : UserInfo => if some i.clientId = some info.clientId then []
    else [ServerControl.userJoined info])
    = f
  have hjoined : ∀ k, (t.deliver f).user k = if k = info.clientId then some info else s.user k := fun k => by
    unfold Shared.user
    rw [Shared.deliver_client?, Option.map_map, hclient]
    split <;> rfl
  refine ⟨hc.deliver f, fun k e' he' => ?_⟩
  rw [Shared.deliver_client?] at he'
  obtain ⟨e, he, rfl⟩ := Option.map_eq_some_iff.mp he'
  have hid : e.id = k := Shared.client?_id he
  rw [hclient] at he
  split at he
  · -- The newcomer: nothing is queued for it after its `AuthOk`.
    obtain rfl := Option.some.inj he
    have hsilent : f info = [] := by rw [← hf]; exact if_pos rfl
    obtain ⟨session, hsession, h₁, h₂, h₃, h₄⟩ : ∃ session,
        readVerdict hello (.control (.authOk (t.authOk info))) = .ok session ∧ session.clientId = info.clientId ∧
          session.channels = t.visibleChannels info ∧ session.users = t.users ∧ session.roles = t.rolesSnapshot :=
      ⟨_, rfl, rfl, rfl, rfl, rfl⟩
    refine ⟨(PermMirror.fromSession info.fingerprint session).read (f info), ?_, ?_⟩
    · exact clientMirror_login ((loginOf_push ..).trans (if_pos rfl)) hsession
    · rw [hsilent]
      refine inTouch_session (hc.deliver f) (hperms ▸ hroles) (hchannels ▸ hrooms) ?_ h₁ h₂ ?_ h₄
      · exact (hjoined _).trans (if_pos rfl)
      · rw [Shared.deliver_users]
        exact h₃
  · -- Everyone else hears of the newcomer.
    rename_i hk
    have hjoin : f e.info = [.userJoined info] := by
      rw [← hf]
      exact if_neg fun hsame => hk (hid.symm.trans (Option.some.inj hsame))
    obtain ⟨p, hp, hin⟩ := h.mirrors k e he
    refine ⟨p.read (f e.info), clientMirror_push ((clientMirror_wire ?_).trans hp) rfl rfl rfl, ?_⟩
    · rw [loginOf_push, hid]
      exact if_neg (Ne.symm hk)
    · rw [hjoin]
      refine hin.step (hc.deliver f) (j := e.info) ?_ rfl rfl [] (by simp) hin.ids ?_ ?_ (.inl hin.mine)
        (fun id => .inl ?_) fun k' u hu => ?_
      · rw [hjoined, show e.info.clientId = k from hid, if_neg hk, Shared.user, he]
        rfl
      · intro r
        rw [show (t.deliver f).perms = s.perms from hperms]
        exact hin.roles r
      · intro m hm
        obtain rfl := List.mem_singleton.mp hm
        exact (hjoined _).trans (if_pos rfl)
      · exact Shared.view_of_standing (t := t.deliver f) hperms hchannels (.refl _) id
      · rw [hjoined] at hu
        split at hu
        · rename_i hk'
          exact .inr ⟨_, List.mem_singleton_self _, _, by rw [hk']; rfl⟩
        · exact .inl ⟨u, hu, .refl u⟩

theorem Shown.greeted {w : World} (h : Shown hello s w.wire) (hroles : Keyed.Unique Role.id s.perms.roles)
    (hrooms : Keyed.Unique Channel.id s.channels) {y : Shared × World} (hg : Greeted s w y) :
    Shown hello y.1 y.2.wire := by
  cases hg with
  | rejected hwire =>
    refine ⟨h.coherent, fun k e he => ?_⟩
    obtain ⟨p, hp, hin⟩ := h.mirrors k e he
    exact ⟨p, (clientMirror_wire (hwire _)).trans hp, hin⟩
  | vanished ht => exact h.vanished ht
  | greeted ht => exact h.admitted hroles hrooms ht

end

/-! ## Inputs that are no command of roles or channels -/

section
variable {hello : ServerHello} {s t : Shared} {wire : List ServerControl}

/-- Entries keep their standing and are queued nothing. -/
theorem Shown.of_map (h : Shown hello s wire) (hperms : t.perms = s.perms) (howner : t.owner = s.owner)
    (hchannels : t.channels = s.channels) {f : ConnectedClient → ConnectedClient}
    (hclients : t.clients = s.clients.map f) (hf : ∀ e, SameStanding e.info (f e).info ∧ (f e).control = e.control) :
    Shown hello t wire := by
  have hc := h.coherent.of_map hperms howner hclients fun e => (hf e).1
  refine h.told hc hperms hchannels fun k e' he' => ?_
  have hid : ∀ e, (f e).id = e.id := fun e => (hf e).1.clientId
  have hget : t.client? k = (s.client? k).map f := by
    unfold Shared.client?
    rw [hclients]
    exact Keyed.get_map hid k s.clients
  obtain ⟨e, he, rfl⟩ := Option.map_eq_some_iff.mp (hget.symm.trans he')
  exact ⟨e, [], he, (hf e).1, (hf e).2.trans (List.append_nil _).symm, by simp⟩

theorem Shown.removed (h : Shown hello s wire) (k : ClientId) : Shown hello (s.remove k).2 wire := by
  refine h.told ((KeepsSessions.tame.removed s k).2 h.coherent) rfl rfl fun k' e' he' => ?_
  have hgot := (Keyed.get_erase k' k s.clients).symm.trans he'
  split at hgot
  · cases hgot
  · exact ⟨e', [], hgot, .refl _, (List.append_nil _).symm, by simp⟩

theorem Shared.Bears.tells {m : ServerControl} (h : s.Bears m) (i : UserInfo) : s.Tells i m := by
  cases m with
  | userJoined | userUpdated | userLeft => exact h
  | channelCreated | channelUpdated | channelRemoved => cases h
  | roleCreated | roleUpdated | roleDeleted | rolesReordered => cases h
  | _ => trivial

theorem shown_gentle (hello : ServerHello) : Gentle fun s w => Shown hello s w.wire where
  delivered _ hf h := h.deliver fun _ e _ m hm => (hf e.info m hm).tells e.info
  removed k h := h.removed k
  edited k f hf h := by
    refine h.of_map rfl rfl rfl rfl fun e => ?_
    split
    · exact ⟨hf e.info, rfl⟩
    · exact ⟨.refl _, rfl⟩
  voiced k packet h := by
    unfold Shared.relayVoice
    repeat' split
    all_goals first | exact h | refine h.of_map rfl rfl rfl rfl fun e => ?_
    split <;> exact ⟨⟨rfl, rfl, rfl, rfl⟩, rfl⟩
  numbered h := h.of_map rfl rfl rfl (List.map_id _).symm fun _ => ⟨.refl _, rfl⟩
  ticked _ h := h.of_map rfl rfl rfl (List.map_id _).symm fun _ => ⟨.refl _, rfl⟩

theorem shown_allows (hello : ServerHello) (call : StoreWrite) : Allows (fun s w => Shown hello s w.wire) call :=
  fun _ _ _ _ h => h

end

end PickleChat
