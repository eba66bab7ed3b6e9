import PickleChat.TabLists

/-!
# Every tab lists what is there

Inputs handled one after another, any operation failing, and restarts. Once a
tab has reduced all that its client was sent, it lists exactly who is connected
and the channels its client may view, each as the server has it.
-/

namespace PickleChat

open Async (Run exec)

/-! ## Commands -/

theorem acks_quiet {client : ClientId} {nonce : UInt64} {i : UserInfo} :
    ∀ m ∈ acks client nonce i, m.aboutUsers = false ∧ m.update? = none := by
  intro m hm
  unfold acks at hm
  split at hm
  · rw [List.mem_singleton.mp hm]
    exact ⟨rfl, rfl⟩
  · cases hm

section
variable {s t : Shared} {g : ConnectedClient → ConnectedClient}

/-- News of entries as they are now, each change among it. -/
structure Announces (s : Shared) (g : ConnectedClient → ConnectedClient) (told : List ServerControl) : Prop where
  so : ∀ m ∈ told, ∃ e ∈ s.clients, m = .userUpdated (g e).info ∨
    ∃ source dest, m = .userMoved e.id source dest ∧ (g e).info = { e.info with channel := dest }
  all : ∀ e ∈ s.clients, .userUpdated (g e).info ∈ told ∨ (g e).info = e.info

theorem Announces.none (s : Shared) : Announces s (fun e => e) [] := ⟨by simp, fun _ _ => .inr rfl⟩

theorem Announces.updated {infos : List UserInfo} (hso : ∀ u ∈ infos, ∃ e ∈ s.clients, (g e).info = u)
    (hall : ∀ e ∈ s.clients, (g e).info ∈ infos ∨ g e = e) : Announces s g (infos.map .userUpdated) := by
  refine ⟨fun m hm => ?_, fun e he => ?_⟩
  · obtain ⟨u, hu, rfl⟩ := List.mem_map.mp hm
    obtain ⟨e, he, rfl⟩ := hso u hu
    exact ⟨e, he, .inl rfl⟩
  · rcases hall e he with hin | hsame
    · exact .inl (List.mem_map_of_mem hin)
    · exact .inr (congrArg ConnectedClient.info hsame)

/-- Whoever stood in a channel that is removed is announced. -/
theorem evicted {id : ChannelId} {c : Channel} (hchannel : s.channel id = some c) :
    ∃ g, Recast s (s.removeChannelMem id).2 g ∧ Announces s g ((s.removeChannelMem id).1.flatMap fun i =>
      [.userMoved i.clientId (some id) none, .userUpdated i]) := by
  have hremove : s.removeChannelMem id =
      ((s.clients.filter fun e => e.info.channel = some id).map fun e => { e.info with channel := none },
        { s with
          channels := Keyed.erase Channel.id id s.channels
          clients := s.clients.map fun e =>
            if e.info.channel = some id then { e with info := { e.info with channel := none } } else e }) := by
    unfold Shared.removeChannelMem
    rw [hchannel]
  rw [hremove]
  refine ⟨_, ⟨rfl, fun e => ?_, fun e => ?_, fun e => ?_, fun e => ?_⟩, fun m hm => ?_, fun e he => ?_⟩
  · split <;> rfl
  · split <;> rfl
  · split <;> rfl
  · split <;> rfl
  · obtain ⟨i, hi, hm⟩ := List.mem_flatMap.mp hm
    obtain ⟨e, he, rfl⟩ := List.mem_map.mp hi
    obtain ⟨he, hin⟩ := List.mem_filter.mp he
    rw [decide_eq_true_eq] at hin
    refine ⟨e, he, ?_⟩
    rw [if_pos hin]
    simp only [List.mem_cons, List.not_mem_nil, or_false] at hm
    rcases hm with rfl | rfl
    · exact .inr ⟨_, _, rfl, rfl⟩
    · exact .inl rfl
  · by_cases hin : e.info.channel = some id
    · rw [if_pos hin]
      refine .inl (List.mem_flatMap.mpr ⟨{ e.info with channel := none }, ?_, by simp⟩)
      exact List.mem_map.mpr ⟨e, List.mem_filter.mpr ⟨he, decide_eq_true hin⟩, rfl⟩
    · rw [if_neg hin]
      exact .inr rfl

theorem Announces.update? {told : List ServerControl} (h : Announces s g told) : ∀ m ∈ told, m.update? = .none := by
  intro m hm
  obtain ⟨e, -, rfl | ⟨source, dest, rfl, -⟩⟩ := h.so m hm <;> rfl

theorem Announces.entryAfter {told : List ServerControl} (h : Announces s g told) (hg : Recast s t g)
    (hids : Keyed.Unique ConnectedClient.id s.clients) (k : ClientId) :
    entryAfter k told (s.user k) = t.user k := by
  rw [hg.user]
  unfold Shared.user
  cases he : s.client? k with
  | none =>
    refine foldl_idle fun m hm => ?_
    obtain ⟨e, -, rfl | ⟨source, dest, rfl, -⟩⟩ := h.so m hm <;> exact ite_self _
  | some e =>
    have hid : e.id = k := Keyed.get_key he
    have mine : ∀ e' ∈ s.clients, k = e'.id → e' = e := fun e' he' hk =>
      Keyed.eq_of_key hids he' (Keyed.get_mem he) (hk.symm.trans hid.symm)
    have step : ∀ m ∈ told, m.onUser k (some (g e).info) = some (g e).info ∧
        (m.onUser k (some e.info) = some (g e).info ∨ m.onUser k (some e.info) = some e.info) := by
      intro m hm
      obtain ⟨e', he', rfl | ⟨source, dest, rfl, hdest⟩⟩ := h.so m hm
      · simp only [ServerControl.onUser]
        rw [show (g e').info.clientId = e'.id from hg.id e']
        by_cases hk : k = e'.id
        · obtain rfl := mine e' he' hk
          simp [hk]
        · simp [hk]
      · simp only [ServerControl.onUser]
        by_cases hk : k = e'.id
        · obtain rfl := mine e' he' hk
          simp [hk, hdest]
        · simp [hk]
    refine foldl_reaches (fun m hm => (step m hm).1) (fun m hm => (step m hm).2) ?_
    rcases h.all e (Keyed.get_mem he) with hin | hsame
    · refine .inr ⟨_, hin, ?_⟩
      exact if_pos (hid.symm.trans (hg.id e).symm)
    · exact .inl (congrArg some hsame.symm)

/-- A resync updates what was seen before and is seen now. -/
theorem resync_timely (hu : Keyed.Unique ConnectedClient.id s.clients) {k : ClientId} {e e' : ConnectedClient}
    (he : s.client? k = some e) (he' : t.client? k = some e') (touched : List ChannelId)
    (hrooms : Keyed.Unique Channel.id s.channels) {c : Channel}
    (hc : .channelUpdated c ∈ t.resync s.visibleIdsByClient touched e'.info) :
    (s.view e.info c.id).isSome = true ∧
      .channelRemoved c.id ∉ t.resync s.visibleIdsByClient touched e'.info := by
  rw [Shared.resync_eq hu he he'] at hc ⊢
  have hboth : c.id ∈ s.visibleIds e.info ∧ c.id ∈ t.visibleIds e'.info := by
    simp only [Shared.resyncFrames, List.mem_append, List.mem_filterMap, List.mem_map, List.mem_filter] at hc
    rcases hc with (⟨id, -, hc⟩ | ⟨id, -, hc⟩) | ⟨id, ⟨-, hid⟩, hc⟩
    · obtain ⟨c', -, hc⟩ := Option.map_eq_some_iff.mp hc
      cases hc
    · cases hc
    · obtain ⟨c', hget, hc⟩ := Option.map_eq_some_iff.mp hc
      obtain rfl := ServerControl.channelUpdated.inj hc
      rw [show c'.id = id from Keyed.get_key hget]
      simpa using hid
  refine ⟨(Shared.mem_visibleIds hrooms).mp hboth.1, fun hremoved => ?_⟩
  simp only [Shared.resyncFrames, List.mem_append, List.mem_filterMap, List.mem_map, List.mem_filter] at hremoved
  rcases hremoved with (⟨id, -, hc⟩ | ⟨id, ⟨-, hid⟩, hc⟩) | ⟨id, -, hc⟩
  · obtain ⟨c', -, hc⟩ := Option.map_eq_some_iff.mp hc
    cases hc
  · obtain rfl := ServerControl.channelRemoved.inj hc
    simp [hboth.2] at hid
  · obtain ⟨c', -, hc⟩ := Option.map_eq_some_iff.mp hc
    cases hc

end

section
variable {hello : ServerHello} {s t : Shared} {wire : List ServerControl} (h : TabsShow hello s wire)
include h

/-- A command that ends in a resync. -/
theorem TabsShow.resynced {g : ConnectedClient → ConnectedClient} (hg : Recast s t g)
    (hrooms : Keyed.Unique Channel.id s.channels) {news told : List ServerControl}
    (hnews : ∀ m ∈ news, m.aboutRoles = true) (htold : Announces s g told) {touched : List ChannelId}
    {client : ClientId} {nonce : UInt64}
    (ht : Shown hello (t.deliver fun i =>
      news ++ told ++ t.resync s.visibleIdsByClient touched i ++ acks client nonce i) wire) :
    TabsShow hello (t.deliver fun i =>
      news ++ told ++ t.resync s.visibleIdsByClient touched i ++ acks client nonce i) wire := by
  have hids := h.shown.coherent.ids
  have news_quiet : ∀ m ∈ news, m.aboutUsers = false ∧ m.update? = none := by
    intro m hm
    have habout := hnews m hm
    cases m <;> first | exact ⟨rfl, rfl⟩ | cases habout
  have resync_quiet : ∀ i, ∀ m ∈ t.resync s.visibleIdsByClient touched i, m.aboutUsers = false := by
    intro i m hm
    rcases Shared.mem_resync hm with ⟨id, rfl⟩ | ⟨_, _, _, _, _, _, rfl | rfl⟩ <;> rfl
  refine h.told hg ht fun k e he => ?_
  have he' : t.client? k = some (g e) := by
    rw [hg.client?, he]
    rfl
  -- Only the resync says anything about channels.
  have named : ∀ m ∈ news ++ told ++ t.resync s.visibleIdsByClient touched (g e).info ++ acks client nonce (g e).info,
      m.update? ≠ none → m ∈ t.resync s.visibleIdsByClient touched (g e).info := by
    intro m hm hu
    rcases List.mem_append.mp hm with hm | hm
    · rcases List.mem_append.mp hm with hm | hm
      · rcases List.mem_append.mp hm with hm | hm
        · exact absurd (news_quiet m hm).2 hu
        · exact absurd (htold.update? m hm) hu
      · exact hm
    · exact absurd (acks_quiet m hm).2 hu
  refine ⟨fun j => ?_, fun c hc => ?_⟩
  · rw [entryAfter_append, entryAfter_append, entryAfter_append, entryAfter_quiet fun m hm => (news_quiet m hm).1,
      htold.entryAfter hg hids, entryAfter_quiet (resync_quiet _), entryAfter_quiet fun m hm => (acks_quiet m hm).1]
  · obtain ⟨hseen, hkept⟩ := resync_timely hids he he' touched hrooms (named _ hc (by simp [ServerControl.update?]))
    exact ⟨hseen, fun hremoved => hkept (named _ hremoved (by simp [ServerControl.update?]))⟩

end

section
variable {perform : (op : Await) → World → op.Reply × World} (hf : Faulty perform) {hello : ServerHello} {s : Shared}
  {w : World} {client : ClientId} {nonce : UInt64}
include hf

/-- A command that passed its checks: the tabs are told whatever was saved. -/
theorem Passes.tabs {cmd : RoleCommand} {a : Actor} {next : PermState} {save : Todo}
    (hp : Passes s client nonce a cmd next save) (h : TabsShow hello s w.wire) (hi : RolesIntact s.perms w.db)
    (hrooms : Keyed.Unique Channel.id s.channels) :
    TabsShow hello (save.run perform s w).1 (save.run perform s w).2.wire := by
  have hrefused : ∀ {detail}, TabsShow hello (refuse s client nonce .internal detail) w.wire := fun {detail} =>
    (tabsShow_candid hello).refused (w := w) (.refuse ..) h
  have ht := hp.shown hf h.shown hi hrooms
  revert ht
  cases hp with
  | create =>
    unfold createRoleSave
    simp only [run_onSaved]
    split <;> simp only [Async.Task.run_done, hf.save_wire]
    swap
    · exact fun _ => hrefused
    split <;> simp only [hf.save_wire]
    swap
    · exact fun _ => hrefused
    rw [createRoleSwap_eq]
    intro ht
    refine h.quiet (.swap s _) (fun _ => rfl) ht fun i m hm => ?_
    rcases List.mem_append.mp hm with hm | hm
    · simp only [List.mem_cons, List.not_mem_nil, or_false] at hm
      rcases hm with rfl | rfl <;> exact ⟨rfl, rfl⟩
    · exact acks_quiet m hm
  | @update _ _ _ _ _ updated =>
    unfold updateRoleSave
    simp only [run_onSaved]
    split <;> simp only [Async.Task.run_done, hf.save_wire]
    swap
    · exact fun _ => hrefused
    rw [updateRoleSwap_eq]
    have hnews : ∀ m ∈ [ServerControl.roleUpdated updated], m.aboutRoles = true := by simp [ServerControl.aboutRoles]
    exact h.resynced (.swap s _) hrooms hnews (.none s)
  | @delete id =>
    unfold deleteRoleSave
    simp only [run_onSaved, run_onWritten]
    split <;> simp only [Async.Task.run_done, hf.save_wire]
    swap
    · exact fun _ => hrefused
    rw [deleteRoleSwap_eq]
    obtain ⟨g, hg, hso, hall⟩ : ∃ g, Recast s (s.withoutRole s.perms id) g ∧
        (∀ u ∈ (s.stripLiveRole id).1, ∃ e ∈ s.clients, (g e).info = u) ∧
        ∀ e ∈ s.clients, (g e).info ∈ (s.stripLiveRole id).1 ∨ ¬ id ∈ e.info.roles ∧ g e = e :=
      Recast.edited (fun i => { i with roles := i.roles.filter (· ≠ id) }) (fun _ => ⟨rfl, rfl, rfl⟩) rfl rfl
    exact h.resynced hg hrooms (by simp [ServerControl.aboutRoles])
      (.updated hso fun e he => (hall e he).imp_right And.right)
  | reorder =>
    unfold reorderRolesSave
    simp only [run_onSaved]
    split <;> simp only [Async.Task.run_done, hf.save_wire]
    swap
    · exact fun _ => hrefused
    rw [reorderRolesSwap_eq]
    intro ht
    refine h.quiet (.swap s _) (fun _ => rfl) ht fun i m hm => ?_
    rcases List.mem_append.mp hm with hm | hm
    · rw [List.mem_singleton.mp hm]
      exact ⟨rfl, rfl⟩
    · exact acks_quiet m hm
  | @grant f roles =>
    unfold setMemberRolesSave
    simp only [run_onSaved]
    split <;> simp only [Async.Task.run_done, hf.save_wire]
    swap
    · exact fun _ => hrefused
    rw [setMemberRolesSwap_eq]
    obtain ⟨g, hg, hso, hall⟩ : ∃ g, Recast s (s.withGrants s.perms f roles) g ∧
        (∀ u ∈ (s.updateLiveMemberRoles f roles).1, ∃ e ∈ s.clients, (g e).info = u) ∧
        ∀ e ∈ s.clients, (g e).info ∈ (s.updateLiveMemberRoles f roles).1 ∨ ¬ e.info.fingerprint = f ∧ g e = e :=
      Recast.edited (fun i => { i with roles }) (fun _ => ⟨rfl, rfl, rfl⟩) rfl rfl
    have hnews : ∀ m ∈ ([] : List ServerControl), m.aboutRoles = true := by simp
    exact h.resynced hg hrooms hnews (.updated hso fun e he => (hall e he).imp_right And.right)

theorem RoleCommand.tabs {cmd : RoleCommand} (h : TabsShow hello s w.wire) (hi : RolesIntact s.perms w.db)
    (hrooms : Keyed.Unique Channel.id s.channels) :
    TabsShow hello (exec perform (cmd.handle client nonce) s w).1
      (exec perform (cmd.handle client nonce) s w).2.wire := by
  unfold exec
  rcases handle_cases (rfl : cmd.handle client nonce s = _) with ⟨hd, hr⟩ | ⟨a, next, save, -, -, hp, he⟩
  · rw [hd]
    exact (tabsShow_candid hello).refused (w := w) hr h
  · rw [he]
    exact hp.tabs hf h hi hrooms

theorem ChannelCommand.tabs {cmd : ChannelCommand} (h : TabsShow hello s w.wire) (hx : RoomsStored (s, w)) :
    TabsShow hello (exec perform (cmd.handle client nonce) s w).1
      (exec perform (cmd.handle client nonce) s w).2.wire := by
  have hrooms : Keyed.Unique Channel.id s.channels := .of_sorted hx.sorted
  have hnews : ∀ m ∈ ([] : List ServerControl), m.aboutRoles = true := by simp
  have ht : Shown hello (exec perform (cmd.handle client nonce) s w).1
      (exec perform (cmd.handle client nonce) s w).2.wire := ChannelCommand.shown hf h.shown hx
  rcases cmd.exec_cases hf s w client nonce with ⟨hr, hw⟩ | ⟨c, db, -, hp, -, he⟩
  · rw [hw]
    exact (tabsShow_candid hello).refused hr h
  · rw [he] at ht ⊢
    have rooms_only : ∀ {t : Shared} {touched}, t.clients = s.clients →
        Shown hello (t.deliver fun i => t.resync s.visibleIdsByClient touched i ++ acks client nonce i) w.wire →
        TabsShow hello (t.deliver fun i => t.resync s.visibleIdsByClient touched i ++ acks client nonce i) w.wire :=
      fun hc ht => h.resynced (.of_clients hc) hrooms hnews (.none s) ht
    cases hp with
    | setOverwrite => exact rooms_only rfl ht
    | deleteOverwrite => exact rooms_only rfl ht
    | create => exact rooms_only rfl ht
    | update => exact rooms_only rfl ht
    | @delete id _ hview =>
      obtain ⟨room, hroom, hid⟩ := can_channel hview
      have hget : s.channel id = some room := hid ▸ Keyed.get_of_mem hrooms hroom
      obtain ⟨g, hg, htold⟩ := evicted hget
      exact h.resynced hg hrooms hnews htold ht

end

/-! ## Handshakes -/

section
variable {hello : ServerHello} {s t : Shared} {w : World}

theorem Carries.refl (s : Shared) (i : UserInfo) : Carries s s i [] := ⟨fun _ => rfl, by simp⟩

theorem tab_login {hello : ServerHello} {wire : List ServerControl} {e : ConnectedClient} {ok : AuthOk}
    {login : SessionInfo} (hlogin : loginOf wire e.id = some ok)
    (hsession : readVerdict hello (.control (.authOk ok)) = .ok login) : loginSession hello wire e = some login := by
  unfold loginSession
  rw [hlogin]
  simp only [Option.bind_eq_bind, Option.bind_some, hsession, Except.toOption]

/-- What a login lists is what is there. -/
theorem Lists.login (hids : Keyed.Unique ConnectedClient.id t.clients) (hrooms : Keyed.Unique Channel.id t.channels)
    {info : UserInfo} {login : SessionInfo} (husers : login.users = t.users)
    (hchannels : login.channels = t.visibleChannels info) : Lists t info login.picture := by
  unfold SessionInfo.picture
  rw [husers, hchannels]
  refine ⟨?_, fun k => Keyed.get_map (fun _ => rfl) k t.clients, hrooms.filter _, ?_, rfl⟩
  · unfold Keyed.Unique Shared.users
    rw [List.map_map]
    exact hids
  · exact Shared.listed_visibleChannels hrooms

theorem TabsShow.admitted (h : TabsShow hello s w.wire) {identity : PublicIdentity} {nickname : String}
    {info : UserInfo} (hrooms : Keyed.Unique Channel.id s.channels)
    (ha : s.admitUser identity nickname = .ok (info, t)) {wire : List ServerControl}
    (hwire : wire = w.wire ++ [.authOk (t.authOk info)])
    (ht : Shown hello (t.broadcast (.userJoined info) (some info.clientId)) wire) :
    TabsShow hello (t.broadcast (.userJoined info) (some info.clientId)) wire := by
  have hclient := admitted_client? ha
  refine ⟨ht, fun k e' he' => ?_⟩
  have hids := ht.coherent.ids
  have hget := he'
  rw [Shared.broadcast_eq, Shared.deliver_client?, hclient] at hget
  obtain ⟨e, he, rfl⟩ := Option.map_eq_some_iff.mp hget
  have hid : e.id = k := Shared.client?_id ((hclient k).trans he)
  by_cases hk : k = info.clientId
  · -- The newcomer: nothing is queued for it after its `AuthOk`.
    rw [if_pos hk] at he
    obtain rfl := Option.some.inj he
    have hsilent : (if some info.clientId = some info.clientId then [] else [ServerControl.userJoined info]) = [] :=
      if_pos rfl
    obtain ⟨login, hsession, husers, hchannels⟩ : ∃ login,
        readVerdict hello (.control (.authOk (t.authOk info))) = .ok login ∧ login.users = t.users ∧
          login.channels = t.visibleChannels info := ⟨_, rfl, rfl, rfl⟩
    refine ⟨login, tab_login ?_ hsession, ?_⟩
    · rw [hwire, loginOf_push]
      exact if_pos rfl
    · have hlists : Lists (t.broadcast (.userJoined info) (some info.clientId)) info login.picture := by
        rw [Shared.broadcast_eq] at hids ⊢
        refine .login hids ?_ (by rw [Shared.deliver_users, husers]) hchannels
        obtain ⟨-, -, -, -, -, -, rfl⟩ := Shared.admitUser_ok ha
        exact hrooms
      change Lists _ info (login.picture.read ([] ++ if some info.clientId = some info.clientId then []
        else [ServerControl.userJoined info]))
      rw [hsilent]
      exact hlists
  · -- Everyone else hears of the newcomer.
    rw [if_neg hk] at he
    have hjoin : (if some e.info.clientId = some info.clientId then [] else [ServerControl.userJoined info]) =
        [.userJoined info] := if_neg fun hsame => hk (hid.symm.trans (Option.some.inj hsame))
    have husers : ∀ j, entryAfter j [.userJoined info] (s.user j) =
        (t.broadcast (.userJoined info) (some info.clientId)).user j := by
      intro j
      rw [Shared.broadcast_eq, user_deliver]
      unfold Shared.user
      rw [hclient]
      change (if j = info.clientId then _ else _) = _
      split <;> rfl
    have hcarries := Carries.of_users husers (by simp [ServerControl.update?]) e.info
    refine h.follow ht he he' rfl (congrArg (e.control ++ ·) hjoin) hcarries ?_
    rw [hwire, loginOf_push]
    exact if_neg (Ne.symm hk)

theorem TabsShow.greeted (h : TabsShow hello s w.wire) (hroles : Keyed.Unique Role.id s.perms.roles)
    (hrooms : Keyed.Unique Channel.id s.channels) (hfree : s.client? s.nextClientId = none) {y : Shared × World}
    (hg : Greeted s w y) : TabsShow hello y.1 y.2.wire := by
  have ht := h.shown.greeted hroles hrooms hg
  cases hg with
  | rejected hwire =>
    exact ⟨ht, fun k e he => h.follow ht he he rfl (List.append_nil _).symm (.refl s _) (hwire k)⟩
  | vanished ha =>
    -- The entry goes again, and nobody had its id.
    rename_i identity nickname info t
    have hclient : ∀ k, (t.remove info.clientId).2.client? k = s.client? k := by
      intro k
      have hid := (Shared.admitUser_ok ha).1
      refine (Keyed.get_erase k info.clientId t.clients).trans ?_
      by_cases hk : k = info.clientId
      · rw [if_pos hk, hk, hid, hfree]
      · rw [if_neg hk]
        exact (admitted_client? ha k).trans (if_neg hk)
    refine ⟨ht, fun k e he => ?_⟩
    refine h.follow ht ((hclient k).symm.trans he) he rfl (List.append_nil _).symm ⟨fun j => ?_, by simp⟩ rfl
    exact congrArg (Option.map ConnectedClient.info) (hclient j).symm
  | greeted ha => exact h.admitted hrooms ha rfl ht

end

/-! ## Every input -/

/-- Client ids come round: no newcomer gets the id of a client that is there. -/
def IdSpare (x : Shared × World) (e : Happening) : Prop :=
  ∀ auth, e = .input (.connect auth) → x.1.client? x.1.nextClientId = none

theorem Input.tabs {hello : ServerHello} {x y : Shared × World} {i : Input} (h : TabsShow hello x.1 x.2.wire)
    (hx : RoomsStored x) (hr : RolesIntact x.1.perms x.2.db) (hfree : IdSpare x (.input i))
    (hst : HandledStep x i y) : TabsShow hello y.1 y.2.wire := by
  obtain ⟨perform, hf, rfl⟩ := hst
  obtain ⟨s, w⟩ := x
  have hI := tabsShow_candid hello
  have hrooms : Keyed.Unique Channel.id s.channels := .of_sorted hx.sorted
  have quiet : ∀ client frame, (frame.plain = true ∨
      ∃ channel content replyTo nonce, frame = .sendMessage channel content replyTo nonce) →
      TabsShow hello (serve perform (.control client frame) s w).1
        (serve perform (.control client frame) s w).2.wire := by
    intro client frame hframe
    refine (control_upholds hI hf (fun _ _ _ _ _ b => tabsShow_allows hello _)
      (fun _ _ _ => tabsShow_allows hello _) ?_).exec h
    exact hframe.imp_right fun hm => ⟨fun m => tabsShow_allows hello _, hm⟩
  cases i with
  | connect auth => exact h.greeted hr.ids hrooms (hfree auth rfl) (greeted_handshake hf s w auth)
  | control client frame =>
    rcases frame.kinds with ⟨nonce, cmd, rfl⟩ | ⟨nonce, cmd, rfl⟩ | hm | hp
    · rw [serve_role]
      exact RoleCommand.tabs hf h hr hrooms
    · rw [serve_channel]
      exact ChannelCommand.tabs hf h hx
    · exact quiet client frame (.inr hm)
    · exact quiet client frame (.inl hp)
  | voice client packet =>
    have hkeeps : Upholds _ perform _ := voice_upholds hI client packet
    exact hkeeps.exec h
  | disconnect client =>
    have hkeeps : Upholds _ perform _ := disconnect_upholds hI client
    exact hkeeps.exec h
  | tick now =>
    have hkeeps : Upholds _ perform _ := tick_upholds hI now
    exact hkeeps.exec h

/-! ## Whole runs -/

/-- What holds of every state of a run. -/
structure AllListed (hello : ServerHello) (x : Shared × World) : Prop where
  tabs : TabsShow hello x.1 x.2.wire
  rooms : RoomsStored x
  roles : RolesIntact x.1.perms x.2.db

theorem AllListed.bind {hello : ServerHello} {config : ServerConfig} {now : UInt64} {db : Db} {y : Shared × World}
    (h : Server.bind config now db = some (y.1, y.2.db)) (hrows : RowsWritten db) (hgrants : GrantTables db) :
    AllListed hello y := by
  obtain ⟨hshown, hrooms, hroles⟩ := InStepWithAll.bind hello h hrows hgrants
  refine ⟨⟨hshown, fun k e he => ?_⟩, hrooms, hroles⟩
  rw [Shared.client?, bind_nobody h] at he
  cases he

theorem AllListed.step {hello : ServerHello} {x y : Shared × World} {e : Happening} (h : AllListed hello x)
    (hfree : IdSpare x e) (hst : LifeStep x e y) : AllListed hello y := by
  cases e with
  | input i =>
    exact ⟨Input.tabs h.tabs h.rooms h.roles hfree hst, (Input.rooms h.rooms hst).1, Input.intact h.roles hst⟩
  | restart config now => exact .bind hst h.rooms.written h.roles.tables

/-! ## On the screen -/

theorem Picture.after_spoken (p : Picture) (events : List ClientEvent) :
    events.foldl Picture.after p = (events.filter fun event => !event.isVoice).foldl Picture.after p := by
  induction events generalizing p with
  | nil => rfl
  | cons event events ih =>
    rw [List.foldl_cons, ih, List.filter_cons]
    cases event <;> rfl

theorem Lists.shown {s : Shared} {i : UserInfo} {p : Picture} (h : Lists s i p)
    (hids : Keyed.Unique ConnectedClient.id s.clients) (hrooms : Keyed.Unique Channel.id s.channels) :
    p.users.Perm s.users ∧ p.channels.Perm (s.visibleChannels i) := by
  have hget : ∀ k, s.user k = Keyed.get UserInfo.clientId k s.users := fun k =>
    (Keyed.get_map (fun _ => rfl) k s.clients).symm
  have hunique : Keyed.Unique UserInfo.clientId s.users := by
    unfold Keyed.Unique Shared.users
    rw [List.map_map]
    exact hids
  constructor
  · exact Keyed.perm_of_get h.userIds hunique fun k => (h.users k).trans (hget k)
  · refine Keyed.perm_of_get h.channelIds (hrooms.filter _) fun id => ?_
    have hlisted := h.channels.trans (Shared.listed_visibleChannels hrooms).symm
    exact congrFun hlisted id

/-- A tab that has reduced all that the server queued for its client, whatever else happened in the frontend. -/
theorem AllListed.listed {hello : ServerHello} {x : Shared × World} (h : AllListed hello x) {k : ClientId}
    {e : ConnectedClient} (he : x.1.client? k = some e) :
    ∃ login, loginSession hello x.2.wire e = some login ∧
      ∀ sha256 session tabs o,
        Run Opening.Step Opening.InTime (.start sha256 session e.info.fingerprint login tabs) o →
        o.stage = .opened → o.emitted = [] → o.inbox = [] →
        o.taken.filter (fun event => !event.isVoice) = e.control.filterMap translate →
        ∃ c, o.tabs.byId session = some c ∧ c.disconnected = none ∧ c.users.Perm (x.1.users.map .of) ∧
          c.channels.Perm ((x.1.visibleChannels e.info).map .of) := by
  obtain ⟨login, hlogin, hlists⟩ := h.tabs.tabs k e he
  refine ⟨login, hlogin, fun sha256 session tabs o ho hopened hreduced hread hall => ?_⟩
  have hcatches : CatchesUp o ∧ o.session = session ∧ o.login = login := by
    refine ho.invariant (fun o => CatchesUp o ∧ o.session = session ∧ o.login = login) ⟨.start .., rfl, rfl⟩ ?_
    rintro o l o' ⟨hi, rfl, rfl⟩ hok hl
    exact ⟨hi.step hok hl, Opening.exec_frame hl⟩
  obtain ⟨hcatches, rfl, rfl⟩ := hcatches
  obtain ⟨c, hc, hshown⟩ := hcatches.shown
  simp only [Opening.tab, if_pos hopened] at hc
  rw [hreduced, Picture.after_spoken, hall] at hshown
  obtain ⟨husers, hchannels⟩ := hlists.shown h.tabs.shown.coherent.ids (.of_sorted h.rooms.sorted)
  have hlisted : c.lists = (o.login.picture.read e.control).dto := hshown
  simp only [ConnectionState.lists, Picture.dto, Prod.mk.injEq] at hlisted
  obtain ⟨hu, hch, hend⟩ := hlisted
  refine ⟨c, hc, hend.trans hlists.disconnected, ?_, ?_⟩
  · rw [hu]
    exact husers.map _
  · rw [hch]
    exact hchannels.map _

/-- In every run from a first start, whatever fails on the way and however often the server restarts,
a tab that has reduced all that the server queued for its client lists exactly the users that are
connected and the channels that the client may view, whatever else happened in the frontend. -/
theorem tabs_list_all {config : ServerConfig} {now : UInt64} {x₀ x : Shared × World}
    (hstart : Server.bind config now .empty = some (x₀.1, x₀.2.db)) (hrun : Run LifeStep IdSpare x₀ x)
    (hello : ServerHello) {k : ClientId} {e : ConnectedClient} (he : x.1.client? k = some e) :
    ∃ login, loginSession hello x.2.wire e = some login ∧
      ∀ sha256 session tabs o,
        Run Opening.Step Opening.InTime (.start sha256 session e.info.fingerprint login tabs) o →
        o.stage = .opened → o.emitted = [] → o.inbox = [] →
        o.taken.filter (fun event => !event.isVoice) = e.control.filterMap translate →
        ∃ c, o.tabs.byId session = some c ∧ c.disconnected = none ∧ c.users.Perm (x.1.users.map .of) ∧
          c.channels.Perm ((x.1.visibleChannels e.info).map .of) := by
  have h₀ : AllListed hello x₀ := .bind hstart nofun .empty
  have h := hrun.invariant (AllListed hello) h₀ fun _ _ _ hi hfree hst => hi.step hfree hst
  exact h.listed he

def openHello : ServerHello :=
  ⟨protocolVersion, "s", ⟨.replicate 32 0, 0⟩, .replicate 32 0, 0, false, ⟨.replicate 32 0, []⟩⟩

/-- All frames come in, the tab opens, and what the pump makes of them is reduced. -/
def watchSteps (frames : List ServerControl) (emitted : Nat) : List OpeningStep :=
  (frames.filterMap translate).map .receive ++ [.spawn, .answer, .opened] ++ List.replicate frames.length .pump ++
    List.replicate emitted .event

def watched (x : Shared × World) : Option (ConnectedClient × SessionInfo × Opening) := do
  let e ← x.1.client? 2
  let login ← loginSession openHello x.2.wire e
  let o ← Async.replay (fun o l => if decide (Opening.InTime o l) then o.exec l else none)
    (.start (fun _ => Vector.replicate 32 0) 1 e.info.fingerprint login .empty) (watchSteps e.control 3)
  some (e, login, o)

/-- A guest is there when the owner adds a channel and takes another name: its tab lists both. -/
theorem tabs_list_all_guest :
    ∃ s₀ db₀ x e, Server.bind ownedConfig 5 .empty = some (s₀, db₀) ∧ Run LifeStep IdSpare (s₀, ⟨db₀, []⟩) x ∧
      x.1.client? 2 = some e ∧ e.control.length = 2 ∧ ∃ login, loginSession openHello x.2.wire e = some login ∧
        ∃ o c, Run Opening.Step Opening.InTime
            (.start (fun _ => Vector.replicate 32 0) 1 e.info.fingerprint login .empty) o ∧
          o.tabs.byId 1 = some c ∧ c.disconnected = none ∧ c.users.Perm (x.1.users.map .of) ∧
          c.channels.Perm ((x.1.visibleChannels e.info).map .of) := by
  have handled : ∀ {x : Shared × World} (i : Input), LifeStep x (.input i) (serve Await.perform i x.1 x.2) :=
    fun i => ⟨Await.perform, Await.faulty, rfl⟩
  obtain ⟨s₀, db₀, x, hstart, hrun, hwatched⟩ : ∃ s₀ db₀ x, Server.bind ownedConfig 5 .empty = some (s₀, db₀) ∧
      Run LifeStep IdSpare (s₀, ⟨db₀, []⟩) x ∧ (watched x).any (fun (e, login, o) =>
        decide (o.stage = .opened ∧ o.emitted = [] ∧ o.inbox = [] ∧ e.control.length = 2 ∧
          o.taken.filter (fun event => !event.isVoice) = e.control.filterMap translate)) = true :=
    ⟨_, _, _, rfl,
      .step (.input (.control 1 (.setNickname "m")))
        (.step (.input (.control 1 (.createChannel 7 "c" none "" .text none 0)))
          (.step (.input (.connect ⟨protocolVersion, ⟨.rep 2, 8⟩, "n", none, true⟩))
            (.step (.input ownerConnects) .refl (fun _ _ => by decide +kernel) (handled _))
            (fun _ _ => by decide +kernel) (handled _)) nofun (handled _)) nofun (handled _),
      by decide +kernel⟩
  obtain ⟨⟨e, login, o⟩, hsome, hend⟩ := (Option.any_eq_true _ _).mp hwatched
  obtain ⟨hopened, hreduced, hread, htwo, hall⟩ := of_decide_eq_true hend
  unfold watched at hsome
  obtain ⟨e', he, hsome⟩ := Option.bind_eq_some_iff.mp hsome
  obtain ⟨login', hlogin, hsome⟩ := Option.bind_eq_some_iff.mp hsome
  obtain ⟨o', ho, hsome⟩ := Option.bind_eq_some_iff.mp hsome
  cases hsome
  have hopening := Run.of_checked Opening.exec (fun o l => decide (o.InTime l)) (fun _ _ h => of_decide_eq_true h) _ ho
  obtain ⟨login', hlogin', hlists⟩ := tabs_list_all hstart hrun openHello he
  obtain rfl := Option.some.inj (hlogin.symm.trans hlogin')
  obtain ⟨c, hc, hshown⟩ := hlists _ 1 .empty o hopening hopened hreduced hread hall
  exact ⟨s₀, db₀, x, e, hstart, hrun, he, htwo, login, hlogin, o, c, hopening, hc, hshown⟩

end PickleChat
