import PickleChat.Opening
import PickleChat.RenderedRuns
import PickleChat.Traffic

/-!
# The lists of tabs

A tab starts from the users and channels of its login, and every frame its
client is queued does something to an entry of them. What a step has to tell
each client for its lists to be those of the server after it, and that all but
role and channel commands and handshakes do.
-/

namespace PickleChat

/-! ## Folds that reach a target -/

section
variable {α β : Type} {f : α → β → α} {l : List β} {a b : α}

theorem foldl_idle (h : ∀ x ∈ l, f a x = a) : l.foldl f a = a := by
  induction l with
  | nil => rfl
  | cons x l ih =>
    rw [List.foldl_cons, h x List.mem_cons_self]
    exact ih fun y hy => h y (List.mem_cons_of_mem _ hy)

/-- Each step stays or goes to the target, where all stay; and one goes there. -/
theorem foldl_reaches (hb : ∀ x ∈ l, f b x = b) (hab : ∀ x ∈ l, f a x = b ∨ f a x = a)
    (h : a = b ∨ ∃ x ∈ l, f a x = b) : l.foldl f a = b := by
  induction l with
  | nil => simpa using h
  | cons x l ih =>
    rw [List.foldl_cons]
    rcases hab x List.mem_cons_self with hx | hx
    · rw [hx]
      exact foldl_idle fun y hy => hb y (List.mem_cons_of_mem _ hy)
    · rw [hx]
      apply ih (fun y hy => hb y (List.mem_cons_of_mem _ hy)) fun y hy => hab y (List.mem_cons_of_mem _ hy)
      rcases h with h | ⟨y, hy, hyb⟩
      · exact .inl h
      · rcases List.mem_cons.mp hy with rfl | hy
        · exact .inl (hx.symm.trans hyb)
        · exact .inr ⟨y, hy, hyb⟩

end

/-! ## What a tab makes of frames -/

/-- The entry of a client in a tab, once the frame is read. -/
def ServerControl.onUser (k : ClientId) (entry : Option UserInfo) : ServerControl → Option UserInfo
  | .userJoined u => if k = u.clientId then some u else entry
  | .userLeft client _ => if k = client then none else entry
  | .userMoved client _ channel => if k = client then entry.map fun u => { u with channel } else entry
  | .userUpdated u => if k = u.clientId then entry.map fun _ => u else entry
  | _ => entry

def ServerControl.aboutUsers : ServerControl → Bool
  | .userJoined _ | .userLeft .. | .userMoved .. | .userUpdated _ => true
  | _ => false

def entryAfter (k : ClientId) (frames : List ServerControl) (entry : Option UserInfo) : Option UserInfo :=
  frames.foldl (fun entry m => m.onUser k entry) entry

theorem entryAfter_append (k : ClientId) (frames more : List ServerControl) (entry : Option UserInfo) :
    entryAfter k (frames ++ more) entry = entryAfter k more (entryAfter k frames entry) := List.foldl_append

theorem entryAfter_quiet {k : ClientId} {frames : List ServerControl} (h : ∀ m ∈ frames, m.aboutUsers = false)
    (entry : Option UserInfo) : entryAfter k frames entry = entry := by
  refine foldl_idle fun m hm => ?_
  have hquiet := h m hm
  cases m with
  | userJoined | userLeft | userMoved | userUpdated => cases hquiet
  | _ => rfl

def Picture.read (p : Picture) (frames : List ServerControl) : Picture :=
  (frames.filterMap translate).foldl Picture.after p

namespace Picture
variable {p : Picture}

theorem read_append (frames more : List ServerControl) : p.read (frames ++ more) = (p.read frames).read more := by
  unfold read
  rw [List.filterMap_append, List.foldl_append]

theorem read_cons (m : ServerControl) (frames : List ServerControl) : p.read (m :: frames) = (p.read [m]).read frames :=
  read_append [m] frames

theorem read_one_users (hu : Keyed.Unique UserInfo.clientId p.users) (m : ServerControl) :
    Keyed.Unique UserInfo.clientId (p.read [m]).users ∧ ∀ k,
      Keyed.get UserInfo.clientId k (p.read [m]).users = m.onUser k (Keyed.get UserInfo.clientId k p.users) := by
  cases m with
  | userJoined u => exact ⟨hu.put u, fun k => Keyed.get_put k u p.users⟩
  | userLeft client reason => exact ⟨hu.erase client, fun k => Keyed.get_erase k client p.users⟩
  | userMoved client source dest =>
    let place (u : UserInfo) : UserInfo := { u with channel := dest }
    have hplace : ∀ u, (place u).clientId = u.clientId := fun _ => rfl
    exact ⟨hu.modify hplace client, fun k => Keyed.get_modify hplace k client p.users⟩
  | userUpdated u =>
    exact ⟨hu.modify_at fun _ _ => rfl, fun k => Keyed.get_modify_at (fun _ _ => rfl) k p.users⟩
  | _ => exact ⟨hu, fun _ => rfl⟩

theorem read_users (hu : Keyed.Unique UserInfo.clientId p.users) (frames : List ServerControl) :
    Keyed.Unique UserInfo.clientId (p.read frames).users ∧ ∀ k,
      Keyed.get UserInfo.clientId k (p.read frames).users =
        entryAfter k frames (Keyed.get UserInfo.clientId k p.users) := by
  induction frames generalizing p with
  | nil => exact ⟨hu, fun _ => rfl⟩
  | cons m frames ih =>
    obtain ⟨hone, hget⟩ := read_one_users hu m
    obtain ⟨hrest, hget'⟩ := ih hone
    rw [read_cons]
    refine ⟨hrest, fun k => ?_⟩
    rw [hget' k, hget k]
    rfl

/-- An update of a channel that is listed tells the list the same as it tells a map. -/
theorem read_one_channels (hu : Keyed.Unique Channel.id p.channels) {m : ServerControl}
    (hm : ∀ c, m = .channelUpdated c → (listed p.channels c.id).isSome = true) :
    Keyed.Unique Channel.id (p.read [m]).channels ∧ listed (p.read [m]).channels = held (listed p.channels) [m] := by
  cases m with
  | channelCreated c => exact ⟨hu.put c, funext fun id => Keyed.get_put id c p.channels⟩
  | channelUpdated c =>
    refine ⟨hu.modify_at fun _ _ => rfl, funext fun id => ?_⟩
    refine (Keyed.get_modify_at (fun _ _ => rfl) id p.channels).trans ?_
    change _ = if id = c.id then some c else listed p.channels id
    by_cases hid : id = c.id
    · obtain ⟨old, hold⟩ := Option.isSome_iff_exists.mp (hm c rfl)
      rw [if_pos hid, if_pos hid, hid, show Keyed.get Channel.id c.id p.channels = some old from hold]
      rfl
    · rw [if_neg hid, if_neg hid]
      rfl
  | channelRemoved id => exact ⟨hu.erase id, funext fun id' => Keyed.get_erase id' id p.channels⟩
  | _ => exact ⟨hu, rfl⟩

theorem held_one_isSome {base : ChannelId → Option Channel} {id : ChannelId} (h : (base id).isSome = true)
    {m : ServerControl} (hm : m ≠ .channelRemoved id) : (held base [m] id).isSome = true := by
  cases m with
  | channelCreated c | channelUpdated c =>
    change (if id = c.id then some c else base id).isSome = true
    split
    · rfl
    · exact h
  | channelRemoved id' =>
    change (if id = id' then none else base id).isSome = true
    rw [if_neg fun he => hm (by rw [he])]
    exact h
  | _ => exact h

theorem read_channels (hu : Keyed.Unique Channel.id p.channels) {frames : List ServerControl}
    (h : ∀ c, .channelUpdated c ∈ frames → (listed p.channels c.id).isSome = true ∧ .channelRemoved c.id ∉ frames) :
    Keyed.Unique Channel.id (p.read frames).channels ∧
      listed (p.read frames).channels = held (listed p.channels) frames := by
  induction frames generalizing p with
  | nil => exact ⟨hu, rfl⟩
  | cons m frames ih =>
    have hm : ∀ c, m = .channelUpdated c → (listed p.channels c.id).isSome = true :=
      fun c he => (h c (by rw [he]; exact List.mem_cons_self)).1
    obtain ⟨hone, hlisted⟩ := read_one_channels hu hm
    have hrest : ∀ c, .channelUpdated c ∈ frames →
        (listed (p.read [m]).channels c.id).isSome = true ∧ .channelRemoved c.id ∉ frames := by
      intro c hc
      obtain ⟨hsome, hkept⟩ := h c (List.mem_cons_of_mem _ hc)
      refine ⟨?_, fun hin => hkept (List.mem_cons_of_mem _ hin)⟩
      rw [hlisted]
      exact held_one_isSome hsome fun he => hkept (by rw [he]; exact List.mem_cons_self)
    obtain ⟨hu', hl'⟩ := ih hone hrest
    rw [read_cons]
    refine ⟨hu', hl'.trans ?_⟩
    rw [hlisted]
    exact (held_append _ [m] frames).symm

theorem read_disconnected (frames : List ServerControl) : (p.read frames).disconnected = p.disconnected := by
  induction frames generalizing p with
  | nil => rfl
  | cons m frames ih =>
    rw [read_cons, ih]
    cases m <;> rfl

end Picture

/-! ## What the tabs of connected clients list -/

/-- The users and the channels that a tab of the client with this entry should list. -/
structure Lists (s : Shared) (i : UserInfo) (p : Picture) : Prop where
  userIds : Keyed.Unique UserInfo.clientId p.users
  users : ∀ k, Keyed.get UserInfo.clientId k p.users = s.user k
  channelIds : Keyed.Unique Channel.id p.channels
  channels : listed p.channels = s.view i
  disconnected : p.disconnected = none

/-- The login of a client that was greeted with `hello`. -/
def loginSession (hello : ServerHello) (wire : List ServerControl) (e : ConnectedClient) : Option SessionInfo := do
  let ok ← loginOf wire e.id
  (readVerdict hello (.control (.authOk ok))).toOption

/-- The mirrors of clients are up to date, and so are their tabs. -/
structure TabsShow (hello : ServerHello) (s : Shared) (wire : List ServerControl) : Prop where
  shown : Shown hello s wire
  tabs : ∀ k e, s.client? k = some e →
    ∃ login, loginSession hello wire e = some login ∧ Lists s e.info (login.picture.read e.control)

theorem clientMirror_eq (hello : ServerHello) (wire : List ServerControl) (e : ConnectedClient) :
    clientMirror hello wire e = (loginSession hello wire e).map fun login =>
      (PermMirror.fromSession e.info.fingerprint login).read e.control := by
  unfold clientMirror loginSession
  cases loginOf wire e.id with
  | none => rfl
  | some ok => rfl

/-- The frames take the list of users from one state to the other, and update no
channel that the client with this entry does not see. -/
structure Carries (s t : Shared) (i : UserInfo) (frames : List ServerControl) : Prop where
  users : ∀ k, entryAfter k frames (s.user k) = t.user k
  timely : ∀ c, .channelUpdated c ∈ frames → (s.view i c.id).isSome = true ∧ .channelRemoved c.id ∉ frames

theorem Carries.of_users {s t : Shared} {frames : List ServerControl}
    (h : ∀ k, entryAfter k frames (s.user k) = t.user k) (hquiet : ∀ m ∈ frames, m.update? = none) (i : UserInfo) :
    Carries s t i frames := by
  refine ⟨h, fun c hc => ?_⟩
  have hnone := hquiet _ hc
  cases hnone

section
variable {hello : ServerHello} {s t : Shared} {wire wire' : List ServerControl} (h : TabsShow hello s wire)
include h

/-- The tab of a client that stays, and was queued these frames. -/
theorem TabsShow.follow (ht : Shown hello t wire') {k : ClientId} {e e' : ConnectedClient} {frames : List ServerControl}
    (he : s.client? k = some e) (he' : t.client? k = some e') (hf : e'.info.fingerprint = e.info.fingerprint)
    (hcontrol : e'.control = e.control ++ frames) (hc : Carries s t e.info frames)
    (hw : loginOf wire' k = loginOf wire k) :
    ∃ login, loginSession hello wire' e' = some login ∧ Lists t e'.info (login.picture.read e'.control) := by
  obtain ⟨login, hlogin, hlists⟩ := h.tabs k e he
  have hsame : loginSession hello wire' e' = some login := by
    have hid : e.id = k := Keyed.get_key he
    have hid' : e'.id = k := Keyed.get_key he'
    unfold loginSession at hlogin ⊢
    rw [hid', hw, ← hid]
    exact hlogin
  refine ⟨login, hsame, ?_⟩
  obtain ⟨p, hp, hin⟩ := h.shown.mirrors k e he
  obtain ⟨p', hp', hin'⟩ := ht.mirrors k e' he'
  rw [clientMirror_eq, hlogin] at hp
  rw [clientMirror_eq, hsame] at hp'
  obtain rfl := Option.some.inj hp
  obtain rfl := Option.some.inj hp'
  -- The mirror and the tab hear of the same channels.
  have hmirror : held (s.view e.info) frames = t.view e'.info := by
    rw [← hin'.channels, ← hin.channels]
    dsimp only
    rw [hcontrol, hf, PermMirror.read_append, (PermMirror.read_channels hin.sorted frames).2]
  obtain ⟨huserIds, husers⟩ := Picture.read_users hlists.userIds frames
  have htimely := hc.timely
  rw [← hlists.channels] at htimely
  obtain ⟨hchannelIds, hchannels⟩ := Picture.read_channels hlists.channelIds htimely
  rw [hcontrol, Picture.read_append]
  refine ⟨huserIds, fun k => ?_, hchannelIds, ?_, ?_⟩
  · rw [husers k, hlists.users k]
    exact hc.users k
  · rw [hchannels, hlists.channels, hmirror]
  · rw [Picture.read_disconnected, hlists.disconnected]

/-- Entries are changed in place, and then everyone is told. -/
theorem TabsShow.told {g : ConnectedClient → ConnectedClient} (hg : Recast s t g)
    {frames : UserInfo → List ServerControl} (ht : Shown hello (t.deliver frames) wire)
    (hc : ∀ k e, s.client? k = some e → Carries s t e.info (frames (g e).info)) :
    TabsShow hello (t.deliver frames) wire := by
  refine ⟨ht, fun k e' he' => ?_⟩
  have hget := he'
  rw [Shared.deliver_client?, hg.client?] at hget
  obtain ⟨e₁, he₁, rfl⟩ := Option.map_eq_some_iff.mp hget
  obtain ⟨e, he, rfl⟩ := Option.map_eq_some_iff.mp he₁
  obtain ⟨husers, htimely⟩ := hc k e he
  refine h.follow ht he he' (hg.fingerprint e) (congrArg (· ++ frames (g e).info) (hg.control e)) ⟨?_, htimely⟩ rfl
  intro k
  rw [user_deliver]
  exact husers k

end

/-! ## Inputs that are no command of roles or channels -/

section
variable {s t : Shared}

theorem user_modified (s : Shared) (client : ClientId) {f : UserInfo → UserInfo}
    (hid : ∀ i, (f i).clientId = i.clientId) (k : ClientId) :
    (s.modifyInfo client f).user k = if k = client then (s.user k).map f else s.user k := by
  have hget : (s.modifyInfo client f).client? k =
      if k = client then (s.client? k).map fun e => { e with info := f e.info } else s.client? k :=
    Keyed.get_modify (fun e => hid e.info) k client s.clients
  unfold Shared.user
  rw [hget]
  split
  · rw [Option.map_map, Option.map_map]
    rfl
  · rfl

theorem Recast.modified (s : Shared) (client : ClientId) {f : UserInfo → UserInfo} (hf : ∀ i, SameStanding i (f i)) :
    Recast s (s.modifyInfo client f) fun e => if e.id = client then { e with info := f e.info } else e := by
  refine ⟨rfl, fun e => ?_, fun e => ?_, fun e => ?_, fun e => ?_⟩
  · split
    · exact (hf e.info).clientId
    · rfl
  · split
    · exact congrArg PublicIdentity.fingerprint (hf e.info).identity
    · rfl
  · split
    · exact (hf e.info).owner
    · rfl
  · split <;> rfl

theorem Recast.of_clients (hc : t.clients = s.clients) : Recast s t fun e => e :=
  ⟨hc.trans (List.map_id' _).symm, fun _ => rfl, fun _ => rfl, fun _ => rfl, fun _ => rfl⟩

theorem Recast.user {g : ConnectedClient → ConnectedClient} (h : Recast s t g) (k : ClientId) :
    t.user k = (s.client? k).map fun e => (g e).info := by
  unfold Shared.user
  rw [h.client?, Option.map_map]
  rfl

end

section
variable {hello : ServerHello} {s t : Shared} {wire : List ServerControl} (h : TabsShow hello s wire)
include h

theorem TabsShow.edited {client : ClientId} {f : UserInfo → UserInfo} (hf : ∀ i, SameStanding i (f i))
    {m : ServerControl} (hm : m.update? = none)
    (ht : Shown hello ((s.modifyInfo client f).broadcast m none) wire)
    (hon : ∀ k, m.onUser k (s.user k) = if k = client then (s.user k).map f else s.user k) :
    TabsShow hello ((s.modifyInfo client f).broadcast m none) wire := by
  rw [Shared.broadcast_none] at ht ⊢
  refine h.told (Recast.modified s client hf) ht fun k e _ => Carries.of_users (fun k => ?_) (by simpa using hm) _
  rw [user_modified s client (fun i => (hf i).clientId)]
  exact hon k

/-- Nobody's entry changes. -/
theorem TabsShow.quiet {g : ConnectedClient → ConnectedClient} (hg : Recast s t g) (hinfo : ∀ e, (g e).info = e.info)
    {frames : UserInfo → List ServerControl} (ht : Shown hello (t.deliver frames) wire)
    (hquiet : ∀ i, ∀ m ∈ frames i, m.aboutUsers = false ∧ m.update? = none) :
    TabsShow hello (t.deliver frames) wire := by
  refine h.told hg ht fun k e _ => Carries.of_users (fun k => ?_) (fun m hm => (hquiet _ m hm).2) _
  rw [entryAfter_quiet fun m hm => (hquiet _ m hm).1, hg.user]
  simp only [hinfo]
  rfl

theorem TabsShow.kept {g : ConnectedClient → ConnectedClient} (hg : Recast s t g) (hinfo : ∀ e, (g e).info = e.info)
    (ht : Shown hello t wire) : TabsShow hello t wire := by
  have hsilent : TabsShow hello (t.deliver fun _ => []) wire :=
    h.quiet hg hinfo (by rwa [Shared.deliver_nil]) (by simp)
  rwa [Shared.deliver_nil] at hsilent

theorem TabsShow.left (k : ClientId) (reason : DisconnectReason) {except : Option ClientId}
    (hexcept : ∀ j, except = some j → j = k)
    (ht : Shown hello ((s.remove k).2.broadcast (.userLeft k reason) except) wire) :
    TabsShow hello ((s.remove k).2.broadcast (.userLeft k reason) except) wire := by
  have hgone : ∀ j, (s.remove k).2.client? j = if j = k then none else s.client? j :=
    fun j => Keyed.get_erase j k s.clients
  refine ⟨ht, fun j e' he' => ?_⟩
  have hget := he'
  rw [Shared.broadcast_eq, Shared.deliver_client?, hgone] at hget
  obtain ⟨e, he, rfl⟩ := Option.map_eq_some_iff.mp hget
  split at he; · cases he
  rename_i hj
  -- Whoever stays is told.
  have htold : (if some e.info.clientId = except then [] else [ServerControl.userLeft k reason]) =
      [.userLeft k reason] := by
    refine if_neg fun hsame => hj ?_
    rw [← Shared.client?_id he]
    exact hexcept _ hsame.symm
  have husers : ∀ j, entryAfter j [.userLeft k reason] (s.user j) =
      ((s.remove k).2.broadcast (.userLeft k reason) except).user j := by
    intro j
    rw [Shared.broadcast_eq, user_deliver]
    unfold Shared.user
    rw [hgone]
    change (if j = k then none else _) = _
    split <;> rfl
  have hcarries := Carries.of_users husers (by simp [ServerControl.update?]) e.info
  exact h.follow ht he he' rfl (congrArg (e.control ++ ·) htold) hcarries rfl

end

theorem tabsShow_candid (hello : ServerHello) : Candid fun s w => TabsShow hello s w.wire where
  delivered f hf h := by
    have ht := (shown_gentle hello).candid.delivered f hf h.shown
    refine h.quiet (.of_clients rfl) (fun _ => rfl) ht fun i m hm => ?_
    have hquiet := hf i m hm
    cases m <;> first | exact ⟨rfl, rfl⟩ | cases hquiet
  left k reason except hexcept h := by
    have ht := (shown_gentle hello).candid.left k reason except hexcept h.shown
    exact h.left k reason hexcept ht
  shown hinfo hf h := by
    have ht := (shown_gentle hello).candid.shown hinfo hf h.shown
    refine h.edited hf rfl ht fun k => ?_
    obtain ⟨i, hi, rfl⟩ := Option.map_eq_some_iff.mp hinfo
    obtain ⟨e, he, rfl⟩ := Option.map_eq_some_iff.mp hi
    change (if k = _ then _ else _) = _
    rw [(hf e.info).clientId, Shared.client?_id he]
    split
    · rename_i hk
      rw [hk, hi]
      rfl
    · rfl
  moved client source dest h := by
    have ht := (shown_gentle hello).candid.moved client source dest h.shown
    refine h.edited (f := fun i => { i with channel := dest }) (fun _ => ⟨rfl, rfl, rfl, rfl⟩) rfl ht fun _ => rfl
  voiced := by
    intro s w k packet h
    have ht := (shown_gentle hello).voiced k packet h.shown
    rcases s.relayVoice_cases k packet with he | ⟨channel, -, he⟩
    · rw [he]
      exact h
    · rw [he] at ht ⊢
      refine h.kept ⟨rfl, fun e => e.hear_id .., fun e => ?_, fun e => ?_, fun e => ?_⟩ (fun e => ?_) ht <;> simp
  numbered h := h.kept (.of_clients rfl) (fun _ => rfl) ((shown_gentle hello).numbered h.shown)
  ticked now h := h.kept (.of_clients rfl) (fun _ => rfl) ((shown_gentle hello).ticked now h.shown)

theorem tabsShow_allows (hello : ServerHello) (call : StoreWrite) :
    Allows (fun s w => TabsShow hello s w.wire) call := fun _ _ _ _ h => h

end PickleChat
