import PickleChat.ChannelViews
import PickleChat.MessageIds
import PickleChat.Operations
import PickleChat.StoredSizes

/-!
# Who gets a channel's traffic

Messages, typing, history and channels go to those who may view the channel.
Voice goes to whoever stands in it: a member who loses the view of a channel it
stands in is not put out, and goes on listening.
-/

namespace PickleChat

open Async (Run Pool)

/-- A run of operations: the states so far, and who stands where a moderator put it. -/
structure Traffic where
  shared : Shared
  past : Shared → Prop
  placed : ClientId → Prop

/-- An operation, and the state its caller's checks have read. -/
structure Call where
  op : Operation
  seen : Shared

/-- Whom a moderator has put where it stands. -/
def Traffic.placedAfter (t : Traffic) : Operation → ClientId → Prop
  | .forceMove client dest, k => (k = client ∧ (t.shared.forceMove client dest).isOk = true) ∨ t.placed k
  | .joinChannel client channel, k => t.placed k ∧ ¬ (k = client ∧ (t.shared.joinChannel client channel).isOk = true)
  | .admitUser identity nickname, k =>
    t.placed k ∧ ¬ (k = t.shared.nextClientId ∧ (t.shared.admitUser identity nickname).isOk = true)
  | _, k => t.placed k

def Traffic.after (t : Traffic) (op : Operation) : Traffic :=
  ⟨t.shared.operate op, fun s => t.past s ∨ s = t.shared.operate op, t.placedAfter op⟩

def Traffic.Step (t : Traffic) (c : Call) (t' : Traffic) : Prop :=
  t.past c.seen ∧ c.op.Called c.seen ∧ t' = t.after c.op

def Stands (s : Shared) (k : ClientId) (channel : ChannelId) : Prop :=
  ∃ e, s.client? k = some e ∧ e.info.channel = some channel

/-- No one loses the view of a channel it stands in, but for those a moderator put there. -/
def ViewsKept (t : Traffic) (c : Call) : Prop :=
  ∀ k channel, Stands t.shared k channel → Stands (t.shared.operate c.op) k channel → ¬ t.placed k →
    t.shared.can k channel .viewChannel = true → (t.shared.operate c.op).can k channel .viewChannel = true

def Shared.voice (s : Shared) (k : ClientId) : List VoiceDownstream :=
  ((s.client? k).map ConnectedClient.datagrams).getD []

/-- What an operation queues of a channel's traffic is for clients that may view it, a page
of history for one that could when it was asked for. An author's echo and
whoever was put into a channel are excepted. -/
structure Rightful (t : Traffic) (c : Call) : Prop where
  frames : ∀ k, ∀ m ∈ ((t.shared.operate c.op).queue k).drop
    (t.shared.queue k).length, ∀ channel, m.carries = some channel →
    t.shared.can k channel .viewChannel = true ∨
      (∃ msg nonce, m = .messagePosted msg (some nonce) ∧ msg.author = some k) ∨
      ∃ messages start, m = .history channel messages start ∧ c.seen.can k channel .viewChannel = true
  voice : ∀ k, ∀ d ∈ ((t.shared.operate c.op).voice k).drop (t.shared.voice k).length,
    ∃ sender packet channel, c.op = .relayVoice sender packet ∧ Stands t.shared sender channel ∧
      Stands t.shared k channel ∧ (t.shared.can k channel .viewChannel = true ∨ t.placed k)

/-! ## Operations that queue nothing -/

/-- Queues are as they were or new and empty, and nobody else stands where it did not. -/
def Still (moved : ClientId → Prop) (s t : Shared) : Prop :=
  ∀ k e, t.client? k = some e → (e.control = [] ∧ e.datagrams = [] ∧ e.info.channel = none) ∨
    ∃ e₀, s.client? k = some e₀ ∧ e.control = e₀.control ∧ e.datagrams = e₀.datagrams ∧
      (moved k ∨ e.info.channel = none ∨ e.info.channel = e₀.info.channel)

section
variable {moved : ClientId → Prop} {s t : Shared}

theorem Still.refl (s : Shared) : Still moved s s := fun _ e he => .inr ⟨e, he, rfl, rfl, .inr (.inr rfl)⟩

theorem client?_of_map {f : ConnectedClient → ConnectedClient} (hc : t.clients = s.clients.map f)
    (hid : ∀ e, (f e).id = e.id) (k : ClientId) : t.client? k = (s.client? k).map f := by
  unfold Shared.client?
  rw [hc]
  exact Keyed.get_map hid k s.clients

theorem Still.of_map {f : ConnectedClient → ConnectedClient} (hc : t.clients = s.clients.map f)
    (hid : ∀ e, (f e).id = e.id) (hq : ∀ e, (f e).control = e.control ∧ (f e).datagrams = e.datagrams)
    (hs : ∀ e, moved e.id ∨ (f e).info.channel = none ∨ (f e).info.channel = e.info.channel) : Still moved s t := by
  intro k e he
  rw [client?_of_map hc hid] at he
  obtain ⟨e₀, he₀, rfl⟩ := Option.map_eq_some_iff.mp he
  have hk : e₀.id = k := Keyed.get_key he₀
  exact .inr ⟨e₀, he₀, (hq e₀).1, (hq e₀).2, hk ▸ hs e₀⟩

theorem Still.of_clients (hc : t.clients = s.clients) : Still moved s t :=
  .of_map (f := id) (by rw [hc, List.map_id]) (fun _ => rfl) (fun _ => ⟨rfl, rfl⟩) fun _ => .inr (.inr rfl)

theorem Still.of_edit {P : ConnectedClient → Prop} [DecidablePred P] {f : UserInfo → UserInfo}
    (hc : t.clients = s.clients.map fun e => if P e then { e with info := f e.info } else e)
    (hid : ∀ i, (f i).clientId = i.clientId)
    (hs : ∀ e, P e → moved e.id ∨ (f e.info).channel = none ∨ (f e.info).channel = e.info.channel) :
    Still moved s t := by
  refine .of_map hc (fun e => ?_) (fun e => ?_) fun e => ?_
  · split
    · exact hid e.info
    · rfl
  · split <;> exact ⟨rfl, rfl⟩
  · split
    · exact hs e ‹_›
    · exact .inr (.inr rfl)

theorem Still.modifyInfo (s : Shared) (client : ClientId) {f : UserInfo → UserInfo}
    (hid : ∀ i, (f i).clientId = i.clientId)
    (hs : ∀ i, moved client ∨ (f i).channel = none ∨ (f i).channel = i.channel) :
    Still moved s (s.modifyInfo client f) := by
  refine .of_edit (P := fun e => e.id = client) rfl hid fun e he => ?_
  rw [he]
  exact hs e.info

theorem Still.frames (h : Still moved s t) (k : ClientId) : (t.queue k).drop (s.queue k).length = [] := by
  unfold Shared.queue
  cases he : t.client? k with
  | none => simp
  | some e =>
    rcases h k e he with ⟨hnil, -, -⟩ | ⟨e₀, he₀, hq, -, -⟩
    · simp [hnil]
    · simp [he₀, hq]

theorem Still.voice (h : Still moved s t) (k : ClientId) : (t.voice k).drop (s.voice k).length = [] := by
  unfold Shared.voice
  cases he : t.client? k with
  | none => simp
  | some e =>
    rcases h k e he with ⟨-, hnil, -⟩ | ⟨e₀, he₀, -, hq, -⟩
    · simp [hnil]
    · simp [he₀, hq]

theorem Still.stands (h : Still moved s t) {k : ClientId} (hk : ¬ moved k) {channel : ChannelId}
    (hs : Stands t k channel) : Stands s k channel := by
  obtain ⟨e, he, hc⟩ := hs
  rcases h k e he with ⟨-, -, hnone⟩ | ⟨e₀, he₀, -, -, hm | hnone | hsame⟩
  · rw [hc] at hnone
    cases hnone
  · exact absurd hm hk
  · rw [hc] at hnone
    cases hnone
  · exact ⟨e₀, he₀, hsame.symm.trans hc⟩

/-! ## One operation -/

theorem landed {ε β : Type} (r : Except ε (β × Shared)) (s : Shared) :
    ((r.toOption.map Prod.snd).getD s = s ∧ r.isOk = false) ∨
      ∃ b t, r = .ok (b, t) ∧ (r.toOption.map Prod.snd).getD s = t := by
  cases r with
  | error e => exact .inl ⟨rfl, rfl⟩
  | ok x => exact .inr ⟨x.1, x.2, rfl, rfl⟩

theorem edited (r : Option (UserInfo × Shared)) (s : Shared) :
    (r.map Prod.snd).getD s = s ∨ ∃ info t, r = some (info, t) ∧ (r.map Prod.snd).getD s = t := by
  cases r with
  | none => exact .inl rfl
  | some x => exact .inr ⟨x.1, x.2, rfl, rfl⟩

theorem still_admitUser (s : Shared) (identity : PublicIdentity) (nickname : String) :
    Still moved s (s.operate (.admitUser identity nickname)) := by
  change Still moved s (((s.admitUser identity nickname).toOption.map Prod.snd).getD s)
  rcases landed (s.admitUser identity nickname) s with ⟨he, -⟩ | ⟨info, t, ht, he⟩ <;> rw [he]
  · exact .refl s
  · obtain ⟨-, -, hnowhere, -, -, -, rfl⟩ := Shared.admitUser_ok ht
    intro k e he
    have he : Keyed.get ConnectedClient.id k (Keyed.put ConnectedClient.id ⟨info, [], []⟩ s.clients) = some e := he
    rw [Keyed.get_put] at he
    split at he
    · cases he
      exact .inl ⟨rfl, rfl, hnowhere⟩
    · exact .inr ⟨e, he, rfl, rfl, .inr (.inr rfl)⟩

theorem still_remove (s : Shared) (client : ClientId) : Still moved s (s.operate (.remove client)) := by
  intro k e he
  have he : Keyed.get ConnectedClient.id k (Keyed.erase ConnectedClient.id client s.clients) = some e := he
  rw [Keyed.get_erase] at he
  split at he
  · cases he
  · exact .inr ⟨e, he, rfl, rfl, .inr (.inr rfl)⟩

theorem still_removeChannelMem (s : Shared) (id : ChannelId) : Still moved s (s.operate (.removeChannelMem id)) := by
  change Still moved s (s.removeChannelMem id).2
  unfold Shared.removeChannelMem
  split
  · exact .refl s
  · exact .of_edit (P := fun e => e.info.channel = some id) (f := fun i => { i with channel := none }) rfl
      (fun _ => rfl)
      fun _ _ => .inr (.inl rfl)

end

def Operation.queues : Operation → Bool
  | .send .. | .broadcast .. | .broadcastFiltered .. | .resyncVisibility .. | .relayVoice .. => true
  | _ => false

def Operation.moves : Operation → ClientId → Prop
  | .joinChannel client _, k | .forceMove client _, k => k = client
  | _, _ => False

def Operation.edits : Operation → Option ClientId
  | .joinChannel client _ | .leaveChannel client | .forceMove client _ | .setVoiceState client _ _
  | .setNickname client _ | .setServerMuted client _ => some client
  | _ => none

theorem stays_of_voice {i j : UserInfo} (h : { j with voice := i.voice } = i) :
    j.clientId = i.clientId ∧ j.channel = i.channel := by
  have hid := congrArg UserInfo.clientId h
  have hc := congrArg UserInfo.channel h
  exact ⟨hid, hc⟩

theorem stays_of_nickname {i j : UserInfo} (h : { j with nickname := i.nickname } = i) :
    j.clientId = i.clientId ∧ j.channel = i.channel := by
  have hid := congrArg UserInfo.clientId h
  have hc := congrArg UserInfo.channel h
  exact ⟨hid, hc⟩

/-- It is refused, or the entry is edited and stands where it stood, unless it is moved. -/
theorem operate_edits (s : Shared) {op : Operation} {client : ClientId} (h : op.edits = some client) :
    s.operate op = s ∨ ∃ f : UserInfo → UserInfo, s.operate op = s.modifyInfo client f ∧
      (∀ i, (f i).clientId = i.clientId) ∧ ∀ i, op.moves client ∨ (f i).channel = none ∨ (f i).channel = i.channel := by
  cases op with
  | joinChannel client' channel =>
    cases h
    rcases landed (s.joinChannel client channel) s with ⟨he, -⟩ | ⟨source, t, hj, he⟩
    · exact .inl he
    · obtain ⟨_, _, -, -, -, -, -, rfl⟩ := Shared.joinChannel_ok hj
      exact .inr ⟨_, he, fun _ => rfl, fun _ => .inl rfl⟩
  | forceMove client' dest =>
    cases h
    rcases landed (s.forceMove client dest) s with ⟨he, -⟩ | ⟨source, t, hm, he⟩
    · exact .inl he
    · obtain ⟨_, -, -, -, rfl⟩ := Shared.forceMove_ok hm
      exact .inr ⟨_, he, fun _ => rfl, fun _ => .inl rfl⟩
  | leaveChannel client' =>
    cases h
    exact .inr ⟨fun i => { i with channel := none }, rfl, fun _ => rfl, fun _ => .inr (.inl rfl)⟩
  | setVoiceState client' selfMuted selfDeafened =>
    cases h
    rcases edited (s.setVoiceState client selfMuted selfDeafened) s with he | ⟨info, t, hv, he⟩
    · exact .inl he
    · obtain ⟨f, hf, -, rfl⟩ := Shared.setVoiceState_some hv
      exact .inr ⟨f, he, fun i => (stays_of_voice (hf i)).1, fun i => .inr (.inr (stays_of_voice (hf i)).2)⟩
  | setNickname client' nickname =>
    cases h
    rcases edited (s.setNickname client nickname) s with he | ⟨info, t, hn, he⟩
    · exact .inl he
    · obtain ⟨f, hf, -, rfl⟩ := Shared.setNickname_some hn
      exact .inr ⟨f, he, fun i => (stays_of_nickname (hf i)).1, fun i => .inr (.inr (stays_of_nickname (hf i)).2)⟩
  | setServerMuted client' muted =>
    cases h
    rcases edited (s.setServerMuted client muted) s with he | ⟨info, t, hm, he⟩
    · exact .inl he
    · obtain ⟨f, hf, -, rfl⟩ := Shared.setServerMuted_some hm
      exact .inr ⟨f, he, fun i => (stays_of_voice (hf i)).1, fun i => .inr (.inr (stays_of_voice (hf i)).2)⟩
  | _ => cases h

theorem operate_still (s : Shared) {op : Operation} (h : op.queues = false) : Still op.moves s (s.operate op) := by
  cases hedit : op.edits with
  | some client =>
    rcases operate_edits s hedit with he | ⟨f, he, hid, hs⟩ <;> rw [he]
    · exact .refl s
    · exact .modifyInfo s client hid hs
  | none =>
    cases op with
    | send | broadcast | broadcastFiltered | resyncVisibility | relayVoice => cases h
    | joinChannel | forceMove | leaveChannel | setVoiceState | setNickname | setServerMuted => cases hedit
    | admitUser identity nickname => exact still_admitUser s identity nickname
    | remove client => exact still_remove s client
    | removeChannelMem id => exact still_removeChannelMem s id
    | updateLiveMemberRoles f roles =>
      exact .of_edit (P := fun e => e.info.fingerprint = f) (f := fun i => { i with roles }) rfl (fun _ => rfl)
        fun _ _ => .inr (.inr rfl)
    | stripLiveRole role =>
      exact .of_edit (P := fun e => role ∈ e.info.roles)
        (f := fun i => { i with roles := i.roles.filter (· ≠ role) }) rfl
        (fun _ => rfl) fun _ _ => .inr (.inr rfl)
    | _ => exact .of_clients rfl

/-! ## Operations that queue -/

section
variable {s : Shared} {k : ClientId}

theorem can_of_views {e : ConnectedClient} {room : Channel} {channel : ChannelId} (he : s.client? k = some e)
    (hroom : s.channel channel = some room) (hv : s.views e.info room = true) :
    s.can k channel .viewChannel = true := by
  unfold Shared.can
  rw [he, hroom]
  exact hv

theorem deliver_voice (f : UserInfo → List ServerControl) : (s.deliver f).voice k = s.voice k := by
  unfold Shared.voice
  rw [Shared.deliver_client?, Option.map_map]
  rfl

theorem mem_new_deliver {f : UserInfo → List ServerControl} {m : ServerControl}
    (hm : m ∈ ((s.deliver f).queue k).drop (s.queue k).length) : ∃ e, s.client? k = some e ∧ m ∈ f e.info := by
  rw [Shared.queue_deliver, List.drop_left] at hm
  cases hc : s.client? k with
  | none =>
    rw [hc] at hm
    cases hm
  | some e =>
    rw [hc] at hm
    exact ⟨e, rfl, hm⟩

theorem viewer_of_broadcastFiltered {m m' : ServerControl} {channel : ChannelId} {except : Option ClientId}
    (hm : m' ∈ ((s.broadcastFiltered m channel except).queue k).drop (s.queue k).length) :
    m' = m ∧ s.can k channel .viewChannel = true := by
  rw [Shared.broadcastFiltered_eq] at hm
  obtain ⟨e, he, hm⟩ := mem_new_deliver hm
  split at hm
  · rename_i hh
    unfold Shared.hears at hh
    simp only [decide_eq_true_eq] at hh
    have hv := hh.2
    cases hroom : s.channel channel with
    | none =>
      rw [hroom] at hv
      cases hv
    | some room =>
      rw [hroom] at hv
      exact ⟨List.mem_singleton.mp hm, can_of_views he hroom hv⟩
  · cases hm

theorem viewer_of_resync (hu : Keyed.Unique Channel.id s.channels) {before : List (ClientId × List ChannelId)}
    {touched : List ChannelId} {m : ServerControl} {channel : ChannelId}
    (hm : m ∈ ((s.resyncVisibility before touched).queue k).drop (s.queue k).length) (hc : m.carries = some channel) :
    s.can k channel .viewChannel = true := by
  rw [Shared.resyncVisibility_eq] at hm
  obtain ⟨e, he, hm⟩ := mem_new_deliver hm
  have hk : e.info.clientId = k := Shared.client?_id he
  rcases Shared.mem_resync hm with ⟨id, rfl⟩ | ⟨e', id, c, he', hid, hget, hcase⟩
  · cases hc
  · rw [hk, he] at he'
    cases he'
    obtain ⟨c', hview⟩ := Option.isSome_iff_exists.mp ((Shared.mem_visibleIds hu).mp hid)
    obtain ⟨hget', hv⟩ := Shared.view_eq_some.mp hview
    rw [hget] at hget'
    cases hget'
    have hkey : c.id = id := Keyed.get_key hget
    have hchannel : id = channel := by
      rcases hcase with rfl | rfl <;> exact hkey.symm.trans (Option.some.inj hc)
    exact can_of_views he (hchannel ▸ hget) hv

/-- The sender stands in the channel, is muted by nobody and may speak there. -/
def SpeaksIn (s : Shared) (sender : ClientId) (channel : ChannelId) : Prop :=
  ∃ e room, s.client? sender = some e ∧ e.info.voice.selfMuted = false ∧ e.info.voice.serverMuted = false ∧
    e.info.channel = some channel ∧ s.channel channel = some room ∧ room.kind.hasVoice = true ∧
    (s.bits e.info (some room.overwrites)).contains .speak = true

/-- One entry of the map when a frame from the channel goes round. -/
def ConnectedClient.hear (sender : ClientId) (channel : ChannelId) (d : VoiceDownstream) (e : ConnectedClient) :
    ConnectedClient :=
  if e.id = sender ∨ e.info.channel ≠ some channel ∨ e.info.voice.selfDeafened = true then e
  else { e with datagrams := e.datagrams ++ [d] }

section
variable (sender : ClientId) (channel : ChannelId) (d : VoiceDownstream) (e : ConnectedClient)

@[simp] theorem ConnectedClient.hear_info : (e.hear sender channel d).info = e.info := by
  unfold ConnectedClient.hear
  split <;> rfl

@[simp] theorem ConnectedClient.hear_control : (e.hear sender channel d).control = e.control := by
  unfold ConnectedClient.hear
  split <;> rfl

theorem ConnectedClient.hear_id : (e.hear sender channel d).id = e.id := congrArg UserInfo.clientId (e.hear_info ..)

end

theorem relayVoice_of_speaks {sender : ClientId} {channel : ChannelId} {packet : VoiceUpstream}
    (h : SpeaksIn s sender channel) :
    s.relayVoice sender packet =
      { s with clients := s.clients.map (ConnectedClient.hear sender channel (packet.intoDownstream sender)) } := by
  obtain ⟨e, room, he, hself, hserver, hchannel, hroom, hkind, hspeak⟩ := h
  simp only [Shared.relayVoice, he, hself, hserver, hchannel, hroom, hkind, hspeak, Bool.or_self, Bool.not_true,
    Bool.false_eq_true, if_false]
  rfl

theorem relayVoice_of_silent {sender : ClientId} {packet : VoiceUpstream} (h : ∀ channel, ¬ SpeaksIn s sender channel) :
    s.relayVoice sender packet = s := by
  unfold Shared.relayVoice
  split
  · rfl
  · rename_i e he
    split
    · rfl
    · rename_i hmute
      rw [Bool.or_eq_true, not_or, Bool.not_eq_true, Bool.not_eq_true] at hmute
      split
      · rfl
      · rename_i channel hchannel
        split
        · rfl
        · rename_i room hroom
          split
          · rfl
          · rename_i hkind
            split
            · rfl
            · rename_i hspeak
              refine absurd ⟨e, room, he, hmute.1, hmute.2, hchannel, hroom, ?_, ?_⟩ (h channel)
              · simpa using hkind
              · simpa using hspeak

theorem Shared.relayVoice_cases (s : Shared) (sender : ClientId) (packet : VoiceUpstream) :
    s.relayVoice sender packet = s ∨ ∃ channel, Stands s sender channel ∧
      s.relayVoice sender packet =
        { s with clients := s.clients.map (ConnectedClient.hear sender channel (packet.intoDownstream sender)) } := by
  by_cases h : ∃ channel, SpeaksIn s sender channel
  · obtain ⟨channel, h⟩ := h
    have hsender : Stands s sender channel := by
      obtain ⟨e, -, he, -, -, hchannel, -⟩ := h
      exact ⟨e, he, hchannel⟩
    exact .inr ⟨channel, hsender, relayVoice_of_speaks h⟩
  · exact .inl (relayVoice_of_silent fun channel hc => h ⟨channel, hc⟩)

theorem stands_of_relayVoice {sender : ClientId} {packet : VoiceUpstream} {d : VoiceDownstream}
    (hd : d ∈ ((s.relayVoice sender packet).voice k).drop (s.voice k).length) :
    ∃ channel, Stands s sender channel ∧ Stands s k channel := by
  rcases s.relayVoice_cases sender packet with he | ⟨channel, hs, he⟩
  · rw [he, List.drop_length] at hd
    cases hd
  · rw [he] at hd
    unfold Shared.voice at hd
    rw [Shared.client?_map s (fun e => e.hear_id ..) k] at hd
    cases hc : s.client? k with
    | none =>
      rw [hc] at hd
      cases hd
    | some e =>
      rw [hc] at hd
      simp only [Option.map_some, Option.getD_some, ConnectedClient.hear] at hd
      split at hd
      · rw [List.drop_length] at hd
        cases hd
      · rename_i hno
        have hin : e.info.channel = some channel := by
          by_contra hne
          exact hno (.inr (.inl hne))
        exact ⟨channel, hs, e, hc, hin⟩

theorem relayVoice_queue (sender : ClientId) (packet : VoiceUpstream) :
    (s.relayVoice sender packet).queue k = s.queue k := by
  rcases s.relayVoice_cases sender packet with he | ⟨channel, -, he⟩
  · rw [he]
  · rw [he]
    exact Shared.queue_of_map rfl (fun e => ⟨e.hear_id .., e.hear_control ..⟩) k

end

/-! ## Runs -/

/-- Whoever stands in a channel may view it, but for those a moderator put there. -/
structure Traffic.Orderly (t : Traffic) : Prop where
  rooms : Keyed.Unique Channel.id t.shared.channels
  views : ∀ k channel, Stands t.shared k channel → ¬ t.placed k → t.shared.can k channel .viewChannel = true

theorem rightful_of_deliver {t : Traffic} {c : Call} {f : UserInfo → List ServerControl}
    (hop : t.shared.operate c.op = t.shared.deliver f)
    (hf : ∀ k e, t.shared.client? k = some e → ∀ m ∈ f e.info, ∀ channel, m.carries = some channel →
      t.shared.can k channel .viewChannel = true ∨
        (∃ msg nonce, m = .messagePosted msg (some nonce) ∧ msg.author = some k) ∨
        ∃ messages start, m = .history channel messages start ∧ c.seen.can k channel .viewChannel = true) :
    Rightful t c := by
  constructor
  · intro k m hm
    rw [hop] at hm
    obtain ⟨e, he, hm⟩ := mem_new_deliver hm
    exact hf k e he m hm
  · intro k d hd
    rw [hop, deliver_voice, List.drop_length] at hd
    cases hd

theorem Traffic.Orderly.rightful {t : Traffic} (h : t.Orderly) {c : Call} (hc : c.op.Called c.seen) : Rightful t c := by
  obtain ⟨op, seen⟩ := c
  cases hq : op.queues with
  | false =>
    have hstill := operate_still t.shared hq
    constructor
    · intro k m hm
      rw [hstill.frames k] at hm
      cases hm
    · intro k d hd
      rw [hstill.voice k] at hd
      cases hd
  | true =>
  cases op with
  | send client m =>
    refine rightful_of_deliver (Shared.send_eq ..) fun k e he m' hm' channel hcarries => ?_
    have hk : e.info.clientId = k := Shared.client?_id he
    split at hm'
    · rename_i hid
      obtain rfl := List.mem_singleton.mp hm'
      obtain rfl : k = client := hk.symm.trans hid
      rcases hc with hnone | hecho | ⟨channel', messages, start, rfl, hview⟩
      · rw [hcarries] at hnone
        cases hnone
      · exact .inr (.inl hecho)
      · have he : channel' = channel := by
          change (if messages = [] then none else some channel') = some channel at hcarries
          split at hcarries
          · cases hcarries
          · exact Option.some.inj hcarries
        subst he
        exact .inr (.inr ⟨messages, start, rfl, hview⟩)
    · cases hm'
  | broadcast m except =>
    refine rightful_of_deliver (Shared.broadcast_eq ..) fun k e he m' hm' channel hcarries => ?_
    split at hm'
    · cases hm'
    · obtain rfl := List.mem_singleton.mp hm'
      have hnone : m'.carries = none := hc
      rw [hcarries] at hnone
      cases hnone
  | broadcastFiltered m channel except =>
    constructor
    · intro k m' hm' channel' hcarries
      obtain ⟨rfl, hview⟩ := viewer_of_broadcastFiltered hm'
      rcases hc with ⟨msg, rfl, rfl⟩ | ⟨client, rfl⟩ <;> cases hcarries <;> exact .inl hview
    · intro k d hd
      change d ∈ ((t.shared.broadcastFiltered m channel except).voice k).drop _ at hd
      rw [Shared.broadcastFiltered_eq, deliver_voice, List.drop_length] at hd
      cases hd
  | resyncVisibility before touched =>
    constructor
    · intro k m hm channel hcarries
      exact .inl (viewer_of_resync h.rooms hm hcarries)
    · intro k d hd
      change d ∈ ((t.shared.resyncVisibility before touched).voice k).drop _ at hd
      rw [Shared.resyncVisibility_eq, deliver_voice, List.drop_length] at hd
      cases hd
  | relayVoice sender packet =>
    constructor
    · intro k m hm
      change m ∈ ((t.shared.relayVoice sender packet).queue k).drop _ at hm
      rw [relayVoice_queue, List.drop_length] at hm
      cases hm
    · intro k d hd
      obtain ⟨channel, hs, hk⟩ := stands_of_relayVoice hd
      refine ⟨sender, packet, channel, rfl, hs, hk, ?_⟩
      by_cases hp : t.placed k
      · exact .inr hp
      · exact .inl (h.views k channel hk hp)
  | _ => cases hq

theorem operate_rooms {s : Shared} (hu : Keyed.Unique Channel.id s.channels) (op : Operation) :
    Keyed.Unique Channel.id (s.operate op).channels := by
  have hmodify : ∀ id {f : Channel → Channel}, (∀ c, c.id = id → (f c).id = c.id) →
      Keyed.Unique Channel.id (s.modifyChannel id f).channels := by
    intro id f hf
    refine hu.map fun c => ?_
    split
    · exact hf c ‹_›
    · rfl
  have hdeliver : ∀ {t : Shared} f, t = s.deliver f → Keyed.Unique Channel.id t.channels := by
    rintro t f rfl
    exact hu
  cases hedit : op.edits with
  | some client =>
    rcases operate_edits s hedit with he | ⟨f, he, -⟩ <;> rw [he] <;> exact hu
  | none =>
  cases op with
  | joinChannel | forceMove | leaveChannel | setVoiceState | setNickname | setServerMuted => cases hedit
  | send client m => exact hdeliver _ (Shared.send_eq ..)
  | broadcast m except => exact hdeliver _ (Shared.broadcast_eq ..)
  | broadcastFiltered m channel except => exact hdeliver _ (Shared.broadcastFiltered_eq ..)
  | resyncVisibility before touched => exact hdeliver _ (Shared.resyncVisibility_eq ..)
  | relayVoice sender packet =>
    change Keyed.Unique Channel.id (s.relayVoice sender packet).channels
    rcases s.relayVoice_cases sender packet with he | ⟨channel, -, he⟩ <;> rw [he] <;> exact hu
  | admitUser identity nickname =>
    change Keyed.Unique Channel.id (((s.admitUser identity nickname).toOption.map Prod.snd).getD s).channels
    rcases landed (s.admitUser identity nickname) s with ⟨he, -⟩ | ⟨info, t, ht, he⟩ <;> rw [he]
    · exact hu
    · obtain ⟨-, -, -, -, -, -, rfl⟩ := Shared.admitUser_ok ht
      exact hu
  | stripRoleOverwrites role => exact hu.map fun c => by split <;> rfl
  | setChannelOverwrite channel o => exact hmodify channel fun _ _ => rfl
  | removeChannelOverwrite channel target => exact hmodify channel fun _ _ => rfl
  | insertChannelMem c => exact hu.putSorted c
  | updateChannelMem c => exact hmodify c.id fun _ hid => hid.symm
  | removeChannelMem id =>
    change Keyed.Unique Channel.id (s.removeChannelMem id).2.channels
    rw [Shared.removeChannelMem_channels]
    exact hu.erase id
  | _ => exact hu

theorem stands_deliver {s : Shared} {f : UserInfo → List ServerControl} {k : ClientId} {channel : ChannelId}
    (h : Stands (s.deliver f) k channel) : Stands s k channel := by
  obtain ⟨e, he, hc⟩ := h
  rw [Shared.deliver_client?] at he
  obtain ⟨e₀, he₀, rfl⟩ := Option.map_eq_some_iff.mp he
  exact ⟨e₀, he₀, hc⟩

theorem operate_stands {s : Shared} {op : Operation} {k : ClientId} (hk : ¬ op.moves k) {channel : ChannelId}
    (h : Stands (s.operate op) k channel) : Stands s k channel := by
  cases hq : op.queues with
  | false => exact (operate_still s hq).stands hk h
  | true =>
  cases op with
  | send client m =>
    have h : Stands (s.send client m) k channel := h
    rw [Shared.send_eq] at h
    exact stands_deliver h
  | broadcast m except =>
    have h : Stands (s.broadcast m except) k channel := h
    rw [Shared.broadcast_eq] at h
    exact stands_deliver h
  | broadcastFiltered m channel' except =>
    have h : Stands (s.broadcastFiltered m channel' except) k channel := h
    rw [Shared.broadcastFiltered_eq] at h
    exact stands_deliver h
  | resyncVisibility before touched =>
    have h : Stands (s.resyncVisibility before touched) k channel := h
    rw [Shared.resyncVisibility_eq] at h
    exact stands_deliver h
  | relayVoice sender packet =>
    have h : Stands (s.relayVoice sender packet) k channel := h
    rcases s.relayVoice_cases sender packet with he | ⟨channel', -, he⟩ <;> rw [he] at h
    · exact h
    · obtain ⟨e, he, hc⟩ := h
      rw [Shared.client?_map s (fun e => e.hear_id ..) k] at he
      obtain ⟨e₀, he₀, rfl⟩ := Option.map_eq_some_iff.mp he
      rw [ConnectedClient.hear_info] at hc
      exact ⟨e₀, he₀, hc⟩
  | _ => cases hq

theorem join_views {s t : Shared} {client : ClientId} {channel channel' : ChannelId} {source : Option ChannelId}
    (hj : s.joinChannel client channel = .ok (source, t)) (hs : Stands t client channel') :
    t.can client channel' .viewChannel = true := by
  obtain ⟨e, room, he, hroom, hv, -, -, rfl⟩ := Shared.joinChannel_ok hj
  have hid : e.id = client := Keyed.get_key he
  have hnew : (s.modifyInfo client fun i => { i with channel := some channel }).client? client =
      some { e with info := { e.info with channel := some channel } } := by
    rw [client?_of_map (s := s) rfl (fun e => by split <;> rfl), he]
    simp [hid]
  obtain ⟨e', he', hc⟩ := hs
  rw [hnew] at he'
  cases he'
  cases hc
  exact can_of_views hnew hroom hv

theorem Traffic.Orderly.step {t : Traffic} (h : t.Orderly) {c : Call} (hkept : ViewsKept t c) :
    (t.after c.op).Orderly := by
  refine ⟨operate_rooms h.rooms c.op, fun k channel hs hp => ?_⟩
  obtain ⟨op, seen⟩ := c
  have hs : Stands (t.shared.operate op) k channel := hs
  -- Whoever stood there already may view the channel, and goes on to.
  have stayed : Stands t.shared k channel → ¬ t.placed k → (t.shared.operate op).can k channel .viewChannel = true :=
    fun hs₀ hp₀ => hkept k channel hs₀ hs hp₀ (h.views k channel hs₀ hp₀)
  cases op with
  | joinChannel client channel' =>
    rcases landed (t.shared.joinChannel client channel') t.shared with ⟨he, hno⟩ | ⟨source, t', hj, he⟩
    · have he : t.shared.operate (.joinChannel client channel') = t.shared := he
      rw [he] at hs
      refine stayed hs fun hp₀ => hp ⟨hp₀, fun hok => ?_⟩
      rw [hno] at hok
      cases hok.2
    · have he : t.shared.operate (.joinChannel client channel') = t' := he
      by_cases hk : k = client
      · change (t.shared.operate (.joinChannel client channel')).can k channel .viewChannel = true
        rw [he] at hs ⊢
        exact hk ▸ join_views hj (hk ▸ hs)
      · have hno : ¬ Operation.moves (.joinChannel client channel') k := hk
        exact stayed (operate_stands hno hs) fun hp₀ => hp ⟨hp₀, fun hok => hk hok.1⟩
  | forceMove client dest =>
    by_cases hk : k = client
    · rcases landed (t.shared.forceMove client dest) t.shared with ⟨he, hno⟩ | ⟨source, t', hm, he⟩
      · have he : t.shared.operate (.forceMove client dest) = t.shared := he
        rw [he] at hs
        exact stayed hs fun hp₀ => hp (.inr hp₀)
      · refine absurd (.inl ⟨hk, ?_⟩) hp
        rw [hm]
        rfl
    · have hno : ¬ Operation.moves (.forceMove client dest) k := hk
      exact stayed (operate_stands hno hs) fun hp₀ => hp (.inr hp₀)
  | admitUser identity nickname =>
    refine stayed (operate_stands id hs) fun hp₀ => hp ⟨hp₀, fun hok => ?_⟩
    -- One who has just come stands nowhere.
    rcases landed (t.shared.admitUser identity nickname) t.shared with ⟨-, hno⟩ | ⟨info, t', ht, he⟩
    · rw [hno] at hok
      cases hok.2
    · have he : t.shared.operate (.admitUser identity nickname) = t' := he
      obtain ⟨hid, -, hnowhere, -, -, -, rfl⟩ := Shared.admitUser_ok ht
      rw [he] at hs
      obtain ⟨e, hget, hc⟩ := hs
      have hget : Keyed.get ConnectedClient.id k
          (Keyed.put ConnectedClient.id ⟨info, [], []⟩ t.shared.clients) = some e := hget
      have hkey : k = (⟨info, [], []⟩ : ConnectedClient).id := hok.1.trans hid.symm
      rw [Keyed.get_put, if_pos hkey] at hget
      cases hget
      rw [hnowhere] at hc
      cases hc
  | _ => exact stayed (operate_stands id hs) hp

/-! ## From the start -/

def Traffic.start (s : Shared) : Traffic := ⟨s, (· = s), fun _ => False⟩

theorem foldl_putSorted_unique (channels : List Channel) {m : List Channel} (hm : Keyed.Unique Channel.id m) :
    Keyed.Unique Channel.id (channels.foldl (fun m c => Keyed.putSorted Channel.id c m) m) := by
  induction channels generalizing m with
  | nil => exact hm
  | cons c channels ih => exact ih (hm.putSorted c)

theorem Traffic.orderly_start {config : ServerConfig} {now : UInt64} {db db' : Db} {s : Shared}
    (h : Server.bind config now db = some (s, db')) : (Traffic.start s).Orderly := by
  obtain ⟨channels, db₁, roles, -, -, -, hchannels⟩ := bind_some h
  constructor
  · change Keyed.Unique Channel.id s.channels
    rw [hchannels]
    exact foldl_putSorted_unique _ List.nodup_nil
  · intro k channel hs
    obtain ⟨e, he, -⟩ : Stands s k channel := hs
    unfold Shared.client? at he
    rw [bind_nobody h] at he
    cases he

/-- As long as no one loses the view of the channel it stands in, a channel's
traffic is for those who view it. -/
theorem traffic_reaches_viewers {config : ServerConfig} {now : UInt64} {db db₀ : Db} {s₀ : Shared} {t t' : Traffic}
    {c : Call}
    (hb : Server.bind config now db = some (s₀, db₀)) (hrun : Run Traffic.Step ViewsKept (.start s₀) t)
    (hst : t.Step c t') : Rightful t c := by
  have horderly : t.Orderly := by
    refine hrun.invariant Traffic.Orderly (Traffic.orderly_start hb) ?_
    rintro t c _ h hkept ⟨-, -, rfl⟩
    exact h.step hkept
  exact horderly.rightful hst.2.1

/-! ## Every run of the server is a run of operations -/

theorem Operates.run {t₀ t : Traffic} {seen s : Shared} (ho : Operates seen t.shared s)
    (h : Run Traffic.Step (fun _ _ => True) t₀ t) (hp : t.past seen) (hl : t.past t.shared) :
    ∃ t', Run Traffic.Step (fun _ _ => True) t₀ t' ∧ t'.shared = s ∧ t'.past s ∧ ∀ u, t.past u → t'.past u := by
  induction ho with
  | refl => exact ⟨t, h, rfl, hl, fun _ hu => hu⟩
  | step op _ hcalled hs ih =>
    obtain ⟨t', hr, rfl, -, hsub⟩ := ih
    subst hs
    exact ⟨t'.after op, .step ⟨op, seen⟩ hr trivial ⟨hsub seen hp, hcalled, rfl⟩, rfl, .inr rfl,
      fun u hu => .inl (hsub u hu)⟩

/-- The operations so far lead to the server's state, and every handler in
flight goes on with operations, called on checks made in a state of the run. -/
structure InFlight (s₀ : Shared) (p : ServerPool) (t : Traffic) : Prop where
  run : Run Traffic.Step (fun _ _ => True) (.start s₀) t
  shared : t.shared = p.state
  last : t.past t.shared
  jobs : ∀ i j, p.jobs i = some j → ∃ seen, t.past seen ∧ j.Bounded (opBound seen)

theorem InFlight.section {s₀ : Shared} {p : ServerPool} {t : Traffic} (h : InFlight s₀ p t) {seen s : Shared}
    {w : World}
    (hp : t.past seen) (ho : Operates seen p.state s) (i : Nat) {j : Async.Job Shared Await Await.Reply}
    (hj : j.Bounded (opBound seen)) : ∃ t', InFlight s₀ ⟨s, w, p.set i j⟩ t' := by
  rw [← h.shared] at ho
  obtain ⟨t', hr, hs, hl, hsub⟩ := ho.run h.run hp h.last
  refine ⟨t', hr, hs, hs ▸ hl, fun k j' hk => ?_⟩
  rcases Async.set_eq hk with ⟨-, rfl⟩ | ⟨-, hk⟩
  · exact ⟨seen, hsub seen hp, hj⟩
  · obtain ⟨seen', hp', hj'⟩ := h.jobs k j' hk
    exact ⟨seen', hsub seen' hp', hj'⟩

theorem InFlight.step {s₀ : Shared} {p p' : ServerPool} {t : Traffic} (h : InFlight s₀ p t) {e : ServerEvent}
    (hok : FromInput e) (hst : Pool.Step MayFail p e p') : ∃ t', InFlight s₀ p' t' := by
  have hlast : t.past p.state := h.shared ▸ h.last
  cases hst with
  | spawn i handler _ =>
    obtain ⟨input, rfl⟩ := hok
    have hin := input.called p.state
    exact h.section hlast hin.1 i (hin.2 trivial)
  | @perform i j op effect next r w' hi hph hp =>
    obtain ⟨seen, hseen, hj⟩ := h.jobs i j hi
    unfold Async.Job.Bounded at hj
    rw [hph] at hj
    exact h.section hseen (.refl p.state) i fun s => hj.2 r s trivial
  | @resume i j op effect next r hi hph =>
    obtain ⟨seen, hseen, hj⟩ := h.jobs i j hi
    unfold Async.Job.Bounded at hj
    rw [hph] at hj
    exact h.section hseen (hj p.state).1 i ((hj p.state).2 trivial)
  | outside f => cases hok

/-- Whatever handlers run and however they interleave, the server goes through
a run of operations. -/
theorem operations_of_handlers {s₀ : Shared} {w₀ : World} {p : ServerPool}
    (hrun : Run (Pool.Step MayFail) (fun _ => FromInput) ⟨s₀, w₀, fun _ => none⟩ p) :
    ∃ t, Run Traffic.Step (fun _ _ => True) (.start s₀) t ∧ t.shared = p.state := by
  have hall : ∃ t, InFlight s₀ p t := by
    refine hrun.invariant (fun p => ∃ t, InFlight s₀ p t) ?_ ?_
    · refine ⟨.start s₀, .refl, rfl, rfl, fun i j hi => ?_⟩
      cases hi
    · rintro p e p' ⟨t, h⟩ hok hst
      exact h.step hok hst
  obtain ⟨t, h⟩ := hall
  exact ⟨t, h.run, h.shared⟩

/-! ## Two members in a channel -/

/-- The owner and a member connect and join channel 1. -/
def twoJoined : Traffic :=
  ((((Traffic.start twoChannelsStart.now.1).after (.admitUser ⟨.rep 1, 8⟩ "a")).after
    (.admitUser ⟨.rep 2, 8⟩ "b")).after
    (.joinChannel 1 1)).after (.joinChannel 2 1)

def channelHidden : Operation := .setChannelOverwrite 1 ⟨.role everyoneRoleId, .none, .viewChannel⟩

def ownerSpeaks : Operation := .relayVoice 1 ⟨0, 0, [1]⟩

theorem Traffic.run_after {ok : Traffic → Call → Prop} {t₀ t : Traffic} (h : Run Traffic.Step ok t₀ t)
    (hl : t.past t.shared)
    (op : Operation) (hc : op.Called t.shared) (hok : ok t ⟨op, t.shared⟩) : Run Traffic.Step ok t₀ (t.after op) :=
  .step ⟨op, t.shared⟩ h hok ⟨hl, hc, rfl⟩

theorem viewsKept_of_clients {t : Traffic} {c : Call}
    (h : t.shared.clients.all fun e => e.info.channel.all fun channel =>
      (t.shared.operate c.op).can e.id channel .viewChannel) : ViewsKept t c := by
  rintro k channel ⟨e, he, hc⟩ - - -
  have hid : e.id = k := Keyed.get_key he
  have hall := List.all_eq_true.mp h e (Keyed.get_mem he)
  rw [hc, hid] at hall
  exact hall

theorem twoJoined_run : Run Traffic.Step ViewsKept (.start twoChannelsStart.now.1) twoJoined := by
  have hstart : Run Traffic.Step ViewsKept (.start twoChannelsStart.now.1) (.start twoChannelsStart.now.1) := .refl
  have howner := Traffic.run_after hstart rfl (.admitUser ⟨.rep 1, 8⟩ "a") trivial
      (viewsKept_of_clients (by decide +kernel))
  have hmember := Traffic.run_after howner (.inr rfl) (.admitUser ⟨.rep 2, 8⟩ "b") trivial
    (viewsKept_of_clients (by decide +kernel))
  have hjoin := Traffic.run_after hmember (.inr rfl) (.joinChannel 1 1) trivial
      (viewsKept_of_clients (by decide +kernel))
  exact Traffic.run_after hjoin (.inr rfl) (.joinChannel 2 1) trivial (viewsKept_of_clients (by decide +kernel))

/-- The channel is hidden from a member who stands in it, and the owner speaks there. -/
theorem voice_reaches_nonviewer :
    Server.bind ownedConfig 5 twoChannelsDb = some (twoChannelsStart.now.1, twoChannelsDb) ∧
      ∃ t c t', Run Traffic.Step (fun _ _ => True) (.start twoChannelsStart.now.1) t ∧ t.Step c t' ∧
        ¬ Rightful t c := by
  refine ⟨twoChannelsStart_bind, twoJoined.after channelHidden, ⟨ownerSpeaks, (twoJoined.after channelHidden).shared⟩,
    (twoJoined.after channelHidden).after ownerSpeaks, ?_, ⟨.inr rfl, trivial, rfl⟩, fun h => ?_⟩
  · exact Traffic.run_after (twoJoined_run.mono fun _ _ _ => trivial) (.inr rfl) channelHidden trivial trivial
  · -- The member gets the datagram, stands in channel 1 and may not view it.
    obtain ⟨sender, packet, channel, -, -, ⟨e, he, hc⟩, hview | hplaced⟩ := h.voice 2 ⟨1, 0, 0, [1]⟩ (by decide +kernel)
    · have hin : (((twoJoined.after channelHidden).shared.client? 2).bind fun e =>
          e.info.channel) = some 1 := by decide +kernel
      rw [he] at hin
      obtain rfl : channel = 1 := Option.some.inj (hc.symm.trans hin)
      revert hview
      decide +kernel
    · exact hplaced.1.1.1.1

/-- The owner speaks, and the member in the same channel hears it. -/
theorem traffic_reaches_viewers_voice :
    ∃ t c t', Run Traffic.Step ViewsKept (.start twoChannelsStart.now.1) t ∧ t.Step c t' ∧
      t'.shared.voice 2 = [⟨1, 0, 0, [1]⟩] ∧ Rightful t c := by
  have hst : twoJoined.Step ⟨ownerSpeaks, twoJoined.shared⟩ (twoJoined.after ownerSpeaks) := ⟨.inr rfl, trivial, rfl⟩
  exact ⟨_, _, _, twoJoined_run, hst, by decide +kernel,
    traffic_reaches_viewers twoChannelsStart_bind twoJoined_run hst⟩

end PickleChat
