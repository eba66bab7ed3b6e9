import PickleChat.Session

/-!
# What is queued for whom

Every way of queueing frames is a `deliver`: each client gets frames chosen by
its own entry, and nothing else about the state changes.
-/

namespace PickleChat

namespace Shared

/-- Queue for every client the frames `f` picks for it. -/
def deliver (s : Shared) (f : UserInfo → List ServerControl) : Shared :=
  { s with clients := s.clients.map fun e => e.push (f e.info) }

/-- The frames queued for a client since it was admitted. -/
def queue (s : Shared) (client : ClientId) : List ServerControl :=
  ((s.client? client).map ConnectedClient.control).getD []

section
variable (s : Shared) (f : UserInfo → List ServerControl)

@[simp] theorem deliver_config : (s.deliver f).config = s.config := rfl
@[simp] theorem deliver_limits : (s.deliver f).limits = s.limits := rfl
@[simp] theorem deliver_perms : (s.deliver f).perms = s.perms := rfl
@[simp] theorem deliver_owner : (s.deliver f).owner = s.owner := rfl
@[simp] theorem deliver_store : (s.deliver f).store = s.store := rfl
@[simp] theorem deliver_channels : (s.deliver f).channels = s.channels := rfl
@[simp] theorem deliver_nextMessageId : (s.deliver f).nextMessageId = s.nextMessageId := rfl
@[simp] theorem deliver_nowUnixMs : (s.deliver f).nowUnixMs = s.nowUnixMs := rfl
@[simp] theorem deliver_nextClientId : (s.deliver f).nextClientId = s.nextClientId := rfl

@[simp] theorem deliver_users : (s.deliver f).users = s.users := by
  simp [deliver, users, ConnectedClient.push]

@[simp] theorem deliver_client? (k : ClientId) :
    (s.deliver f).client? k = (s.client? k).map fun e => e.push (f e.info) := by
  have hid : ∀ e : ConnectedClient, (e.push (f e.info)).id = e.id := fun _ => rfl
  exact Keyed.get_map hid k s.clients

@[simp] theorem deliver_deliver (g : UserInfo → List ServerControl) :
    (s.deliver f).deliver g = s.deliver fun i => f i ++ g i := by
  simp [deliver, ConnectedClient.push]

@[simp] theorem deliver_nil : (s.deliver fun _ => []) = s := by
  simp [deliver, ConnectedClient.push]

@[simp] theorem deliver_views (info : UserInfo) (c : Channel) : (s.deliver f).views info c = s.views info c := rfl

@[simp] theorem deliver_channel (id : ChannelId) : (s.deliver f).channel id = s.channel id := rfl

@[simp] theorem deliver_visibleIds (info : UserInfo) : (s.deliver f).visibleIds info = s.visibleIds info := rfl

@[simp] theorem deliver_fingerprintOf (k : ClientId) : (s.deliver f).fingerprintOf k = s.fingerprintOf k := by
  unfold fingerprintOf
  rw [deliver_client?, Option.map_map]
  rfl

@[simp] theorem deliver_resyncFrames (touched was now : List ChannelId) :
    (s.deliver f).resyncFrames touched was now = s.resyncFrames touched was now := rfl

@[simp] theorem queue_deliver (k : ClientId) :
    (s.deliver f).queue k = s.queue k ++ ((s.client? k).map fun e => f e.info).getD [] := by
  unfold queue
  rw [deliver_client?]
  cases s.client? k <;> simp [ConnectedClient.push]

end

theorem client?_id {s : Shared} {k : ClientId} {e : ConnectedClient} (h : s.client? k = some e) :
    e.info.clientId = k := by
  have : e.id = k := Keyed.get_key h
  exact this

/-! ## Sends and broadcasts -/

theorem sendAll_eq (s : Shared) (k : ClientId) (frames : List ServerControl) :
    s.sendAll k frames = s.deliver fun i => if i.clientId = k then frames else [] := by
  unfold sendAll deliver Keyed.modify
  congr 1
  apply List.map_congr_left
  intro e _
  by_cases h : e.info.clientId = k <;> simp [ConnectedClient.id, ConnectedClient.push, h]

theorem send_eq (s : Shared) (k : ClientId) (m : ServerControl) :
    s.send k m = s.deliver fun i => if i.clientId = k then [m] else [] := sendAll_eq s k [m]

theorem broadcast_eq (s : Shared) (m : ServerControl) (except : Option ClientId) :
    s.broadcast m except = s.deliver fun i => if some i.clientId = except then [] else [m] := by
  unfold broadcast deliver
  congr 1
  apply List.map_congr_left
  intro e _
  by_cases h : some e.info.clientId = except <;> simp [ConnectedClient.id, ConnectedClient.push, h]

theorem broadcast_none (s : Shared) (m : ServerControl) : s.broadcast m none = s.deliver fun _ => [m] := by
  simp [broadcast_eq]

def hears (s : Shared) (channel : ChannelId) (except : Option ClientId) (i : UserInfo) : Bool :=
  some i.clientId ≠ except ∧ (s.channel channel).any (s.views i) = true

theorem broadcastFiltered_eq (s : Shared) (m : ServerControl) (channel : ChannelId) (except : Option ClientId) :
    s.broadcastFiltered m channel except = s.deliver fun i => if s.hears channel except i then [m] else [] := by
  unfold broadcastFiltered hears
  cases s.channel channel with
  | none => simp
  | some target =>
    simp only [deliver]
    congr 1
    apply List.map_congr_left
    intro e _
    by_cases h : some e.info.clientId ≠ except ∧ s.views e.info target = true <;>
      simp [ConnectedClient.id, ConnectedClient.push, h]

/-- What a resync queues for the client with this entry, given what one client saw before. -/
def resyncFrom (s : Shared) (touched : List ChannelId) (b : ClientId × List ChannelId) (i : UserInfo) :
    List ServerControl :=
  if b.1 = i.clientId then
    ((s.client? b.1).map fun e => s.resyncFrames touched b.2 (s.visibleIds e.info)).getD []
  else []

theorem resyncClient_eq (s s' : Shared) (touched : List ChannelId) (b : ClientId × List ChannelId) :
    s.resyncClient touched s' b = s'.deliver (s.resyncFrom touched b) := by
  unfold resyncClient resyncFrom
  cases s.client? b.1 with
  | none => simp
  | some e =>
    simp only [sendAll_eq]
    congr 1
    funext i
    simp [eq_comm]

/-- What a resync queues for the client with this entry. -/
def resync (s : Shared) (before : List (ClientId × List ChannelId)) (touched : List ChannelId) (i : UserInfo) :
    List ServerControl := before.flatMap fun b => s.resyncFrom touched b i

@[simp] theorem deliver_resync (s : Shared) (f : UserInfo → List ServerControl)
    (before : List (ClientId × List ChannelId)) (touched : List ChannelId) (i : UserInfo) :
    (s.deliver f).resync before touched i = s.resync before touched i := by
  unfold resync resyncFrom
  simp only [deliver_client?, Option.map_map]
  rfl

theorem resyncVisibility_eq (s : Shared) (before : List (ClientId × List ChannelId)) (touched : List ChannelId) :
    s.resyncVisibility before touched = s.deliver (s.resync before touched) := by
  have h : ∀ (before : List (ClientId × List ChannelId)) (s' : Shared),
      before.foldl (s.resyncClient touched) s' = s'.deliver (s.resync before touched) := by
    intro before
    induction before with
    | nil => intro s'; exact (s'.deliver_nil).symm
    | cons b before ih => intro s'; rw [List.foldl_cons, ih, resyncClient_eq, deliver_deliver]; rfl
  exact h before s

/-- What a resync tells a client: that a channel is gone, or a channel it now sees. -/
theorem mem_resync {s : Shared} {before : List (ClientId × List ChannelId)} {touched : List ChannelId}
    {i : UserInfo} {m : ServerControl} (h : m ∈ s.resync before touched i) :
    (∃ id, m = .channelRemoved id) ∨ ∃ e id c, s.client? i.clientId = some e ∧ id ∈ s.visibleIds e.info ∧
      s.channel id = some c ∧ (m = .channelCreated c ∨ m = .channelUpdated c) := by
  obtain ⟨b, -, hb⟩ := List.mem_flatMap.mp h
  unfold resyncFrom at hb
  split at hb
  case isFalse => cases hb
  rename_i hid
  rw [hid] at hb
  cases he : s.client? i.clientId with
  | none => rw [he] at hb; cases hb
  | some e =>
  rw [he] at hb
  simp only [Option.map_some, Option.getD_some, resyncFrames, List.mem_append] at hb
  rcases hb with (hm | hm) | hm
  · obtain ⟨id, hid, hc⟩ := List.mem_filterMap.mp hm
    obtain ⟨c, hchan, rfl⟩ := Option.map_eq_some_iff.mp hc
    exact .inr ⟨e, id, c, rfl, (List.mem_filter.mp hid).1, hchan, .inl rfl⟩
  · obtain ⟨id, -, rfl⟩ := List.mem_map.mp hm
    exact .inl ⟨id, rfl⟩
  · obtain ⟨id, hid, hc⟩ := List.mem_filterMap.mp hm
    obtain ⟨c, hchan, rfl⟩ := Option.map_eq_some_iff.mp hc
    have := (List.mem_filter.mp hid).2
    simp only [decide_eq_true_eq] at this
    exact .inr ⟨e, id, c, rfl, this.2, hchan, .inr rfl⟩

theorem commandFailed_not_mem_resync (s : Shared) (before : List (ClientId × List ChannelId))
    (touched : List ChannelId) (i : UserInfo) (nonce : UInt64) (code : ErrorCode) (detail : String) :
    .commandFailed nonce code detail ∉ s.resync before touched i := by
  intro h
  rcases mem_resync h with ⟨_, he⟩ | ⟨_, _, _, _, _, _, he | he⟩ <;> cases he

end Shared

def acks (k : ClientId) (nonce : UInt64) (i : UserInfo) : List ServerControl :=
  if i.clientId = k then [.ack nonce] else []

theorem commandFailed_not_mem_acks (k : ClientId) (nonce nonce' : UInt64) (i : UserInfo) (code : ErrorCode)
    (detail : String) : .commandFailed nonce' code detail ∉ acks k nonce i := by
  unfold acks
  split <;> simp

theorem ack_eq (s : Shared) (k : ClientId) (nonce : UInt64) : ack s k nonce = s.deliver (acks k nonce) :=
  s.send_eq k _

theorem refuse_eq (s : Shared) (k : ClientId) (nonce : UInt64) (code : ErrorCode) (detail : String) :
    refuse s k nonce code detail =
      s.deliver fun i => if i.clientId = k then [.commandFailed nonce code detail] else [] := s.send_eq k _

theorem Shared.client?_map (s : Shared) {f : ConnectedClient → ConnectedClient} (hid : ∀ e, (f e).id = e.id)
    (k : ClientId) : Shared.client? { s with clients := s.clients.map f } k = (s.client? k).map f :=
  Keyed.get_map hid k s.clients

theorem announceUsers_eq (s : Shared) (infos : List UserInfo) :
    announceUsers s infos = s.deliver fun _ => infos.map .userUpdated := by
  induction infos generalizing s with
  | nil => simp [announceUsers]
  | cons i infos ih =>
    rw [show announceUsers s (i :: infos) = announceUsers (s.broadcast (.userUpdated i) none) infos from rfl, ih]
    simp [Shared.broadcast_none]

theorem announceEvicted_eq (s : Shared) (id : ChannelId) (evicted : List UserInfo) :
    announceEvicted s id evicted = s.deliver fun _ =>
      evicted.flatMap fun i => [.userMoved i.clientId (some id) none, .userUpdated i] := by
  induction evicted generalizing s with
  | nil => simp [announceEvicted]
  | cons i evicted ih =>
    rw [show announceEvicted s id (i :: evicted) =
      announceEvicted ((s.broadcast (.userMoved i.clientId (some id) none) none).broadcast (.userUpdated i) none)
        id evicted from rfl, ih]
    simp [Shared.broadcast_none]

end PickleChat
