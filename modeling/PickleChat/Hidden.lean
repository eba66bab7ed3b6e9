import PickleChat.ChannelCommands

/-!
# Hidden channels

A channel a client may not view answers as one that does not exist: the frames
of two runs, one with the channel and one without, compared.
-/

namespace PickleChat

open Async (exec)

def Shared.withoutChannel (s : Shared) (c : ChannelId) : Shared :=
  { s with channels := Keyed.erase Channel.id c s.channels }

def heard (perform : (op : Await) → World → op.Reply × World) (k : ClientId) (frame : ClientControl) (s : Shared)
    (w : World) : List ServerControl :=
  ((exec perform (handleControl k frame) s w).1.queue k).drop (s.queue k).length

/-- The frames that name a channel, as what they are about, as a parent or as a destination. -/
def ClientControl.names (c : ChannelId) : ClientControl → Prop
  | .joinChannel channel => channel = c
  | .sendMessage channel .. => channel = c
  | .fetchHistory channel .. => channel = c
  | .typing channel => channel = c
  | .setChannelOverwrite _ channel .. => channel = c
  | .deleteChannelOverwrite _ channel .. => channel = c
  | .createChannel _ _ parent .. => parent = some c
  | .updateChannel _ id parent .. => id = c ∨ parent = some c
  | .deleteChannel _ id => id = c
  | .moveMember _ _ dest => dest = some c
  | _ => False

/-- A channel that is to be put under `c` is refused before the parent is looked up. -/
def RefusedBeforeParent (s : Shared) (k : ClientId) (c : ChannelId) : ClientControl → Prop
  | .createChannel _ name parent .. =>
    parent = some c → s.canGlobally k .manageChannels = false ∨ Text.trim name = ""
  | .updateChannel _ id parent name .. =>
    parent = some c →
      s.canGlobally k .manageChannels = false ∨ s.can k id .viewChannel = false ∨ Text.trim name = ""
  | _ => True

/-! ## Answers given at once -/

section
variable {s t : Shared}

/-- Both handlers answer on the spot, with the same frames to everybody. -/
def Alike (s t : Shared) (r q : Shared × Todo) : Prop :=
  ∃ f, r = (s.deliver f, .done) ∧ q = (t.deliver f, .done)

theorem Alike.stay : Alike s t (s, .done) (t, .done) :=
  ⟨fun _ => [], by rw [s.deliver_nil], by rw [t.deliver_nil]⟩

theorem Alike.send (k : ClientId) (m : ServerControl) : Alike s t (s.send k m, .done) (t.send k m, .done) :=
  ⟨_, by rw [Shared.send_eq], by rw [Shared.send_eq]⟩

theorem Alike.refuse (k : ClientId) (nonce : UInt64) (code : ErrorCode) (detail : String) :
    Alike s t (PickleChat.refuse s k nonce code detail, .done) (PickleChat.refuse t k nonce code detail, .done) :=
  Alike.send k _

end

/-! ## What a missing channel changes -/

section
variable {s : Shared} {c : ChannelId} {k : ClientId}

theorem Shared.withoutChannel_channel (s : Shared) (c d : ChannelId) :
    (s.withoutChannel c).channel d = if d = c then none else s.channel d := Keyed.get_erase ..

theorem Shared.withoutChannel_can (hhidden : s.can k c .viewChannel = false) (d : ChannelId) :
    (s.withoutChannel c).can k d .viewChannel = s.can k d .viewChannel := by
  by_cases hd : d = c
  · rw [hd, hhidden]
    unfold Shared.can
    rw [withoutChannel_channel, if_pos rfl]
    split <;> rfl
  · unfold Shared.can
    rw [withoutChannel_channel, if_neg hd]
    rfl

theorem actor_alike (s : Shared) (c : ChannelId) (k : ClientId) (nonce : UInt64) :
    (∃ a, actor s k nonce = .ok a ∧ actor (s.withoutChannel c) k nonce = .ok a) ∨
      ∃ s' t, actor s k nonce = .error s' ∧ actor (s.withoutChannel c) k nonce = .error t ∧
        Alike s (s.withoutChannel c) (s', .done) (t, .done) := by
  unfold actor
  rw [show (s.withoutChannel c).canGlobally k = s.canGlobally k from rfl,
    show (s.withoutChannel c).fingerprintOf k = s.fingerprintOf k from rfl]
  split
  · exact .inr ⟨_, _, rfl, rfl, Alike.refuse ..⟩
  · cases s.fingerprintOf k with
    | none => exact .inr ⟨_, _, rfl, rfl, Alike.stay⟩
    | some f => exact .inl ⟨_, rfl, rfl⟩

theorem authorize_alike (s : Shared) (c : ChannelId) (k : ClientId) (nonce : UInt64) (bit : Permissions)
    (target : ClientId) :
    (∃ f, authorizeAgainstOnline s k nonce bit target = .ok f ∧
        authorizeAgainstOnline (s.withoutChannel c) k nonce bit target = .ok f) ∨
      ∃ s' t, authorizeAgainstOnline s k nonce bit target = .error s' ∧
        authorizeAgainstOnline (s.withoutChannel c) k nonce bit target = .error t ∧
        Alike s (s.withoutChannel c) (s', .done) (t, .done) := by
  unfold authorizeAgainstOnline
  rw [show (s.withoutChannel c).canGlobally k = s.canGlobally k from rfl,
    show (s.withoutChannel c).fingerprintOf target = s.fingerprintOf target from rfl,
    show (s.withoutChannel c).actorOutranks k = s.actorOutranks k from rfl]
  split
  · exact .inr ⟨_, _, rfl, rfl, Alike.refuse ..⟩
  · cases s.fingerprintOf target with
    | none => exact .inr ⟨_, _, rfl, rfl, Alike.refuse ..⟩
    | some f =>
      dsimp only
      split
      · exact .inr ⟨_, _, rfl, rfl, Alike.refuse ..⟩
      · exact .inl ⟨f, rfl, rfl⟩

theorem join_missing {e : ConnectedClient} (he : s.client? k = some e) (hhidden : s.can k c .viewChannel = false) :
    s.joinChannel k c = .error .noSuchChannel := by
  unfold Shared.joinChannel
  cases hc : s.channel c with
  | none => rfl
  | some room =>
    have hview : (s.bits e.info (some room.overwrites)).contains .viewChannel = false := by
      simpa [Shared.can, he, hc] using hhidden
    simp [he, hview]

/-- A frame that names a hidden channel, other than as a parent, is answered
alike with the channel and without it. -/
theorem hidden_alike {e : ConnectedClient} (he : s.client? k = some e) (hhidden : s.can k c .viewChannel = false)
    {frame : ClientControl} (hn : frame.names c)
    (hp : RefusedBeforeParent s k c frame) :
    Alike s (s.withoutChannel c) (handleControl k frame s) (handleControl k frame (s.withoutChannel c)) := by
  have hgone : (s.withoutChannel c).channel c = none := by rw [Shared.withoutChannel_channel, if_pos rfl]
  have hcan : (s.withoutChannel c).can k c .viewChannel = false := by rw [Shared.withoutChannel_can hhidden, hhidden]
  cases frame <;> simp only [ClientControl.names] at hn
  case joinChannel channel =>
    subst hn
    have he' : (s.withoutChannel channel).client? k = some e := he
    simp only [handleControl, join_missing he hhidden, join_missing he' hcan]
    exact Alike.send ..
  case sendMessage channel content replyTo nonce =>
    subst hn
    simp only [handleControl, sendMessage, hgone]
    rw [show (s.withoutChannel channel).user k = s.user k from rfl,
      show (s.withoutChannel channel).limits = s.limits from rfl]
    split; · exact Alike.stay
    split; · exact Alike.stay
    split; · exact Alike.send ..
    split
    · exact Alike.send ..
    · simp only [hhidden, Bool.not_false, if_true]
      exact Alike.send ..
  case fetchHistory channel before limit =>
    subst hn
    have hempty : ∀ t : Shared, t.can k channel .viewChannel = false →
        fetchHistory k channel before limit t = (t.send k (.history channel [] true), .done) := by
      intro t ht
      unfold fetchHistory
      simp [ht]
    simp only [handleControl, hempty s hhidden, hempty _ hcan]
    exact Alike.send ..
  case typing channel =>
    subst hn
    simp only [handleControl, typing, hhidden, hcan, Bool.and_false, Bool.false_and, Bool.false_eq_true, if_false]
    exact Alike.stay
  case setChannelOverwrite nonce channel target allow deny =>
    subst hn
    simp only [handleControl, setChannelOverwrite]
    rcases actor_alike s channel k nonce with ⟨a, ha, ha'⟩ | ⟨s', t, ha, ha', hsame⟩
    · simp only [ha, ha', hhidden, hcan, Bool.not_false, if_true]
      exact Alike.refuse ..
    · simpa only [ha, ha'] using hsame
  case deleteChannelOverwrite nonce channel target =>
    subst hn
    simp only [handleControl, deleteChannelOverwrite]
    rcases actor_alike s channel k nonce with ⟨a, ha, ha'⟩ | ⟨s', t, ha, ha', hsame⟩
    · simp only [ha, ha', hhidden, hcan, Bool.not_false, if_true]
      exact Alike.refuse ..
    · simpa only [ha, ha'] using hsame
  case createChannel nonce name parent topic kind maxUsers order =>
    simp only [handleControl, createChannel, validateChannel]
    rw [show (s.withoutChannel c).canGlobally k = s.canGlobally k from rfl]
    rcases hp hn with hm | hname
    · rw [hm]
      exact Alike.refuse ..
    · simp only [hname, if_true]
      split
      · exact Alike.refuse ..
      · exact Alike.refuse ..
  case updateChannel nonce id parent name topic kind maxUsers order =>
    have hearly : s.canGlobally k .manageChannels = false ∨ s.can k id .viewChannel = false ∨ Text.trim name = "" :=
      hn.elim (fun h => .inr (.inl (h ▸ hhidden))) hp
    simp only [handleControl, updateChannel, validateChannel]
    rw [show (s.withoutChannel c).canGlobally k = s.canGlobally k from rfl, Shared.withoutChannel_can hhidden]
    rcases hearly with hm | hv | hname
    · rw [hm]
      exact Alike.refuse ..
    · rw [hv]
      split
      · exact Alike.refuse ..
      · exact Alike.refuse ..
    · simp only [hname, if_true]
      split; · exact Alike.refuse ..
      split
      · exact Alike.refuse ..
      · exact Alike.refuse ..
  case deleteChannel nonce id =>
    subst hn
    simp only [handleControl, deleteChannel]
    rw [show (s.withoutChannel id).canGlobally k = s.canGlobally k from rfl, hhidden, hcan]
    split
    · exact Alike.refuse ..
    · exact Alike.refuse ..
  case moveMember nonce target dest =>
    subst hn
    simp only [handleControl, moveMember]
    rcases authorize_alike s c k nonce .moveMembers target with ⟨a, ha, ha'⟩ | ⟨s', t, ha, ha', hsame⟩
    · simp only [ha, ha', Option.any_some, hhidden, hcan, Bool.not_false, if_true]
      exact Alike.refuse ..
    · simpa only [ha, ha'] using hsame

theorem heard_of_alike {t : Shared} {e : ConnectedClient} (he : s.client? k = some e) (he' : t.client? k = some e)
    {frame : ClientControl} (h : Alike s t (handleControl k frame s) (handleControl k frame t))
    (perform : (op : Await) → World → op.Reply × World) (w : World) :
    heard perform k frame s w = heard perform k frame t w := by
  obtain ⟨f, hs, ht⟩ := h
  unfold heard exec
  rw [hs, ht]
  simp [Async.Task.run, he, he']

end

/-! ## What a hidden parent gives away -/

def noSuchParent (nonce : UInt64) : ServerControl := .commandFailed nonce .malformed "no such parent"

section
variable {perform : (op : Await) → World → op.Reply × World} {s : Shared} {w : World} {c : ChannelId} {k : ClientId}
  {e : ConnectedClient} {nonce : UInt64}

theorem drop_refuse (he : s.client? k = some e) (code : ErrorCode) (detail : String) :
    ((refuse s k nonce code detail).queue k).drop (s.queue k).length = [.commandFailed nonce code detail] := by
  rw [refuse_eq, Shared.queue_deliver, List.drop_left, he]
  simp [Shared.client?_id he]

theorem noSuchParent_not_mem_save (he : s.client? k = some e) {change : Change}
    (hclients : (change.mem s).clients = s.clients)
    (hframes : ∃ t before touched, change.frames s = Shared.resync t before touched) {detail : String} :
    noSuchParent nonce ∉
      (((change.save k nonce detail).run perform s w).1.queue k).drop (s.queue k).length := by
  have hqueue : (change.mem s).queue k = s.queue k := by
    unfold Shared.queue Shared.client?
    rw [hclients]
  have he' : (change.mem s).client? k = some e := by
    unfold Shared.client? at he ⊢
    rw [hclients, he]
  rw [change.run_save]
  split
  · obtain ⟨t, before, touched, hf⟩ := hframes
    rw [Shared.queue_deliver, hqueue, List.drop_left, he', hf]
    intro hm
    rcases List.mem_append.mp hm with hm | hm
    · rcases Shared.mem_resync hm with ⟨_, h⟩ | ⟨_, _, _, -, -, -, h | h⟩ <;> cases h
    · unfold acks at hm
      split at hm
      · cases List.mem_singleton.mp hm
      · cases hm
  · rw [drop_refuse he]
    intro hm
    cases List.mem_singleton.mp hm

theorem noSuchParent_not_mem_refuse (he : s.client? k = some e) {code : ErrorCode} {detail : String}
    (hd : detail ≠ "no such parent") :
    noSuchParent nonce ∉ ((refuse s k nonce code detail).queue k).drop (s.queue k).length := by
  rw [drop_refuse he]
  intro hm
  cases List.mem_singleton.mp hm
  exact hd rfl

theorem heard_ne (he : s.client? k = some e) (nonce : UInt64) {frame : ClientControl}
    (hwith : noSuchParent nonce ∉ heard perform k frame s w)
    (hwithout : handleControl k frame (s.withoutChannel c) =
      (refuse (s.withoutChannel c) k nonce .malformed "no such parent", .done)) :
    heard perform k frame s w ≠ heard perform k frame (s.withoutChannel c) w := by
  intro hsame
  apply hwith
  rw [hsame]
  unfold heard exec
  rw [hwithout]
  rw [Async.Task.run, drop_refuse (s := s.withoutChannel c) he]
  exact List.mem_singleton.mpr rfl

theorem validateChannel_without (s : Shared) (c : ChannelId) (k : ClientId) (nonce : UInt64) (id : Option ChannelId)
    {name : String} (hname : Text.trim name ≠ "") :
    validateChannel (s.withoutChannel c) k nonce id name (some c) =
      .error (refuse (s.withoutChannel c) k nonce .malformed "no such parent") := by
  have hgone : (s.withoutChannel c).channels.any (fun d => d.id = c) = false := by
    simp only [List.any_eq_false, decide_eq_true_eq]
    exact fun d hd => (Keyed.mem_erase.mp hd).2
  unfold validateChannel
  simp [hname, hgone]

theorem validateChannel_with (he : s.client? k = some e) {room : Channel} (hc : s.channel c = some room)
    {id : Option ChannelId} {name : String} (hname : Text.trim name ≠ "") {s' : Shared}
    (h : validateChannel s k nonce id name (some c) = .error s') :
    noSuchParent nonce ∉ (s'.queue k).drop (s.queue k).length := by
  have hany : s.channels.any (fun d => d.id = c) = true := by
    rw [List.any_eq_true]
    exact ⟨room, Keyed.get_mem hc, by simpa using Keyed.get_key hc⟩
  unfold validateChannel at h
  simp only [hname, hany, Bool.not_true, Bool.false_eq_true, if_false] at h
  split at h
  · cases h
  · split at h
    · cases h
      rw [List.drop_length]
      exact List.not_mem_nil
    · cases h
      exact noSuchParent_not_mem_refuse he (by decide)
    · cases h

theorem create_reveals (he : s.client? k = some e) {room : Channel} (hc : s.channel c = some room) {name : String}
    (hm : s.canGlobally k .manageChannels = true) (hname : Text.trim name ≠ "") (topic : String) (kind : ChannelKind)
    (maxUsers : Option UInt16) (order : Int32) :
    heard perform k (.createChannel nonce name (some c) topic kind maxUsers order) s w ≠
      heard perform k (.createChannel nonce name (some c) topic kind maxUsers order) (s.withoutChannel c) w := by
  refine heard_ne he nonce ?_ ?_
  · unfold heard exec
    simp only [handleControl, createChannel, hm, Bool.not_true, Bool.false_eq_true, if_false]
    cases hv : validateChannel s k nonce none name (some c) with
    | error s' => exact validateChannel_with he hc hname hv
    | ok name =>
      dsimp only
      split
      · exact noSuchParent_not_mem_refuse he (by decide)
      · rw [createChannelSave_eq]
        exact noSuchParent_not_mem_save he rfl ⟨_, _, _, rfl⟩
  · have hm' : (s.withoutChannel c).canGlobally k .manageChannels = true := hm
    simp only [handleControl, createChannel, hm', validateChannel_without s c k nonce none hname, Bool.not_true,
      Bool.false_eq_true, if_false]

theorem update_reveals (he : s.client? k = some e) {room : Channel} (hc : s.channel c = some room)
    (hhidden : s.can k c .viewChannel = false) {name : String} {id : ChannelId}
    (hm : s.canGlobally k .manageChannels = true) (hview : s.can k id .viewChannel = true)
    (hname : Text.trim name ≠ "") (topic : String) (kind : ChannelKind) (maxUsers : Option UInt16) (order : Int32) :
    heard perform k (.updateChannel nonce id (some c) name topic kind maxUsers order) s w ≠
      heard perform k (.updateChannel nonce id (some c) name topic kind maxUsers order) (s.withoutChannel c) w := by
  refine heard_ne he nonce ?_ ?_
  · unfold heard exec
    simp only [handleControl, updateChannel, hm, hview, Bool.not_true, Bool.false_eq_true, if_false]
    cases hv : validateChannel s k nonce (some id) name (some c) with
    | error s' => exact validateChannel_with he hc hname hv
    | ok name =>
      dsimp only
      split
      · exact noSuchParent_not_mem_refuse he (by decide)
      · rw [updateChannelSave_eq]
        exact noSuchParent_not_mem_save he rfl ⟨_, _, _, rfl⟩
  · have hm' : (s.withoutChannel c).canGlobally k .manageChannels = true := hm
    have hview' : (s.withoutChannel c).can k id .viewChannel = true := by rw [Shared.withoutChannel_can hhidden, hview]
    simp only [handleControl, updateChannel, hm', hview', validateChannel_without s c k nonce (some id) hname,
      Bool.not_true, Bool.false_eq_true, if_false]

/-- A hidden channel answers as one that does not exist, unless a command comes
as far as looking it up as a parent. -/
theorem heard_same_iff (he : s.client? k = some e) {room : Channel} (hc : s.channel c = some room)
    (hhidden : s.can k c .viewChannel = false) {frame : ClientControl} (hn : frame.names c) :
    heard perform k frame s w = heard perform k frame (s.withoutChannel c) w ↔ RefusedBeforeParent s k c frame := by
  constructor
  · intro hsame
    by_contra hp
    cases frame <;> simp only [RefusedBeforeParent, not_true_eq_false] at hp
    case createChannel nonce name parent topic kind maxUsers order =>
      simp only [Classical.not_imp, not_or, Bool.not_eq_false] at hp
      obtain ⟨rfl, hm, hname⟩ := hp
      exact create_reveals he hc hm hname _ _ _ _ hsame
    case updateChannel nonce id parent name topic kind maxUsers order =>
      simp only [Classical.not_imp, not_or, Bool.not_eq_false] at hp
      obtain ⟨rfl, hm, hview, hname⟩ := hp
      exact update_reveals he hc hhidden hm hview hname _ _ _ _ hsame
  · intro hp
    have he' : (s.withoutChannel c).client? k = some e := he
    exact heard_of_alike he he' (hidden_alike he hhidden hn hp) perform w

end

/-- Client 1 manages channels and sees channel 5, but not channel 6. -/
def hiddenServer : Shared :=
  let room (id : ChannelId) (overwrites : List Overwrite) : Channel :=
    { id, parent := none, name := "r", topic := "", kind := .text, maxUsers := none, order := 0, overwrites }
  exampleServer [exampleRole 0 0 .defaultEveryone, exampleRole 1 1 .manageChannels]
    [room 5 [], room 6 [⟨.role 0, .none, .viewChannel⟩]] [exampleClient 1 1 [1] none]

theorem heard_same_delete :
    heard Await.perform 1 (.deleteChannel 7 6) hiddenServer .empty =
      heard Await.perform 1 (.deleteChannel 7 6) (hiddenServer.withoutChannel 6) .empty := by
  have hc : hiddenServer.channel 6 = some _ := rfl
  have hn : ClientControl.names 6 (.deleteChannel 7 6) := rfl
  exact (heard_same_iff (e := exampleClient 1 1 [1] none) (by decide +kernel) hc (by decide +kernel) hn).mpr trivial

/-- A channel can be created under a hidden one, and the answer says so. -/
theorem createChannel_reveals_parent :
    (∃ room, hiddenServer.channel 6 = some room) ∧ hiddenServer.can 1 6 .viewChannel = false ∧
      heard Await.perform 1 (.createChannel 7 "door" (some 6) "" .text none 0) hiddenServer .empty ≠
        heard Await.perform 1 (.createChannel 7 "door" (some 6) "" .text none 0) (hiddenServer.withoutChannel 6)
          .empty :=
  ⟨⟨_, rfl⟩, by decide +kernel, by decide +kernel⟩

end PickleChat
