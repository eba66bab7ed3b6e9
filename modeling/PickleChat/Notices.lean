import PickleChat.Lib.Ledger
import PickleChat.Traffic

/-!
# Frames that count

Two kinds of frames are counted: the replies to administrative commands, and
messages. A command's handler queues its reply last, `send_message` alone queues
messages, and no other section of a handler queues either.
-/

namespace PickleChat

open Async (Task Course)

/-- The frames that tell how an administrative command went. -/
def ServerControl.reply : ServerControl → Bool
  | .ack _ | .commandFailed .. | .banList _ => true
  | _ => false

/-- The frames that do, and name the command. -/
def ServerControl.answers (nonce : UInt64) : ServerControl → Bool
  | .ack n | .commandFailed n .. => n = nonce
  | _ => false

/-- The nonce of an administrative command. -/
def ClientControl.commandNonce : ClientControl → Option UInt64
  | .kick nonce .. | .ban nonce .. | .unban nonce .. | .listBans nonce | .setServerMute nonce .. | .moveMember nonce ..
  | .createRole nonce .. | .updateRole nonce .. | .deleteRole nonce .. | .reorderRoles nonce ..
  | .setMemberRoles nonce .. | .setChannelOverwrite nonce .. | .deleteChannelOverwrite nonce ..
  | .createChannel nonce .. | .updateChannel nonce .. | .deleteChannel nonce .. => some nonce
  | _ => none

/-- What a command may be answered with: a ban list has no nonce. -/
def ClientControl.Answer : ClientControl → ServerControl → Prop
  | .listBans nonce, m => (∃ code detail, m = .commandFailed nonce code detail) ∨ ∃ bans, m = .banList bans
  | frame, m => ∃ nonce, frame.commandNonce = some nonce ∧ m.answers nonce = true

theorem ClientControl.Answer.reply {frame : ClientControl} {m : ServerControl} (h : frame.Answer m) :
    m.reply = true := by
  have hanswers : ∀ {nonce : UInt64}, m.answers nonce = true → m.reply = true := by
    intro nonce hm
    cases m <;> first | rfl | cases hm
  cases frame
  case listBans nonce => rcases h with ⟨_, _, rfl⟩ | ⟨_, rfl⟩ <;> rfl
  all_goals exact hanswers h.choose_spec.2

def ServerControl.counted (m : ServerControl) : Bool :=
  m.reply || match m with
    | .messagePosted .. => true
    | _ => false

/-- The counted frames a client has been sent. -/
def Shared.noted (s : Shared) (k : ClientId) : List ServerControl := (s.queue k).filter ServerControl.counted

def Shared.connected (s : Shared) (k : ClientId) : Bool := (s.client? k).isSome

/-! ## What counts for nothing -/

/-- No message gets an id, and nobody a frame that counts; clients may go, but nobody comes. -/
structure Hush (s t : Shared) : Prop where
  counter : t.nextMessageId = s.nextMessageId
  noted : ∀ k, t.connected k = true → s.connected k = true ∧ t.noted k = s.noted k

/-- No message gets an id, and nobody a frame that counts. -/
structure Quiet (s t : Shared) : Prop where
  counter : t.nextMessageId = s.nextMessageId
  noted : ∀ k, t.connected k = true → t.noted k = s.noted k

/-- The client gets one of these frames, after some that do not count; or it is gone. -/
def Replied (client : ClientId) (R : ServerControl → Prop) (s t : Shared) : Prop :=
  ∃ u, Hush s u ∧ ((t = u ∧ t.connected client = false) ∨ ∃ m, R m ∧ t = u.send client m)

section
variable {s t u : Shared}

theorem Hush.refl (s : Shared) : Hush s s := ⟨rfl, fun _ hk => ⟨hk, rfl⟩⟩

theorem Hush.trans (h : Hush s t) (h' : Hush t u) : Hush s u := by
  refine ⟨h'.counter.trans h.counter, fun k hk => ?_⟩
  obtain ⟨ht, hu⟩ := h'.noted k hk
  obtain ⟨hs, hq⟩ := h.noted k ht
  exact ⟨hs, hu.trans hq⟩

theorem Hush.quiet (h : Hush s t) : Quiet s t := ⟨h.counter, fun k hk => (h.noted k hk).2⟩

theorem Hush.of_map {f : ConnectedClient → ConnectedClient} (hn : t.nextMessageId = s.nextMessageId)
    (hc : t.clients = s.clients.map f) (hf : ∀ e, (f e).id = e.id ∧ (f e).control = e.control) : Hush s t := by
  refine ⟨hn, fun k hk => ?_⟩
  have hq : t.queue k = s.queue k := Shared.queue_of_map hc hf k
  unfold Shared.connected at hk ⊢
  rw [client?_of_map hc (fun e => (hf e).1), Option.isSome_map] at hk
  refine ⟨hk, ?_⟩
  unfold Shared.noted
  rw [hq]

theorem Hush.of_clients (hn : t.nextMessageId = s.nextMessageId) (hc : t.clients = s.clients) : Hush s t :=
  .of_map (f := id) hn (by rw [hc, List.map_id]) fun _ => ⟨rfl, rfl⟩

theorem Hush.deliver (s : Shared) {f : UserInfo → List ServerControl} (hf : ∀ i, ∀ m ∈ f i, m.counted = false) :
    Hush s (s.deliver f) := by
  refine ⟨rfl, fun k hk => ?_⟩
  unfold Shared.connected at hk ⊢
  rw [Shared.deliver_client?, Option.isSome_map] at hk
  refine ⟨hk, ?_⟩
  unfold Shared.noted
  have hnone : (((s.client? k).map fun e => f e.info).getD []).filter ServerControl.counted = [] := by
    refine List.filter_eq_nil_iff.mpr fun m hm => ?_
    cases he : s.client? k with
    | none =>
      rw [he] at hm
      cases hm
    | some e =>
      rw [he] at hm
      simp [hf e.info m hm]
  rw [Shared.queue_deliver, List.filter_append, hnone, List.append_nil]

theorem hush_remove (s : Shared) (client : ClientId) : Hush s (s.remove client).2 := by
  refine ⟨rfl, fun k hk => ?_⟩
  have he : (s.remove client).2.client? k = if k = client then none else s.client? k :=
    Keyed.get_erase ..
  unfold Shared.connected at hk ⊢
  by_cases h : k = client
  · rw [he, if_pos h] at hk
    cases hk
  · rw [he, if_neg h] at hk
    refine ⟨hk, ?_⟩
    unfold Shared.noted Shared.queue
    rw [he, if_neg h]

theorem hush_modifyInfo (s : Shared) (client : ClientId) {f : UserInfo → UserInfo}
    (hid : ∀ i, (f i).clientId = i.clientId) : Hush s (s.modifyInfo client f) := by
  refine .of_map rfl rfl fun e => ?_
  split
  · exact ⟨hid e.info, rfl⟩
  · exact ⟨rfl, rfl⟩

end

/-- The operation queues no frame that counts, gives out no id and admits nobody. -/
def Operation.hushed : Operation → Bool
  | .send _ m | .broadcast m _ | .broadcastFiltered m .. => !m.counted
  | .admitUser .. | .nextMessageId => false
  | _ => true

theorem hush_operate (s : Shared) {op : Operation} (h : op.hushed = true) : Hush s (s.operate op) := by
  cases hedit : op.edits with
  | some client =>
    rcases operate_edits s hedit with he | ⟨f, he, hid, -⟩ <;> rw [he]
    · exact .refl s
    · exact hush_modifyInfo s client hid
  | none =>
    cases op with
    | joinChannel | forceMove | leaveChannel | setVoiceState | setNickname | setServerMuted => cases hedit
    | admitUser | nextMessageId => cases h
    | send client m =>
      have hm : m.counted = false := by simpa [Operation.hushed] using h
      simp only [Shared.operate, Shared.send_eq]
      refine .deliver s fun i m' hm' => ?_
      split at hm'
      · exact List.mem_singleton.mp hm' ▸ hm
      · cases hm'
    | broadcast m except =>
      have hm : m.counted = false := by simpa [Operation.hushed] using h
      simp only [Shared.operate, Shared.broadcast_eq]
      refine .deliver s fun i m' hm' => ?_
      split at hm'
      · cases hm'
      · exact List.mem_singleton.mp hm' ▸ hm
    | broadcastFiltered m channel except =>
      have hm : m.counted = false := by simpa [Operation.hushed] using h
      simp only [Shared.operate, Shared.broadcastFiltered_eq]
      refine .deliver s fun i m' hm' => ?_
      split at hm'
      · exact List.mem_singleton.mp hm' ▸ hm
      · cases hm'
    | resyncVisibility before touched =>
      simp only [Shared.operate, Shared.resyncVisibility_eq]
      refine .deliver s fun i m hm => ?_
      rcases Shared.mem_resync hm with ⟨id, rfl⟩ | ⟨_, _, _, _, _, _, rfl | rfl⟩ <;> rfl
    | relayVoice sender packet =>
      simp only [Shared.operate]
      rcases s.relayVoice_cases sender packet with he | ⟨channel, -, he⟩ <;> rw [he]
      · exact .refl s
      · exact .of_map rfl rfl fun e => ⟨e.hear_id .., e.hear_control ..⟩
    | remove client => exact hush_remove s client
    | removeChannelMem id =>
      simp only [Shared.operate, Shared.removeChannelMem]
      split
      · exact .refl s
      · refine .of_map rfl rfl fun e => ?_
        split <;> exact ⟨rfl, rfl⟩
    | updateLiveMemberRoles f roles =>
      refine .of_map rfl rfl fun e => ?_
      split <;> exact ⟨rfl, rfl⟩
    | stripLiveRole role =>
      refine .of_map rfl rfl fun e => ?_
      split <;> exact ⟨rfl, rfl⟩
    | _ => exact .of_clients rfl rfl

section
variable {s t : Shared}

theorem Hush.call (h : Hush s t) (op : Operation) (hop : op.hushed = true) : Hush s (t.operate op) :=
  h.trans (hush_operate t hop)

theorem Hush.broadcast (h : Hush s t) {m : ServerControl} (hm : m.counted = false) (except : Option ClientId) :
    Hush s (t.broadcast m except) := h.call (.broadcast m except) (by simp [Operation.hushed, hm])

theorem Hush.send (h : Hush s t) (client : ClientId) {m : ServerControl} (hm : m.counted = false) :
    Hush s (t.send client m) := h.call (.send client m) (by simp [Operation.hushed, hm])

theorem Hush.resync (h : Hush s t) (before : List (ClientId × List ChannelId)) (touched : List ChannelId) :
    Hush s (t.resyncVisibility before touched) := h.call (.resyncVisibility before touched) rfl

theorem Hush.announceUsers (h : Hush s t) (infos : List UserInfo) : Hush s (announceUsers t infos) := by
  rw [announceUsers_eq]
  refine h.trans (.deliver t fun i m hm => ?_)
  obtain ⟨info, -, rfl⟩ := List.mem_map.mp hm
  rfl

theorem Hush.announceEvicted (h : Hush s t) (id : ChannelId) (evicted : List UserInfo) :
    Hush s (announceEvicted t id evicted) := by
  rw [announceEvicted_eq]
  refine h.trans (.deliver t fun i m hm => ?_)
  obtain ⟨info, -, hm⟩ := List.mem_flatMap.mp hm
  rcases List.mem_cons.mp hm with rfl | hm
  · rfl
  · rw [List.mem_singleton.mp hm]
    rfl

theorem hush_eject (s : Shared) (victim : ClientId) (reason : DisconnectReason) :
    Hush s (s.eject victim reason).2 := by
  unfold Shared.eject
  split
  · exact .refl s
  · exact (hush_remove s victim).broadcast rfl none

theorem quiet_admitUser {identity : PublicIdentity} {nickname : String} {info : UserInfo}
    (hfresh : s.client? s.nextClientId = none) (h : s.admitUser identity nickname = .ok (info, t)) : Quiet s t := by
  obtain ⟨hid, -, -, -, -, -, rfl⟩ := Shared.admitUser_ok h
  refine ⟨rfl, fun k _ => ?_⟩
  have hget : ∀ k, Keyed.get ConnectedClient.id k (Keyed.put ConnectedClient.id ⟨info, [], []⟩ s.clients) =
      if k = info.clientId then some ⟨info, [], []⟩ else s.client? k := fun k => Keyed.get_put ..
  unfold Shared.noted Shared.queue
  by_cases hk : k = s.nextClientId
  · subst hk
    have hnew := hget s.nextClientId
    rw [if_pos hid.symm] at hnew
    simp [Shared.client?, hnew, show Keyed.get ConnectedClient.id s.nextClientId s.clients = none from hfresh]
  · have hold := hget k
    rw [if_neg (by rw [hid]; exact hk)] at hold
    simp [Shared.client?, hold]

end

/-! ## Handlers -/

/-- Nobody has the id that the next client gets. -/
def Shared.NextFree (s : Shared) : Prop := s.client? s.nextClientId = none

/-- No walk along parents is without an end. -/
def Shared.WalksEnd (s : Shared) : Prop := ∀ child parent, s.parentWouldCycle child parent ≠ none

instance (s : Shared) : Decidable s.NextFree := inferInstanceAs (Decidable (s.client? s.nextClientId = none))

structure Shared.Sane (s : Shared) : Prop where
  free : s.NextFree
  walks : s.WalksEnd

theorem sane_of_roots {s : Shared} (hfree : s.client? s.nextClientId = none) (h : ∀ c ∈ s.channels, c.parent = none) :
    s.Sane := by
  refine ⟨hfree, fun child parent => ?_⟩
  cases parent with
  | none => exact Option.some_ne_none false
  | some id =>
    unfold Shared.parentWouldCycle Shared.walkParents
    split
    · exact Option.some_ne_none true
    · have hroot : (Keyed.get Channel.id id s.channels).bind Channel.parent = none := by
        cases hc : Keyed.get Channel.id id s.channels with
        | none => rfl
        | some c => exact h c (Keyed.get_mem hc)
      rw [hroot]
      cases s.channels.length <;> exact Option.some_ne_none false

def Await.stores : Await → Option ChatMessage
  | .save (.insertMessage m) => some m
  | _ => none

/-- A handler that queues no frame that counts. -/
def mute : Course Shared Await :=
  ⟨fun op => op.stores = none, fun s t => s.NextFree → Quiet s t, fun s t => s.NextFree → Quiet s t⟩

/-- A handler whose last section answers the client with one of these frames, unless it never ends. -/
def answering (client : ClientId) (R : ServerControl → Prop) : Course Shared Await :=
  ⟨fun op => op.stores = none, Hush, fun s t => Replied client R s t ∨ (t = s ∧ ¬ s.WalksEnd)⟩

section
variable {C : Course Shared Await} {s t : Shared}

theorem section_onYield {k : Handler} (hop : C.offers .yield) (h : C.along s t) (hk : C.Holds k) :
    C.Section s (t, onYield k) := Course.goesOn hop h fun _ => hk

theorem section_onSleep {k : Handler} (hop : C.offers .sleep) (h : C.along s t) (hk : C.Holds k) :
    C.Section s (t, onSleep k) := Course.goesOn hop h fun _ => hk

theorem section_onWritten {call : StoreWrite} {k : Handler} (hop : C.offers (.save call)) (h : C.along s t)
    (hk : C.Holds k) : C.Section s (t, onWritten call k) := Course.goesOn hop h fun _ => hk

theorem section_onLoad {call : StoreRead} {k : Option call.Answer → Handler} (hop : C.offers (.load call))
    (h : C.along s t) (hk : ∀ r, C.Holds (k r)) : C.Section s (t, onLoad call k) := Course.goesOn hop h hk

theorem section_onSaved {call : StoreWrite} {failed : Shared → Shared} {saved : Handler} (hop : C.offers (.save call))
    (h : C.along s t) (hfail : ∀ s, C.last s (failed s)) (hk : C.Holds saved) :
    C.Section s (t, onSaved call failed saved) := by
  refine Course.goesOn hop h fun (ok : Bool) s => ?_
  cases ok with
  | true => exact hk s
  | false => exact Course.ends (hfail s)

end

/-! ## Commands -/

section
variable {client : ClientId} {nonce : UInt64} {R : ServerControl → Prop} {s t : Shared}

theorem Hush.answer (h : Hush s t) (client : ClientId) {m : ServerControl} (hm : R m) :
    Replied client R s (t.send client m) := ⟨t, h, .inr ⟨m, hm, rfl⟩⟩

variable (hack : R (.ack nonce)) (hfail : ∀ code detail, R (.commandFailed nonce code detail))

include hfail in
theorem answered_refuse (s : Shared) (code : ErrorCode) (detail : String) :
    Replied client R s (refuse s client nonce code detail) := (Hush.refl s).answer client (hfail code detail)

include hfail in
theorem refusal (s : Shared) (code : ErrorCode) (detail : String) :
    (answering client R).last s (refuse s client nonce code detail) := .inl (answered_refuse hfail s code detail)

include hfail in
theorem answers_refuse (s : Shared) (code : ErrorCode) (detail : String) :
    (answering client R).Section s ((refuse s client nonce code detail, .done) : Shared × Todo) :=
  Course.ends (refusal hfail s code detail)

include hack in
theorem answers_ack (h : Hush s t) : (answering client R).Section s ((ack t client nonce, .done) : Shared × Todo) :=
  Course.ends (C := answering client R) (.inl (h.answer client hack))

include hfail in
theorem actor_error_answered (h : actor s client nonce = .error t) : Replied client R s t := by
  unfold actor at h
  split at h
  · cases h
    exact answered_refuse hfail s _ _
  · split at h
    · rename_i hnone
      have hgone : s.connected client = false := by
        unfold Shared.connected
        rw [Option.map_eq_none_iff.mp hnone]
        rfl
      cases h
      exact ⟨s, .refl s, .inl ⟨rfl, hgone⟩⟩
    · cases h

include hfail in
theorem authorize_error_answered {target : ClientId} {bit : Permissions}
    (h : authorizeAgainstOnline s client nonce bit target = .error t) : Replied client R s t := by
  unfold authorizeAgainstOnline at h
  split at h; · cases h; exact answered_refuse hfail s _ _
  split at h; · cases h; exact answered_refuse hfail s _ _
  split at h
  · cases h; exact answered_refuse hfail s _ _
  · cases h

include hfail in
theorem validateChannel_error_answered {id : Option ChannelId} {name : String} {parent : Option ChannelId}
    (h : validateChannel s client nonce id name parent = .error t) :
    Replied client R s t ∨ (t = s ∧ ¬ s.WalksEnd) := by
  unfold validateChannel at h
  dsimp only at h
  split at h; · cases h; exact .inl (answered_refuse hfail s _ _)
  split at h; · cases h
  split at h; · cases h; exact .inl (answered_refuse hfail s _ _)
  split at h; · cases h
  split at h
  · next hloop =>
    cases h
    exact .inr ⟨rfl, fun hends => hends _ _ hloop⟩
  · cases h; exact .inl (answered_refuse hfail s _ _)
  · cases h

include hack hfail

theorem RoleCommand.answers (cmd : RoleCommand) : (answering client R).Holds (cmd.handle client nonce) := by
  have hswap : ∀ (t : Shared) (p : PermState), Hush t (t.swapPermState p) :=
    fun t p => (Hush.refl t).call (.swapPermState p) rfl
  intro s
  cases cmd with
  | create name permissions =>
    simp only [handle, createRole]
    split; · exact Course.ends (.inl (actor_error_answered hfail ‹_›))
    split; · exact answers_refuse hfail s _ _
    split; · exact answers_refuse hfail s _ _
    split; · exact answers_refuse hfail s _ _
    refine section_onSaved rfl (.refl s) (refusal hfail · _ _) fun t => ?_
    refine section_onSaved rfl (.refl t) (refusal hfail · _ _) fun u => ?_
    exact answers_ack hack (((hswap u _).broadcast rfl none).broadcast rfl none)
  | update id name color permissions =>
    simp only [handle, updateRole]
    split; · exact Course.ends (.inl (actor_error_answered hfail ‹_›))
    split; · exact answers_refuse hfail s _ _
    split; · exact answers_refuse hfail s _ _
    split; · exact answers_refuse hfail s _ _
    split; · exact answers_refuse hfail s _ _
    split; · exact answers_refuse hfail s _ _
    refine section_onSaved rfl (.refl s) (refusal hfail · _ _) fun t => ?_
    exact answers_ack hack (((hswap t _).broadcast rfl none).resync _ _)
  | delete id =>
    simp only [handle, deleteRole]
    split; · exact Course.ends (.inl (actor_error_answered hfail ‹_›))
    split; · exact answers_refuse hfail s _ _
    split; · exact answers_refuse hfail s _ _
    split; · exact answers_refuse hfail s _ _
    split; · exact answers_refuse hfail s _ _
    refine section_onSaved rfl (.refl s) (refusal hfail · _ _) fun t => ?_
    refine section_onWritten rfl (.refl t) fun u => ?_
    have hstrip := ((hswap u (deletedPerms s.perms id)).call (.stripRoleOverwrites id) rfl).call
      (.stripLiveRole id) rfl
    exact answers_ack hack ((((hstrip.broadcast rfl none).broadcast rfl none).announceUsers _).resync _ _)
  | reorder positions =>
    simp only [handle, reorderRoles]
    split; · exact Course.ends (.inl (actor_error_answered hfail ‹_›))
    split; · exact answers_refuse hfail s _ _
    split; · exact answers_refuse hfail s _ _
    split; · exact answers_refuse hfail s _ _
    split; · exact answers_refuse hfail s _ _
    refine section_onSaved rfl (.refl s) (refusal hfail · _ _) fun t => ?_
    exact answers_ack hack ((hswap t _).broadcast rfl none)
  | grant f roles =>
    simp only [handle, setMemberRoles]
    split; · exact Course.ends (.inl (actor_error_answered hfail ‹_›))
    split; · exact answers_refuse hfail s _ _
    split; · exact answers_refuse hfail s _ _
    split; · exact answers_refuse hfail s _ _
    split; · exact answers_refuse hfail s _ _
    split; · exact answers_refuse hfail s _ _
    refine section_onSaved rfl (.refl s) (refusal hfail · _ _) fun t => ?_
    have hlive := (hswap t (grantedPerms s.perms f roles)).call (.updateLiveMemberRoles f roles) rfl
    exact answers_ack hack ((hlive.announceUsers _).resync _ _)

theorem ChannelCommand.answers (cmd : ChannelCommand) : (answering client R).Holds (cmd.handle client nonce) := by
  intro s
  cases cmd with
  | setOverwrite channel target allow deny =>
    have hsave : ∀ before o,
        (answering client R).Section s (s, setChannelOverwriteSave client nonce before channel o) :=
      fun before o => section_onSaved rfl (.refl s) (refusal hfail · _ _) fun t =>
        answers_ack hack (((Hush.refl t).call (.setChannelOverwrite channel o) rfl).resync _ _)
    simp only [handle, setChannelOverwrite]
    split; · exact Course.ends (.inl (actor_error_answered hfail ‹_›))
    split; · exact answers_refuse hfail s _ _
    split; · exact answers_refuse hfail s _ _
    split; · exact answers_refuse hfail s _ _
    split
    · split
      · rename_i a ha _ _ _ _ _ hnone
        obtain ⟨-, e, he, -⟩ := actor_ok ha
        rw [Shared.fingerprintOf, he] at hnone
        cases hnone
      split; · exact answers_refuse hfail s _ _
      split; · exact answers_refuse hfail s _ _
      split; · exact answers_refuse hfail s _ _
      exact hsave _ _
    · split; · exact answers_refuse hfail s _ _
      exact hsave _ _
  | deleteOverwrite channel target =>
    simp only [handle, deleteChannelOverwrite]
    split; · exact Course.ends (.inl (actor_error_answered hfail ‹_›))
    split; · exact answers_refuse hfail s _ _
    split; · exact answers_refuse hfail s _ _
    refine section_onSaved rfl (.refl s) (refusal hfail · _ _) fun t => ?_
    exact answers_ack hack (((Hush.refl t).call (.removeChannelOverwrite channel target) rfl).resync _ _)
  | create name parent topic kind maxUsers order =>
    simp only [handle, createChannel]
    split; · exact answers_refuse hfail s _ _
    split; · exact Course.ends (validateChannel_error_answered hfail ‹_›)
    split; · exact answers_refuse hfail s _ _
    refine section_onSaved rfl (.refl s) (refusal hfail · _ _) fun t => ?_
    exact answers_ack hack (((Hush.refl t).call (.insertChannelMem _) rfl).resync _ _)
  | update id parent name topic kind maxUsers order =>
    simp only [handle, updateChannel]
    split; · exact answers_refuse hfail s _ _
    split; · exact answers_refuse hfail s _ _
    split; · exact Course.ends (validateChannel_error_answered hfail ‹_›)
    split; · exact answers_refuse hfail s _ _
    refine section_onSaved rfl (.refl s) (refusal hfail · _ _) fun t => ?_
    exact answers_ack hack (((Hush.refl t).call (.updateChannelMem _) rfl).resync _ _)
  | delete id =>
    simp only [handle, deleteChannel]
    split; · exact answers_refuse hfail s _ _
    split; · exact answers_refuse hfail s _ _
    split; · exact answers_refuse hfail s _ _
    refine section_onSaved rfl (.refl s) (refusal hfail · _ _) fun t => ?_
    exact answers_ack hack ((((Hush.refl t).call (.removeChannelMem id) rfl).announceEvicted id _).resync _ _)

omit hack hfail in
theorem answers_ejectAndClose (victim : ClientId) (reason : DisconnectReason) {k : Handler}
    (hk : (answering client R).Holds k) : (answering client R).Holds (ejectAndClose victim reason k) := by
  intro s
  have hgone : Hush s (s.eject victim reason).2 := hush_eject s victim reason
  unfold ejectAndClose
  split
  · exact hk s
  · rename_i t he
    rw [he] at hgone
    exact section_onSleep rfl hgone hk

omit hfail in
theorem answers_ejectVictims (victims : List ClientId) :
    (answering client R).Holds (ejectVictims client nonce victims) := by
  induction victims with
  | nil => exact fun s => answers_ack hack (.refl s)
  | cons victim victims ih =>
    exact fun s => section_onYield rfl (.refl s) (answers_ejectAndClose victim .banned ih)

theorem answers_kick (target : ClientId) : (answering client R).Holds (kick client nonce target) := by
  intro s
  unfold kick
  split
  · exact Course.ends (.inl (authorize_error_answered hfail ‹_›))
  · exact answers_ejectAndClose target .kicked (fun t => answers_ack hack (.refl t)) s

theorem answers_ban (f : Fingerprint) (reason : String) (til : Option UInt64) :
    (answering client R).Holds (ban client nonce f reason til) := by
  intro s
  unfold ban
  split; · exact answers_refuse hfail s _ _
  refine section_onYield rfl (.refl s) fun t => ?_
  split; · exact answers_refuse hfail t _ _
  refine section_onYield rfl (.refl t) fun u => ?_
  split; · exact answers_refuse hfail u _ _
  split; · exact answers_refuse hfail u _ _
  refine section_onYield rfl (.refl u) fun v => ?_
  refine section_onSaved rfl (.refl v) (refusal hfail · _ _) fun w => ?_
  exact answers_ejectVictims hack _ w

theorem answers_unban (f : Fingerprint) : (answering client R).Holds (unban client nonce f) := by
  intro s
  unfold unban
  split; · exact answers_refuse hfail s _ _
  split; · exact answers_refuse hfail s _ _
  exact section_onSaved rfl (.refl s) (refusal hfail · _ _) fun t => answers_ack hack (.refl t)

theorem answers_setServerMute (target : ClientId) (muted : Bool) :
    (answering client R).Holds (setServerMute client nonce target muted) := by
  intro s
  unfold setServerMute
  split; · exact Course.ends (.inl (authorize_error_answered hfail ‹_›))
  split; · exact answers_refuse hfail s _ _
  rename_i info t ht
  have hop : s.operate (.setServerMuted target muted) = t := by simp [Shared.operate, ht]
  have hmuted : Hush s t := hop ▸ hush_operate s rfl
  exact answers_ack hack (hmuted.broadcast rfl none)

theorem answers_moveMember (target : ClientId) (dest : Option ChannelId) :
    (answering client R).Holds (moveMember client nonce target dest) := by
  intro s
  unfold moveMember
  split; · exact Course.ends (.inl (authorize_error_answered hfail ‹_›))
  split; · exact answers_refuse hfail s _ _
  split; · exact answers_refuse hfail s _ _
  split
  · rename_i source t ht
    have hop : s.operate (.forceMove target dest) = t := by simp [Shared.operate, ht, Except.toOption]
    have hmoved : Hush s t := hop ▸ hush_operate s rfl
    exact answers_ack hack (hmoved.broadcast rfl none)
  · exact answers_refuse hfail s _ _

omit hack in
theorem answers_listBans (hlist : ∀ bans, R (.banList bans)) : (answering client R).Holds (listBans client nonce) := by
  intro s
  unfold listBans
  split; · exact answers_refuse hfail s _ _
  split; · exact answers_refuse hfail s _ _
  refine section_onLoad rfl (.refl s) fun (r : Option (List BanEntry)) t => ?_
  cases r with
  | some bans => exact Course.ends (.inl ((Hush.refl t).answer client (hlist bans)))
  | none => exact answers_refuse hfail t _ _

end

/-! ## Everything else -/

theorem mute_ends {s t : Shared} (h : Hush s t) : mute.Section s ((t, .done) : Shared × Todo) :=
  Course.ends (C := mute) fun _ => h.quiet

theorem mute_reject {s : Shared} (failure : AuthFailure) : mute.Section s (s, reject failure) := by
  refine Course.goesOn (C := mute) rfl (fun _ => (Hush.refl s).quiet) fun (ok : Bool) t => ?_
  split
  · exact section_onSleep (C := mute) rfl (fun _ => (Hush.refl t).quiet) fun u => mute_ends (.refl u)
  · exact mute_ends (.refl t)

theorem mute_admitClient (auth : ClientAuth) : mute.Holds (admitClient auth) := by
  intro s
  unfold admitClient
  split
  · exact mute_reject _
  · rename_i info t ht
    refine Course.goesOn (C := mute) rfl (fun hs => quiet_admitUser hs ht) fun (ok : Bool) u => ?_
    split
    · exact mute_ends ((Hush.refl u).broadcast rfl _)
    · exact mute_ends (hush_remove u info.clientId)

theorem mute_handshake (auth : ClientAuth) : mute.Holds (handshake auth) := by
  intro s
  unfold handshake
  split
  · exact mute_reject _
  · split
    · exact mute_admitClient auth s
    · refine section_onLoad (C := mute) rfl (fun _ => (Hush.refl s).quiet) fun r t => ?_
      split
      · exact mute_reject _
      · exact mute_admitClient auth t

theorem mute_fetchHistory (client : ClientId) (channel : ChannelId) (before : Option MessageId) (limit : UInt16) :
    mute.Holds (fetchHistory client channel before limit) := by
  intro s
  have hrefl : Hush s s := .refl s
  unfold fetchHistory
  dsimp only
  split; · exact mute_ends (hrefl.send client rfl)
  split; · exact mute_ends (hrefl.send client rfl)
  split; · exact mute_ends (hrefl.send client rfl)
  split; · exact mute_ends (hrefl.send client rfl)
  refine section_onLoad (C := mute) rfl (fun _ => hrefl.quiet) fun (r : Option (List ChatMessage × Bool)) t => ?_
  cases r with
  | none => exact mute_ends ((Hush.refl t).send client rfl)
  | some page => exact mute_ends ((Hush.refl t).send client rfl)

theorem hush_edited {s t : Shared} (op : Operation) (hop : op.hushed = true) (ht : s.operate op = t)
    (info : UserInfo) : Hush s (t.broadcast (.userUpdated info) none) := by
  subst ht
  exact (hush_operate s hop).broadcast rfl none

/-- A frame that is no administrative command and no message. -/
theorem mute_control (client : ClientId) {frame : ClientControl} (hf : frame.commandNonce = none)
    (hm : ∀ channel content replyTo nonce, frame ≠ .sendMessage channel content replyTo nonce) :
    mute.Holds (handleControl client frame) := by
  intro s
  have hrefl : Hush s s := .refl s
  cases frame <;> simp only [handleControl]
  case auth => exact mute_ends (hrefl.send client rfl)
  case ping => exact mute_ends (hrefl.send client rfl)
  case joinChannel channel =>
    split
    · rename_i source t hj
      have hop : s.operate (.joinChannel client channel) = t := by simp [Shared.operate, hj, Except.toOption]
      have hjoined : Hush s t := hop ▸ hush_operate s rfl
      exact mute_ends (hjoined.broadcast rfl none)
    · exact mute_ends (hrefl.send client rfl)
  case leaveChannel => exact mute_ends ((hrefl.call (.leaveChannel client) rfl).broadcast rfl none)
  case setVoiceState selfMuted selfDeafened =>
    split
    · rename_i hv
      exact mute_ends (hush_edited (.setVoiceState client selfMuted selfDeafened) rfl (by simp [Shared.operate, hv]) _)
    · exact mute_ends hrefl
  case setNickname nickname =>
    split
    · rename_i hn
      exact mute_ends (hush_edited (.setNickname client nickname) rfl (by simp [Shared.operate, hn]) _)
    · exact mute_ends (hrefl.send client rfl)
  case sendMessage channel content replyTo nonce => exact absurd rfl (hm channel content replyTo nonce)
  case typing channel =>
    unfold typing
    dsimp only
    split
    · exact mute_ends (hrefl.call (.broadcastFiltered (.typing client channel) channel (some client)) rfl)
    · exact mute_ends hrefl
  case fetchHistory channel before limit => exact mute_fetchHistory client channel before limit s
  case editMessage => exact mute_ends (hrefl.send client rfl)
  case deleteMessage => exact mute_ends (hrefl.send client rfl)
  case react => exact mute_ends (hrefl.send client rfl)
  all_goals cases hf

theorem ClientControl.answers_command (client : ClientId) {frame : ClientControl} {nonce : UInt64}
    (hf : frame.commandNonce = some nonce) : (answering client frame.Answer).Holds (handleControl client frame) := by
  have hack (h : ∀ n, frame ≠ .listBans n) : frame.Answer (.ack nonce) := by
    cases frame <;> first | exact absurd rfl (h _) | exact ⟨nonce, hf, by simp [ServerControl.answers]⟩
  have hfail (code : ErrorCode) (detail : String) : frame.Answer (.commandFailed nonce code detail) := by
    cases frame
    case listBans n =>
      cases hf
      exact .inl ⟨code, detail, rfl⟩
    all_goals exact ⟨nonce, hf, by simp [ServerControl.answers]⟩
  rcases frame.kinds with ⟨n, cmd, rfl⟩ | ⟨n, cmd, rfl⟩ | ⟨channel, content, replyTo, n, rfl⟩ | hp
  · rw [cmd.handle_eq]
    have hn : n = nonce := by cases cmd <;> exact Option.some.inj hf
    subst hn
    exact cmd.answers (hack fun _ h => by cases cmd <;> cases h) hfail
  · rw [cmd.handle_eq]
    have hn : n = nonce := by cases cmd <;> exact Option.some.inj hf
    subst hn
    exact cmd.answers (hack fun _ h => by cases cmd <;> cases h) hfail
  · cases hf
  · cases frame
    case kick n target reason =>
      obtain rfl : n = nonce := Option.some.inj hf
      exact answers_kick (hack fun _ h => by cases h) hfail target
    case ban n f reason til =>
      obtain rfl : n = nonce := Option.some.inj hf
      exact answers_ban (hack fun _ h => by cases h) hfail f reason til
    case unban n f =>
      obtain rfl : n = nonce := Option.some.inj hf
      exact answers_unban (hack fun _ h => by cases h) hfail f
    case listBans n =>
      obtain rfl : n = nonce := Option.some.inj hf
      exact answers_listBans hfail fun bans => .inr ⟨bans, rfl⟩
    case setServerMute n target muted =>
      obtain rfl : n = nonce := Option.some.inj hf
      exact answers_setServerMute (hack fun _ h => by cases h) hfail target muted
    case moveMember n target dest =>
      obtain rfl : n = nonce := Option.some.inj hf
      exact answers_moveMember (hack fun _ h => by cases h) hfail target dest
    all_goals first | (cases hf; done) | cases hp

/-- What no client sends in a frame. -/
theorem Input.mute_handler (i : Input) (hi : ∀ client frame, i ≠ .control client frame) : mute.Holds i.handler := by
  cases i with
  | connect auth => exact mute_handshake auth
  | control client frame => exact absurd rfl (hi client frame)
  | voice client packet => exact fun s => mute_ends ((Hush.refl s).call (.relayVoice client packet) rfl)
  | disconnect client =>
    intro s
    refine mute_ends ?_
    unfold PickleChat.disconnect
    split
    · exact .refl s
    · rename_i info t hr
      obtain rfl : (s.remove client).2 = t := congrArg Prod.snd hr
      exact (hush_remove s client).broadcast rfl _
  | tick now => exact fun s => mute_ends (.of_clients rfl rfl)

/-- What `send_message` does up to its first await: it sends no message, or
gives one the next id and posts it, at once or when it is saved. -/
theorem sendMessage_posts (s : Shared) (client : ClientId) (channel : ChannelId) (content : String)
    (replyTo : Option MessageId) (nonce : UInt64) :
    (∃ t, Hush s t ∧ sendMessage client channel content replyTo nonce s = (t, .done)) ∨
    ∃ m, m.id = s.nextMessageId ∧ m.author = some client ∧
      ((s.store = false ∧ sendMessage client channel content replyTo nonce s =
          (postMessage s.nextMessageIdBump.2 client m nonce, .done)) ∨
        sendMessage client channel content replyTo nonce s = (s.nextMessageIdBump.2, saveMessage client m nonce)) := by
  have hsend : ∀ code detail, Hush s (s.send client (.error code detail)) :=
    fun code detail => (Hush.refl s).send client rfl
  unfold sendMessage
  split; · exact .inl ⟨s, .refl s, rfl⟩
  rename_i author hauthor
  have hid : author.clientId = client := by
    obtain ⟨e, he, rfl⟩ := Option.map_eq_some_iff.mp hauthor
    exact Shared.client?_id he
  split; · exact .inl ⟨s, .refl s, rfl⟩
  split; · exact .inl ⟨_, hsend _ _, rfl⟩
  split; · exact .inl ⟨_, hsend _ _, rfl⟩
  split; · exact .inl ⟨_, hsend _ _, rfl⟩
  split; · exact .inl ⟨_, hsend _ _, rfl⟩
  split; · exact .inl ⟨_, hsend _ _, rfl⟩
  refine .inr ⟨(s.buildMessage author channel content replyTo).1, rfl, congrArg some hid, ?_⟩
  dsimp only [Shared.buildMessage]
  split
  · rename_i hstore
    have hnone : s.nextMessageIdBump.2.store = false := by simpa using hstore
    exact .inl ⟨hnone, rfl⟩
  · exact .inr rfl

end PickleChat
