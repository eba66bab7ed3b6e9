import PickleChat.Lib.Bounded
import PickleChat.Serve

/-!
# Handlers as sequences of operations

Each method of the shared state runs under its lock. Handlers only call these
methods, and what they send through them is either no channel's traffic, or
goes the way that checks for it.
-/

namespace PickleChat

open Async (Run Bound bounded_wait)

inductive Operation where
  | send (client : ClientId) (m : ServerControl)
  | broadcast (m : ServerControl) (except : Option ClientId)
  | broadcastFiltered (m : ServerControl) (channel : ChannelId) (except : Option ClientId)
  | resyncVisibility (before : List (ClientId × List ChannelId)) (touched : List ChannelId)
  | relayVoice (sender : ClientId) (packet : VoiceUpstream)
  | admitUser (identity : PublicIdentity) (nickname : String)
  | remove (client : ClientId)
  | joinChannel (client : ClientId) (channel : ChannelId)
  | leaveChannel (client : ClientId)
  | forceMove (client : ClientId) (dest : Option ChannelId)
  | setVoiceState (client : ClientId) (selfMuted selfDeafened : Bool)
  | setNickname (client : ClientId) (nickname : String)
  | setServerMuted (client : ClientId) (muted : Bool)
  | swapPermState (next : PermState)
  | updateLiveMemberRoles (f : Fingerprint) (roles : List RoleId)
  | stripLiveRole (role : RoleId)
  | stripRoleOverwrites (role : RoleId)
  | setChannelOverwrite (channel : ChannelId) (o : Overwrite)
  | removeChannelOverwrite (channel : ChannelId) (target : OverwriteTarget)
  | insertChannelMem (c : Channel)
  | updateChannelMem (c : Channel)
  | removeChannelMem (id : ChannelId)
  | nextMessageId
  | tick (now : UInt64)

/-- The state after; a refused operation changes nothing. -/
def Shared.operate (s : Shared) : Operation → Shared
  | .send client m => s.send client m
  | .broadcast m except => s.broadcast m except
  | .broadcastFiltered m channel except => s.broadcastFiltered m channel except
  | .resyncVisibility before touched => s.resyncVisibility before touched
  | .relayVoice sender packet => s.relayVoice sender packet
  | .admitUser identity nickname => ((s.admitUser identity nickname).toOption.map Prod.snd).getD s
  | .remove client => (s.remove client).2
  | .joinChannel client channel => ((s.joinChannel client channel).toOption.map Prod.snd).getD s
  | .leaveChannel client => (s.leaveChannel client).2
  | .forceMove client dest => ((s.forceMove client dest).toOption.map Prod.snd).getD s
  | .setVoiceState client selfMuted selfDeafened =>
      ((s.setVoiceState client selfMuted selfDeafened).map Prod.snd).getD s
  | .setNickname client nickname => ((s.setNickname client nickname).map Prod.snd).getD s
  | .setServerMuted client muted => ((s.setServerMuted client muted).map Prod.snd).getD s
  | .swapPermState next => s.swapPermState next
  | .updateLiveMemberRoles f roles => (s.updateLiveMemberRoles f roles).2
  | .stripLiveRole role => (s.stripLiveRole role).2
  | .stripRoleOverwrites role => (s.stripRoleOverwrites role).2
  | .setChannelOverwrite channel o => s.setChannelOverwrite channel o
  | .removeChannelOverwrite channel target => s.removeChannelOverwrite channel target
  | .insertChannelMem c => s.insertChannelMem c
  | .updateChannelMem c => s.updateChannelMem c
  | .removeChannelMem id => (s.removeChannelMem id).2
  | .nextMessageId => s.nextMessageIdBump.2
  | .tick now => { s with nowUnixMs := now }

/-- The channel whose traffic a frame is. -/
def ServerControl.carries : ServerControl → Option ChannelId
  | .messagePosted m _ => some m.channel
  | .typing _ channel => some channel
  | .history channel messages _ => if messages = [] then none else some channel
  | .channelCreated c | .channelUpdated c => some c.id
  | _ => none

/-- What handlers send, given the state their checks read: an author's echo or
a page of history to one client, and to those who view a channel its messages
and who types there. -/
def Operation.Called (seen : Shared) : Operation → Prop
  | .send client m => m.carries = none ∨ (∃ msg nonce, m = .messagePosted msg (some nonce) ∧ msg.author = some client) ∨
      ∃ channel messages start, m = .history channel messages start ∧ seen.can client channel .viewChannel = true
  | .broadcast m _ => m.carries = none
  | .broadcastFiltered m channel _ => (∃ msg, m = .messagePosted msg none ∧ msg.channel = channel) ∨
      ∃ client, m = .typing client channel
  | _ => True

def Operates (seen : Shared) : Shared → Shared → Prop :=
  Run (fun s op t => t = s.operate op) (fun _ op => op.Called seen)

/-- What is left of a handler is operations, whatever the state they find. -/
def opBound (seen : Shared) : Bound Shared Await Await.Reply :=
  ⟨Operates seen, fun _ => True, fun _ => True, fun _ _ => True⟩

section
variable {seen s t : Shared}

theorem Operates.refl (s : Shared) : Operates seen s s := Run.refl

theorem Operates.call (h : Operates seen s t) (op : Operation) (hop : op.Called seen) :
    Operates seen s (t.operate op) :=
  Run.step op h hop rfl

theorem Operates.send (h : Operates seen s t) (client : ClientId) {m : ServerControl} (hm : m.carries = none) :
    Operates seen s (t.send client m) := h.call (.send client m) (.inl hm)

theorem Operates.broadcast (h : Operates seen s t) {m : ServerControl} (hm : m.carries = none)
    (except : Option ClientId) :
    Operates seen s (t.broadcast m except) := h.call (.broadcast m except) hm

theorem Operates.resync (h : Operates seen s t) (before : List (ClientId × List ChannelId)) (touched : List ChannelId) :
    Operates seen s (t.resyncVisibility before touched) := h.call (.resyncVisibility before touched) trivial

theorem Operates.refuse (h : Operates seen s t) (client : ClientId) (nonce : UInt64) (code : ErrorCode)
    (detail : String) :
    Operates seen s (refuse t client nonce code detail) := h.send client rfl

theorem Operates.ack (h : Operates seen s t) (client : ClientId) (nonce : UInt64) :
    Operates seen s (ack t client nonce) :=
  h.send client rfl

theorem Operates.resynced (h : Operates seen s t) (before : List (ClientId × List ChannelId)) (touched : List ChannelId)
    (client : ClientId) (nonce : UInt64) :
    Operates seen s (t.deliver fun i => t.resync before touched i ++ acks client nonce i) := by
  have hs := (h.resync before touched).ack client nonce
  simpa [ack_eq, Shared.resyncVisibility_eq] using hs

theorem Operates.refused {client : ClientId} (h : Refused s client t) : Operates seen s t := by
  rcases h with rfl | ⟨_, _, _, rfl⟩
  · exact .refl t
  · exact (Operates.refl s).send client rfl

theorem Operates.announceUsers (h : Operates seen s t) (infos : List UserInfo) :
    Operates seen s (announceUsers t infos) := by
  unfold PickleChat.announceUsers
  induction infos generalizing t with
  | nil => exact h
  | cons info infos ih => exact ih (h.broadcast rfl none)

theorem Operates.announceEvicted (h : Operates seen s t) (id : ChannelId) (evicted : List UserInfo) :
    Operates seen s (announceEvicted t id evicted) := by
  unfold PickleChat.announceEvicted
  induction evicted generalizing t with
  | nil => exact h
  | cons info evicted ih => exact ih ((h.broadcast rfl none).broadcast rfl none)

end

/-! ## Sections of the handlers -/

/-- A handler, or the rest of one, once its checks have read `seen`. -/
def Called (seen : Shared) (h : Handler) : Prop := (opBound seen).Holds h

def CalledTodo (seen : Shared) (t : Todo) : Prop := t.Bounded (opBound seen)

section
variable {seen : Shared}

theorem called_done {h : Shared → Shared} (hs : ∀ s, Operates seen s (h s)) : Called seen fun s => (h s, .done) :=
  fun s => ⟨hs s, fun _ => trivial⟩

theorem called_onYield {k : Handler} (hk : Called seen k) : CalledTodo seen (onYield k) :=
  bounded_wait trivial fun _ _ => hk

theorem called_onSleep {k : Handler} (hk : Called seen k) : CalledTodo seen (onSleep k) :=
  bounded_wait trivial fun _ _ => hk

theorem called_onLoad {call : StoreRead} {k : Option call.Answer → Handler} (hk : ∀ r, Called seen (k r)) :
    CalledTodo seen (onLoad call k) := bounded_wait trivial fun r _ => hk r

theorem called_onWritten {call : StoreWrite} {k : Handler} (hk : Called seen k) : CalledTodo seen (onWritten call k) :=
  bounded_wait trivial fun _ _ => hk

theorem called_onSaved {call : StoreWrite} {failed : Shared → Shared} {saved : Handler}
    (hfail : ∀ s, Operates seen s (failed s)) (hk : Called seen saved) :
    CalledTodo seen (onSaved call failed saved) := by
  refine bounded_wait trivial fun (ok : Bool) _ s => ?_
  cases ok with
  | true => exact hk s
  | false => exact ⟨hfail s, fun _ => trivial⟩

theorem Called.stays {s : Shared} {todo : Todo} (h : CalledTodo seen todo) :
    Operates seen s s ∧ (True → CalledTodo seen todo) := ⟨.refl s, fun _ => h⟩

theorem Called.ends {s t : Shared} (h : Operates seen s t) :
    Operates seen s t ∧ (True → CalledTodo seen (.done : Todo)) := ⟨h, fun _ => trivial⟩

end

/-! ## Role and channel commands -/

section
variable {seen : Shared} {client : ClientId} {nonce : UInt64}

theorem Passes.called {s : Shared} {a : Actor} {cmd : RoleCommand} {next : PermState} {save : Todo}
    (h : Passes s client nonce a cmd next save) : CalledTodo seen save := by
  have hfail : ∀ detail (t : Shared), Operates seen t (refuse t client nonce .internal detail) :=
    fun detail t => (Operates.refl t).refuse client nonce .internal detail
  have hswap : ∀ (t : Shared) (p : PermState), Operates seen t (t.swapPermState p) :=
    fun t p => (Operates.refl t).call (.swapPermState p) trivial
  cases h with
  | create =>
    refine called_onSaved (hfail _) fun t => Called.stays (called_onSaved (hfail _) (called_done fun t => ?_))
    exact (((hswap t _).broadcast rfl none).broadcast rfl none).send client rfl
  | update =>
    refine called_onSaved (hfail _) (called_done fun t => ?_)
    exact (((hswap t _).broadcast rfl none).resync _ _).send client rfl
  | @delete id =>
    refine called_onSaved (hfail _) fun t => Called.stays (called_onWritten (called_done fun t => ?_))
    have hstrip := ((hswap t (deletedPerms s.perms id)).call (.stripRoleOverwrites id) trivial).call
        (.stripLiveRole id) trivial
    exact ((((hstrip.broadcast rfl none).broadcast rfl none).announceUsers _).resync _ _).send client rfl
  | reorder =>
    refine called_onSaved (hfail _) (called_done fun t => ?_)
    exact ((hswap t _).broadcast rfl none).send client rfl
  | @grant f roles =>
    refine called_onSaved (hfail _) (called_done fun t => ?_)
    exact ((((hswap t _).call (.updateLiveMemberRoles f roles) trivial).announceUsers _).resync _ _).send client rfl

theorem RoleCommand.called (cmd : RoleCommand) : Called seen (cmd.handle client nonce) := by
  intro s
  rcases RoleCommand.handle_cases (rfl : cmd.handle client nonce s = _) with ⟨hd, hr⟩ | ⟨a, next, save, -, -, hp, he⟩
  · rw [hd]
    exact ⟨.refused hr, fun _ => trivial⟩
  · rw [he]
    exact Called.stays hp.called

theorem ChannelPasses.operates {s : Shared} {cmd : ChannelCommand} {c : Change} (h : ChannelPasses s client nonce cmd c)
    (t : Shared) : Operates seen t ((c.mem t).deliver fun i => c.frames t i ++ acks client nonce i) := by
  have hrefl : Operates seen t t := .refl t
  cases h with
  | setOverwrite => exact (hrefl.call (.setChannelOverwrite _ _) trivial).resynced _ _ client nonce
  | deleteOverwrite => exact (hrefl.call (.removeChannelOverwrite _ _) trivial).resynced _ _ client nonce
  | create => exact (hrefl.call (.insertChannelMem _) trivial).resynced _ _ client nonce
  | update => exact (hrefl.call (.updateChannelMem _) trivial).resynced _ _ client nonce
  | @delete id =>
    have hgone := (((hrefl.call (.removeChannelMem id) trivial).announceEvicted id (t.removeChannelMem id).1).resync
      t.visibleIdsByClient []).ack client nonce
    simpa [Shared.operate, Change.delete, ack_eq, Shared.resyncVisibility_eq, announceEvicted_eq] using hgone

theorem ChannelPasses.called {s : Shared} {cmd : ChannelCommand} {c : Change} (h : ChannelPasses s client nonce cmd c)
    (detail : String) : CalledTodo seen (c.save client nonce detail) :=
  called_onSaved (fun t => (Operates.refl t).refuse client nonce .internal detail) (called_done h.operates)

theorem ChannelCommand.called (cmd : ChannelCommand) : Called seen (cmd.handle client nonce) := by
  intro s
  rcases ChannelCommand.handle_cases (rfl : cmd.handle client nonce s = _) with ⟨hd, hr⟩ | ⟨c, detail, -, hp, he⟩
  · rw [hd]
    exact ⟨.refused hr, fun _ => trivial⟩
  · rw [he]
    exact Called.stays (hp.called detail)

end

/-! ## Connecting and moderating -/

section
variable {seen : Shared}

theorem called_reject (failure : AuthFailure) : CalledTodo seen (reject failure) := by
  refine bounded_wait trivial fun ok _ s => ?_
  split
  · exact Called.stays (called_onSleep (called_done Operates.refl))
  · exact Called.stays trivial

theorem called_admitClient (auth : ClientAuth) : Called seen (admitClient auth) := by
  intro s
  unfold admitClient
  split
  · exact Called.stays (called_reject _)
  · rename_i info t ht
    have hop : s.operate (.admitUser auth.identity auth.nickname) = t := by
      simp [Shared.operate, ht, Except.toOption]
    refine ⟨hop ▸ (Operates.refl s).call (.admitUser auth.identity auth.nickname) trivial, fun _ => ?_⟩
    refine bounded_wait trivial fun (ok : Bool) _ u => ?_
    split
    · exact Called.ends ((Operates.refl u).broadcast rfl _)
    · exact Called.ends ((Operates.refl u).call (.remove info.clientId) trivial)

theorem called_handshake (auth : ClientAuth) : Called seen (handshake auth) := by
  intro s
  unfold handshake
  split
  · exact Called.stays (called_reject _)
  · split
    · exact called_admitClient auth s
    · refine Called.stays (called_onLoad fun r s => ?_)
      split
      · exact Called.stays (called_reject _)
      · exact called_admitClient auth s

theorem operates_eject (s : Shared) (victim : ClientId) (reason : DisconnectReason) :
    Operates seen s (s.eject victim reason).2 := by
  unfold Shared.eject
  split
  · exact .refl s
  · exact ((Operates.refl s).call (.remove victim) trivial).broadcast rfl none

theorem called_ejectAndClose (victim : ClientId) (reason : DisconnectReason) {k : Handler} (hk : Called seen k) :
    Called seen (ejectAndClose victim reason k) := by
  intro s
  have hgone : Operates seen s (s.eject victim reason).2 := operates_eject s victim reason
  unfold ejectAndClose
  split
  · exact hk s
  · rename_i t he
    rw [he] at hgone
    exact ⟨hgone, fun _ => called_onSleep hk⟩

theorem called_ejectVictims (client : ClientId) (nonce : UInt64) (victims : List ClientId) :
    Called seen (ejectVictims client nonce victims) := by
  induction victims with
  | nil => exact called_done fun s => (Operates.refl s).ack client nonce
  | cons victim victims ih =>
    intro s
    exact Called.stays (called_onYield (called_ejectAndClose victim .banned ih))

theorem Called.refuses {s : Shared} (client : ClientId) (nonce : UInt64) (code : ErrorCode) (detail : String) :
    Operates seen s (refuse s client nonce code detail) ∧ (True → CalledTodo seen (.done : Todo)) :=
  Called.ends ((Operates.refl s).refuse client nonce code detail)

theorem called_ban (client : ClientId) (nonce : UInt64) (f : Fingerprint) (reason : String) (til : Option UInt64) :
    Called seen (ban client nonce f reason til) := by
  intro s
  unfold ban
  split; · exact Called.refuses ..
  refine Called.stays (called_onYield fun s => ?_)
  split; · exact Called.refuses ..
  refine Called.stays (called_onYield fun s => ?_)
  split; · exact Called.refuses ..
  split; · exact Called.refuses ..
  refine Called.stays (called_onYield fun s => Called.stays ?_)
  refine called_onSaved (fun s => (Operates.refl s).refuse _ _ _ _) fun s => ?_
  exact called_ejectVictims client nonce _ s

/-! ## Messages and the rest -/

theorem operates_postMessage {s t : Shared} (h : Operates seen s t) {client : ClientId} {m : ChatMessage}
    (hm : m.author = some client) (nonce : UInt64) : Operates seen s (postMessage t client m nonce) := by
  have hecho := h.call (.send client (.messagePosted m (some nonce))) (.inr (.inl ⟨m, nonce, rfl, hm⟩))
  exact hecho.call (.broadcastFiltered (.messagePosted m none) m.channel (some client)) (.inl ⟨m, rfl, rfl⟩)

theorem Called.replies (s : Shared) (client : ClientId) {m : ServerControl} (hm : m.carries = none) :
    Operates seen s (s.send client m) ∧ (True → CalledTodo seen (.done : Todo)) :=
  Called.ends ((Operates.refl s).send client hm)

theorem called_sendMessage (client : ClientId) (channel : ChannelId) (content : String) (replyTo : Option MessageId)
    (nonce : UInt64) : Called seen (sendMessage client channel content replyTo nonce) := by
  intro s
  unfold sendMessage
  split; · exact Called.stays trivial
  rename_i author hauthor
  have hid : author.clientId = client := by
    obtain ⟨e, he, rfl⟩ := Option.map_eq_some_iff.mp hauthor
    have hkey : e.id = client := Keyed.get_key he
    exact hkey
  split; · exact Called.stays trivial
  split; · exact Called.replies s client rfl
  split; · exact Called.replies s client rfl
  split; · exact Called.replies s client rfl
  split; · exact Called.replies s client rfl
  split; · exact Called.replies s client rfl
  have hbump : Operates seen s s.nextMessageIdBump.2 := (Operates.refl s).call .nextMessageId trivial
  dsimp only [Shared.buildMessage]
  split
  · exact Called.ends (operates_postMessage hbump (congrArg some hid) nonce)
  · refine ⟨hbump, fun _ => called_onSaved (fun s => (Operates.refl s).send client rfl) (called_done fun s => ?_)⟩
    exact operates_postMessage (.refl s) (congrArg some hid) nonce

theorem operates_edited {s t : Shared} (op : Operation) (hop : op.Called seen) (ht : s.operate op = t)
    (info : UserInfo) :
    Operates seen s (t.broadcast (.userUpdated info) none) := by
  subst ht
  exact ((Operates.refl s).call op hop).broadcast rfl none

end

/-- The page of history goes to a client that could view the channel when it was asked for. -/
theorem called_fetchHistory (s : Shared) (client : ClientId) (channel : ChannelId) (before : Option MessageId)
    (limit : UInt16) : Operates s s (fetchHistory client channel before limit s).1 ∧
      (True → CalledTodo s (fetchHistory client channel before limit s).2) := by
  unfold fetchHistory
  dsimp only
  split; · exact Called.replies s client rfl
  split; · exact Called.replies s client rfl
  split; · exact Called.replies s client rfl
  rename_i hcan
  split; · exact Called.replies s client rfl
  have hview : s.can client channel .viewChannel = true := by
    simp at hcan
    exact hcan.1
  refine Called.stays (called_onLoad fun (r : Option (List ChatMessage × Bool)) t => ?_)
  cases r with
  | none => exact Called.replies t client rfl
  | some page =>
    refine Called.ends ((Operates.refl t).call (.send client (.history channel page.1 page.2)) (.inr (.inr ?_)))
    exact ⟨channel, page.1, page.2, rfl, hview⟩

theorem called_plain (s : Shared) (client : ClientId) {frame : ClientControl} (hp : frame.plain = true) :
    Operates s s (handleControl client frame s).1 ∧ (True → CalledTodo s (handleControl client frame s).2) := by
  have hrefl : Operates s s s := .refl s
  cases frame <;> simp only [handleControl]
  case auth => exact Called.replies s client rfl
  case ping => exact Called.replies s client rfl
  case kick nonce target reason =>
    unfold kick
    split
    · exact Called.ends (.refused (authorize_error ‹_›))
    · exact called_ejectAndClose target .kicked (called_done fun t => (Operates.refl t).ack client nonce) s
  case ban nonce f reason til => exact called_ban client nonce f reason til s
  case unban nonce f =>
    unfold unban
    split; · exact Called.refuses ..
    split; · exact Called.refuses ..
    exact Called.stays (called_onSaved (fun t => (Operates.refl t).refuse _ _ _ _)
      (called_done fun t => (Operates.refl t).ack client nonce))
  case listBans nonce =>
    unfold listBans
    split; · exact Called.refuses ..
    split; · exact Called.refuses ..
    refine Called.stays (called_onLoad fun (r : Option (List BanEntry)) t => ?_)
    cases r with
    | some bans => exact Called.replies t client rfl
    | none => exact Called.refuses ..
  case setServerMute nonce target muted =>
    unfold setServerMute
    split; · exact Called.ends (.refused (authorize_error ‹_›))
    split; · exact Called.refuses ..
    rename_i hs
    exact Called.ends ((operates_edited (.setServerMuted target muted) trivial
      (by simp [Shared.operate, hs]) _).ack client nonce)
  case moveMember nonce target dest =>
    unfold moveMember
    split; · exact Called.ends (.refused (authorize_error ‹_›))
    split; · exact Called.refuses ..
    split; · exact Called.refuses ..
    split
    · rename_i source t hm
      have hop : s.operate (.forceMove target dest) = t := by simp [Shared.operate, hm, Except.toOption]
      exact Called.ends (((hop ▸ hrefl.call (.forceMove target dest) trivial).broadcast rfl none).ack client nonce)
    · exact Called.refuses ..
  case joinChannel channel =>
    split
    · rename_i source t hj
      have hop : s.operate (.joinChannel client channel) = t := by simp [Shared.operate, hj, Except.toOption]
      exact Called.ends ((hop ▸ hrefl.call (.joinChannel client channel) trivial).broadcast rfl none)
    · exact Called.replies s client rfl
  case leaveChannel => exact Called.ends ((hrefl.call (.leaveChannel client) trivial).broadcast rfl none)
  case setVoiceState selfMuted selfDeafened =>
    split
    · rename_i hv
      exact Called.ends (operates_edited (.setVoiceState client selfMuted selfDeafened) trivial
        (by simp [Shared.operate, hv]) _)
    · exact Called.stays trivial
  case setNickname nickname =>
    split
    · rename_i hn
      exact Called.ends (operates_edited (.setNickname client nickname) trivial (by simp [Shared.operate, hn]) _)
    · exact Called.replies s client rfl
  case typing channel =>
    unfold typing
    dsimp only
    split
    · exact Called.ends (hrefl.call (.broadcastFiltered (.typing client channel) channel (some client))
        (.inr ⟨client, rfl⟩))
    · exact Called.stays trivial
  case fetchHistory channel before limit => exact called_fetchHistory s client channel before limit
  case editMessage => exact Called.replies s client rfl
  case deleteMessage => exact Called.replies s client rfl
  case react => exact Called.replies s client rfl
  all_goals cases hp

theorem Input.called (i : Input) (s : Shared) : Operates s s (i.handler s).1 ∧
    (True → CalledTodo s (i.handler s).2) := by
  cases i with
  | connect auth => exact called_handshake auth s
  | control client frame =>
    rcases frame.kinds with ⟨nonce, cmd, rfl⟩ | ⟨nonce, cmd, rfl⟩ | ⟨channel, content, replyTo, nonce, rfl⟩ | hp
    · change Operates s s (handleControl client _ s).1 ∧ (True → CalledTodo s (handleControl client _ s).2)
      rw [cmd.handle_eq]
      exact cmd.called s
    · change Operates s s (handleControl client _ s).1 ∧ (True → CalledTodo s (handleControl client _ s).2)
      rw [cmd.handle_eq]
      exact cmd.called s
    · exact called_sendMessage client channel content replyTo nonce s
    · exact called_plain s client hp
  | voice client packet => exact Called.ends ((Operates.refl s).call (.relayVoice client packet) trivial)
  | disconnect client =>
    change Operates s s (PickleChat.disconnect s client) ∧ (True → CalledTodo s (.done : Todo))
    refine Called.ends ?_
    unfold PickleChat.disconnect
    split
    · exact .refl s
    · rename_i info t hr
      obtain rfl : (s.remove client).2 = t := congrArg Prod.snd hr
      exact ((Operates.refl s).call (.remove client) trivial).broadcast rfl _
  | tick now => exact Called.ends ((Operates.refl s).call (.tick now) trivial)

end PickleChat
