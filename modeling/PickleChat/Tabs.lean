import PickleChat.Admin
import PickleChat.Connect
import PickleChat.Desktop

/-!
# The desktop's tabs

`dto.rs`: what crosses from the client core to the frontend, and
`connections.ts`: what the frontend keeps of it, a tab for each connection.
Numbers keep their widths.
-/

namespace PickleChat

/-! ## Across the boundary -/

/-- The first 12 characters of the text form, in groups. -/
def Fingerprint.short (f : Fingerprint) : String :=
  let full := (Base32.encode f.bytes).map Text.toLowercase
  String.ofList (List.intercalate ['-'] (Fingerprint.chunks (full.take 12)))

structure ChannelDto where
  id : ChannelId
  parent : Option ChannelId
  name : String
  topic : String
  hasVoice : Bool
  hasText : Bool
  order : Int32
  maxUsers : Option UInt16
  deriving DecidableEq

def ChannelDto.of (channel : Channel) : ChannelDto :=
  { id := channel.id, parent := channel.parent, name := channel.name, topic := channel.topic,
    hasVoice := channel.kind.hasVoice, hasText := channel.kind.hasText, order := channel.order,
    maxUsers := channel.maxUsers }

structure UserDto where
  clientId : ClientId
  nickname : String
  fingerprint : String
  short : String
  securityLevel : UInt32
  channel : Option ChannelId
  selfMuted : Bool
  selfDeafened : Bool
  serverMuted : Bool
  roles : List RoleId
  deriving DecidableEq

def UserDto.of (user : UserInfo) : UserDto :=
  { clientId := user.clientId, nickname := user.nickname, fingerprint := user.identity.fingerprint.toText,
    short := user.identity.fingerprint.short, securityLevel := user.identity.securityLevel, channel := user.channel,
    selfMuted := user.voice.selfMuted, selfDeafened := user.voice.selfDeafened, serverMuted := user.voice.serverMuted,
    roles := user.roles }

structure BanDto where
  fingerprint : String
  short : String
  reason : String
  untilUnixMs : Option UInt64
  issuedByShort : String
  issuedAtUnixMs : UInt64
  deriving DecidableEq

def BanDto.of (ban : BanEntry) : BanDto :=
  { fingerprint := ban.fingerprint.toText, short := ban.fingerprint.short, reason := ban.reason,
    untilUnixMs := ban.untilUnixMs, issuedByShort := ban.issuedBy.short, issuedAtUnixMs := ban.issuedAtUnixMs }

structure MessageDto where
  id : MessageId
  channel : ChannelId
  authorNickname : String
  authorFingerprint : String
  content : String
  sentAtUnixMs : UInt64
  deriving DecidableEq

def MessageDto.of (message : ChatMessage) : MessageDto :=
  { id := message.id, channel := message.channel, authorNickname := message.authorNickname,
    authorFingerprint := message.authorFingerprint.short, content := message.content,
    sentAtUnixMs := message.sentAtUnixMs }

structure RoleDto where
  id : RoleId
  name : String
  color : Option String
  position : UInt32
  permissions : List String
  isEveryone : Bool
  deriving DecidableEq

structure ChannelPermissionsDto where
  send : Bool
  readHistory : Bool
  connect : Bool
  speak : Bool
  deriving DecidableEq

structure MyPermissionsDto where
  isOwner : Bool
  isAdmin : Bool
  canOpenAdmin : Bool
  channels : List (ChannelId × ChannelPermissionsDto)
  deriving DecidableEq

structure SessionDto where
  clientId : ClientId
  serverName : String
  serverFingerprint : String
  defaultChannel : Option ChannelId
  channels : List ChannelDto
  users : List UserDto
  deriving DecidableEq

def SessionDto.of (sha256 : List UInt8 → Vector UInt8 32) (session : SessionInfo) : SessionDto :=
  { clientId := session.clientId, serverName := session.serverName,
    serverFingerprint := (Fingerprint.of sha256 session.serverIdentity.key).toText,
    defaultChannel := session.defaultChannel, channels := session.channels.map ChannelDto.of,
    users := session.users.map UserDto.of }

structure ConnectionDto where
  permissions : MyPermissionsDto
  roles : List RoleDto
  session : SessionId
  info : SessionDto
  identity : String
  deriving DecidableEq

/-- What the client core hands over. -/
inductive ClientEvent where
  | userJoined (user : UserInfo)
  | userLeft (client : ClientId) (reason : DisconnectReason)
  | userMoved (client : ClientId) (source dest : Option ChannelId)
  | userUpdated (user : UserInfo)
  | voiceActivity (client : ClientId) (speaking : Bool)
  | channelCreated (channel : Channel)
  | channelUpdated (channel : Channel)
  | channelRemoved (id : ChannelId)
  | messagePosted (message : ChatMessage) (nonce : Option UInt64)
  | messageEdited (id : MessageId) (content : String) (editedAtUnixMs : UInt64)
  | messageDeleted (id : MessageId)
  | history (channel : ChannelId) (messages : List ChatMessage) (reachedStart : Bool)
  | typing (client : ClientId) (channel : ChannelId)
  | roleCreated (role : Role)
  | roleUpdated (role : Role)
  | roleDeleted (id : RoleId)
  | rolesReordered (positions : List (RoleId × UInt32))
  | banList (bans : List BanEntry)
  | ack (nonce : UInt64)
  | commandFailed (nonce : UInt64) (code : ErrorCode) (detail : String)
  | voice (packet : VoiceDownstream)
  | pong (nonce : UInt64)
  | serverError (code : ErrorCode) (detail : String)
  /-- Terminal. -/
  | disconnected (reason : String)
  deriving DecidableEq

/-- The event a frame becomes; those of the handshake mean nothing once a session runs. -/
def translate : ServerControl → Option ClientEvent
  | .userJoined info => some (.userJoined info)
  | .userLeft client reason => some (.userLeft client reason)
  | .userMoved client source dest => some (.userMoved client source dest)
  | .userUpdated info => some (.userUpdated info)
  | .channelCreated channel => some (.channelCreated channel)
  | .channelUpdated channel => some (.channelUpdated channel)
  | .channelRemoved id => some (.channelRemoved id)
  | .messagePosted message nonce => some (.messagePosted message nonce)
  | .history channel messages reachedStart => some (.history channel messages reachedStart)
  | .typing client channel => some (.typing client channel)
  | .pong nonce => some (.pong nonce)
  | .error code detail => some (.serverError code detail)
  | .roleCreated role => some (.roleCreated role)
  | .roleUpdated role => some (.roleUpdated role)
  | .roleDeleted id => some (.roleDeleted id)
  | .rolesReordered positions => some (.rolesReordered positions)
  | .banList bans => some (.banList bans)
  | .ack nonce => some (.ack nonce)
  | .commandFailed nonce code detail => some (.commandFailed nonce code detail)
  | .authOk _ | .authFailed _ => none

inductive EventDto where
  | userJoined (user : UserDto)
  | userLeft (clientId : ClientId) (reason : String)
  | userMoved (clientId : ClientId) (channel : Option ChannelId)
  | userUpdated (user : UserDto)
  | message (message : MessageDto)
  | history (channel : ChannelId) (messages : List MessageDto) (reachedStart : Bool)
  | typing (clientId : ClientId) (channel : ChannelId)
  | channelCreated (channel : ChannelDto)
  | channelUpdated (channel : ChannelDto)
  | channelRemoved (channelId : ChannelId)
  | serverError (code : String) (detail : String)
  | banList (bans : List BanDto)
  | commandFailed (nonce : UInt64) (code : String) (detail : String)
  | rolesChanged (roles : List RoleDto)
  | permissionsChanged (permissions : MyPermissionsDto)
  | disconnected (reason : String)
  deriving DecidableEq

def errorCodeStr : ErrorCode → String
  | .notAuthenticated => "notAuthenticated"
  | .noSuchChannel => "noSuchChannel"
  | .noSuchMessage => "noSuchMessage"
  | .channelFull => "channelFull"
  | .channelPasswordRequired => "channelPasswordRequired"
  | .notPermitted => "notPermitted"
  | .rateLimited => "rateLimited"
  | .messageTooLong => "messageTooLong"
  | .malformed => "malformed"
  | .internal => "internal"

/-- `None` where the interface shows nothing. -/
def EventDto.fromEvent : ClientEvent → Option EventDto
  | .userJoined user => some (.userJoined (.of user))
  | .userLeft client reason =>
    some (.userLeft client (match reason with
      | .kicked => "kicked"
      | .banned => "banned"
      | _ => "left"))
  | .userMoved client _ dest => some (.userMoved client dest)
  | .userUpdated user => some (.userUpdated (.of user))
  | .messagePosted posted _ => some (.message (.of posted))
  | .history channel messages reachedStart => some (.history channel (messages.map .of) reachedStart)
  | .typing client channel => some (.typing client channel)
  | .channelCreated channel => some (.channelCreated (.of channel))
  | .channelUpdated channel => some (.channelUpdated (.of channel))
  | .channelRemoved id => some (.channelRemoved id)
  | .serverError code detail => some (.serverError (errorCodeStr code) detail)
  | .disconnected reason => some (.disconnected reason)
  | .banList bans => some (.banList (bans.map .of))
  | .commandFailed nonce code detail => some (.commandFailed nonce (errorCodeStr code) detail)
  | .roleCreated _ | .roleUpdated _ | .roleDeleted _ | .rolesReordered _ | .ack _ | .voice _ | .voiceActivity _ _
  | .pong _ | .messageEdited _ _ _ | .messageDeleted _ => none

/-! ## The reducer -/

structure ConnectionState where
  session : SessionId
  info : SessionDto
  identity : String
  channels : List ChannelDto
  users : List UserDto
  messages : List MessageDto
  activeChannel : Option ChannelId
  disconnected : Option String
  roles : List RoleDto
  bans : Option (List BanDto)
  permissions : MyPermissionsDto
  notice : Option (String × String)
  unread : Nat
  deriving DecidableEq

structure ConnectionsState where
  order : List SessionId
  byId : SessionId → Option ConnectionState
  active : Option SessionId

def ConnectionsState.empty : ConnectionsState := ⟨[], fun _ => none, none⟩

inductive Action where
  | opened (connection : ConnectionDto)
  | closed (session : SessionId)
  | focused (session : Option SessionId)
  | channelSelected (session : SessionId) (channel : Option ChannelId)
  | noticeDismissed (session : SessionId)
  | event (session : SessionId) (event : EventDto)

/-- The tab that opens with a connection. -/
def ConnectionState.opened (connection : ConnectionDto) : ConnectionState :=
  { session := connection.session, info := connection.info, identity := connection.identity,
    channels := connection.info.channels, bans := none, permissions := connection.permissions,
    roles := connection.roles, users := connection.info.users, messages := [],
    activeChannel := connection.info.defaultChannel, disconnected := none, notice := none, unread := 0 }

/-- `Map.set`: a key that is there keeps its place. -/
def setMessage (messages : List MessageDto) (m : MessageDto) : List MessageDto :=
  if messages.any fun n => n.id = m.id then Keyed.modifyFirst MessageDto.id m.id (fun _ => m) messages
  else messages ++ [m]

def applyEvent (connection : ConnectionState) (event : EventDto) (active : Option SessionId) : ConnectionState :=
  match event with
  | .userJoined user =>
    { connection with users := connection.users.filter (fun u => u.clientId ≠ user.clientId) ++ [user] }
  | .userLeft clientId _ => { connection with users := connection.users.filter fun u => u.clientId ≠ clientId }
  | .userMoved clientId channel =>
    { connection with users := connection.users.map fun u => if u.clientId = clientId then { u with channel } else u }
  | .userUpdated user =>
    { connection with users := connection.users.map fun u => if u.clientId = user.clientId then user else u }
  | .message message =>
    { connection with
      messages := connection.messages ++ [message]
      unread := if active = some connection.session then connection.unread else connection.unread + 1 }
  | .history _ messages _ =>
    let byId := messages.foldl setMessage (connection.messages.foldl setMessage [])
    { connection with messages := byId.insertionSort fun a b => a.id ≤ b.id }
  | .channelCreated channel =>
    { connection with channels := connection.channels.filter (fun c => c.id ≠ channel.id) ++ [channel] }
  | .channelUpdated channel =>
    { connection with channels := connection.channels.map fun c => if c.id = channel.id then channel else c }
  | .channelRemoved channelId =>
    let channels := connection.channels.filter fun c => c.id ≠ channelId
    let activeChannel :=
      if connection.activeChannel = some channelId then
        if channels.any fun c => some c.id = connection.info.defaultChannel then connection.info.defaultChannel
          else none
      else connection.activeChannel
    { connection with channels, activeChannel }
  | .rolesChanged roles => { connection with roles }
  | .banList bans => { connection with bans := some bans }
  | .commandFailed _ code detail => { connection with notice := some (code, detail) }
  | .permissionsChanged permissions => { connection with permissions }
  | .serverError code detail => { connection with notice := some (code, detail) }
  | .disconnected reason => { connection with disconnected := some reason, users := [] }
  | .typing _ _ => connection

/-- An event for a connection that is not there is dropped. -/
def patch (state : ConnectionsState) (session : SessionId) (f : ConnectionState → ConnectionState) :
    SessionId → Option ConnectionState :=
  match state.byId session with
  | none => state.byId
  | some existing => Function.update state.byId session (some (f existing))

def reduce (state : ConnectionsState) : Action → ConnectionsState
  | .opened connection =>
    { order := if connection.session ∈ state.order then state.order else state.order ++ [connection.session]
      byId := Function.update state.byId connection.session (some (.opened connection))
      active := some connection.session }
  | .closed session =>
    let order := state.order.filter (· ≠ session)
    { order
      byId := Function.update state.byId session none
      active := if state.active = some session then order.getLast? else state.active }
  | .focused none => { state with active := none }
  | .focused (some session) =>
    { state with active := some session, byId := patch state session fun c => { c with unread := 0 } }
  | .channelSelected session channel =>
    { state with byId := patch state session fun c => { c with activeChannel := channel } }
  | .noticeDismissed session => { state with byId := patch state session fun c => { c with notice := none } }
  | .event session event => { state with byId := patch state session fun c => applyEvent c event state.active }

/-! ## Users, channels and the end -/

/-- What a tab shows of who and what there is. -/
def ConnectionState.lists (c : ConnectionState) : List UserDto × List ChannelDto × Option String :=
  (c.users, c.channels, c.disconnected)

theorem applyEvent_lists {c c' : ConnectionState} (h : c.lists = c'.lists) (e : EventDto)
    (active active' : Option SessionId) : (applyEvent c e active).lists = (applyEvent c' e active').lists := by
  simp only [ConnectionState.lists, Prod.mk.injEq] at h ⊢
  obtain ⟨husers, hchannels, hend⟩ := h
  cases e <;> simp [applyEvent, husers, hchannels, hend]

theorem patch_at {state : ConnectionsState} {session : SessionId} {c : ConnectionState}
    {f : ConnectionState → ConnectionState} (h : state.byId session = some c) :
    patch state session f session = some (f c) := by
  simp [patch, h]

theorem patch_other {state : ConnectionsState} {session other : SessionId} (hne : session ≠ other)
    (f : ConnectionState → ConnectionState) : patch state other f session = state.byId session := by
  unfold patch
  cases h : state.byId other with
  | none => rfl
  | some existing => simp [Function.update_of_ne hne]

/-- The action neither opens nor closes the tab, and is no event of its connection. -/
def Action.elsewhere (session : SessionId) : Action → Bool
  | .opened connection => connection.session ≠ session
  | .closed other => other ≠ session
  | .event other _ => other ≠ session
  | _ => true

theorem patch_lists {state : ConnectionsState} {session : SessionId} {c : ConnectionState}
    (h : state.byId session = some c) (other : SessionId) {f : ConnectionState → ConnectionState}
    (hf : ∀ c, (f c).lists = c.lists) : ∃ c', patch state other f session = some c' ∧ c'.lists = c.lists := by
  by_cases he : other = session
  · subst he
    exact ⟨f c, patch_at h, hf c⟩
  · exact ⟨c, (patch_other (Ne.symm he) f).trans h, rfl⟩

/-- The rest of the interface leaves a tab's lists alone. -/
theorem reduce_elsewhere {state : ConnectionsState} {session : SessionId} {c : ConnectionState}
    (h : state.byId session = some c) {action : Action} (ha : action.elsewhere session = true) :
    ∃ c', (reduce state action).byId session = some c' ∧ c'.lists = c.lists := by
  cases action with
  | opened connection =>
    have hne : session ≠ connection.session := Ne.symm (by simpa [Action.elsewhere] using ha)
    exact ⟨c, by simp [reduce, Function.update_of_ne hne, h], rfl⟩
  | closed other =>
    have hne : session ≠ other := Ne.symm (by simpa [Action.elsewhere] using ha)
    exact ⟨c, by simp [reduce, Function.update_of_ne hne, h], rfl⟩
  | focused other =>
    cases other with
    | none => exact ⟨c, h, rfl⟩
    | some other => exact patch_lists h other fun _ => rfl
  | channelSelected other channel => exact patch_lists h other fun _ => rfl
  | noticeDismissed other => exact patch_lists h other fun _ => rfl
  | event other event =>
    have hne : session ≠ other := Ne.symm (by simpa [Action.elsewhere] using ha)
    exact ⟨c, (patch_other hne _).trans h, rfl⟩

end PickleChat
