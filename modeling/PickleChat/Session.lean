import PickleChat.Moderation

/-!
# A connection's life

The handshake from its `Auth` frame on, and the dispatch of control frames.
-/

namespace PickleChat

/-! ## Handshake -/

def verifyAuth (s : Shared) (auth : ClientAuth) : Except AuthFailure Unit :=
  if auth.protocolVersion ≠ protocolVersion then .error (.protocolMismatch protocolVersion) else
  let signature : Except AuthFailure Unit := if auth.signatureOk then .ok () else .error .badSignature
  match s.config.password with
  | none => signature
  | some expected =>
    match auth.password with
    | none => .error .passwordRequired
    | some supplied => if expected = supplied then signature else .error .badPassword

def reject (failure : AuthFailure) : Todo :=
  .wait (.write (.authFailed failure)) fun (ok : Bool) s => if ok then (s, onSleep fun s => (s, .done)) else (s, .done)

def Shared.authOk (s : Shared) (info : UserInfo) : AuthOk :=
  { clientId := info.clientId, channels := s.visibleChannels info, users := s.users, roles := s.rolesSnapshot,
    defaultChannel := s.defaultChannelFor info, limits := { s.limits with historyEnabled := s.historyEnabled } }

/-- Take a slot, greet, announce. A client that vanishes before it is greeted
gives the slot back. -/
def admitClient (auth : ClientAuth) : Handler := fun s =>
  match s.admitUser auth.identity auth.nickname with
  | .error failure => (s, reject failure)
  | .ok (info, s) =>
    (s, .wait (.write (.authOk (s.authOk info))) fun (ok : Bool) s =>
      if ok then (s.broadcast (.userJoined info) (some info.clientId), .done)
      else ((s.remove info.clientId).2, .done))

def handshake (auth : ClientAuth) : Handler := fun s =>
  match verifyAuth s auth with
  | .error failure => (s, reject failure)
  | .ok () =>
    if !s.store then admitClient auth s else
    (s, onLoad (.activeBan auth.identity.fingerprint s.nowUnixMs) fun (r : Option (Option BanEntry)) s =>
      match r with
      | some (some ban) => (s, reject (.banned ban.reason ban.untilUnixMs))
      -- A store fault must not lock everyone out.
      | _ => admitClient auth s)

def disconnect (s : Shared) (client : ClientId) : Shared :=
  match s.remove client with
  | (none, _) => s
  | (some _, s) => s.broadcast (.userLeft client .quit) (some client)

/-! ## Messages -/

def fetchHistory (client : ClientId) (channel : ChannelId) (before : Option MessageId) (limit : UInt16) :
    Handler := fun s =>
  let empty : Shared × Todo := (s.send client (.history channel [] true), .done)
  if !s.historyEnabled then empty else
  if !(s.channel channel).any fun c => c.kind.hasText then empty else
  if !s.can client channel .viewChannel || !s.can client channel .readHistory then empty else
  if !s.store then empty else
  (s, onLoad (.history channel before limit) fun (r : Option (List ChatMessage × Bool)) s =>
    match r with
    | some (messages, reachedStart) => (s.send client (.history channel messages reachedStart), .done)
    | none => (s.send client (.error .internal "the server could not read history"), .done))

/-- The author's echo with the nonce, then everyone who may view the channel. -/
def postMessage (s : Shared) (client : ClientId) (message : ChatMessage) (nonce : UInt64) : Shared :=
  (s.send client (.messagePosted message (some nonce))).broadcastFiltered (.messagePosted message none)
    message.channel (some client)

def sendMessage (client : ClientId) (channel : ChannelId) (content : String) (replyTo : Option MessageId)
    (nonce : UInt64) : Handler := fun s =>
  match s.user client with
  | none => (s, .done)
  | some author =>
    if Text.trim content = "" then (s, .done) else
    if content.utf8ByteSize > s.limits.maxMessageLen.toNat then
      (s.send client (.error .messageTooLong
        ("messages are limited to " ++ Text.decimal s.limits.maxMessageLen ++ " bytes")), .done) else
    match s.channel channel with
    | none => (s.send client (.error .noSuchChannel ("no channel " ++ Text.decimal channel)), .done)
    | some c =>
      -- The view check runs before the kind is even mentioned.
      if !s.can client channel .viewChannel then
        (s.send client (.error .noSuchChannel ("no channel " ++ Text.decimal channel)), .done) else
      if !c.kind.hasText then
        (s.send client (.error .notPermitted ("channel " ++ Text.debug c.name ++ " does not carry text")), .done) else
      if !s.can client channel .sendMessages then
        (s.send client (.error .notPermitted "you may not send messages in this channel"), .done) else
      let (message, s) := s.buildMessage author channel content replyTo
      if !s.store then (postMessage s client message nonce, .done) else
      (s, onSaved (.insertMessage message)
        (fun s => s.send client
          (.error .internal "the server could not save that message, so it was not sent"))
        fun s => (postMessage s client message nonce, .done))

/-! ## Control frames -/

def joinDetail (code : ErrorCode) (channel : ChannelId) : String :=
  if code = .notPermitted then
    "channel " ++ Text.decimal channel ++ " carries no voice; text channels are open to everyone without joining"
  else "could not join channel " ++ Text.decimal channel

def typing (client : ClientId) (channel : ChannelId) (s : Shared) : Shared :=
  let ok := (s.channel channel).any (fun c => c.kind.hasText) && s.can client channel .viewChannel &&
    s.can client channel .sendMessages
  if ok then s.broadcastFiltered (.typing client channel) channel (some client) else s

def handleControl (client : ClientId) : ClientControl → Handler
  | .auth _ => fun s => (s.send client (.error .malformed "already authenticated"), .done)
  | .ping nonce => fun s => (s.send client (.pong nonce), .done)
  | .kick nonce target _ => kick client nonce target
  | .ban nonce f reason til => ban client nonce f reason til
  | .unban nonce f => unban client nonce f
  | .listBans nonce => listBans client nonce
  | .setServerMute nonce target muted => setServerMute client nonce target muted
  | .moveMember nonce target dest => moveMember client nonce target dest
  | .createRole nonce name permissions => createRole client nonce name permissions
  | .updateRole nonce id name color permissions => updateRole client nonce id name color permissions
  | .deleteRole nonce id => deleteRole client nonce id
  | .reorderRoles nonce positions => reorderRoles client nonce positions
  | .setMemberRoles nonce f roles => setMemberRoles client nonce f roles
  | .setChannelOverwrite nonce channel target allow deny =>
    setChannelOverwrite client nonce channel target allow deny
  | .deleteChannelOverwrite nonce channel target => deleteChannelOverwrite client nonce channel target
  | .createChannel nonce name parent topic kind maxUsers order =>
    createChannel client nonce name parent topic kind maxUsers order
  | .updateChannel nonce id parent name topic kind maxUsers order =>
    updateChannel client nonce id parent name topic kind maxUsers order
  | .deleteChannel nonce id => deleteChannel client nonce id
  | .joinChannel channel => fun s =>
    match s.joinChannel client channel with
    | .ok (source, s) => (s.broadcast (.userMoved client source (some channel)) none, .done)
    | .error code => (s.send client (.error code (joinDetail code channel)), .done)
  | .leaveChannel => fun s =>
    let (source, s) := s.leaveChannel client
    (s.broadcast (.userMoved client source none) none, .done)
  | .setVoiceState selfMuted selfDeafened => fun s =>
    match s.setVoiceState client selfMuted selfDeafened with
    | some (info, s) => (s.broadcast (.userUpdated info) none, .done)
    | none => (s, .done)
  | .setNickname nickname => fun s =>
    match s.setNickname client nickname with
    | some (info, s) => (s.broadcast (.userUpdated info) none, .done)
    | none => (s.send client (.error .malformed "nickname must contain a printable character"), .done)
  | .sendMessage channel content replyTo nonce => sendMessage client channel content replyTo nonce
  | .typing channel => fun s => (typing client channel s, .done)
  | .fetchHistory channel before limit => fetchHistory client channel before limit
  | .editMessage .. | .deleteMessage .. | .react .. => fun s =>
    (s.send client (.error .notPermitted
      "message editing, deletion and reactions need the message store, which is not implemented yet"), .done)

end PickleChat
