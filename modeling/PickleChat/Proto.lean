import PickleChat.Perms

/-! # The wire protocol: channels, users and control messages -/

namespace PickleChat

abbrev ClientId := UInt32
abbrev ChannelId := UInt32
abbrev MessageId := UInt64

inductive ChannelKind where
  | voice
  | text
  | voiceAndText
  deriving DecidableEq

def ChannelKind.hasVoice : ChannelKind → Bool
  | .voice | .voiceAndText => true
  | .text => false

def ChannelKind.hasText : ChannelKind → Bool
  | .text | .voiceAndText => true
  | .voice => false

structure Channel where
  id : ChannelId
  parent : Option ChannelId
  name : String
  topic : String
  kind : ChannelKind
  maxUsers : Option UInt16
  order : Int32
  overwrites : List Overwrite
  deriving DecidableEq

structure VoiceState where
  selfMuted : Bool := false
  selfDeafened : Bool := false
  serverMuted : Bool := false
  speaking : Bool := false
  deriving DecidableEq

structure UserInfo where
  clientId : ClientId
  identity : PublicIdentity
  nickname : String
  channel : Option ChannelId
  voice : VoiceState
  connectedAtUnixMs : UInt64
  roles : List RoleId
  owner : Bool
  deriving DecidableEq

def UserInfo.fingerprint (u : UserInfo) : Fingerprint := u.identity.fingerprint

inductive DisconnectReason where
  | quit
  | timedOut
  | kicked
  | banned
  | serverShutdown
  deriving DecidableEq

structure ChatMessage where
  id : MessageId
  channel : ChannelId
  author : Option ClientId
  authorFingerprint : Fingerprint
  authorNickname : String
  sentAtUnixMs : UInt64
  editedAtUnixMs : Option UInt64
  content : String
  replyTo : Option MessageId
  deriving DecidableEq

structure BanEntry where
  fingerprint : Fingerprint
  reason : String
  untilUnixMs : Option UInt64
  issuedBy : Fingerprint
  issuedAtUnixMs : UInt64
  deriving DecidableEq

inductive ErrorCode where
  | notAuthenticated
  | noSuchChannel
  | noSuchMessage
  | channelFull
  | channelPasswordRequired
  | notPermitted
  | rateLimited
  | messageTooLong
  | malformed
  | internal
  deriving DecidableEq

structure ServerLimits where
  maxMessageLen : UInt32 := 4000
  maxNicknameLen : UInt32 := 32
  maxUsers : UInt32 := 64
  historyEnabled : Bool := true
  deriving DecidableEq

inductive AuthFailure where
  | protocolMismatch (serverVersion : UInt16)
  | securityLevelTooLow (required provided : UInt32)
  | badSignature
  | passwordRequired
  | badPassword
  | banned (reason : String) (untilUnixMs : Option UInt64)
  | serverFull
  | nicknameRejected (reason : String)
  deriving DecidableEq

structure AuthOk where
  clientId : ClientId
  channels : List Channel
  users : List UserInfo
  roles : List Role
  defaultChannel : Option ChannelId
  limits : ServerLimits
  deriving DecidableEq

/-- The client's reply to the greeting. `signatureOk`: its signature over the
greeting's nonce and this server's certificate verifies under its key. -/
structure ClientAuth where
  protocolVersion : UInt16
  identity : PublicIdentity
  nickname : String
  password : Option String
  signatureOk : Bool
  deriving DecidableEq

def protocolVersion : UInt16 := 2

inductive ClientControl where
  | auth (auth : ClientAuth)
  | joinChannel (channel : ChannelId)
  | leaveChannel
  | setVoiceState (selfMuted selfDeafened : Bool)
  | setNickname (nickname : String)
  | sendMessage (channel : ChannelId) (content : String) (replyTo : Option MessageId) (nonce : UInt64)
  | editMessage (id : MessageId) (content : String)
  | deleteMessage (id : MessageId)
  | react (message : MessageId) (emoji : String) (add : Bool)
  | fetchHistory (channel : ChannelId) (before : Option MessageId) (limit : UInt16)
  | typing (channel : ChannelId)
  | ping (nonce : UInt64)
  | kick (nonce : UInt64) (client : ClientId) (reason : String)
  | ban (nonce : UInt64) (fingerprint : Fingerprint) (reason : String) (untilUnixMs : Option UInt64)
  | unban (nonce : UInt64) (fingerprint : Fingerprint)
  | listBans (nonce : UInt64)
  | setServerMute (nonce : UInt64) (client : ClientId) (muted : Bool)
  | moveMember (nonce : UInt64) (client : ClientId) (dest : Option ChannelId)
  | createRole (nonce : UInt64) (name : String) (permissions : Permissions)
  | updateRole (nonce : UInt64) (id : RoleId) (name : Option String) (color : Option (Option UInt32))
      (permissions : Option Permissions)
  | deleteRole (nonce : UInt64) (id : RoleId)
  | reorderRoles (nonce : UInt64) (positions : List (RoleId × UInt32))
  | setMemberRoles (nonce : UInt64) (fingerprint : Fingerprint) (roles : List RoleId)
  | setChannelOverwrite (nonce : UInt64) (channel : ChannelId) (target : OverwriteTarget)
      (allow deny : Permissions)
  | deleteChannelOverwrite (nonce : UInt64) (channel : ChannelId) (target : OverwriteTarget)
  | createChannel (nonce : UInt64) (name : String) (parent : Option ChannelId) (topic : String)
      (kind : ChannelKind) (maxUsers : Option UInt16) (order : Int32)
  | updateChannel (nonce : UInt64) (id : ChannelId) (parent : Option ChannelId) (name topic : String)
      (kind : ChannelKind) (maxUsers : Option UInt16) (order : Int32)
  | deleteChannel (nonce : UInt64) (id : ChannelId)
  deriving DecidableEq

/-- The frames this server sends. -/
inductive ServerControl where
  | authOk (ok : AuthOk)
  | authFailed (failure : AuthFailure)
  | userJoined (info : UserInfo)
  | userLeft (client : ClientId) (reason : DisconnectReason)
  | userMoved (client : ClientId) (source dest : Option ChannelId)
  | userUpdated (info : UserInfo)
  | channelCreated (channel : Channel)
  | channelUpdated (channel : Channel)
  | channelRemoved (id : ChannelId)
  | messagePosted (message : ChatMessage) (nonce : Option UInt64)
  | history (channel : ChannelId) (messages : List ChatMessage) (reachedStart : Bool)
  | typing (client : ClientId) (channel : ChannelId)
  | pong (nonce : UInt64)
  | error (code : ErrorCode) (detail : String)
  | roleCreated (role : Role)
  | roleUpdated (role : Role)
  | roleDeleted (id : RoleId)
  | rolesReordered (positions : List (RoleId × UInt32))
  | banList (bans : List BanEntry)
  | ack (nonce : UInt64)
  | commandFailed (nonce : UInt64) (code : ErrorCode) (detail : String)
  deriving DecidableEq

/-! ## Voice packets -/

structure VoiceUpstream where
  seq : UInt32
  flags : UInt8
  payload : List UInt8
  deriving DecidableEq

structure VoiceDownstream where
  sender : ClientId
  seq : UInt32
  flags : UInt8
  payload : List UInt8
  deriving DecidableEq

def VoiceUpstream.intoDownstream (p : VoiceUpstream) (sender : ClientId) : VoiceDownstream :=
  ⟨sender, p.seq, p.flags, p.payload⟩

end PickleChat
