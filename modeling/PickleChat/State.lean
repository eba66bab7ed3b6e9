import PickleChat.Proto

/-!
# Authoritative server state

Who is connected, where they are, and how messages reach them. Each method is
one critical section of the source: it reads a permission snapshot and then the
client and channel maps, or writes one of them. A client's `control` is the
sequence of frames queued for it since it was admitted; queues do not overflow.
-/

namespace PickleChat

structure ChannelConfig where
  name : String
  topic : String
  kind : ChannelKind
  parent : Option String
  maxUsers : Option UInt16
  order : Int32
  deriving DecidableEq

structure ServerConfig where
  minSecurityLevel : UInt32
  password : Option String
  owner : Option String
  maxUsers : UInt32
  historyEnabled : Bool
  channels : List ChannelConfig
  deriving DecidableEq

structure ConnectedClient where
  info : UserInfo
  control : List ServerControl
  datagrams : List VoiceDownstream
  deriving DecidableEq

def ConnectedClient.id (e : ConnectedClient) : ClientId := e.info.clientId

def ConnectedClient.push (e : ConnectedClient) (frames : List ServerControl) : ConnectedClient :=
  { e with control := e.control ++ frames }

/-- The permission inputs, as one immutable snapshot. -/
structure PermState where
  roles : List Role
  members : Fingerprint → Option (List RoleId)

def PermState.grants (p : PermState) (f : Fingerprint) : List RoleId := (p.members f).getD []

def defaultRoles : List Role :=
  [{ id := everyoneRoleId, name := "everyone", color := none, position := 0, permissions := .defaultEveryone },
   { id := 1, name := "moderator", color := none, position := 1,
     permissions := (((Permissions.kickMembers.union .banMembers).union .muteMembers).union .moveMembers).union
       .manageMessages },
   { id := 2, name := "admin", color := none, position := 2, permissions := .administrator }]

structure Shared where
  config : ServerConfig
  limits : ServerLimits
  perms : PermState
  owner : Option Fingerprint
  /-- Whether the durable store is attached. -/
  store : Bool
  nextClientId : ClientId
  clients : List ConnectedClient
  channels : List Channel
  nextMessageId : MessageId
  nowUnixMs : UInt64

namespace Shared

abbrev permState (s : Shared) : PermState := s.perms

def isOwner (s : Shared) (f : Fingerprint) : Bool := s.owner = some f

def memberRoles (s : Shared) (f : Fingerprint) : List RoleId := s.perms.grants f

def client? (s : Shared) (client : ClientId) : Option ConnectedClient :=
  Keyed.get ConnectedClient.id client s.clients

def channel (s : Shared) (channel : ChannelId) : Option Channel := Keyed.get Channel.id channel s.channels

def bits (s : Shared) (info : UserInfo) (overwrites : Option (List Overwrite)) : Permissions :=
  resolve s.perms.roles info.roles info.fingerprint info.owner overwrites

def can (s : Shared) (client : ClientId) (channel : ChannelId) (bits : Permissions) : Bool :=
  match s.client? client with
  | none => false
  | some entry =>
    match s.channel channel with
    | none => false
    | some target => (s.bits entry.info (some target.overwrites)).contains bits

def views (s : Shared) (info : UserInfo) (c : Channel) : Bool :=
  (s.bits info (some c.overwrites)).contains .viewChannel

def visibleChannels (s : Shared) (member : UserInfo) : List Channel := s.channels.filter (s.views member)

/-- The first channel with the least `(order, id)`. -/
def minByOrder : List Channel → Option Channel
  | [] => none
  | c :: cs =>
    match minByOrder cs with
    | none => some c
    | some d => if d.order < c.order ∨ (d.order = c.order ∧ d.id < c.id) then some d else some c

def defaultChannelFor (s : Shared) (member : UserInfo) : Option ChannelId :=
  (minByOrder ((s.visibleChannels member).filter fun c => c.parent.isNone && c.kind.hasText)).map Channel.id

def rolesSnapshot (s : Shared) : List Role := s.perms.roles

def users (s : Shared) : List UserInfo := s.clients.map ConnectedClient.info

def user (s : Shared) (client : ClientId) : Option UserInfo := (s.client? client).map ConnectedClient.info

def canGlobally (s : Shared) (client : ClientId) (bits : Permissions) : Bool :=
  match s.client? client with
  | none => false
  | some entry => (s.bits entry.info none).contains bits

def actorOutranks (s : Shared) (actor : ClientId) (target : Fingerprint) : Bool :=
  let targetRoles := s.perms.grants target
  let targetOwner := s.isOwner target
  match s.client? actor with
  | none => false
  | some entry => canActOn s.perms.roles entry.info.roles entry.info.owner targetRoles targetOwner

def fingerprintOf (s : Shared) (client : ClientId) : Option Fingerprint :=
  (s.client? client).map fun e => e.info.fingerprint

def historyEnabled (s : Shared) : Bool := s.config.historyEnabled && s.store

/-! ## Queueing -/

def sendAll (s : Shared) (client : ClientId) (frames : List ServerControl) : Shared :=
  { s with clients := Keyed.modify ConnectedClient.id client (·.push frames) s.clients }

def send (s : Shared) (client : ClientId) (message : ServerControl) : Shared := s.sendAll client [message]

def broadcast (s : Shared) (message : ServerControl) (except : Option ClientId) : Shared :=
  { s with clients := s.clients.map fun e => if some e.id = except then e else e.push [message] }

def broadcastFiltered (s : Shared) (message : ServerControl) (channel : ChannelId) (except : Option ClientId) :
    Shared :=
  match s.channel channel with
  | none => s
  | some target =>
    { s with clients := s.clients.map fun e =>
        if some e.id ≠ except ∧ s.views e.info target = true then e.push [message] else e }

def relayVoice (s : Shared) (sender : ClientId) (packet : VoiceUpstream) : Shared :=
  match s.client? sender with
  | none => s
  | some entry =>
    if entry.info.voice.selfMuted || entry.info.voice.serverMuted then s else
    match entry.info.channel with
    | none => s
    | some channel =>
      match s.channel channel with
      | none => s
      | some room =>
        if !room.kind.hasVoice then s else
        if !(s.bits entry.info (some room.overwrites)).contains .speak then s else
        { s with clients := s.clients.map fun e =>
            if e.id = sender ∨ e.info.channel ≠ some channel ∨ e.info.voice.selfDeafened = true then e
            else { e with datagrams := e.datagrams ++ [packet.intoDownstream sender] } }

/-! ## Clients -/

/-- `sanitize_nickname`: no control characters, trimmed, at most `maxLen` characters. -/
def sanitizeNickname (raw : String) (maxLen : Nat) : Option String :=
  let printable := String.ofList (raw.toList.filter fun c => !Text.isControl c)
  let cleaned := (Text.trim printable).toList.take maxLen
  if cleaned = [] then none else some (String.ofList cleaned)

/-- `admit`. -/
def admitUser (s : Shared) (identity : PublicIdentity) (nickname : String) : Except AuthFailure (UserInfo × Shared) :=
  if identity.securityLevel < s.config.minSecurityLevel then
    .error (.securityLevelTooLow s.config.minSecurityLevel identity.securityLevel) else
  match sanitizeNickname nickname s.limits.maxNicknameLen.toNat with
  | none => .error (.nicknameRejected "nickname must contain at least one printable character")
  | some nickname =>
    if s.clients.length ≥ s.config.maxUsers.toNat then .error .serverFull else
    let info : UserInfo :=
      { clientId := s.nextClientId, identity, nickname, channel := none, voice := {},
        connectedAtUnixMs := s.nowUnixMs, roles := s.memberRoles identity.fingerprint,
        owner := s.isOwner identity.fingerprint }
    -- `wrapping_add(1).max(1)`: zero is never handed out.
    let next := if s.nextClientId + 1 = 0 then 1 else s.nextClientId + 1
    .ok (info, { s with
      nextClientId := next
      clients := Keyed.put ConnectedClient.id ⟨info, [], []⟩ s.clients })

def remove (s : Shared) (client : ClientId) : Option UserInfo × Shared :=
  (s.user client, { s with clients := Keyed.erase ConnectedClient.id client s.clients })

def modifyInfo (s : Shared) (client : ClientId) (f : UserInfo → UserInfo) : Shared :=
  { s with clients := Keyed.modify ConnectedClient.id client (fun e => { e with info := f e.info }) s.clients }

/-- How many others stand in the channel. -/
def occupants (s : Shared) (channel : ChannelId) (client : ClientId) : Nat :=
  (s.clients.filter fun e => e.info.channel = some channel ∧ e.id ≠ client).length

/-- Whether the room's cap keeps `client` out. -/
def full (s : Shared) (target : Channel) (client : ClientId) : Bool :=
  match target.maxUsers with
  | none => false
  | some max => s.occupants target.id client ≥ max.toNat

def joinChannel (s : Shared) (client : ClientId) (channel : ChannelId) :
    Except ErrorCode (Option ChannelId × Shared) :=
  match s.channel channel with
  | none => .error .noSuchChannel
  | some target =>
    match s.client? client with
    | none => .error .notAuthenticated
    | some me =>
      let bits := s.bits me.info (some target.overwrites)
      if !bits.contains .viewChannel then .error .noSuchChannel else
      if !target.kind.hasVoice then .error .notPermitted else
      if !bits.contains .connect then .error .notPermitted else
      if s.full target client then .error .channelFull else
      .ok (me.info.channel, s.modifyInfo client fun i => { i with channel := some channel })

def leaveChannel (s : Shared) (client : ClientId) : Option ChannelId × Shared :=
  ((s.client? client).bind fun e => e.info.channel, s.modifyInfo client fun i => { i with channel := none })

def setVoiceState (s : Shared) (client : ClientId) (selfMuted selfDeafened : Bool) : Option (UserInfo × Shared) :=
  let f (i : UserInfo) : UserInfo :=
    -- Deafening implies muting.
    { i with voice := { i.voice with selfMuted := selfMuted || selfDeafened, selfDeafened := selfDeafened } }
  (s.user client).map fun i => (f i, s.modifyInfo client f)

def setNickname (s : Shared) (client : ClientId) (nickname : String) : Option (UserInfo × Shared) :=
  match sanitizeNickname nickname s.limits.maxNicknameLen.toNat with
  | none => none
  | some cleaned =>
    let f (i : UserInfo) : UserInfo := { i with nickname := cleaned }
    (s.user client).map fun i => (f i, s.modifyInfo client f)

def eject (s : Shared) (victim : ClientId) (reason : DisconnectReason) : Option ConnectedClient × Shared :=
  match s.client? victim with
  | none => (none, s)
  | some entry =>
    let entry := entry.push [.userLeft victim reason]
    (some entry, (s.remove victim).2.broadcast (.userLeft victim reason) none)

def setServerMuted (s : Shared) (client : ClientId) (muted : Bool) : Option (UserInfo × Shared) :=
  let f (i : UserInfo) : UserInfo := { i with voice := { i.voice with serverMuted := muted } }
  (s.user client).map fun i => (f i, s.modifyInfo client f)

def forceMove (s : Shared) (client : ClientId) (dest : Option ChannelId) :
    Except ErrorCode (Option ChannelId × Shared) :=
  let place : Except ErrorCode (Option ChannelId × Shared) :=
    match s.client? client with
    | none => .error .notAuthenticated
    | some e => .ok (e.info.channel, s.modifyInfo client fun i => { i with channel := dest })
  match dest with
  | none => place
  | some channel =>
    match s.channel channel with
    | none => .error .noSuchChannel
    | some target =>
      if !target.kind.hasVoice then .error .notPermitted else
      if s.full target client then .error .channelFull else
      place

/-! ## Messages -/

def nextMessageIdBump (s : Shared) : MessageId × Shared :=
  (s.nextMessageId, { s with nextMessageId := s.nextMessageId + 1 })

def resumeMessageIdsAfter (s : Shared) (highest : MessageId) : Shared :=
  { s with nextMessageId := if s.nextMessageId < highest + 1 then highest + 1 else s.nextMessageId }

def buildMessage (s : Shared) (author : UserInfo) (channel : ChannelId) (content : String)
    (replyTo : Option MessageId) : ChatMessage × Shared :=
  let (id, s') := s.nextMessageIdBump
  ({ id, channel, author := some author.clientId, authorFingerprint := author.fingerprint,
     authorNickname := author.nickname, sentAtUnixMs := s.nowUnixMs, editedAtUnixMs := none, content, replyTo }, s')

/-! ## Permissions -/

def swapPermState (s : Shared) (next : PermState) : Shared := { s with perms := next }

def updateLiveMemberRoles (s : Shared) (f : Fingerprint) (roles : List RoleId) : List UserInfo × Shared :=
  (((s.clients.filter fun e => e.info.fingerprint = f).map fun e => { e.info with roles }),
    { s with clients := s.clients.map fun e =>
        if e.info.fingerprint = f then { e with info := { e.info with roles } } else e })

def stripLiveRole (s : Shared) (role : RoleId) : List UserInfo × Shared :=
  let f (i : UserInfo) : UserInfo := { i with roles := i.roles.filter (· ≠ role) }
  (((s.clients.filter fun e => role ∈ e.info.roles).map fun e => f e.info),
    { s with clients := s.clients.map fun e => if role ∈ e.info.roles then { e with info := f e.info } else e })

/-! ## Channels -/

def modifyChannel (s : Shared) (id : ChannelId) (f : Channel → Channel) : Shared :=
  { s with channels := Keyed.modify Channel.id id f s.channels }

def setChannelOverwrite (s : Shared) (channel : ChannelId) (overwrite : Overwrite) : Shared :=
  s.modifyChannel channel fun c => { c with overwrites := Keyed.put Overwrite.target overwrite c.overwrites }

def removeChannelOverwrite (s : Shared) (channel : ChannelId) (target : OverwriteTarget) : Shared :=
  s.modifyChannel channel fun c => { c with overwrites := Keyed.erase Overwrite.target target c.overwrites }

def stripRoleOverwrites (s : Shared) (role : RoleId) : List ChannelId × Shared :=
  let named (c : Channel) : Bool := c.overwrites.any fun o => o.target = .role role
  ((s.channels.filter named).map Channel.id,
    { s with channels := s.channels.map fun c =>
        if named c then { c with overwrites := Keyed.erase Overwrite.target (.role role) c.overwrites } else c })

def nextChannelId (s : Shared) : ChannelId := Word.maxOr0 (s.channels.map Channel.id) + 1

/-- Follow parents from `cursor` for at most the given number of channels. -/
def walkParents (channels : List Channel) (child : ChannelId) : Nat → Option ChannelId → Option Bool
  | _, none => some false
  | 0, some _ => none
  | n + 1, some id =>
    if id = child then some true
    else walkParents channels child n ((Keyed.get Channel.id id channels).bind Channel.parent)

/-- Would setting `child`'s parent to `parent` close a loop? A walk longer than
the map has run into a loop that avoids `child`: the source never returns, here
`none`. -/
def parentWouldCycle (s : Shared) (child : ChannelId) (parent : Option ChannelId) : Option Bool :=
  walkParents s.channels child (s.channels.length + 1) parent

def insertChannelMem (s : Shared) (c : Channel) : Shared :=
  { s with channels := Keyed.putSorted Channel.id c s.channels }

def updateChannelMem (s : Shared) (c : Channel) : Shared :=
  s.modifyChannel c.id fun old => { c with overwrites := old.overwrites }

/-- Remove a channel; its occupants stand nowhere afterwards. -/
def removeChannelMem (s : Shared) (channel : ChannelId) : List UserInfo × Shared :=
  match s.channel channel with
  | none => ([], s)
  | some _ =>
    let f (i : UserInfo) : UserInfo := { i with channel := none }
    (((s.clients.filter fun e => e.info.channel = some channel).map fun e => f e.info),
      { s with
        channels := Keyed.erase Channel.id channel s.channels
        clients := s.clients.map fun e => if e.info.channel = some channel then { e with info := f e.info } else e })

/-! ## Visibility -/

def visibleIds (s : Shared) (info : UserInfo) : List ChannelId := (s.visibleChannels info).map Channel.id

def visibleIdsByClient (s : Shared) : List (ClientId × List ChannelId) :=
  s.clients.map fun e => (e.id, s.visibleIds e.info)

/-- The frames that take a channel list from `was` to `now`. -/
def resyncFrames (s : Shared) (touched was now : List ChannelId) : List ServerControl :=
  ((now.filter (· ∉ was)).filterMap fun id => (s.channel id).map .channelCreated) ++
  (was.filter (· ∉ now)).map .channelRemoved ++
  ((touched.filter fun id => id ∈ was ∧ id ∈ now).filterMap fun id => (s.channel id).map .channelUpdated)

/-- Bring one client's channel list up to date, on its way through `s'`. -/
def resyncClient (s : Shared) (touched : List ChannelId) (s' : Shared) (before : ClientId × List ChannelId) : Shared :=
  match s.client? before.1 with
  | none => s'
  | some e => s'.sendAll before.1 (s.resyncFrames touched before.2 (s.visibleIds e.info))

def resyncVisibility (s : Shared) (before : List (ClientId × List ChannelId)) (touched : List ChannelId) : Shared :=
  before.foldl (s.resyncClient touched) s

end Shared

/-- The channels of the config file, the first-boot seed. -/
def buildChannels (config : ServerConfig) : List Channel :=
  let ids : List (String × ChannelId) := config.channels.zipIdx.map fun (c, i) => (c.name, UInt32.ofNat i + 1)
  -- A hash map keeps the last of two entries with one name.
  let idOf (name : String) : Option ChannelId := (ids.reverse.find? fun p => p.1 = name).map (·.2)
  config.channels.zipIdx.map fun (c, i) =>
    { id := UInt32.ofNat i + 1, parent := c.parent.bind idOf, name := c.name, topic := c.topic, kind := c.kind,
      maxUsers := c.maxUsers, order := c.order, overwrites := [] }

/-- `Shared::new`, with the store attached or not. -/
def Shared.new (config : ServerConfig) (channels : List Channel) (perms : PermState) (store : Bool)
    (now : UInt64) : Shared :=
  { config
    limits := { maxUsers := config.maxUsers }
    perms
    owner := config.owner.bind Fingerprint.parse
    store
    nextClientId := 1
    clients := []
    -- Collected into an ordered map by id.
    channels := channels.foldl (fun m c => Keyed.putSorted Channel.id c m) []
    nextMessageId := 1
    nowUnixMs := now }

/-! ## A small server for examples -/

/-- Client `id`, whose fingerprint repeats the byte `b`. -/
def exampleClient (id : ClientId) (b : UInt8) (roles : List RoleId) (channel : Option ChannelId) : ConnectedClient :=
  ⟨{ clientId := id, identity := ⟨.rep b, 8⟩, nickname := "n", channel, voice := {}, connectedAtUnixMs := 0, roles,
     owner := false }, [], []⟩

/-- A server without an owner, whose connected clients hold the grants they come with. -/
def exampleServer (roles : List Role) (channels : List Channel) (clients : List ConnectedClient) : Shared :=
  { config := { minSecurityLevel := 0, password := none, owner := none, maxUsers := 8, historyEnabled := true,
                channels := [] }
    limits := {}
    perms := { roles
               members := fun f => (clients.find? fun e => e.info.fingerprint = f ∧ e.info.roles ≠ []).map fun e =>
                 e.info.roles }
    owner := none, store := true, nextClientId := 100, clients, channels, nextMessageId := 1, nowUnixMs := 5 }

def exampleRole (id : RoleId) (position : UInt32) (permissions : Permissions) : Role :=
  { id, name := "r", color := none, position, permissions }

end PickleChat
