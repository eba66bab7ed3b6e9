import PickleChat.Lib.Async
import PickleChat.Store

/-!
# Role, overwrite and channel management

The commands that change who may do what. Each handler checks its command on
the state it finds and leaves a task: the store calls it awaits, and what it
then does to the state it resumes on. Between the awaits it carries the
snapshot it took at the start.
-/

namespace PickleChat

/-- What is left of a handler at an await. -/
abbrev Todo := Async.Task Shared Await Await.Reply

/-- A handler run up to its first await. -/
abbrev Handler := Shared → Shared × Todo

def onLoad (call : StoreRead) (k : Option call.Answer → Handler) : Todo := .wait (.load call) k

def onWritten (call : StoreWrite) (k : Handler) : Todo := .wait (.save call) fun _ s => k s

/-- Await a write to the store, and answer with `failed` when it is not saved. -/
def onSaved (call : StoreWrite) (failed : Shared → Shared) (saved : Handler) : Todo :=
  .wait (.save call) fun (ok : Bool) s => if ok then saved s else (failed s, .done)

def ack (s : Shared) (actor : ClientId) (nonce : UInt64) : Shared := s.send actor (.ack nonce)

def refuse (s : Shared) (actor : ClientId) (nonce : UInt64) (code : ErrorCode) (detail : String) : Shared :=
  s.send actor (.commandFailed nonce code detail)

/-- The actor's standing, resolved once per command. -/
structure Actor where
  roles : List RoleId
  owner : Bool
  base : Permissions

/-- Owner and administrators may mint anything; everyone else only what they hold. -/
def Actor.mayGrant (a : Actor) (bits : Permissions) : Bool :=
  a.owner || a.base.contains .administrator || a.base.contains bits

def actor (s : Shared) (client : ClientId) (nonce : UInt64) : Except Shared Actor :=
  if !s.canGlobally client .manageRoles then
    .error (refuse s client nonce .notPermitted "you may not manage roles") else
  let snapshot := s.permState
  match s.fingerprintOf client with
  | none => .error s
  | some fingerprint =>
    let roles := snapshot.grants fingerprint
    let owner := s.isOwner fingerprint
    let base := resolve snapshot.roles roles fingerprint owner none
    .ok { roles, owner, base }

/-- Everything at position 1 and up makes room for a role just above everyone. -/
def shiftedPositions (roles : List Role) : List (RoleId × UInt32) :=
  roles.map fun r => if r.position = 0 then (r.id, 0) else (r.id, r.position + 1)

def newPosition (positions : List (RoleId × UInt32)) (r : Role) : UInt32 :=
  match Keyed.get Prod.fst r.id positions with
  | some (_, position) => position
  | none => r.position

def withPositions (positions : List (RoleId × UInt32)) (roles : List Role) : List Role :=
  roles.map fun r => { r with position := newPosition positions r }

/-- `sort_by_key(|r| r.position)`, which is stable. -/
def sortByPosition (roles : List Role) : List Role := roles.insertionSort fun a b => a.position ≤ b.position

def ordering (roles : List Role) : List (RoleId × UInt32) := roles.map fun r => (r.id, r.position)

def announceUsers (s : Shared) (infos : List UserInfo) : Shared :=
  infos.foldl (fun s info => s.broadcast (.userUpdated info) none) s

/-! ## Roles -/

def newRole (snapshot : PermState) (name : String) (permissions : Permissions) : Role :=
  { id := Word.maxOr0 (snapshot.roles.map Role.id) + 1, name, color := none,
    -- Just above everyone: a new role starts junior.
    position := 1, permissions }

def createdPerms (snapshot : PermState) (role : Role) : PermState :=
  { snapshot with
    roles := sortByPosition (withPositions (shiftedPositions snapshot.roles) snapshot.roles ++ [role]) }

def createRoleSwap (s : Shared) (client : ClientId) (nonce : UInt64) (snapshot : PermState) (role : Role) :
    Shared :=
  let next := createdPerms snapshot role
  let s := s.swapPermState next
  let s := s.broadcast (.roleCreated role) none
  let s := s.broadcast (.rolesReordered (ordering next.roles)) none
  ack s client nonce

def createRoleSave (client : ClientId) (nonce : UInt64) (snapshot : PermState) (role : Role) : Todo :=
  let failed (s : Shared) := refuse s client nonce .internal "the role was not saved"
  onSaved (.setRolePositions (shiftedPositions snapshot.roles)) failed fun s =>
    (s, onSaved (.insertRole role) failed fun s => (createRoleSwap s client nonce snapshot role, .done))

def createRole (client : ClientId) (nonce : UInt64) (name : String) (permissions : Permissions) : Handler := fun s =>
  match actor s client nonce with
  | .error s => (s, .done)
  | .ok actor =>
    let name := Text.trim name
    if name = "" then (refuse s client nonce .malformed "a role needs a name", .done) else
    let permissions := permissions.intersect .all
    if !actor.mayGrant permissions then
      (refuse s client nonce .notPermitted "you cannot grant permissions you do not hold", .done) else
    if !s.store then (refuse s client nonce .internal "no database", .done) else
    let snapshot := s.permState
    (s, createRoleSave client nonce snapshot (newRole snapshot name permissions))

def updateRoleSwap (s : Shared) (client : ClientId) (nonce : UInt64) (snapshot : PermState)
    (before : List (ClientId × List ChannelId)) (updated : Role) : Shared :=
  let next := { snapshot with roles := Keyed.modifyFirst Role.id updated.id (fun _ => updated) snapshot.roles }
  let s := s.swapPermState next
  let s := s.broadcast (.roleUpdated updated) none
  let s := s.resyncVisibility before []
  ack s client nonce

def updateRoleSave (client : ClientId) (nonce : UInt64) (snapshot : PermState)
    (before : List (ClientId × List ChannelId)) (updated : Role) : Todo :=
  onSaved (.updateRole updated) (refuse · client nonce .internal "the change was not saved") fun s =>
    (updateRoleSwap s client nonce snapshot before updated, .done)

def editedRole (actor : Actor) (existing : Role) (name : Option String) (color : Option (Option UInt32))
    (permissions : Option Permissions) : Except (ErrorCode × String) Role :=
  if name.any fun n => Text.trim n = "" then .error (.malformed, "a role needs a name") else
  let updated := { existing with name := (name.map Text.trim).getD existing.name, color := color.getD existing.color }
  match permissions with
  | none => .ok updated
  | some permissions =>
    let permissions := permissions.intersect .all
    -- The subset rule applies to what this edit adds.
    if !actor.mayGrant (permissions.without existing.permissions) then
      .error (.notPermitted, "you cannot grant permissions you do not hold") else
    .ok { updated with permissions }

def updateRole (client : ClientId) (nonce : UInt64) (id : RoleId) (name : Option String)
    (color : Option (Option UInt32)) (permissions : Option Permissions) : Handler := fun s =>
  match actor s client nonce with
  | .error s => (s, .done)
  | .ok actor =>
    let snapshot := s.permState
    match Keyed.get Role.id id snapshot.roles with
    | none => (refuse s client nonce .malformed "no such role", .done)
    | some existing =>
      if !canManageRole snapshot.roles actor.roles actor.owner id then
        (refuse s client nonce .notPermitted "that role is not below yours", .done) else
      if id = everyoneRoleId ∧ name.isSome = true then
        (refuse s client nonce .malformed "everyone is not renamable", .done) else
      match editedRole actor existing name color permissions with
      | .error (code, detail) => (refuse s client nonce code detail, .done)
      | .ok updated =>
        if !s.store then (refuse s client nonce .internal "no database", .done) else
        (s, updateRoleSave client nonce snapshot s.visibleIdsByClient updated)

def compacted (roles : List Role) : List Role :=
  (sortByPosition roles).zipIdx.map fun (r, i) => { r with position := UInt32.ofNat i }

def deletedPerms (snapshot : PermState) (id : RoleId) : PermState :=
  { roles := compacted (Keyed.erase Role.id id snapshot.roles)
    members := fun f => (snapshot.members f).map (·.filter (· ≠ id)) }

def deleteRoleSwap (s : Shared) (client : ClientId) (nonce : UInt64) (snapshot : PermState)
    (before : List (ClientId × List ChannelId)) (id : RoleId) : Shared :=
  let next := deletedPerms snapshot id
  let s := s.swapPermState next
  let (touched, s) := s.stripRoleOverwrites id
  let (holders, s) := s.stripLiveRole id
  let s := s.broadcast (.roleDeleted id) none
  let s := s.broadcast (.rolesReordered (ordering next.roles)) none
  let s := announceUsers s holders
  let s := s.resyncVisibility before touched
  ack s client nonce

def deleteRoleSave (client : ClientId) (nonce : UInt64) (snapshot : PermState)
    (before : List (ClientId × List ChannelId)) (id : RoleId) : Todo :=
  onSaved (.deleteRole id) (refuse · client nonce .internal "the deletion was not saved") fun s =>
    -- A failed compaction is only logged.
    (s, onWritten (.setRolePositions (ordering (deletedPerms snapshot id).roles)) fun s =>
      (deleteRoleSwap s client nonce snapshot before id, .done))

def deleteRole (client : ClientId) (nonce : UInt64) (id : RoleId) : Handler := fun s =>
  match actor s client nonce with
  | .error s => (s, .done)
  | .ok actor =>
    if id = everyoneRoleId then (refuse s client nonce .notPermitted "everyone is not deletable", .done) else
    let snapshot := s.permState
    if !snapshot.roles.any (fun r => r.id = id) then (refuse s client nonce .malformed "no such role", .done) else
    if !canManageRole snapshot.roles actor.roles actor.owner id then
      (refuse s client nonce .notPermitted "that role is not below yours", .done) else
    if !s.store then (refuse s client nonce .internal "no database", .done) else
    (s, deleteRoleSave client nonce snapshot s.visibleIdsByClient id)

/-- Every role named, the positions exactly `0 .. n`. -/
def densePermutation (roles : List Role) (positions : List (RoleId × UInt32)) : Bool :=
  let expected := (List.range (UInt32.ofNat roles.length).toNat).map UInt32.ofNat
  let given := (positions.map Prod.snd).insertionSort (· ≤ ·)
  let namesAll := positions.length = roles.length ∧
    roles.all (fun r => positions.any fun p => p.1 = r.id) = true
  namesAll ∧ given = expected

def reorderRolesSwap (s : Shared) (client : ClientId) (nonce : UInt64) (snapshot : PermState)
    (positions : List (RoleId × UInt32)) : Shared :=
  let next := { snapshot with roles := sortByPosition (withPositions positions snapshot.roles) }
  let s := s.swapPermState next
  let s := s.broadcast (.rolesReordered positions) none
  ack s client nonce

def reorderRolesSave (client : ClientId) (nonce : UInt64) (snapshot : PermState)
    (positions : List (RoleId × UInt32)) : Todo :=
  onSaved (.setRolePositions positions) (refuse · client nonce .internal "the reorder was not saved") fun s =>
    (reorderRolesSwap s client nonce snapshot positions, .done)

/-- The entry moves a role that is not below `top`, or moves one there. -/
def movesAbove (roles : List Role) (top : UInt32) (p : RoleId × UInt32) : Bool :=
  let old := ((Keyed.get Role.id p.1 roles).map Role.position).getD 0
  old ≠ p.2 ∧ (old ≥ top ∨ p.2 ≥ top)

def reorderRoles (client : ClientId) (nonce : UInt64) (positions : List (RoleId × UInt32)) : Handler := fun s =>
  match actor s client nonce with
  | .error s => (s, .done)
  | .ok actor =>
    let snapshot := s.permState
    if !densePermutation snapshot.roles positions then
      (refuse s client nonce .malformed "a reorder names every role exactly once, densely", .done) else
    if positions.any fun p => p.1 = everyoneRoleId ∧ p.2 ≠ 0 then
      (refuse s client nonce .malformed "everyone stays at the bottom", .done) else
    if !actor.owner && positions.any (movesAbove snapshot.roles (topRolePosition snapshot.roles actor.roles)) then
      (refuse s client nonce .notPermitted "you can only move roles below your own", .done) else
    if !s.store then (refuse s client nonce .internal "no database", .done) else
    (s, reorderRolesSave client nonce snapshot positions)

def grantedPerms (snapshot : PermState) (f : Fingerprint) (roles : List RoleId) : PermState :=
  { snapshot with members := fun g => if g = f then (if roles = [] then none else some roles) else snapshot.members g }

def setMemberRolesSwap (s : Shared) (client : ClientId) (nonce : UInt64) (snapshot : PermState)
    (before : List (ClientId × List ChannelId)) (f : Fingerprint) (roles : List RoleId) : Shared :=
  let s := s.swapPermState (grantedPerms snapshot f roles)
  let (infos, s) := s.updateLiveMemberRoles f roles
  let s := announceUsers s infos
  let s := s.resyncVisibility before []
  ack s client nonce

def setMemberRolesSave (client : ClientId) (nonce : UInt64) (snapshot : PermState)
    (before : List (ClientId × List ChannelId)) (f : Fingerprint) (roles : List RoleId) : Todo :=
  onSaved (.replaceMemberRoles f roles) (refuse · client nonce .internal "the change was not saved") fun s =>
    (setMemberRolesSwap s client nonce snapshot before f roles, .done)

def changedRoles (current roles : List RoleId) : List RoleId :=
  current.filter (· ∉ roles) ++ roles.filter (· ∉ current)

def setMemberRoles (client : ClientId) (nonce : UInt64) (f : Fingerprint) (roles : List RoleId) : Handler := fun s =>
  match actor s client nonce with
  | .error s => (s, .done)
  | .ok actor =>
    let snapshot := s.permState
    if everyoneRoleId ∈ roles then (refuse s client nonce .malformed "everyone is implicit, not granted", .done) else
    if roles.any fun id => !snapshot.roles.any fun r => r.id = id then
      (refuse s client nonce .malformed "no such role", .done) else
    if s.isOwner f && !actor.owner then
      (refuse s client nonce .notPermitted "the owner's roles are not yours to change", .done) else
    if (changedRoles (snapshot.grants f) roles).any fun role =>
        !canManageRole snapshot.roles actor.roles actor.owner role then
      (refuse s client nonce .notPermitted "some of those roles are not below yours", .done) else
    if !s.store then (refuse s client nonce .internal "no database", .done) else
    (s, setMemberRolesSave client nonce snapshot s.visibleIdsByClient f roles)

/-! ## Overwrites -/

def noSuchChannel (s : Shared) (client : ClientId) (nonce : UInt64) : Shared × Todo :=
  (refuse s client nonce .noSuchChannel "no such channel", .done)

def setChannelOverwriteSave (client : ClientId) (nonce : UInt64) (before : List (ClientId × List ChannelId))
    (channel : ChannelId) (overwrite : Overwrite) : Todo :=
  onSaved (.upsertOverwrite channel overwrite) (refuse · client nonce .internal "the change was not saved")
    fun s =>
      let s := s.setChannelOverwrite channel overwrite
      let s := s.resyncVisibility before [channel]
      (ack s client nonce, .done)

def unknownRole (roles : List Role) : OverwriteTarget → Bool
  | .role role => !roles.any fun r => r.id = role
  | .member _ => false

def setChannelOverwrite (client : ClientId) (nonce : UInt64) (channel : ChannelId) (target : OverwriteTarget)
    (allow deny : Permissions) : Handler := fun s =>
  match actor s client nonce with
  | .error s => (s, .done)
  | .ok actor =>
    -- A room the actor cannot see answers as if it does not exist.
    if !s.can client channel .viewChannel then noSuchChannel s client nonce else
    let allow := allow.intersect .channelScoped
    let deny := deny.intersect .channelScoped
    if !(allow.intersect deny).isEmpty then
      (refuse s client nonce .malformed "a bit cannot be both allowed and denied", .done) else
    if unknownRole s.permState.roles target then (refuse s client nonce .malformed "no such role", .done) else
    let save : Shared × Todo :=
      if !s.store then (refuse s client nonce .internal "no database", .done) else
      (s, setChannelOverwriteSave client nonce s.visibleIdsByClient channel { target, allow, deny })
    -- The subset rule: only what the actor holds in this channel.
    if !actor.owner && !actor.base.contains .administrator then
      match s.fingerprintOf client with
      | none => (s, .done)
      | some fingerprint =>
        match s.channel channel with
        | none => noSuchChannel s client nonce
        | some c =>
          let mine := resolve s.permState.roles actor.roles fingerprint actor.owner (some c.overwrites)
          if !mine.contains (allow.union deny) then
            (refuse s client nonce .notPermitted "you cannot toggle permissions you do not hold here", .done) else
          save
    else save

def deleteChannelOverwriteSave (client : ClientId) (nonce : UInt64) (before : List (ClientId × List ChannelId))
    (channel : ChannelId) (target : OverwriteTarget) : Todo :=
  onSaved (.deleteOverwrite channel target) (refuse · client nonce .internal "the change was not saved") fun s =>
    let s := s.removeChannelOverwrite channel target
    let s := s.resyncVisibility before [channel]
    (ack s client nonce, .done)

def deleteChannelOverwrite (client : ClientId) (nonce : UInt64) (channel : ChannelId) (target : OverwriteTarget) :
    Handler := fun s =>
  match actor s client nonce with
  | .error s => (s, .done)
  | .ok _ =>
    if !s.can client channel .viewChannel then noSuchChannel s client nonce else
    if !s.store then (refuse s client nonce .internal "no database", .done) else
    (s, deleteChannelOverwriteSave client nonce s.visibleIdsByClient channel target)

/-! ## Channels -/

/-- A printable name and a real, acyclic parent; or the state to end in. A
parent walk that never returns leaves the state as it is and answers nothing. -/
def validateChannel (s : Shared) (actor : ClientId) (nonce : UInt64) (id : Option ChannelId) (name : String)
    (parent : Option ChannelId) : Except Shared String :=
  let name := Text.trim name
  if name = "" then .error (refuse s actor nonce .malformed "a channel needs a name") else
  match parent with
  | none => .ok name
  | some parentId =>
    if !s.channels.any (fun c => c.id = parentId) then
      .error (refuse s actor nonce .malformed "no such parent") else
    match id with
    | none => .ok name
    | some child =>
      match s.parentWouldCycle child parent with
      | none => .error s
      | some true => .error (refuse s actor nonce .malformed "a channel cannot contain itself")
      | some false => .ok name

def createChannelSave (client : ClientId) (nonce : UInt64) (channel : Channel) : Todo :=
  onSaved (.insertChannel channel) (refuse · client nonce .internal "the channel was not saved") fun s =>
    let before := s.visibleIdsByClient
    let s := s.insertChannelMem channel
    let s := s.resyncVisibility before []
    (ack s client nonce, .done)

def createChannel (client : ClientId) (nonce : UInt64) (name : String) (parent : Option ChannelId)
    (topic : String) (kind : ChannelKind) (maxUsers : Option UInt16) (order : Int32) : Handler := fun s =>
  if !s.canGlobally client .manageChannels then
    (refuse s client nonce .notPermitted "you may not manage channels", .done) else
  match validateChannel s client nonce none name parent with
  | .error s => (s, .done)
  | .ok name =>
    if !s.store then (refuse s client nonce .internal "no database", .done) else
    (s, createChannelSave client nonce
      { id := s.nextChannelId, parent, name, topic, kind, maxUsers, order, overwrites := [] })

def updateChannelSave (client : ClientId) (nonce : UInt64) (channel : Channel) : Todo :=
  onSaved (.updateChannel channel) (refuse · client nonce .internal "the change was not saved") fun s =>
    let before := s.visibleIdsByClient
    let s := s.updateChannelMem channel
    let s := s.resyncVisibility before [channel.id]
    (ack s client nonce, .done)

def updateChannel (client : ClientId) (nonce : UInt64) (id : ChannelId) (parent : Option ChannelId)
    (name topic : String) (kind : ChannelKind) (maxUsers : Option UInt16) (order : Int32) : Handler := fun s =>
  if !s.canGlobally client .manageChannels then
    (refuse s client nonce .notPermitted "you may not manage channels", .done) else
  if !s.can client id .viewChannel then noSuchChannel s client nonce else
  match validateChannel s client nonce (some id) name parent with
  | .error s => (s, .done)
  | .ok name =>
    if !s.store then (refuse s client nonce .internal "no database", .done) else
    -- The memory half keeps the overwrites; the row never held them.
    (s, updateChannelSave client nonce { id, parent, name, topic, kind, maxUsers, order, overwrites := [] })

def announceEvicted (s : Shared) (id : ChannelId) (evicted : List UserInfo) : Shared :=
  evicted.foldl (fun s info =>
    let s := s.broadcast (.userMoved info.clientId (some id) none) none
    s.broadcast (.userUpdated info) none) s

def deleteChannelSave (client : ClientId) (nonce : UInt64) (id : ChannelId) : Todo :=
  onSaved (.deleteChannel id) (refuse · client nonce .internal "the deletion was not saved") fun s =>
    let before := s.visibleIdsByClient
    let (evicted, s) := s.removeChannelMem id
    let s := announceEvicted s id evicted
    let s := s.resyncVisibility before []
    (ack s client nonce, .done)

def deleteChannel (client : ClientId) (nonce : UInt64) (id : ChannelId) : Handler := fun s =>
  if !s.canGlobally client .manageChannels then
    (refuse s client nonce .notPermitted "you may not manage channels", .done) else
  if !s.can client id .viewChannel then noSuchChannel s client nonce else
  if !s.store then (refuse s client nonce .internal "no database", .done) else
  (s, deleteChannelSave client nonce id)

end PickleChat
