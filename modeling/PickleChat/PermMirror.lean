import PickleChat.Tabs

/-!
# The permission mirror

`perms.rs` of the desktop app: what the client core hands over, folded into what
the rules of the server are read from, and resolved by these same rules.
-/

namespace PickleChat

structure MemberStanding where
  fingerprint : Fingerprint
  roles : List RoleId
  owner : Bool
  deriving DecidableEq

/-- `PermMirror`, but for the fingerprint that only the permission matrix reads. -/
structure PermMirror where
  fingerprint : Fingerprint
  owner : Bool
  roles : List Role
  myRoles : List RoleId
  channels : List Channel
  users : List (ClientId × MemberStanding)
  deriving DecidableEq

def editablePermissions : List (String × Permissions) :=
  [("administrator", .administrator), ("manageServer", .manageServer), ("manageRoles", .manageRoles),
    ("manageChannels", .manageChannels), ("kickMembers", .kickMembers), ("banMembers", .banMembers),
    ("viewChannel", .viewChannel), ("sendMessages", .sendMessages), ("readHistory", .readHistory),
    ("manageMessages", .manageMessages), ("connect", .connect), ("speak", .speak), ("muteMembers", .muteMembers),
    ("moveMembers", .moveMembers)]

def permissionNames (bits : Permissions) : List String :=
  (editablePermissions.filter fun p => bits.contains p.2).map Prod.fst

/-- `#{c:06x}` -/
def colorText (c : UInt32) : String :=
  let digits := Nat.toDigits 16 c.toNat
  String.ofList ('#' :: (List.replicate (6 - digits.length) '0' ++ digits))

def roleDto (role : Role) : RoleDto :=
  { id := role.id, name := role.name, color := role.color.map colorText, position := role.position,
    permissions := permissionNames role.permissions, isEveryone := role.id = everyoneRoleId }

/-- Which actions to offer against a member, and why none. -/
structure ModerationOptionsDto where
  canKick : Bool
  canBan : Bool
  canMute : Bool
  canMove : Bool
  reason : Option String
  deriving DecidableEq

def ModerationOptionsDto.none (reason : String) : ModerationOptionsDto :=
  { canKick := false, canBan := false, canMute := false, canMove := false, reason := some reason }

namespace PermMirror

def standing (u : UserInfo) : ClientId × MemberStanding := (u.clientId, ⟨u.fingerprint, u.roles, u.owner⟩)

def fromSession (fingerprint : Fingerprint) (info : SessionInfo) : PermMirror :=
  let me := info.users.find? fun u => u.clientId = info.clientId
  { fingerprint, owner := (me.map UserInfo.owner).getD false, myRoles := (me.map UserInfo.roles).getD [],
    roles := info.roles, channels := info.channels.foldl (fun m c => Keyed.putSorted Channel.id c m) [],
    users := info.users.foldl (fun m u => Keyed.put Prod.fst (standing u) m) [] }

/-- The first half of the result: what one may do could have changed. -/
def apply (p : PermMirror) : ClientEvent → Bool × PermMirror
  | .channelCreated channel | .channelUpdated channel =>
    (true, { p with channels := Keyed.putSorted Channel.id channel p.channels })
  | .channelRemoved id => (true, { p with channels := Keyed.erase Channel.id id p.channels })
  | .roleCreated role | .roleUpdated role =>
    (true, { p with roles := sortByPosition (Keyed.erase Role.id role.id p.roles ++ [role]) })
  | .roleDeleted id =>
    (true, { p with roles := Keyed.erase Role.id id p.roles, myRoles := p.myRoles.filter (· ≠ id) })
  | .rolesReordered positions =>
    let roles := positions.foldl (fun l q => Keyed.modifyFirst Role.id q.1
      (fun r => { r with position := q.2 }) l) p.roles
    (true, { p with roles := sortByPosition roles })
  | .userJoined user | .userUpdated user =>
    let p := { p with users := Keyed.put Prod.fst (standing user) p.users }
    if user.fingerprint = p.fingerprint then
      (user.roles ≠ p.myRoles || user.owner ≠ p.owner, { p with myRoles := user.roles, owner := user.owner })
    else (false, p)
  | .userLeft client _ => (false, { p with users := Keyed.erase Prod.fst client p.users })
  | _ => (false, p)

def myPermissions (p : PermMirror) : MyPermissionsDto :=
  let base := resolve p.roles p.myRoles p.fingerprint p.owner none
  let standing := [Permissions.manageServer, .manageRoles, .manageChannels, .kickMembers, .banMembers, .muteMembers,
    .moveMembers].any base.contains
  { isOwner := p.owner, isAdmin := base.contains .administrator, canOpenAdmin := p.owner || standing,
    channels := p.channels.map fun channel =>
      let bits := resolve p.roles p.myRoles p.fingerprint p.owner (some channel.overwrites)
      (channel.id,
        { send := bits.contains .sendMessages, readHistory := bits.contains .readHistory,
          connect := bits.contains .connect, speak := bits.contains .speak }) }

/-- Senior first. -/
def rolesDto (p : PermMirror) : List RoleDto :=
  (p.roles.map roleDto).insertionSort fun a b => b.position ≤ a.position

def moderationOptions (p : PermMirror) (target : ClientId) : ModerationOptionsDto :=
  match Keyed.get Prod.fst target p.users with
  | none => .none "They are no longer connected."
  | some (_, them) =>
    if them.fingerprint = p.fingerprint then .none "That would be you." else
    if !canActOn p.roles p.myRoles p.owner them.roles them.owner then
      .none (if them.owner then "They own this server." else "Their highest role is not below yours.") else
    let base := resolve p.roles p.myRoles p.fingerprint p.owner none
    let options : ModerationOptionsDto :=
      { canKick := base.contains .kickMembers, canBan := base.contains .banMembers,
        canMute := base.contains .muteMembers, canMove := base.contains .moveMembers, reason := none }
    if !(options.canKick || options.canBan || options.canMute || options.canMove) then
      .none "You have no moderation permissions here."
    else options

def touchesRoles : ClientEvent → Bool
  | .roleCreated _ | .roleUpdated _ | .roleDeleted _ | .rolesReordered _ => true
  | _ => false

end PermMirror

end PickleChat
