import PickleChat.Admin

/-!
# Moderation commands

Authority over other members: the permission bit, then hierarchy, then the
effect. `ban` is told apart into its critical sections, since who a ban keeps
out depends on their order.
-/

namespace PickleChat

/-- Await nothing, the lock let go. -/
def onYield (k : Handler) : Todo := .wait .yield fun _ s => k s

def onSleep (k : Handler) : Todo := .wait .sleep fun _ s => k s

/-- The bit, the target's existence and hierarchy; or the state after the refusal. -/
def authorizeAgainstOnline (s : Shared) (actor : ClientId) (nonce : UInt64) (bit : Permissions)
    (target : ClientId) : Except Shared Fingerprint :=
  if !s.canGlobally actor bit then .error (refuse s actor nonce .notPermitted "you may not do that") else
  match s.fingerprintOf target with
  | none => .error (refuse s actor nonce .malformed "no such client")
  | some fingerprint =>
    if !s.actorOutranks actor fingerprint then
      .error (refuse s actor nonce .notPermitted "their highest role is not below yours") else
    .ok fingerprint

/-- Eject, wait for the frame to flush, go on. -/
def ejectAndClose (victim : ClientId) (reason : DisconnectReason) (k : Handler) : Handler := fun s =>
  match s.eject victim reason with
  | (none, _) => k s
  | (some _, s) => (s, onSleep k)

def kick (actor : ClientId) (nonce : UInt64) (target : ClientId) : Handler := fun s =>
  match authorizeAgainstOnline s actor nonce .kickMembers target with
  | .error s => (s, .done)
  | .ok _ => ejectAndClose target .kicked (fun s => (ack s actor nonce, .done)) s

def ejectVictims (actor : ClientId) (nonce : UInt64) : List ClientId → Handler
  | [] => fun s => (ack s actor nonce, .done)
  | victim :: victims => fun s =>
    (s, onYield (ejectAndClose victim .banned (ejectVictims actor nonce victims)))

def sessionsOf (s : Shared) (f : Fingerprint) : List ClientId :=
  (s.users.filter fun u => u.fingerprint = f).map UserInfo.clientId

def banSave (actor : ClientId) (nonce : UInt64) (entry : BanEntry) : Todo :=
  onSaved (.insertBan entry) (refuse · actor nonce .internal "the ban was not saved") fun s =>
    ejectVictims actor nonce (sessionsOf s entry.fingerprint) s

def ban (actor : ClientId) (nonce : UInt64) (f : Fingerprint) (reason : String) (untilUnixMs : Option UInt64) :
    Handler := fun s =>
  if !s.canGlobally actor .banMembers then (refuse s actor nonce .notPermitted "you may not do that", .done) else
  (s, onYield fun s =>
    if some f = s.fingerprintOf actor then (refuse s actor nonce .notPermitted "you cannot ban yourself", .done) else
    (s, onYield fun s =>
      if !s.actorOutranks actor f then
        (refuse s actor nonce .notPermitted "their highest role is not below yours", .done) else
      if !s.store then (refuse s actor nonce .internal "no database", .done) else
      (s, onYield fun s =>
        (s, banSave actor nonce
          { fingerprint := f, reason, untilUnixMs, issuedBy := (s.fingerprintOf actor).getD f,
            issuedAtUnixMs := s.nowUnixMs }))))

def unban (actor : ClientId) (nonce : UInt64) (f : Fingerprint) : Handler := fun s =>
  if !s.canGlobally actor .banMembers then (refuse s actor nonce .notPermitted "you may not do that", .done) else
  if !s.store then (refuse s actor nonce .internal "no database", .done) else
  (s, onSaved (.deleteBan f) (refuse · actor nonce .internal "the unban was not saved") fun s =>
    (ack s actor nonce, .done))

def listBans (actor : ClientId) (nonce : UInt64) : Handler := fun s =>
  if !s.canGlobally actor .banMembers then (refuse s actor nonce .notPermitted "you may not do that", .done) else
  if !s.store then (refuse s actor nonce .internal "no database", .done) else
  (s, onLoad .listBans fun (r : Option (List BanEntry)) s =>
    match r with
    | some bans => (s.send actor (.banList bans), .done)
    | none => (refuse s actor nonce .internal "could not read the ban list", .done))

def setServerMute (actor : ClientId) (nonce : UInt64) (target : ClientId) (muted : Bool) : Handler := fun s =>
  match authorizeAgainstOnline s actor nonce .muteMembers target with
  | .error s => (s, .done)
  | .ok _ =>
    match s.setServerMuted target muted with
    | none => (refuse s actor nonce .malformed "no such client", .done)
    | some (info, s) => (ack (s.broadcast (.userUpdated info) none) actor nonce, .done)

def moveMember (actor : ClientId) (nonce : UInt64) (target : ClientId) (dest : Option ChannelId) : Handler := fun s =>
  match authorizeAgainstOnline s actor nonce .moveMembers target with
  | .error s => (s, .done)
  | .ok _ =>
    -- The mover's own view and entry decide; the target's are bypassed.
    if dest.any fun channel => !s.can actor channel .viewChannel then noSuchChannel s actor nonce else
    if dest.any fun channel => !s.can actor channel .connect then
      (refuse s actor nonce .notPermitted "you cannot enter that channel yourself", .done) else
    match s.forceMove target dest with
    | .ok (source, s) => (ack (s.broadcast (.userMoved target source dest) none) actor nonce, .done)
    | .error code => (refuse s actor nonce code "could not move them", .done)

end PickleChat
