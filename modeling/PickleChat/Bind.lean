import PickleChat.Store

/-!
# Start-up

`Server::bind`: the tables are read into memory, and seeded when they are
empty.
-/

namespace PickleChat

/-- An overwrite rides on its channel; one without a channel is dropped. -/
def attachOverwrite (channels : List Channel) (entry : ChannelId × Overwrite) : List Channel :=
  Keyed.modifyFirst Channel.id entry.1 (fun c => { c with overwrites := c.overwrites ++ [entry.2] }) channels

/-- Grants by fingerprint; nobody has an empty entry. -/
def gatherGrants (grants : List (Fingerprint × RoleId)) (f : Fingerprint) : Option (List RoleId) :=
  match grants.filterMap fun g => if g.1 = f then some g.2 else none with
  | [] => none
  | roles => some roles

/-- The channels of the table, seeded from the config when there are none. -/
def loadOrSeedChannels (config : ServerConfig) (db : Db) : Option (List Channel × Db) :=
  if db.loadChannels = [] then
    ((buildChannels config).foldlM Db.insertChannel db).map fun db => (buildChannels config, db)
  else some (db.loadChannels, db)

def loadOrSeedRoles (db : Db) : Option (List Role × Db) :=
  if db.loadRoles = [] then (defaultRoles.foldlM Db.insertRole db).map fun db => (defaultRoles, db)
  else some (db.loadRoles, db)

/-- `Server::bind`, from the opened database on; `none` when it does not start. -/
def Server.bind (config : ServerConfig) (now : UInt64) (db : Db) : Option (Shared × Db) :=
  let highest := db.highestMessageId
  match loadOrSeedChannels config db with
  | none => none
  | some (channels, db) =>
    match loadOrSeedRoles db with
    | none => none
    | some (roles, db) =>
      let channels := db.loadOverwrites.foldl attachOverwrite channels
      let perms : PermState := { roles, members := gatherGrants db.loadRoleMembers }
      let s := Shared.new config channels perms true now
      match highest with
      | some highest => some (s.resumeMessageIdsAfter highest, db)
      | none => some (s, db)

end PickleChat
