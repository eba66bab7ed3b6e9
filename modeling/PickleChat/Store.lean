import PickleChat.State

/-!
# Durable server state

The tables, the statements on them and how values are written to columns and
read back. A statement that breaks a primary key changes nothing and fails, and
so does the transaction around it. `ORDER BY` keeps the table's own order
between rows it does not tell apart.
-/

namespace PickleChat

def maxHistoryLimit : UInt16 := 200

/-! ## Columns -/

/-- `u64 as i64`. -/
def bigint (n : UInt64) : Int64 := n.toInt64

def Permissions.toColumn (p : Permissions) : Int64 := Int64.ofBitVec p.bits

def Permissions.ofColumn (n : Int64) : Permissions := ⟨n.toBitVec⟩

/-- `u16 as i64` and back. -/
def u16Column (n : UInt16) : Int64 := n.toUInt64.toInt64

def u16OfColumn (n : Int64) : UInt16 := n.toUInt64.toUInt16

structure MessageRow where
  id : Int64
  channel : Int64
  authorFingerprint : String
  authorNickname : String
  sentAtUnixMs : Int64
  editedAtUnixMs : Option Int64
  content : String
  replyTo : Option Int64

structure RoleRow where
  id : Int64
  name : String
  position : Int64
  color : Option Int64
  permissions : Int64

structure MemberRow where
  fingerprint : String
  roleId : Int64
  deriving DecidableEq

structure OverwriteRow where
  channel : Int64
  targetKind : Int64
  target : String
  allow : Int64
  deny : Int64

structure ChannelRow where
  id : Int64
  parent : Option Int64
  name : String
  topic : String
  kind : String
  maxUsers : Option Int64
  sortOrder : Int64

structure BanRow where
  fingerprint : String
  reason : String
  untilUnixMs : Option Int64
  issuedBy : String
  issuedAtUnixMs : Int64

def OverwriteRow.key (r : OverwriteRow) : Int64 × Int64 × String := (r.channel, r.targetKind, r.target)

structure Db where
  messages : Keyed.Table MessageRow Int64 MessageRow.id
  roles : Keyed.Table RoleRow Int64 RoleRow.id
  roleMembers : Keyed.Table MemberRow MemberRow id
  channelOverwrites : Keyed.Table OverwriteRow (Int64 × Int64 × String) OverwriteRow.key
  channels : Keyed.Table ChannelRow Int64 ChannelRow.id
  bans : Keyed.Table BanRow String BanRow.fingerprint

def Db.empty : Db := ⟨.empty, .empty, .empty, .empty, .empty, .empty⟩

/-! ## Values to rows and back -/

def messageRow (m : ChatMessage) : MessageRow :=
  { id := bigint m.id, channel := Word.toColumn m.channel, authorFingerprint := m.authorFingerprint.toText,
    authorNickname := m.authorNickname, sentAtUnixMs := bigint m.sentAtUnixMs,
    editedAtUnixMs := m.editedAtUnixMs.map bigint, content := m.content, replyTo := m.replyTo.map bigint }

def rowToMessage (r : MessageRow) : Option ChatMessage :=
  (Fingerprint.parse r.authorFingerprint).map fun f =>
    -- The connection that sent it is long gone.
    { id := r.id.toUInt64, channel := Word.ofColumn r.channel, author := none, authorFingerprint := f,
      authorNickname := r.authorNickname, sentAtUnixMs := r.sentAtUnixMs.toUInt64,
      editedAtUnixMs := r.editedAtUnixMs.map Int64.toUInt64, content := r.content,
      replyTo := r.replyTo.map Int64.toUInt64 }

def roleRow (r : Role) : RoleRow :=
  { id := Word.toColumn r.id, name := r.name, position := Word.toColumn r.position,
    color := r.color.map Word.toColumn, permissions := r.permissions.toColumn }

def rowToRole (r : RoleRow) : Role :=
  { id := Word.ofColumn r.id, name := r.name, color := r.color.map Word.ofColumn,
    position := Word.ofColumn r.position, permissions := .ofColumn r.permissions }

def memberRow (f : Fingerprint) (role : RoleId) : MemberRow := ⟨f.toText, Word.toColumn role⟩

/-- The storage key of an overwrite target: kind column and target column. -/
def overwriteKey : OverwriteTarget → Int64 × String
  | .role id => (0, Text.decimal id)
  | .member f => (1, f.toText)

def targetOfKey (kind : Int64) (raw : String) : Option OverwriteTarget :=
  if kind = 0 then (Text.parseU32 raw).map .role
  else if kind = 1 then (Fingerprint.parse raw).map .member
  else none

def overwriteRow (channel : ChannelId) (o : Overwrite) : OverwriteRow :=
  { channel := Word.toColumn channel, targetKind := (overwriteKey o.target).1, target := (overwriteKey o.target).2,
    allow := o.allow.toColumn, deny := o.deny.toColumn }

def rowToOverwrite (r : OverwriteRow) : Option (ChannelId × Overwrite) :=
  (targetOfKey r.targetKind r.target).map fun target =>
    (Word.ofColumn r.channel, { target, allow := .ofColumn r.allow, deny := .ofColumn r.deny })

def kindStr : ChannelKind → String
  | .voice => "voice"
  | .text => "text"
  | .voiceAndText => "voice_and_text"

/-- The unknown case reads as the most permissive kind. -/
def kindFromStr (raw : String) : ChannelKind :=
  if raw = "voice" then .voice else if raw = "text" then .text else .voiceAndText

def channelRow (c : Channel) : ChannelRow :=
  { id := Word.toColumn c.id, parent := c.parent.map Word.toColumn, name := c.name, topic := c.topic,
    kind := kindStr c.kind, maxUsers := c.maxUsers.map u16Column, sortOrder := c.order.toInt64 }

def rowToChannel (r : ChannelRow) : Channel :=
  { id := Word.ofColumn r.id, parent := r.parent.map Word.ofColumn, name := r.name, topic := r.topic,
    kind := kindFromStr r.kind, maxUsers := r.maxUsers.map u16OfColumn, order := r.sortOrder.toInt32,
    overwrites := [] }

def banRow (b : BanEntry) : BanRow :=
  { fingerprint := b.fingerprint.toText, reason := b.reason, untilUnixMs := b.untilUnixMs.map bigint,
    issuedBy := b.issuedBy.toText, issuedAtUnixMs := bigint b.issuedAtUnixMs }

def rowToBan (r : BanRow) : Option BanEntry :=
  match Fingerprint.parse r.fingerprint, Fingerprint.parse r.issuedBy with
  | some fingerprint, some issuedBy => some
      { fingerprint, reason := r.reason, untilUnixMs := r.untilUnixMs.map Int64.toUInt64, issuedBy,
        issuedAtUnixMs := r.issuedAtUnixMs.toUInt64 }
  | _, _ => none

/-! ## The statements -/

namespace Db

def highestMessageId (db : Db) : Option MessageId :=
  (db.messages.rows.map MessageRow.id).max?.map Int64.toUInt64

def insertMessage (db : Db) (m : ChatMessage) : Option Db :=
  (db.messages.insert (messageRow m)).map fun t => { db with messages := t }

/-- A page of history, oldest first, and whether it reaches the start. -/
def history (db : Db) (channel : ChannelId) (before : Option MessageId) (limit : UInt16) :
    Option (List ChatMessage × Bool) :=
  -- `limit.clamp(1, MAX_HISTORY_LIMIT)`, and one row more as a probe.
  let limit := if limit < 1 then 1 else if maxHistoryLimit < limit then maxHistoryLimit.toNat else limit.toNat
  let older (r : MessageRow) : Bool := match before with
    | some before => r.id < bigint before
    | none => true
  let found := db.messages.rows.filter fun r => r.channel = Word.toColumn channel ∧ older r = true
  let rows := (found.insertionSort fun a b => b.id ≤ a.id).take (limit + 1)
  ((rows.take limit).mapM rowToMessage).map fun messages => (messages.reverse, rows.length ≤ limit)

/-- Delete messages older than the cutoff; how many went. -/
def pruneBefore (db : Db) (cutoff : UInt64) : Nat × Db :=
  let t := db.messages.delete fun r => r.sentAtUnixMs < bigint cutoff
  (db.messages.rows.length - t.rows.length, { db with messages := t })

/-- One channel of `prune_to_limit`: the row after those to keep, and all before it, go. -/
def pruneChannel (keep : UInt32) (acc : Nat × Db) (channel : Int64) : Nat × Db :=
  let newest := (acc.2.messages.rows.filter fun r => r.channel = channel).insertionSort fun a b => b.id ≤ a.id
  match newest[keep.toNat]? with
  | none => acc
  | some cutoff =>
    let t := acc.2.messages.delete fun r => r.channel = channel ∧ r.id ≤ cutoff.id
    (acc.1 + (acc.2.messages.rows.length - t.rows.length), { acc.2 with messages := t })

/-- Keep the newest messages of each channel; how many went. -/
def pruneToLimit (db : Db) (keep : UInt32) : Nat × Db :=
  (db.messages.rows.map MessageRow.channel).dedup.foldl (pruneChannel keep) (0, db)

def loadRoles (db : Db) : List Role :=
  (db.roles.rows.insertionSort fun a b => a.position ≤ b.position).map rowToRole

def insertRole (db : Db) (r : Role) : Option Db :=
  (db.roles.insert (roleRow r)).map fun t => { db with roles := t }

def updateRole (db : Db) (r : Role) : Db :=
  let set (old : RoleRow) : RoleRow :=
    { old with name := r.name, color := r.color.map Word.toColumn, permissions := r.permissions.toColumn }
  { db with roles := db.roles.update (Word.toColumn r.id) set fun _ => rfl }

/-- Remove a role, its grants and its overwrites. -/
def deleteRole (db : Db) (role : RoleId) : Db :=
  { db with
    roleMembers := db.roleMembers.delete fun r => r.roleId = Word.toColumn role
    channelOverwrites := db.channelOverwrites.delete fun r => r.targetKind = 0 ∧ r.target = Text.decimal role
    roles := db.roles.delete fun r => r.id = Word.toColumn role }

/-- One statement of `set_role_positions`. -/
def placeRole (t : Keyed.Table RoleRow Int64 RoleRow.id) (p : RoleId × UInt32) :
    Keyed.Table RoleRow Int64 RoleRow.id :=
  t.update (Word.toColumn p.1) (fun old => { old with position := Word.toColumn p.2 }) fun _ => rfl

def setRolePositions (db : Db) (positions : List (RoleId × UInt32)) : Db :=
  { db with roles := positions.foldl placeRole db.roles }

/-- Replace a member's grants; a role named twice breaks the key. -/
def replaceMemberRoles (db : Db) (f : Fingerprint) (roles : List RoleId) : Option Db :=
  let cleared := db.roleMembers.delete fun r => r.fingerprint = f.toText
  (roles.foldlM (fun (t : Keyed.Table MemberRow MemberRow id) role => t.insert (memberRow f role)) cleared).map
    fun t => { db with roleMembers := t }

def upsertOverwrite (db : Db) (channel : ChannelId) (o : Overwrite) : Db :=
  let set (old : OverwriteRow) : OverwriteRow := { old with allow := o.allow.toColumn, deny := o.deny.toColumn }
  { db with channelOverwrites := db.channelOverwrites.upsert (overwriteRow channel o) set fun _ => rfl }

def deleteOverwrite (db : Db) (channel : ChannelId) (target : OverwriteTarget) : Db :=
  { db with channelOverwrites := db.channelOverwrites.delete fun r =>
      r.channel = Word.toColumn channel ∧ r.targetKind = (overwriteKey target).1 ∧
        r.target = (overwriteKey target).2 }

/-- Unreadable grants are skipped. -/
def loadRoleMembers (db : Db) : List (Fingerprint × RoleId) :=
  db.roleMembers.rows.filterMap fun r =>
    (Fingerprint.parse r.fingerprint).map fun f => (f, Word.ofColumn r.roleId)

/-- Unreadable overwrites are skipped. -/
def loadOverwrites (db : Db) : List (ChannelId × Overwrite) := db.channelOverwrites.rows.filterMap rowToOverwrite

def loadChannels (db : Db) : List Channel :=
  (db.channels.rows.insertionSort fun a b =>
    a.sortOrder < b.sortOrder ∨ (a.sortOrder = b.sortOrder ∧ a.id ≤ b.id)).map rowToChannel

def insertChannel (db : Db) (c : Channel) : Option Db :=
  (db.channels.insert (channelRow c)).map fun t => { db with channels := t }

def updateChannel (db : Db) (c : Channel) : Db :=
  let set (old : ChannelRow) : ChannelRow := { channelRow c with id := old.id }
  { db with channels := db.channels.update (Word.toColumn c.id) set fun _ => rfl }

/-- Remove a channel and its overwrites. Its messages stay. -/
def deleteChannel (db : Db) (channel : ChannelId) : Db :=
  { db with
    channelOverwrites := db.channelOverwrites.delete fun r => r.channel = Word.toColumn channel
    channels := db.channels.delete fun r => r.id = Word.toColumn channel }

/-- A re-ban replaces the row of the fingerprint. -/
def insertBan (db : Db) (b : BanEntry) : Db :=
  let set (old : BanRow) : BanRow := { banRow b with fingerprint := old.fingerprint }
  { db with bans := db.bans.upsert (banRow b) set fun _ => rfl }

def deleteBan (db : Db) (f : Fingerprint) : Db :=
  { db with bans := db.bans.delete fun r => r.fingerprint = f.toText }

def listBans (db : Db) : Option (List BanEntry) :=
  (db.bans.rows.insertionSort fun a b => b.issuedAtUnixMs ≤ a.issuedAtUnixMs).mapM rowToBan

/-- The outer `none`: the row is unreadable. Expiry is compared on read. -/
def activeBan (db : Db) (f : Fingerprint) (now : UInt64) : Option (Option BanEntry) :=
  match Keyed.get BanRow.fingerprint f.toText db.bans.rows with
  | none => some none
  | some row => (rowToBan row).map fun ban =>
    match ban.untilUnixMs with
    | some til => if til ≤ now then none else some ban
    | none => some ban

end Db

/-! ## What handlers await -/

inductive StoreWrite where
  | insertMessage (m : ChatMessage)
  | insertRole (r : Role)
  | updateRole (r : Role)
  | deleteRole (role : RoleId)
  | setRolePositions (positions : List (RoleId × UInt32))
  | replaceMemberRoles (f : Fingerprint) (roles : List RoleId)
  | upsertOverwrite (channel : ChannelId) (o : Overwrite)
  | deleteOverwrite (channel : ChannelId) (target : OverwriteTarget)
  | insertChannel (c : Channel)
  | updateChannel (c : Channel)
  | deleteChannel (channel : ChannelId)
  | insertBan (b : BanEntry)
  | deleteBan (f : Fingerprint)

inductive StoreRead where
  | history (channel : ChannelId) (before : Option MessageId) (limit : UInt16)
  | listBans
  | activeBan (f : Fingerprint) (now : UInt64)

@[reducible] def StoreRead.Answer : StoreRead → Type
  | .history .. => List ChatMessage × Bool
  | .listBans => List BanEntry
  | .activeBan .. => Option BanEntry

/-- The tables after a write; `none` when it breaks a key. -/
def StoreWrite.perform : StoreWrite → Db → Option Db
  | .insertMessage m, db => db.insertMessage m
  | .insertRole r, db => db.insertRole r
  | .updateRole r, db => some (db.updateRole r)
  | .deleteRole role, db => some (db.deleteRole role)
  | .setRolePositions positions, db => some (db.setRolePositions positions)
  | .replaceMemberRoles f roles, db => db.replaceMemberRoles f roles
  | .upsertOverwrite channel o, db => some (db.upsertOverwrite channel o)
  | .deleteOverwrite channel target, db => some (db.deleteOverwrite channel target)
  | .insertChannel c, db => db.insertChannel c
  | .updateChannel c, db => some (db.updateChannel c)
  | .deleteChannel channel, db => some (db.deleteChannel channel)
  | .insertBan b, db => some (db.insertBan b)
  | .deleteBan f, db => some (db.deleteBan f)

def StoreRead.perform : (call : StoreRead) → Db → Option call.Answer
  | .history channel before limit, db => db.history channel before limit
  | .listBans, db => db.listBans
  | .activeBan f now, db => db.activeBan f now

/-- An operation a handler waits for: a store call, the pause before a
transport is closed, or a frame written to the handshake's own stream. At a
`yield` it waits for nothing but has let go of the state's lock. -/
inductive Await where
  | save (call : StoreWrite)
  | load (call : StoreRead)
  | sleep
  | yield
  | write (frame : ServerControl)

/-- `false` and `none` are failures. -/
@[reducible] def Await.Reply : Await → Type
  | .save _ | .write _ => Bool
  | .load call => Option call.Answer
  | .sleep | .yield => Unit

/-- The database, and what handshakes wrote to their streams. -/
structure World where
  db : Db
  wire : List ServerControl

def World.empty : World := ⟨.empty, []⟩

/-- What an operation does when nothing fails. -/
def Await.perform : (op : Await) → World → op.Reply × World
  | .save call, w =>
    match call.perform w.db with
    | some db => (true, { w with db })
    | none => (false, w)
  | .load call, w => (call.perform w.db, w)
  | .sleep, w => ((), w)
  | .yield, w => ((), w)
  | .write frame, w => (true, { w with wire := w.wire ++ [frame] })

/-- No store call fails. Whoever is at the other end of a handshake may be gone. -/
inductive Performs : (op : Await) → World → op.Reply → World → Prop
  | save {call : StoreWrite} {w : World} {db : Db} : call.perform w.db = some db →
      Performs (.save call) w true { w with db }
  | load {call : StoreRead} {w : World} {r : call.Answer} : call.perform w.db = some r →
      Performs (.load call) w (some r) w
  | sleep {w : World} : Performs .sleep w () w
  | yield {w : World} : Performs .yield w () w
  | write {frame : ServerControl} {w : World} :
      Performs (.write frame) w true { w with wire := w.wire ++ [frame] }
  | vanished {frame : ServerControl} {w : World} : Performs (.write frame) w false w

/-- What a failed operation answers. -/
def Await.failure : (op : Await) → op.Reply
  | .save _ => false
  | .load _ => none
  | .sleep => ()
  | .yield => ()
  | .write _ => false

/-- Any operation may fail, and changes nothing then. -/
def MayFail (op : Await) (w : World) (r : op.Reply) (w' : World) : Prop :=
  Performs op w r w' ∨ (r = op.failure ∧ w' = w)

/-- A server whose operations fail now and then. -/
def Faulty (perform : (op : Await) → World → op.Reply × World) : Prop :=
  ∀ op w, perform op w = op.perform w ∨ perform op w = (op.failure, w)

theorem Await.faulty : Faulty Await.perform := fun _ _ => .inl rfl

theorem Await.perform_save (call : StoreWrite) (w : World) :
    Await.perform (.save call) w =
      match call.perform w.db with
      | some db => (true, { w with db })
      | none => (false, w) := rfl

theorem Await.perform_saved {call : StoreWrite} {w : World} {db : Db} (h : call.perform w.db = some db) :
    Await.perform (.save call) w = (true, { w with db }) := by
  rw [Await.perform_save, h]

theorem Await.perform_rejected {call : StoreWrite} {w : World} (h : call.perform w.db = none) :
    Await.perform (.save call) w = (false, w) := by
  rw [Await.perform_save, h]

theorem Faulty.save {perform : (op : Await) → World → op.Reply × World} (h : Faulty perform) (call : StoreWrite)
    (w : World) :
    (∃ db, call.perform w.db = some db ∧ perform (.save call) w = (true, { w with db })) ∨
      perform (.save call) w = (false, w) := by
  rcases h (.save call) w with h | h
  · rw [Await.perform_save] at h
    cases hc : call.perform w.db with
    | none => rw [hc] at h; exact .inr h
    | some db => rw [hc] at h; exact .inl ⟨db, rfl, h⟩
  · exact .inr h

section
variable {perform : (op : Await) → World → op.Reply × World} (h : Faulty perform) {call : StoreWrite} {w : World}
include h

/-- A write that answers `true` is saved. -/
theorem Faulty.saved {db : Db} (hdb : call.perform w.db = some db) (ht : (perform (.save call) w).1 = true) :
    (perform (.save call) w).2 = { w with db } := by
  rcases h.save call w with ⟨db', hdb', hp⟩ | hp
  · rw [hp, Option.some.inj (hdb.symm.trans hdb')]
  · rw [hp] at ht
    cases ht

theorem Faulty.rejected (ht : (perform (.save call) w).1 = false) : (perform (.save call) w).2 = w := by
  rcases h.save call w with ⟨db, -, hp⟩ | hp
  · rw [hp] at ht
    cases ht
  · rw [hp]

end

end PickleChat
