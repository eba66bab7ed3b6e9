import PickleChat.Serve

/-!
# Commands and handshakes at the grain of their locks

Handlers do not hold a lock from one end to the other: they let go of the
permission lock before they take the client lock, and of either before the next
call. Here a command is the list of its critical sections, and any number of
commands and handshakes take turns section by section.
-/

namespace PickleChat

open Async (Run)

/-- What a command carries from one section to the next. -/
structure Desk where
  seen : PermState
  before : List (ClientId × List ChannelId)
  after : List (ClientId × List ChannelId)
  touched : List ChannelId
  infos : List UserInfo

inductive Section where
  /-- `visible_ids_by_client`: the permission lock, then the client lock. -/
  | snapshot
  | capture
  /-- A write that ends the command when it fails. -/
  | save (call : StoreWrite) (detail : String)
  /-- A write whose failure is only logged. -/
  | write (call : StoreWrite)
  | swap (next : PermState)
  | stripOverwrites (role : RoleId)
  | updateLive (f : Fingerprint) (roles : List RoleId)
  | stripLive (role : RoleId)
  | setOverwrite (channel : ChannelId) (o : Overwrite)
  | removeOverwrite (channel : ChannelId) (target : OverwriteTarget)
  | insertChannel (c : Channel)
  | updateChannel (c : Channel)
  | removeChannel (id : ChannelId)
  | tell (m : ServerControl)
  /-- One broadcast for each member noted on the desk. -/
  | announce
  | announceEvicted (id : ChannelId)
  /-- `visible_ids_by_client` again, its second half. -/
  | recapture
  /-- The channels are read, and the frames of each client known. -/
  | diff
  | post (client : ClientId) (m : ServerControl)

namespace Shared

/-- What each client sees under a snapshot taken earlier. -/
def idsUnder (s : Shared) (p : PermState) : List (ClientId × List ChannelId) := (s.swapPermState p).visibleIdsByClient

end Shared

def Desk.posts (d : Desk) (s : Shared) (b : ClientId × List ChannelId) : List Section :=
  match Keyed.get Prod.fst b.1 d.after with
  | none => []
  | some now => (s.resyncFrames d.touched b.2 now.2).map (.post b.1)

/-- What a section does to the state and to the desk, and the sections it adds. -/
def Section.run (d : Desk) (s : Shared) : Section → Shared × Desk × List Section
  | snapshot => (s, { d with seen := s.perms }, [])
  | capture => (s, { d with before := s.idsUnder d.seen, touched := [] }, [])
  | save _ _ => (s, d, [])
  | write _ => (s, d, [])
  | swap next => (s.swapPermState next, d, [])
  | stripOverwrites role =>
    let (touched, s) := s.stripRoleOverwrites role
    (s, { d with touched }, [])
  | updateLive f roles =>
    let (infos, s) := s.updateLiveMemberRoles f roles
    (s, { d with infos }, [])
  | stripLive role =>
    let (infos, s) := s.stripLiveRole role
    (s, { d with infos }, [])
  | setOverwrite channel o => (s.setChannelOverwrite channel o, { d with touched := [channel] }, [])
  | removeOverwrite channel target => (s.removeChannelOverwrite channel target, { d with touched := [channel] }, [])
  | insertChannel c => (s.insertChannelMem c, d, [])
  | updateChannel c => (s.updateChannelMem c, { d with touched := [c.id] }, [])
  | removeChannel id =>
    let (infos, s) := s.removeChannelMem id
    (s, { d with infos }, [])
  | tell m => (s.broadcast m none, d, [])
  | announce => (s, d, d.infos.map fun info => tell (.userUpdated info))
  | announceEvicted id =>
    (s, d, d.infos.flatMap fun info => [tell (.userMoved info.clientId (some id) none), tell (.userUpdated info)])
  | recapture => (s, { d with after := s.idsUnder d.seen }, [])
  | diff => (s, d, d.before.flatMap (d.posts s))
  | post client m => (s.send client m, d, [])

def Section.frame : Section → Bool
  | tell _ | post _ _ => true
  | _ => false

theorem run_more (x : Section) (d : Desk) (s : Shared) : ∀ y ∈ (x.run d s).2.2, y.frame = true := by
  intro y hy
  cases x with
  | announce =>
    obtain ⟨_, -, rfl⟩ := List.mem_map.mp hy
    rfl
  | announceEvicted id =>
    obtain ⟨info, -, hy⟩ := List.mem_flatMap.mp hy
    rcases List.mem_cons.mp hy with rfl | hy
    · rfl
    · obtain rfl := List.mem_singleton.mp hy
      rfl
  | diff =>
    obtain ⟨b, -, hy⟩ := List.mem_flatMap.mp hy
    unfold Desk.posts at hy
    split at hy
    · cases hy
    · obtain ⟨_, -, rfl⟩ := List.mem_map.mp hy
      rfl
  | _ => cases hy

theorem run_frame {x : Section} (hx : x.frame = true) (d : Desk) (s : Shared) :
    (x.run d s).2.1 = d ∧ (x.run d s).2.2 = [] := by
  cases x <;> first | exact ⟨rfl, rfl⟩ | cases hx

/-- A command past its checks. -/
inductive Order where
  | createRole (role : Role)
  | updateRole (updated : Role)
  | deleteRole (id : RoleId)
  | reorderRoles (positions : List (RoleId × UInt32))
  | setMemberRoles (f : Fingerprint) (roles : List RoleId)
  | setOverwrite (channel : ChannelId) (o : Overwrite)
  | removeOverwrite (channel : ChannelId) (target : OverwriteTarget)
  | createChannel (c : Channel)
  | updateChannel (c : Channel)
  | deleteChannel (id : ChannelId)

namespace Order

def captures : List Section := [.snapshot, .capture]

def resyncs : List Section := [.snapshot, .recapture, .diff]

/-- What is left to do, from the snapshot the checks read. -/
def sections (client : ClientId) (nonce : UInt64) (p : PermState) : Order → List Section
  | createRole role =>
    [.save (.setRolePositions (shiftedPositions p.roles)) "the role was not saved",
      .save (.insertRole role) "the role was not saved", .swap (createdPerms p role), .tell (.roleCreated role),
      .tell (.rolesReordered (ordering (createdPerms p role).roles)), .post client (.ack nonce)]
  | updateRole updated =>
    captures ++ [.save (.updateRole updated) "the change was not saved", .swap (updatedPerms p updated),
      .tell (.roleUpdated updated)] ++ resyncs ++ [.post client (.ack nonce)]
  | deleteRole id =>
    captures ++ [.save (.deleteRole id) "the deletion was not saved",
      .write (.setRolePositions (ordering (deletedPerms p id).roles)), .swap (deletedPerms p id),
      .stripOverwrites id, .stripLive id, .tell (.roleDeleted id),
      .tell (.rolesReordered (ordering (deletedPerms p id).roles)), .announce] ++ resyncs ++ [.post client (.ack nonce)]
  | reorderRoles positions =>
    [.save (.setRolePositions positions) "the reorder was not saved", .swap (reorderedPerms p positions),
      .tell (.rolesReordered positions), .post client (.ack nonce)]
  | setMemberRoles f roles =>
    captures ++ [.save (.replaceMemberRoles f roles) "the change was not saved", .swap (grantedPerms p f roles),
      .updateLive f roles, .announce] ++ resyncs ++ [.post client (.ack nonce)]
  | setOverwrite channel o =>
    captures ++ [.save (.upsertOverwrite channel o) "the change was not saved", .setOverwrite channel o] ++ resyncs ++
      [.post client (.ack nonce)]
  | removeOverwrite channel target =>
    captures ++ [.save (.deleteOverwrite channel target) "the change was not saved", .removeOverwrite channel target] ++
      resyncs ++ [.post client (.ack nonce)]
  | createChannel c =>
    .save (.insertChannel c) "the channel was not saved" :: captures ++ [.insertChannel c] ++ resyncs ++
      [.post client (.ack nonce)]
  | updateChannel c =>
    .save (.updateChannel c) "the change was not saved" :: captures ++ [.updateChannel c] ++ resyncs ++
      [.post client (.ack nonce)]
  | deleteChannel id =>
    .save (.deleteChannel id) "the deletion was not saved" :: captures ++ [.removeChannel id, .announceEvicted id] ++
      resyncs ++ [.post client (.ack nonce)]

/-- The same command as a handler's task, which is left to itself between its awaits. -/
def todo (client : ClientId) (nonce : UInt64) (p : PermState) (before : List (ClientId × List ChannelId)) :
    Order → Todo
  | createRole role => createRoleSave client nonce p role
  | updateRole updated => updateRoleSave client nonce p before updated
  | deleteRole id => deleteRoleSave client nonce p before id
  | reorderRoles positions => reorderRolesSave client nonce p positions
  | setMemberRoles f roles => setMemberRolesSave client nonce p before f roles
  | setOverwrite channel o => setChannelOverwriteSave client nonce before channel o
  | removeOverwrite channel target => deleteChannelOverwriteSave client nonce before channel target
  | createChannel c => createChannelSave client nonce c
  | updateChannel c => updateChannelSave client nonce c
  | deleteChannel id => deleteChannelSave client nonce id

end Order

/-! ## Alone -/

def Desk.empty (p : PermState) : Desk := ⟨p, [], [], [], []⟩

/-- Sections one after the other, nobody else in between. -/
def alone : List Section → Desk → Shared → Shared
  | [], _, s => s
  | x :: rest, d, s => alone rest (x.run d s).2.1
      ((x.run d s).2.2.foldl (fun t y => (y.run (x.run d s).2.1 t).1) (x.run d s).1)

theorem foldl_tell (d : Desk) (frames : List ServerControl) (s : Shared) :
    (frames.map Section.tell).foldl (fun t y => (y.run d t).1) s = s.deliver fun _ => frames := by
  induction frames generalizing s with
  | nil => exact s.deliver_nil.symm
  | cons m frames ih =>
    rw [List.map_cons, List.foldl_cons, ih]
    simp [Section.run, Shared.broadcast_none]

theorem foldl_post (d : Desk) (k : ClientId) (frames : List ServerControl) (s : Shared) :
    (frames.map (Section.post k)).foldl (fun t y => (y.run d t).1) s = s.sendAll k frames := by
  induction frames generalizing s with
  | nil => simp [Shared.sendAll_eq]
  | cons m frames ih =>
    rw [List.map_cons, List.foldl_cons, ih]
    simp only [Section.run, Shared.send_eq, Shared.sendAll_eq, Shared.deliver_deliver]
    congr 1
    funext i
    split <;> rfl

theorem get_visibleIdsByClient (s : Shared) (k : ClientId) :
    Keyed.get Prod.fst k s.visibleIdsByClient = (s.client? k).map fun e => (e.id, s.visibleIds e.info) :=
  Keyed.get_map (fun _ => rfl) k s.clients

/-- The frames a resync posts, all at once, are those of `resync_visibility`. -/
theorem foldl_posts {d : Desk} {s : Shared} (hafter : d.after = s.visibleIdsByClient) :
    (d.before.flatMap (d.posts s)).foldl (fun t y => (y.run d t).1) s = s.resyncVisibility d.before d.touched := by
  have h : ∀ (before : List (ClientId × List ChannelId)) (t : Shared),
      (before.flatMap (d.posts s)).foldl (fun t y => (y.run d t).1) t = before.foldl (s.resyncClient d.touched) t := by
    intro before
    induction before with
    | nil => intro t; rfl
    | cons b before ih =>
      intro t
      rw [List.flatMap_cons, List.foldl_append, ih, List.foldl_cons]
      congr 1
      unfold Desk.posts Shared.resyncClient
      rw [hafter, get_visibleIdsByClient]
      cases s.client? b.1 with
      | none => rfl
      | some e => exact foldl_post ..
  exact h d.before s

theorem alone_resyncs (k : ClientId) (m : ServerControl) (d : Desk) (s : Shared) :
    alone (Order.resyncs ++ [.post k m]) d s = (s.resyncVisibility d.before d.touched).send k m :=
  congrArg (Shared.send · k m) (foldl_posts (d := ⟨s.perms, d.before, s.visibleIdsByClient, d.touched, d.infos⟩) rfl)

theorem alone_announce (rest : List Section) (d : Desk) (s : Shared) :
    alone (.announce :: rest) d s = alone rest d (announceUsers s d.infos) := by
  have h : (d.infos.map fun info => Section.tell (.userUpdated info)) = (d.infos.map .userUpdated).map .tell := by
    simp
  rw [alone, announceUsers_eq, ← foldl_tell d, ← h]
  rfl

theorem alone_announceEvicted (id : ChannelId) (rest : List Section) (d : Desk) (s : Shared) :
    alone (.announceEvicted id :: rest) d s = alone rest d (announceEvicted s id d.infos) := by
  have h : (d.infos.flatMap fun info => [Section.tell (.userMoved info.clientId (some id) none),
        .tell (.userUpdated info)]) =
      (d.infos.flatMap fun info => [ServerControl.userMoved info.clientId (some id) none,
        .userUpdated info]).map .tell := by
    simp [List.map_flatMap]
  rw [alone, announceEvicted_eq, ← foldl_tell d, ← h]
  rfl

theorem Order.alone_sections {perform : (op : Await) → World → op.Reply × World}
    (hsaved : ∀ call w, (perform (.save call) w).1 = true) (o : Order) (client : ClientId) (nonce : UInt64) (s : Shared)
    (w : World) (d : Desk) :
    alone (o.sections client nonce s.perms) d s =
      ((o.todo client nonce s.perms s.visibleIdsByClient).run perform s w).1 := by
  obtain ⟨seen, before, after, touched, infos⟩ := d
  cases o with
  | createRole role =>
    simp only [todo, createRoleSave, run_onSaved, hsaved]
    rfl
  | updateRole updated =>
    simp only [todo, updateRoleSave, run_onSaved, hsaved]
    exact alone_resyncs client (.ack nonce) ⟨s.perms, s.visibleIdsByClient, after, [], infos⟩
      ((s.swapPermState (updatedPerms s.perms updated)).broadcast (.roleUpdated updated) none)
  | deleteRole id =>
    simp only [todo, deleteRoleSave, run_onSaved, run_onWritten, hsaved]
    exact (alone_announce (resyncs ++ [.post client (.ack nonce)]) ⟨s.perms, s.visibleIdsByClient, after, _, _⟩ _).trans
      (alone_resyncs client (.ack nonce) ..)
  | reorderRoles positions =>
    simp only [todo, reorderRolesSave, run_onSaved, hsaved]
    rfl
  | setMemberRoles f roles =>
    simp only [todo, setMemberRolesSave, run_onSaved, hsaved]
    exact (alone_announce (resyncs ++ [.post client (.ack nonce)]) ⟨s.perms, s.visibleIdsByClient, after, _, _⟩ _).trans
      (alone_resyncs client (.ack nonce) ..)
  | setOverwrite channel o =>
    simp only [todo, setChannelOverwriteSave, run_onSaved, hsaved]
    exact alone_resyncs client (.ack nonce) ⟨s.perms, s.visibleIdsByClient, after, [channel], infos⟩
      (s.setChannelOverwrite channel o)
  | removeOverwrite channel target =>
    simp only [todo, deleteChannelOverwriteSave, run_onSaved, hsaved]
    exact alone_resyncs client (.ack nonce) ⟨s.perms, s.visibleIdsByClient, after, [channel], infos⟩
      (s.removeChannelOverwrite channel target)
  | createChannel c =>
    simp only [todo, createChannelSave, run_onSaved, hsaved]
    exact alone_resyncs client (.ack nonce) ⟨s.perms, s.visibleIdsByClient, after, [], infos⟩ (s.insertChannelMem c)
  | updateChannel c =>
    simp only [todo, updateChannelSave, run_onSaved, hsaved]
    exact alone_resyncs client (.ack nonce) ⟨s.perms, s.visibleIdsByClient, after, [c.id], infos⟩ (s.updateChannelMem c)
  | deleteChannel id =>
    simp only [todo, deleteChannelSave, run_onSaved, hsaved]
    exact (alone_announceEvicted id (resyncs ++ [.post client (.ack nonce)])
      ⟨s.perms, s.visibleIdsByClient, after, [], _⟩ _).trans (alone_resyncs client (.ack nonce) ..)

section
variable {perform : (op : Await) → World → op.Reply × World} (hsaved : ∀ call w, (perform (.save call) w).1 = true)
  {s : Shared} {client : ClientId} {nonce : UInt64}
include hsaved

theorem Passes.alone {a : Actor} {cmd : RoleCommand} {next : PermState} {save : Todo}
    (h : Passes s client nonce a cmd next save) (w : World) :
    ∃ o : Order, (save.run perform s w).1 = alone (o.sections client nonce s.perms) (.empty s.perms) s := by
  have horder : ∃ o : Order, save = o.todo client nonce s.perms s.visibleIdsByClient := by
    cases h with
    | create => exact ⟨.createRole _, rfl⟩
    | update => exact ⟨.updateRole _, rfl⟩
    | delete => exact ⟨.deleteRole _, rfl⟩
    | reorder => exact ⟨.reorderRoles _, rfl⟩
    | grant => exact ⟨.setMemberRoles _ _, rfl⟩
  obtain ⟨o, rfl⟩ := horder
  exact ⟨o, (o.alone_sections hsaved client nonce s w (.empty s.perms)).symm⟩

theorem ChannelPasses.alone {cmd : ChannelCommand} {c : Change} (h : ChannelPasses s client nonce cmd c)
    (detail : String) (w : World) :
    ∃ o : Order, ((c.save client nonce detail).run perform s w).1 =
      alone (o.sections client nonce s.perms) (.empty s.perms) s := by
  have horder : ∃ (o : Order) (detail' : String),
      c.save client nonce detail' = o.todo client nonce s.perms s.visibleIdsByClient := by
    cases h with
    | setOverwrite => exact ⟨.setOverwrite _ _, _, (setChannelOverwriteSave_eq ..).symm⟩
    | deleteOverwrite => exact ⟨.removeOverwrite _ _, _, (deleteChannelOverwriteSave_eq ..).symm⟩
    | create => exact ⟨.createChannel _, _, (createChannelSave_eq ..).symm⟩
    | update => exact ⟨.updateChannel _, _, (updateChannelSave_eq ..).symm⟩
    | delete => exact ⟨.deleteChannel _, _, (deleteChannelSave_eq ..).symm⟩
  obtain ⟨o, detail', ho⟩ := horder
  refine ⟨o, ?_⟩
  rw [o.alone_sections hsaved client nonce s w (.empty s.perms), ← ho]
  simp only [Change.run_save, hsaved]
  rfl

end

/-! ## In turns -/

/-- Where a connection or a command stands. -/
inductive Job where
  /-- `admit` has read the grants and not yet taken the client lock. -/
  | admitting (identity : PublicIdentity) (nickname : String) (roles : List RoleId)
  | admitted (info : UserInfo)
  /-- `visible_channels` has read the snapshot and not yet taken the client lock. -/
  | looking (info : UserInfo) (seen : PermState)
  /-- The channels of its `AuthOk` are known. -/
  | greeting (info : UserInfo) (channels : List Channel)
  | connected (info : UserInfo) (channels : List Channel)
  | working (client : ClientId) (nonce : UInt64) (snapshot : PermState) (d : Desk) (rest : List Section)

structure Floor where
  shared : Shared
  jobs : Nat → Option Job

def Floor.set (p : Floor) (i : Nat) (j : Option Job) (s : Shared) : Floor :=
  ⟨s, fun k => if k = i then j else p.jobs k⟩

def ServerControl.aboutChannels : ServerControl → Bool
  | .channelCreated _ | .channelUpdated _ | .channelRemoved _ => true
  | _ => false

/-- The sections of everything else: frames that are not about channel lists, a
client gone, one entry edited in what is not its standing, voice, ids, time. -/
inductive Elsewhere (s : Shared) : Shared → Prop
  | told (f : UserInfo → List ServerControl) (hf : ∀ i, ∀ m ∈ f i, m.aboutChannels = false) : Elsewhere s (s.deliver f)
  | removed (k : ClientId) : Elsewhere s (s.remove k).2
  | edited (k : ClientId) (f : UserInfo → UserInfo) (hf : ∀ i, SameStanding i (f i)) : Elsewhere s (s.modifyInfo k f)
  | voiced (k : ClientId) (packet : VoiceUpstream) : Elsewhere s (s.relayVoice k packet)
  | numbered : Elsewhere s s.nextMessageIdBump.2
  | ticked (now : UInt64) : Elsewhere s { s with nowUnixMs := now }

/-- The entry `admit` makes from the grants it read. -/
def Shared.newcomer (s : Shared) (identity : PublicIdentity) (nickname : String) (roles : List RoleId) : UserInfo :=
  { clientId := s.nextClientId, identity, nickname, channel := none, voice := {}, connectedAtUnixMs := s.nowUnixMs,
    roles, owner := s.isOwner identity.fingerprint }

/-- The second lock of `admit`. -/
def Shared.insertNewcomer (s : Shared) (info : UserInfo) : Shared :=
  { s with
    nextClientId := idAfter s.nextClientId
    clients := Keyed.put ConnectedClient.id ⟨info, [], []⟩ s.clients }

inductive Turn where
  | knock (i : Nat) (identity : PublicIdentity) (nickname : String)
  | insert (i : Nat)
  | turnAway (i : Nat)
  | seePerms (i : Nat)
  | look (i : Nat)
  | greet (i : Nat)
  /-- The connection of a handshake or of a session is over; its slot is given back. -/
  | leave (i : Nat)
  | begin (i : Nat) (client : ClientId) (nonce : UInt64) (o : Order)
  | advance (i : Nat)
  /-- The store call at the head of a command fails. -/
  | fail (i : Nat)
  | elsewhere

def Job.info? : Job → Option UserInfo
  | admitted info | looking info _ | greeting info _ | connected info _ => some info
  | _ => none

inductive Floor.Step (p : Floor) : Turn → Floor → Prop
  | knock {i : Nat} (identity : PublicIdentity) {nickname clean : String} : p.jobs i = none →
      p.shared.config.minSecurityLevel ≤ identity.securityLevel →
      Shared.sanitizeNickname nickname p.shared.limits.maxNicknameLen.toNat = some clean →
      Step p (.knock i identity nickname)
        (p.set i (some (.admitting identity clean (p.shared.memberRoles identity.fingerprint))) p.shared)
  | insert {i : Nat} {identity : PublicIdentity} {nickname : String} {roles : List RoleId} :
      p.jobs i = some (.admitting identity nickname roles) →
      p.shared.clients.length < p.shared.config.maxUsers.toNat →
      Step p (.insert i) (p.set i (some (.admitted (p.shared.newcomer identity nickname roles)))
        (p.shared.insertNewcomer (p.shared.newcomer identity nickname roles)))
  | turnAway {i : Nat} {identity : PublicIdentity} {nickname : String} {roles : List RoleId} :
      p.jobs i = some (.admitting identity nickname roles) →
      p.shared.config.maxUsers.toNat ≤ p.shared.clients.length →
      Step p (.turnAway i) (p.set i none p.shared)
  | seePerms {i : Nat} {info : UserInfo} : p.jobs i = some (.admitted info) →
      Step p (.seePerms i) (p.set i (some (.looking info p.shared.perms)) p.shared)
  | look {i : Nat} {info : UserInfo} {seen : PermState} : p.jobs i = some (.looking info seen) →
      Step p (.look i)
        (p.set i (some (.greeting info ((p.shared.swapPermState seen).visibleChannels info))) p.shared)
  | greet {i : Nat} {info : UserInfo} {channels : List Channel} : p.jobs i = some (.greeting info channels) →
      Step p (.greet i) (p.set i (some (.connected info channels))
        (p.shared.broadcast (.userJoined info) (some info.clientId)))
  | leave {i : Nat} {j : Job} {info : UserInfo} : p.jobs i = some j → j.info? = some info →
      Step p (.leave i) (p.set i none (p.shared.remove info.clientId).2)
  | begin {i : Nat} (client : ClientId) (nonce : UInt64) (o : Order) : p.jobs i = none →
      Step p (.begin i client nonce o)
        (p.set i (some (.working client nonce p.shared.perms (.empty p.shared.perms)
          (o.sections client nonce p.shared.perms))) p.shared)
  | advance {i : Nat} {client : ClientId} {nonce : UInt64} {snapshot : PermState} {d : Desk} {x : Section}
      {rest : List Section} : p.jobs i = some (.working client nonce snapshot d (x :: rest)) →
      Step p (.advance i) (p.set i (some (.working client nonce snapshot (x.run d p.shared).2.1
        ((x.run d p.shared).2.2 ++ rest))) (x.run d p.shared).1)
  | fail {i : Nat} {client : ClientId} {nonce : UInt64} {snapshot : PermState} {d : Desk} {call : StoreWrite}
      {detail : String} {rest : List Section} :
      p.jobs i = some (.working client nonce snapshot d (.save call detail :: rest)) →
      Step p (.fail i) (p.set i none (refuse p.shared client nonce .internal detail))
  | elsewhere {s : Shared} : Elsewhere p.shared s → Step p .elsewhere ⟨s, p.jobs⟩

/-- The two locks of `admit`, one right after the other. -/
theorem admitUser_sections {s t : Shared} {identity : PublicIdentity} {nickname : String} {info : UserInfo}
    (h : s.admitUser identity nickname = .ok (info, t)) :
    ∃ clean, info = s.newcomer identity clean (s.memberRoles identity.fingerprint) ∧ t = s.insertNewcomer info := by
  unfold Shared.admitUser at h
  split at h; · cases h
  split at h; · cases h
  split at h; · cases h
  cases h
  exact ⟨_, rfl, rfl⟩

/-- A command that is through, or a connection past its handshake. -/
def Job.settled : Job → Prop
  | connected _ _ => True
  | working _ _ _ _ rest => rest = []
  | _ => False

section
variable {p : Floor} {i k : Nat} {j : Job} {s : Shared}

@[simp] theorem Floor.set_shared (j : Option Job) : (p.set i j s).shared = s := rfl

theorem Floor.set_some {j : Option Job} {j' : Job} (h : (p.set i j s).jobs k = some j') :
    (k = i ∧ j = some j') ∨ (k ≠ i ∧ p.jobs k = some j') := by
  unfold Floor.set at h
  by_cases hk : k = i
  · exact .inl ⟨hk, by simpa [hk] using h⟩
  · exact .inr ⟨hk, by simpa [hk] using h⟩

theorem Floor.set_self (j : Option Job) : (p.set i j s).jobs i = j := if_pos rfl

theorem Floor.set_ne (h : k ≠ i) (j : Option Job) : (p.set i j s).jobs k = p.jobs k := if_neg h

theorem Floor.set_set (j j' : Option Job) (t : Shared) : (p.set i j s).set i j' t = p.set i j' t := by
  unfold Floor.set
  congr 1
  funext k
  by_cases hk : k = i <;> simp [hk]

theorem Floor.set_same {j : Option Job} (hi : p.jobs i = j) : p.set i j p.shared = p := by
  unfold Floor.set
  cases p
  congr 1
  funext k
  by_cases hk : k = i
  · simp [hk, ← hi]
  · simp [hk]

theorem Floor.run_admitting {identity : PublicIdentity} {nickname : String} {roles : List RoleId}
    (hi : p.jobs i = some (.admitting identity nickname roles))
    (hroom : p.shared.clients.length < p.shared.config.maxUsers.toNat) :
    Run Floor.Step (fun _ _ => True) p
      (p.set i (some (.connected (p.shared.newcomer identity nickname roles)
          ((p.shared.insertNewcomer (p.shared.newcomer identity nickname roles)).visibleChannels
            (p.shared.newcomer identity nickname roles))))
        ((p.shared.insertNewcomer (p.shared.newcomer identity nickname roles)).broadcast
          (.userJoined (p.shared.newcomer identity nickname roles)) (some p.shared.nextClientId))) := by
  have hinsert := Run.step (.insert i) (.refl : Run Floor.Step (fun _ _ => True) p p) trivial (.insert hi hroom)
  have hgreet := Run.step (.greet i) (Run.step (.look i) (Run.step (.seePerms i) hinsert trivial
    (.seePerms (Floor.set_self _))) trivial (.look (Floor.set_self _))) trivial (.greet (Floor.set_self _))
  simp only [Floor.set_set] at hgreet
  exact hgreet

section
variable {client : ClientId} {nonce : UInt64} {snapshot : PermState} {d : Desk} {rest : List Section}
  {ok : Floor → Turn → Prop} {I : Desk → List Section → Prop} {q : Floor}
  (hok : ∀ (p : Floor) d x rest, (∀ k, k ≠ i → p.jobs k = q.jobs k) →
    p.jobs i = some (.working client nonce snapshot d (x :: rest)) → I d (x :: rest) →
    ok p (.advance i) ∧ ∀ s, I (x.run d s).2.1 ((x.run d s).2.2 ++ rest))
include hok

theorem Floor.run_frames {more : List Section} (hmore : ∀ y ∈ more, y.frame = true)
    (hq : ∀ k, k ≠ i → p.jobs k = q.jobs k) (hi : p.jobs i = some (.working client nonce snapshot d (more ++ rest)))
    (hI : I d (more ++ rest)) :
    I d rest ∧ Run Floor.Step ok p (p.set i (some (.working client nonce snapshot d rest))
      (more.foldl (fun t y => (y.run d t).1) p.shared)) := by
  induction more generalizing p with
  | nil => exact ⟨hI, (Floor.set_same hi).symm ▸ .refl⟩
  | cons y more ih =>
    obtain ⟨hd, hm⟩ := run_frame (hmore y (List.mem_cons_self ..)) d p.shared
    obtain ⟨hadvance, hnext⟩ := hok p d y (more ++ rest) hq hi hI
    have hI' := hnext p.shared
    have hstep := Run.step (.advance i) (.refl : Run Floor.Step ok p p) hadvance (.advance hi)
    rw [hd, hm, List.nil_append] at hstep hI'
    obtain ⟨hend, hrest⟩ := ih (fun z hz => hmore z (List.mem_cons_of_mem _ hz))
      (fun k hk => (Floor.set_ne hk _).trans (hq k hk)) (Floor.set_self (p := p) (s := (y.run d p.shared).1) _) hI'
    rw [Floor.set_set] at hrest
    exact ⟨hend, hstep.trans hrest⟩

/-- A command goes on to its end with nobody else in between. -/
theorem Floor.run_through (hq : ∀ k, k ≠ i → p.jobs k = q.jobs k)
    (hi : p.jobs i = some (.working client nonce snapshot d rest)) (hI : I d rest) :
    ∃ d', Run Floor.Step ok p (p.set i (some (.working client nonce snapshot d' [])) (alone rest d p.shared)) := by
  induction rest generalizing p d with
  | nil => exact ⟨d, (Floor.set_same hi).symm ▸ .refl⟩
  | cons x rest ih =>
    obtain ⟨hadvance, hnext⟩ := hok p d x rest hq hi hI
    have hstep := Run.step (.advance i) (.refl : Run Floor.Step ok p p) hadvance (.advance hi)
    have hself : ∀ k, k ≠ i → (p.set i (some (.working client nonce snapshot (x.run d p.shared).2.1
        ((x.run d p.shared).2.2 ++ rest))) (x.run d p.shared).1).jobs k = q.jobs k :=
      fun k hk => (Floor.set_ne hk _).trans (hq k hk)
    obtain ⟨hI', hframes⟩ := Floor.run_frames hok (run_more x d p.shared) hself (Floor.set_self _) (hnext p.shared)
    rw [Floor.set_set] at hframes
    obtain ⟨d', hrest⟩ := ih (p := p.set i (some (.working client nonce snapshot (x.run d p.shared).2.1 rest))
      ((x.run d p.shared).2.2.foldl (fun t y => (y.run (x.run d p.shared).2.1 t).1) (x.run d p.shared).1))
      (fun k hk => (Floor.set_ne hk _).trans (hq k hk)) (Floor.set_self _) hI'
    rw [Floor.set_set] at hrest
    exact ⟨d', (hstep.trans hframes).trans hrest⟩

omit hok in
theorem Floor.run_alone (hi : p.jobs i = some (.working client nonce snapshot d rest)) :
    ∃ d', Run Floor.Step (fun _ _ => True) p
      (p.set i (some (.working client nonce snapshot d' [])) (alone rest d p.shared)) :=
  Floor.run_through (I := fun _ _ => True) (q := p) (fun _ _ _ _ _ _ _ => ⟨trivial, fun _ => trivial⟩)
    (fun _ _ => rfl) hi trivial

end

end

end PickleChat
