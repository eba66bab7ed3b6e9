import PickleChat.ChannelCommands
import PickleChat.Roster

/-!
# The server as a state machine

Everything that reaches the server, handled one input after another. Apart
from role and channel commands, no input touches roles, grants, channels or
overwrites, in memory or in the tables.
-/

namespace PickleChat

open Async (exec)

inductive Input where
  | connect (auth : ClientAuth)
  | control (client : ClientId) (frame : ClientControl)
  | voice (client : ClientId) (packet : VoiceUpstream)
  | disconnect (client : ClientId)
  | tick (now : UInt64)

def Input.handler : Input → Handler
  | connect auth => handshake auth
  | control client frame => handleControl client frame
  | voice client packet => fun s => (s.relayVoice client packet, .done)
  | disconnect client => fun s => (PickleChat.disconnect s client, .done)
  | tick now => fun s => ({ s with nowUnixMs := now }, .done)

def serve (perform : (op : Await) → World → op.Reply × World) (i : Input) (s : Shared) (w : World) : Shared × World :=
  exec perform i.handler s w

section
variable (perform : (op : Await) → World → op.Reply × World) (client : ClientId) (nonce : UInt64)

theorem serve_role (cmd : RoleCommand) :
    serve perform (.control client (cmd.frame nonce)) = exec perform (cmd.handle client nonce) := by
  rw [← cmd.handle_eq]; rfl

theorem serve_channel (cmd : ChannelCommand) :
    serve perform (.control client (cmd.frame nonce)) = exec perform (cmd.handle client nonce) := by
  rw [← cmd.handle_eq]; rfl

end

/-! ## What sessions leave alone -/

structure SameRooms (s s' : Shared) : Prop where
  config : s'.config = s.config
  perms : s'.perms = s.perms
  owner : s'.owner = s.owner
  store : s'.store = s.store
  channels : s'.channels = s.channels

theorem SameRooms.refl (s : Shared) : SameRooms s s := ⟨rfl, rfl, rfl, rfl, rfl⟩

theorem SameRooms.trans {s t u : Shared} (h : SameRooms s t) (h' : SameRooms t u) : SameRooms s u :=
  ⟨h'.config.trans h.config, h'.perms.trans h.perms, h'.owner.trans h.owner, h'.store.trans h.store,
    h'.channels.trans h.channels⟩

theorem Refused.rooms {s s' : Shared} {client : ClientId} (h : Refused s client s') : SameRooms s s' := by
  rcases h with rfl | ⟨_, _, _, rfl⟩ <;> exact ⟨rfl, rfl, rfl, rfl, rfl⟩

section
variable (s : Shared)

theorem send_rooms (k : ClientId) (m : ServerControl) : SameRooms s (s.send k m) := ⟨rfl, rfl, rfl, rfl, rfl⟩

theorem broadcastFiltered_rooms (m : ServerControl) (channel : ChannelId) (except : Option ClientId) :
    SameRooms s (s.broadcastFiltered m channel except) := by
  rw [Shared.broadcastFiltered_eq]; exact ⟨rfl, rfl, rfl, rfl, rfl⟩

theorem postMessage_rooms (k : ClientId) (m : ChatMessage) (nonce : UInt64) : SameRooms s (postMessage s k m nonce) :=
  (send_rooms ..).trans (broadcastFiltered_rooms ..)

theorem relayVoice_rooms (k : ClientId) (packet : VoiceUpstream) : SameRooms s (s.relayVoice k packet) := by
  unfold Shared.relayVoice
  repeat' split
  all_goals exact ⟨rfl, rfl, rfl, rfl, rfl⟩

end

/-! ## What all inputs do to a session

Apart from role and channel commands, whatever reaches the server admits and
removes clients, edits what they show of themselves and queues frames. A
relation that all of these keep is kept by every such input.
-/

/-- An entry that is still the same member's. -/
structure SameStanding (i j : UserInfo) : Prop where
  clientId : j.clientId = i.clientId
  identity : j.identity = i.identity
  roles : j.roles = i.roles
  owner : j.owner = i.owner

theorem SameStanding.of_voice {i j : UserInfo} (h : { j with voice := i.voice } = i) : SameStanding i j := by
  have h1 := congrArg UserInfo.clientId h
  have h2 := congrArg UserInfo.identity h
  have h3 := congrArg UserInfo.roles h
  have h4 := congrArg UserInfo.owner h
  exact ⟨h1, h2, h3, h4⟩

theorem SameStanding.of_nickname {i j : UserInfo} (h : { j with nickname := i.nickname } = i) : SameStanding i j := by
  have h1 := congrArg UserInfo.clientId h
  have h2 := congrArg UserInfo.identity h
  have h3 := congrArg UserInfo.roles h
  have h4 := congrArg UserInfo.owner h
  exact ⟨h1, h2, h3, h4⟩

structure Tame (R : Shared → Shared → Prop) : Prop where
  refl : ∀ s, R s s
  trans : ∀ {s t u}, R s t → R t u → R s u
  delivered : ∀ s f, R s (s.deliver f)
  admitted : ∀ {s t identity nickname info}, s.admitUser identity nickname = .ok (info, t) → R s t
  removed : ∀ s k, R s (s.remove k).2
  edited : ∀ s k (f : UserInfo → UserInfo), (∀ i, SameStanding i (f i)) → R s (s.modifyInfo k f)
  voiced : ∀ s k packet, R s (s.relayVoice k packet)
  numbered : ∀ s, R s s.nextMessageIdBump.2
  ticked : ∀ (s : Shared) now, R s { s with nowUnixMs := now }

theorem SameRooms.tame : Tame SameRooms where
  refl := .refl
  trans := .trans
  delivered _ _ := ⟨rfl, rfl, rfl, rfl, rfl⟩
  admitted h := by
    obtain ⟨-, -, -, -, -, -, rfl⟩ := Shared.admitUser_ok h
    exact ⟨rfl, rfl, rfl, rfl, rfl⟩
  removed _ _ := ⟨rfl, rfl, rfl, rfl, rfl⟩
  edited _ _ _ _ := ⟨rfl, rfl, rfl, rfl, rfl⟩
  voiced := relayVoice_rooms
  numbered _ := ⟨rfl, rfl, rfl, rfl, rfl⟩
  ticked _ _ := ⟨rfl, rfl, rfl, rfl, rfl⟩

section
variable {R : Shared → Shared → Prop} (hR : Tame R) (s : Shared)
include hR

theorem Tame.send (k : ClientId) (m : ServerControl) : R s (s.send k m) := by
  rw [Shared.send_eq]; exact hR.delivered ..

theorem Tame.broadcast (m : ServerControl) (except : Option ClientId) : R s (s.broadcast m except) := by
  rw [Shared.broadcast_eq]; exact hR.delivered ..

theorem Tame.refused {s' : Shared} {client : ClientId} (h : Refused s client s') : R s s' := by
  rcases h with rfl | ⟨_, _, _, rfl⟩
  · exact hR.refl _
  · exact hR.send ..

end

/-! ## Tasks -/

section
variable {τ : Type} (R : Shared → Shared → Prop) (keep : Db → τ) (s₀ : Shared) (w₀ : World)

/-- The state is related to what it was, and so is the part of the tables that `keep` reads. -/
def Traced (s : Shared) (w : World) : Prop := R s₀ s ∧ keep w.db = keep w₀.db

/-- Nothing changed in the rooms, nor in the part of the tables that `keep` reads. -/
def Undisturbed (s : Shared) (w : World) : Prop := SameRooms s₀ s ∧ keep w.db = keep w₀.db

/-- The write leaves the kept tables alone. -/
def Spares (call : StoreWrite) : Prop := ∀ db db', call.perform db = some db' → keep db' = keep db

end

/-- What the frame says of who is there is so, and it says nothing of roles and channels. -/
def Shared.Bears (s : Shared) : ServerControl → Prop
  | .userJoined u | .userUpdated u => s.user u.clientId = some u
  | .userLeft k _ => s.user k = none
  | .roleCreated _ | .roleUpdated _ | .roleDeleted _ | .rolesReordered _ | .channelCreated _ | .channelUpdated _
  | .channelRemoved _ => False
  | _ => True

/-- An invariant that holds on while clients that are there come to leave, edit what
they show of themselves and are told what is so. -/
structure Gentle (I : Shared → World → Prop) : Prop where
  delivered : ∀ {s w} f, (∀ i, ∀ m ∈ f i, s.Bears m) → I s w → I (s.deliver f) w
  removed : ∀ {s w} k, I s w → I (s.remove k).2 w
  edited : ∀ {s w} k (f : UserInfo → UserInfo), (∀ i, SameStanding i (f i)) → I s w → I (s.modifyInfo k f) w
  voiced : ∀ {s w} k packet, I s w → I (s.relayVoice k packet) w
  numbered : ∀ {s w}, I s w → I s.nextMessageIdBump.2 w
  ticked : ∀ {s w} now, I s w → I { s with nowUnixMs := now } w

/-- The frame says something of who is there, of roles or of channels. -/
def ServerControl.tidings : ServerControl → Bool
  | .userJoined _ | .userLeft .. | .userMoved .. | .userUpdated _ | .roleCreated _ | .roleUpdated _ | .roleDeleted _
  | .rolesReordered _ | .channelCreated _ | .channelUpdated _ | .channelRemoved _ => true
  | _ => false

/-- An invariant that holds on while clients leave and edit what they show of themselves,
if those who stay are told at once. -/
structure Candid (I : Shared → World → Prop) : Prop where
  delivered : ∀ {s w} f, (∀ i, ∀ m ∈ f i, m.tidings = false) → I s w → I (s.deliver f) w
  left : ∀ {s w} k reason except, (∀ j, except = some j → j = k) → I s w →
    I ((s.remove k).2.broadcast (.userLeft k reason) except) w
  shown : ∀ {s w client info} {f : UserInfo → UserInfo}, (s.user client).map f = some info →
    (∀ i, SameStanding i (f i)) → I s w → I ((s.modifyInfo client f).broadcast (.userUpdated info) none) w
  moved : ∀ {s w} client source dest, I s w →
    I ((s.modifyInfo client fun i => { i with channel := dest }).broadcast (.userMoved client source dest) none) w
  voiced : ∀ {s w} k packet, I s w → I (s.relayVoice k packet) w
  numbered : ∀ {s w}, I s w → I s.nextMessageIdBump.2 w
  ticked : ∀ {s w} now, I s w → I { s with nowUnixMs := now } w

theorem Tame.gentle {τ : Type} {R : Shared → Shared → Prop} {keep : Db → τ} (hR : Tame R) (s₀ : Shared) (w₀ : World) :
    Gentle (Traced R keep s₀ w₀) where
  delivered _ _ h := ⟨hR.trans h.1 (hR.delivered ..), h.2⟩
  removed _ h := ⟨hR.trans h.1 (hR.removed ..), h.2⟩
  edited k f hf h := ⟨hR.trans h.1 (hR.edited _ k f hf), h.2⟩
  voiced _ _ h := ⟨hR.trans h.1 (hR.voiced ..), h.2⟩
  numbered h := ⟨hR.trans h.1 (hR.numbered _), h.2⟩
  ticked _ h := ⟨hR.trans h.1 (hR.ticked ..), h.2⟩

section
variable (I : Shared → World → Prop) (perform : (op : Await) → World → op.Reply × World)

/-- A handler whose every step keeps the invariant. -/
def Upholds (h : Handler) : Prop := ∀ s, (∀ w, I s w → I (h s).1 w) ∧ (h s).2.Keeps perform I

/-- The invariant does not see the write. -/
def Allows (call : StoreWrite) : Prop := ∀ s w db, call.perform w.db = some db → I s w → I s { w with db }

variable {I perform}

theorem Upholds.exec {h : Handler} (hh : Upholds I perform h) {s : Shared} {w : World} (hi : I s w) :
    I (exec perform h s w).1 (exec perform h s w).2 :=
  (hh s).2.run ((hh s).1 w hi)

theorem upholds_done {h : Shared → Shared} (hs : ∀ s w, I s w → I (h s) w) : Upholds I perform fun s => (h s, .done) :=
  fun s => ⟨hs s, trivial⟩

theorem Upholds.stays {s : Shared} {t : Todo} (h : t.Keeps perform I) : (∀ w, I s w → I s w) ∧ t.Keeps perform I :=
  ⟨fun _ => id, h⟩

theorem Upholds.ends {s t : Shared} (h : ∀ w, I s w → I t w) : (∀ w, I s w → I t w) ∧ (.done : Todo).Keeps perform I :=
  ⟨h, trivial⟩

theorem keeps_wait {op : Await} {k : op.Reply → Handler} (hop : ∀ s w, I s w → I s (perform op w).2)
    (hk : ∀ r, Upholds I perform (k r)) : (Async.Task.wait op k : Todo).Keeps perform I :=
  fun s w hi => ⟨(hk _ s).1 _ (hop s w hi), (hk _ s).2⟩

variable (hf : Faulty perform)
include hf

theorem keeps_wait_idle {op : Await} {k : op.Reply → Handler} (hop : ∀ w, (op.perform w).2 = w)
    (hk : ∀ r, Upholds I perform (k r)) : (Async.Task.wait op k : Todo).Keeps perform I := by
  refine keeps_wait (fun s w hi => ?_) hk
  have hw : (perform op w).2 = w := by
    rcases hf op w with h | h <;> rw [h]
    exact hop w
  rwa [hw]

theorem keeps_onYield {k : Handler} (hk : Upholds I perform k) : (onYield k).Keeps perform I :=
  keeps_wait_idle hf (fun _ => rfl) fun _ => hk

theorem keeps_onSleep {k : Handler} (hk : Upholds I perform k) : (onSleep k).Keeps perform I :=
  keeps_wait_idle hf (fun _ => rfl) fun _ => hk

theorem keeps_onLoad {call : StoreRead} {k : Option call.Answer → Handler} (hk : ∀ r, Upholds I perform (k r)) :
    (onLoad call k).Keeps perform I :=
  keeps_wait_idle hf (fun _ => rfl) hk

theorem keeps_onSaved {call : StoreWrite} {failed : Shared → Shared} {saved : Handler} (hc : Allows I call)
    (hfail : ∀ s w, I s w → I (failed s) w) (hk : Upholds I perform saved) :
    (onSaved call failed saved).Keeps perform I := by
  intro s w hi
  rcases hf.save call w with ⟨db, hdb, hp⟩ | hp
  · rw [hp]
    exact ⟨(hk s).1 _ (hc s w db hdb hi), (hk s).2⟩
  · rw [hp]
    exact ⟨hfail s w hi, trivial⟩

end

/-! ## Handshakes -/

section
variable {τ : Type} {R : Shared → Shared → Prop} {keep : Db → τ}
  {perform : (op : Await) → World → op.Reply × World} {s₀ : Shared} {w₀ : World} (hR : Tame R) (hf : Faulty perform)

theorem Spares.allows {call : StoreWrite} (h : Spares keep call) : Allows (Traced R keep s₀ w₀) call :=
  fun _ w db hdb hi => ⟨hi.1, (h w.db db hdb).trans hi.2⟩

include hf

theorem keeps_write {m : ServerControl} {k : Bool → Handler}
    (hk : ∀ r, Upholds (Traced R keep s₀ w₀) perform (k r)) :
    (Async.Task.wait (.write m) k : Todo).Keeps perform (Traced R keep s₀ w₀) := by
  refine keeps_wait (fun s w hi => ?_) hk
  have hdb : (perform (.write m) w).2.db = w.db := by rcases hf (.write m) w with h | h <;> rw [h]; rfl
  exact ⟨hi.1, by rw [hdb]; exact hi.2⟩

theorem reject_keeps (failure : AuthFailure) : (reject failure).Keeps perform (Traced R keep s₀ w₀) := by
  refine keeps_write hf fun ok s => ?_
  split
  · exact Upholds.stays (keeps_onSleep hf (upholds_done fun _ _ => id))
  · exact Upholds.stays trivial

include hR

theorem admitClient_upholds (auth : ClientAuth) : Upholds (Traced R keep s₀ w₀) perform (admitClient auth) := by
  intro s
  unfold admitClient
  split
  · exact Upholds.stays (reject_keeps hf _)
  · rename_i info t ht
    refine ⟨fun w hi => ⟨hR.trans hi.1 (hR.admitted ht), hi.2⟩, keeps_write hf fun ok s => ?_⟩
    split
    · exact Upholds.ends fun w hi => ⟨hR.trans hi.1 (hR.broadcast ..), hi.2⟩
    · exact Upholds.ends fun w hi => ⟨hR.trans hi.1 (hR.removed ..), hi.2⟩

theorem handshake_upholds (auth : ClientAuth) : Upholds (Traced R keep s₀ w₀) perform (handshake auth) := by
  intro s
  unfold handshake
  split
  · exact Upholds.stays (reject_keeps hf _)
  · split
    · exact admitClient_upholds hR hf auth s
    · refine Upholds.stays (keeps_onLoad hf fun r s => ?_)
      split
      · exact Upholds.stays (reject_keeps hf _)
      · exact admitClient_upholds hR hf auth s

end

/-! ## Moderation -/

section
variable {I : Shared → World → Prop} (hI : Gentle I) {s : Shared} {w : World}
include hI

theorem Gentle.broadcast {m : ServerControl} (hm : s.Bears m) (except : Option ClientId) (hi : I s w) :
    I (s.broadcast m except) w := by
  rw [Shared.broadcast_eq]
  refine hI.delivered _ (fun i m' hm' => ?_) hi
  split at hm'
  · cases hm'
  · rwa [List.mem_singleton.mp hm']

/-- A client that is gone is said to be gone. -/
theorem Gentle.left (k : ClientId) (reason : DisconnectReason) (except : Option ClientId) (hi : I s w) :
    I ((s.remove k).2.broadcast (.userLeft k reason) except) w := by
  refine hI.broadcast ?_ except (hI.removed k hi)
  have hnone : Keyed.get ConnectedClient.id k (Keyed.erase ConnectedClient.id k s.clients) = none := by
    rw [Keyed.get_erase, if_pos rfl]
  exact congrArg (Option.map ConnectedClient.info) hnone

/-- Whoever edits what they show of themselves, all are shown it. -/
theorem Gentle.shown {client : ClientId} {info : UserInfo} {f : UserInfo → UserInfo}
    (hinfo : (s.user client).map f = some info) (hf : ∀ i, SameStanding i (f i)) (hi : I s w) :
    I ((s.modifyInfo client f).broadcast (.userUpdated info) none) w := by
  refine hI.broadcast ?_ none (hI.edited client f hf hi)
  obtain ⟨i, hu, rfl⟩ := Option.map_eq_some_iff.mp hinfo
  obtain ⟨e, he, rfl⟩ := Option.map_eq_some_iff.mp hu
  have hid : (f e.info).clientId = client := (hf e.info).clientId.trans (Shared.client?_id he)
  have hmoved : (s.modifyInfo client f).client? client = some { e with info := f e.info } := by
    unfold Shared.client? Shared.modifyInfo
    rw [Keyed.get_modify (fun e => (hf e.info).clientId), if_pos rfl]
    exact congrArg (Option.map _) he
  have hshown : (s.modifyInfo client f).user (f e.info).clientId = some (f e.info) := by
    rw [hid, Shared.user, hmoved]
    rfl
  exact hshown

theorem Gentle.candid : Candid I where
  delivered f hf hi := by
    refine hI.delivered f (fun i m hm => ?_) hi
    have hquiet := hf i m hm
    cases m <;> trivial
  left k reason except _ hi := hI.left k reason except hi
  shown hinfo hf hi := hI.shown hinfo hf hi
  moved client source dest hi :=
    hI.broadcast (by trivial) none (hI.edited client _ (fun _ => ⟨rfl, rfl, rfl, rfl⟩) hi)
  voiced := hI.voiced
  numbered := hI.numbered
  ticked := hI.ticked

end

section
variable {I : Shared → World → Prop} (hI : Candid I) {s : Shared} {w : World}
include hI

theorem Candid.send (k : ClientId) {m : ServerControl} (hm : m.tidings = false) (hi : I s w) : I (s.send k m) w := by
  rw [Shared.send_eq]
  refine hI.delivered _ (fun i m' hm' => ?_) hi
  split at hm'
  · rwa [List.mem_singleton.mp hm']
  · cases hm'

theorem Candid.broadcastFiltered {m : ServerControl} (hm : m.tidings = false) (channel : ChannelId)
    (except : Option ClientId) (hi : I s w) : I (s.broadcastFiltered m channel except) w := by
  rw [Shared.broadcastFiltered_eq]
  refine hI.delivered _ (fun i m' hm' => ?_) hi
  split at hm'
  · rwa [List.mem_singleton.mp hm']
  · cases hm'

theorem Candid.refused {s' : Shared} {client : ClientId} (h : Refused s client s') (hi : I s w) : I s' w := by
  rcases h with rfl | ⟨_, _, _, rfl⟩
  · exact hi
  · exact hI.send _ rfl hi

omit hI in
theorem Gentle.refused (hI : Gentle I) {s' : Shared} {client : ClientId} (h : Refused s client s') (hi : I s w) :
    I s' w := hI.candid.refused h hi

theorem Candid.postMessage (k : ClientId) (m : ChatMessage) (nonce : UInt64) (hi : I s w) :
    I (postMessage s k m nonce) w :=
  hI.broadcastFiltered rfl _ _ (hI.send _ rfl hi)

theorem Candid.eject (victim : ClientId) (reason : DisconnectReason) (hi : I s w) : I (s.eject victim reason).2 w := by
  unfold Shared.eject
  split
  · exact hi
  · exact hI.left victim reason none (fun _ h => by cases h) hi

variable {perform : (op : Await) → World → op.Reply × World} (hf : Faulty perform)

omit hI in
theorem Upholds.refuses (hI : Candid I) (client : ClientId) (nonce : UInt64) (code : ErrorCode) (detail : String) :
    (∀ w, I s w → I (refuse s client nonce code detail) w) ∧ (.done : Todo).Keeps perform I :=
  Upholds.ends fun _ => hI.send _ rfl

include hf

theorem ejectAndClose_upholds (victim : ClientId) (reason : DisconnectReason) {k : Handler}
    (hk : Upholds I perform k) : Upholds I perform (ejectAndClose victim reason k) := by
  intro s
  have heject := fun w => hI.eject (s := s) (w := w) victim reason
  unfold ejectAndClose
  split
  · exact hk s
  · rename_i t he
    rw [he] at heject
    exact ⟨heject, keeps_onSleep hf hk⟩

theorem ejectVictims_upholds (client : ClientId) (nonce : UInt64) (victims : List ClientId) :
    Upholds I perform (ejectVictims client nonce victims) := by
  induction victims with
  | nil => exact upholds_done fun s w => hI.send _ rfl
  | cons victim victims ih =>
    intro s
    exact Upholds.stays (keeps_onYield hf (ejectAndClose_upholds hI hf victim .banned ih))

theorem ban_upholds (hban : ∀ b, Allows I (.insertBan b)) (client : ClientId) (nonce : UInt64) (f : Fingerprint)
    (reason : String) (til : Option UInt64) : Upholds I perform (ban client nonce f reason til) := by
  intro s
  unfold ban
  split; · exact Upholds.refuses hI ..
  refine Upholds.stays (keeps_onYield hf fun s => ?_)
  split; · exact Upholds.refuses hI ..
  refine Upholds.stays (keeps_onYield hf fun s => ?_)
  split; · exact Upholds.refuses hI ..
  split; · exact Upholds.refuses hI ..
  refine Upholds.stays (keeps_onYield hf fun s => Upholds.stays ?_)
  refine keeps_onSaved hf (hban _) (fun s w => hI.send _ rfl) fun s => ?_
  exact ejectVictims_upholds hI hf client nonce _ s

end

theorem authorize_error {s s' : Shared} {client target : ClientId} {nonce : UInt64} {bit : Permissions}
    (h : authorizeAgainstOnline s client nonce bit target = .error s') : Refused s client s' := by
  unfold authorizeAgainstOnline at h
  split at h; · cases h; exact .refuse ..
  split at h; · cases h; exact .refuse ..
  split at h
  · cases h; exact .refuse ..
  · cases h

/-! ## Frames that are no role or channel command -/

/-- Neither a role nor a channel command, nor a message. -/
def ClientControl.plain : ClientControl → Bool
  | .createRole .. | .updateRole .. | .deleteRole .. | .reorderRoles .. | .setMemberRoles ..
  | .setChannelOverwrite .. | .deleteChannelOverwrite .. | .createChannel .. | .updateChannel .. | .deleteChannel ..
  | .sendMessage .. => false
  | _ => true

theorem ClientControl.kinds (frame : ClientControl) :
    (∃ (nonce : UInt64) (cmd : RoleCommand), frame = cmd.frame nonce) ∨
      (∃ (nonce : UInt64) (cmd : ChannelCommand), frame = cmd.frame nonce) ∨
      (∃ channel content replyTo nonce, frame = .sendMessage channel content replyTo nonce) ∨ frame.plain = true := by
  cases frame
  case createRole nonce name permissions => exact .inl ⟨nonce, .create name permissions, rfl⟩
  case updateRole nonce id name color permissions => exact .inl ⟨nonce, .update id name color permissions, rfl⟩
  case deleteRole nonce id => exact .inl ⟨nonce, .delete id, rfl⟩
  case reorderRoles nonce positions => exact .inl ⟨nonce, .reorder positions, rfl⟩
  case setMemberRoles nonce f roles => exact .inl ⟨nonce, .grant f roles, rfl⟩
  case setChannelOverwrite nonce channel target allow deny =>
    exact .inr (.inl ⟨nonce, .setOverwrite channel target allow deny, rfl⟩)
  case deleteChannelOverwrite nonce channel target => exact .inr (.inl ⟨nonce, .deleteOverwrite channel target, rfl⟩)
  case createChannel nonce name parent topic kind maxUsers order =>
    exact .inr (.inl ⟨nonce, .create name parent topic kind maxUsers order, rfl⟩)
  case updateChannel nonce id parent name topic kind maxUsers order =>
    exact .inr (.inl ⟨nonce, .update id parent name topic kind maxUsers order, rfl⟩)
  case deleteChannel nonce id => exact .inr (.inl ⟨nonce, .delete id, rfl⟩)
  case sendMessage channel content replyTo nonce => exact .inr (.inr (.inl ⟨channel, content, replyTo, nonce, rfl⟩))
  all_goals exact .inr (.inr (.inr rfl))

section
variable {I : Shared → World → Prop} {perform : (op : Await) → World → op.Reply × World} (hI : Candid I)
  (hf : Faulty perform)
include hI hf

theorem sendMessage_upholds (hmsg : ∀ m, Allows I (.insertMessage m)) (client : ClientId) (channel : ChannelId)
    (content : String) (replyTo : Option MessageId) (nonce : UInt64) :
    Upholds I perform (sendMessage client channel content replyTo nonce) := by
  intro s
  have tell : ∀ {s : Shared} code detail, (∀ w, I s w → I (s.send client (.error code detail)) w) ∧
      (.done : Todo).Keeps perform I := fun code detail => Upholds.ends fun w => hI.send _ rfl
  unfold sendMessage
  split; · exact Upholds.stays trivial
  split; · exact Upholds.stays trivial
  split; · exact tell ..
  split; · exact tell ..
  split; · exact tell ..
  split; · exact tell ..
  split; · exact tell ..
  dsimp only [Shared.buildMessage]
  split
  · exact Upholds.ends fun w hi => hI.postMessage _ _ _ (hI.numbered hi)
  · refine ⟨fun w => hI.numbered, keeps_onSaved hf (hmsg _) (fun s w => hI.send _ rfl) ?_⟩
    exact upholds_done fun s w => hI.postMessage _ _ _

theorem plain_upholds (client : ClientId) {frame : ClientControl} (hp : frame.plain = true)
    (hban : ∀ nonce f reason til, frame = .ban nonce f reason til → ∀ b, Allows I (.insertBan b))
    (hunban : ∀ nonce f, frame = .unban nonce f → Allows I (.deleteBan f)) :
    Upholds I perform (handleControl client frame) := by
  intro s
  have tell : ∀ {s : Shared} {m : ServerControl}, m.tidings = false → (∀ w, I s w → I (s.send client m) w) ∧
      (.done : Todo).Keeps perform I := fun hm => Upholds.ends fun w => hI.send _ hm
  cases frame <;> simp only [handleControl]
  case auth => exact tell rfl
  case ping => exact tell rfl
  case kick nonce target reason =>
    unfold kick
    split
    · exact Upholds.ends fun w => hI.refused (authorize_error ‹_›)
    · exact ejectAndClose_upholds hI hf target .kicked (upholds_done fun s w => hI.send _ rfl) s
  case ban nonce f reason til => exact ban_upholds hI hf (hban _ _ _ _ rfl) client nonce f reason til s
  case unban nonce f =>
    unfold unban
    split; · exact Upholds.refuses hI ..
    split; · exact Upholds.refuses hI ..
    exact Upholds.stays (keeps_onSaved hf (hunban _ _ rfl) (fun s w => hI.send _ rfl)
      (upholds_done fun s w => hI.send _ rfl))
  case listBans nonce =>
    unfold listBans
    split; · exact Upholds.refuses hI ..
    split; · exact Upholds.refuses hI ..
    refine Upholds.stays (keeps_onLoad hf fun r s => ?_)
    split
    · exact tell rfl
    · exact Upholds.refuses hI ..
  case setServerMute nonce target muted =>
    unfold setServerMute
    split; · exact Upholds.ends fun w => hI.refused (authorize_error ‹_›)
    split; · exact Upholds.refuses hI ..
    rename_i hs
    obtain ⟨f, hsame, hinfo, rfl⟩ := Shared.setServerMuted_some hs
    exact Upholds.ends fun w hi => hI.send _ rfl (hI.shown hinfo (fun i => .of_voice (hsame i)) hi)
  case moveMember nonce target dest =>
    unfold moveMember
    split; · exact Upholds.ends fun w => hI.refused (authorize_error ‹_›)
    split; · exact Upholds.refuses hI ..
    split; · exact Upholds.refuses hI ..
    split
    · rename_i hm
      obtain ⟨e, -, -, -, rfl⟩ := Shared.forceMove_ok hm
      exact Upholds.ends fun w hi => hI.send _ rfl (hI.moved target _ dest hi)
    · exact Upholds.refuses hI ..
  case joinChannel channel =>
    split
    · rename_i hj
      obtain ⟨e, room, -, -, -, -, -, rfl⟩ := Shared.joinChannel_ok hj
      exact Upholds.ends fun w hi => hI.moved client _ (some channel) hi
    · exact tell rfl
  case leaveChannel =>
    exact Upholds.ends fun w hi => hI.moved client _ none hi
  case setVoiceState selfMuted selfDeafened =>
    split
    · rename_i hv
      obtain ⟨f, hsame, hinfo, rfl⟩ := Shared.setVoiceState_some hv
      exact Upholds.ends fun w => hI.shown hinfo fun i => .of_voice (hsame i)
    · exact Upholds.stays trivial
  case setNickname nickname =>
    split
    · rename_i hn
      obtain ⟨f, hsame, hinfo, rfl⟩ := Shared.setNickname_some hn
      exact Upholds.ends fun w => hI.shown hinfo fun i => .of_nickname (hsame i)
    · exact tell rfl
  case typing channel =>
    unfold typing
    dsimp only
    split
    · exact Upholds.ends fun w => hI.broadcastFiltered rfl _ _
    · exact Upholds.stays trivial
  case fetchHistory channel before limit =>
    unfold fetchHistory
    dsimp only
    split; · exact tell rfl
    split; · exact tell rfl
    split; · exact tell rfl
    split; · exact tell rfl
    refine Upholds.stays (keeps_onLoad hf fun r s => ?_)
    split <;> exact tell rfl
  case editMessage => exact tell rfl
  case deleteMessage => exact tell rfl
  case react => exact tell rfl
  all_goals cases hp

/-- A control frame that is no role or channel command, and no message unless messages are not kept. -/
theorem control_upholds {client : ClientId} {frame : ClientControl}
    (hban : ∀ nonce f reason til, frame = .ban nonce f reason til → ∀ b, Allows I (.insertBan b))
    (hunban : ∀ nonce f, frame = .unban nonce f → Allows I (.deleteBan f))
    (hframe : frame.plain = true ∨ (∀ m, Allows I (.insertMessage m)) ∧
      ∃ channel content replyTo nonce, frame = .sendMessage channel content replyTo nonce) :
    Upholds I perform (Input.control client frame).handler := by
  rcases hframe with hp | ⟨hm, channel, content, replyTo, nonce, rfl⟩
  · exact plain_upholds hI hf client hp hban hunban
  · exact sendMessage_upholds hI hf hm client channel content replyTo nonce

omit hf in
theorem voice_upholds (client : ClientId) (packet : VoiceUpstream) :
    Upholds I perform (Input.voice client packet).handler := upholds_done fun _ _ => hI.voiced client packet

omit hf in
theorem disconnect_upholds (client : ClientId) : Upholds I perform (Input.disconnect client).handler := by
  refine upholds_done fun s w hi => ?_
  unfold PickleChat.disconnect
  split
  · exact hi
  · rename_i info t hr
    obtain rfl : (s.remove client).2 = t := congrArg Prod.snd hr
    exact hI.left client .quit (some client) (fun _ h => (Option.some.inj h).symm) hi

omit hf in
theorem tick_upholds (now : UInt64) : Upholds I perform (Input.tick now).handler :=
  upholds_done fun _ _ => hI.ticked now

end

section
variable {τ : Type} {R : Shared → Shared → Prop} {keep : Db → τ}
  {perform : (op : Await) → World → op.Reply × World} (hR : Tame R) (hf : Faulty perform)
include hR hf

/-- An input that is no role or channel command, and no message unless messages are not kept. -/
theorem Input.traced {i : Input} (s : Shared) (w : World)
    (hban : ∀ client nonce f reason til, i = .control client (.ban nonce f reason til) →
      ∀ b, Spares keep (.insertBan b))
    (hunban : ∀ client nonce f, i = .control client (.unban nonce f) → Spares keep (.deleteBan f))
    (hi : ∀ client frame, i = .control client frame → frame.plain = true ∨
      (∀ m, Spares keep (.insertMessage m)) ∧
        ∃ channel content replyTo nonce, frame = .sendMessage channel content replyTo nonce) :
    Traced R keep s w (serve perform i s w).1 (serve perform i s w).2 := by
  have hI : Candid (Traced R keep s w) := (hR.gentle s w).candid
  have hstart : Traced R keep s w s w := ⟨hR.refl s, rfl⟩
  unfold serve
  cases i with
  | connect auth => exact (handshake_upholds hR hf auth).exec hstart
  | control client frame =>
    refine (control_upholds hI hf (fun nonce f reason til he b => ?_) (fun nonce f he => ?_) ?_).exec hstart
    · exact (hban client nonce f reason til (congrArg _ he) b).allows
    · exact (hunban client nonce f (congrArg _ he)).allows
    · exact (hi client frame rfl).imp_right (And.imp_left fun hm m => (hm m).allows)
  | voice client packet => exact (voice_upholds hI client packet).exec hstart
  | disconnect client => exact (disconnect_upholds hI client).exec hstart
  | tick now => exact (tick_upholds hI now).exec hstart

omit hR in
theorem Input.undisturbed (hban : ∀ b, Spares keep (.insertBan b)) (hunban : ∀ f, Spares keep (.deleteBan f))
    {i : Input} (s : Shared) (w : World)
    (hi : ∀ client frame, i = .control client frame → frame.plain = true ∨
      (∀ m, Spares keep (.insertMessage m)) ∧
        ∃ channel content replyTo nonce, frame = .sendMessage channel content replyTo nonce) :
    Undisturbed keep s w (serve perform i s w).1 (serve perform i s w).2 :=
  Input.traced SameRooms.tame hf s w (fun _ _ _ _ _ _ => hban) (fun _ _ f _ => hunban f) hi

end

end PickleChat
