import PickleChat.RoleCommands

/-!
# Overwrite and channel commands

The five commands that change the channel map. Each of them awaits one store
call: it is refused on the state it finds, or goes on to save, change the map
and tell every client what it now sees.
-/

namespace PickleChat

open Async (exec)

inductive ChannelCommand where
  | setOverwrite (channel : ChannelId) (target : OverwriteTarget) (allow deny : Permissions)
  | deleteOverwrite (channel : ChannelId) (target : OverwriteTarget)
  | create (name : String) (parent : Option ChannelId) (topic : String) (kind : ChannelKind)
      (maxUsers : Option UInt16) (order : Int32)
  | update (id : ChannelId) (parent : Option ChannelId) (name topic : String) (kind : ChannelKind)
      (maxUsers : Option UInt16) (order : Int32)
  | delete (id : ChannelId)

namespace ChannelCommand

def handle (client : ClientId) (nonce : UInt64) : ChannelCommand → Handler
  | setOverwrite channel target allow deny => setChannelOverwrite client nonce channel target allow deny
  | deleteOverwrite channel target => deleteChannelOverwrite client nonce channel target
  | create name parent topic kind maxUsers order => createChannel client nonce name parent topic kind maxUsers order
  | update id parent name topic kind maxUsers order =>
    updateChannel client nonce id parent name topic kind maxUsers order
  | delete id => deleteChannel client nonce id

def frame (nonce : UInt64) : ChannelCommand → ClientControl
  | setOverwrite channel target allow deny => .setChannelOverwrite nonce channel target allow deny
  | deleteOverwrite channel target => .deleteChannelOverwrite nonce channel target
  | create name parent topic kind maxUsers order => .createChannel nonce name parent topic kind maxUsers order
  | update id parent name topic kind maxUsers order => .updateChannel nonce id parent name topic kind maxUsers order
  | delete id => .deleteChannel nonce id

theorem handle_eq (client : ClientId) (nonce : UInt64) (cmd : ChannelCommand) :
    handleControl client (cmd.frame nonce) = cmd.handle client nonce := by cases cmd <;> rfl

end ChannelCommand

/-- What a command writes, what it then does to the state it resumes on, and
what each client is sent for it. -/
structure Change where
  call : StoreWrite
  mem : Shared → Shared
  frames : Shared → UserInfo → List ServerControl

/-- Save, change the state, tell everyone, acknowledge. -/
def Change.save (c : Change) (client : ClientId) (nonce : UInt64) (detail : String) : Todo :=
  onSaved c.call (refuse · client nonce .internal detail) fun t =>
    ((c.mem t).deliver fun i => c.frames t i ++ acks client nonce i, .done)

namespace Change

/-- `before` is what everyone saw when the command was checked. -/
def setOverwrite (before : List (ClientId × List ChannelId)) (channel : ChannelId) (o : Overwrite) : Change where
  call := .upsertOverwrite channel o
  mem t := t.setChannelOverwrite channel o
  frames t := (t.setChannelOverwrite channel o).resync before [channel]

def deleteOverwrite (before : List (ClientId × List ChannelId)) (channel : ChannelId) (target : OverwriteTarget) :
    Change where
  call := .deleteOverwrite channel target
  mem t := t.removeChannelOverwrite channel target
  frames t := (t.removeChannelOverwrite channel target).resync before [channel]

def create (c : Channel) : Change where
  call := .insertChannel c
  mem t := t.insertChannelMem c
  frames t := (t.insertChannelMem c).resync t.visibleIdsByClient []

def update (c : Channel) : Change where
  call := .updateChannel c
  mem t := t.updateChannelMem c
  frames t := (t.updateChannelMem c).resync t.visibleIdsByClient [c.id]

def delete (id : ChannelId) : Change where
  call := .deleteChannel id
  mem t := (t.removeChannelMem id).2
  frames t i :=
    ((t.removeChannelMem id).1.flatMap fun i => [.userMoved i.clientId (some id) none, .userUpdated i]) ++
      (t.removeChannelMem id).2.resync t.visibleIdsByClient [] i

end Change

section
variable (client : ClientId) (nonce : UInt64)

theorem setChannelOverwriteSave_eq (before : List (ClientId × List ChannelId)) (channel : ChannelId) (o : Overwrite) :
    setChannelOverwriteSave client nonce before channel o =
      (Change.setOverwrite before channel o).save client nonce "the change was not saved" := by
  simp [setChannelOverwriteSave, Change.save, Change.setOverwrite, ack_eq, Shared.resyncVisibility_eq]

theorem deleteChannelOverwriteSave_eq (before : List (ClientId × List ChannelId)) (channel : ChannelId)
    (target : OverwriteTarget) :
    deleteChannelOverwriteSave client nonce before channel target =
      (Change.deleteOverwrite before channel target).save client nonce "the change was not saved" := by
  simp [deleteChannelOverwriteSave, Change.save, Change.deleteOverwrite, ack_eq, Shared.resyncVisibility_eq]

theorem createChannelSave_eq (c : Channel) :
    createChannelSave client nonce c = (Change.create c).save client nonce "the channel was not saved" := by
  simp [createChannelSave, Change.save, Change.create, ack_eq, Shared.resyncVisibility_eq]

theorem updateChannelSave_eq (c : Channel) :
    updateChannelSave client nonce c = (Change.update c).save client nonce "the change was not saved" := by
  simp [updateChannelSave, Change.save, Change.update, ack_eq, Shared.resyncVisibility_eq]

theorem deleteChannelSave_eq (id : ChannelId) :
    deleteChannelSave client nonce id = (Change.delete id).save client nonce "the deletion was not saved" := by
  simp [deleteChannelSave, Change.save, Change.delete, ack_eq, Shared.resyncVisibility_eq, announceEvicted_eq]

end

/-! ## What passes the checks -/

/-- The bits an overwrite command toggles, once cut down to channel scope. -/
def channelBits (p : Permissions) : Permissions := p.intersect .channelScoped

/-- The subset rule of overwrites: only what the actor holds in the channel. -/
def WithinChannel (s : Shared) (client : ClientId) (a : Actor) (channel : ChannelId) (bits : Permissions) : Prop :=
  a.owner = false → a.base.contains .administrator = false →
    ∃ e c, s.client? client = some e ∧ s.channel channel = some c ∧
      (resolve s.perms.roles a.roles e.info.fingerprint a.owner (some c.overwrites)).contains bits = true

inductive ChannelPasses (s : Shared) (client : ClientId) (nonce : UInt64) : ChannelCommand → Change → Prop
  | setOverwrite {channel : ChannelId} {target : OverwriteTarget} {allow deny : Permissions} {a : Actor} :
      actor s client nonce = .ok a → s.can client channel .viewChannel = true →
      ((channelBits allow).intersect (channelBits deny)).isEmpty = true → unknownRole s.perms.roles target = false →
      WithinChannel s client a channel ((channelBits allow).union (channelBits deny)) →
      ChannelPasses s client nonce (.setOverwrite channel target allow deny)
        (.setOverwrite s.visibleIdsByClient channel ⟨target, channelBits allow, channelBits deny⟩)
  | deleteOverwrite {channel : ChannelId} {target : OverwriteTarget} {a : Actor} :
      actor s client nonce = .ok a → s.can client channel .viewChannel = true →
      ChannelPasses s client nonce (.deleteOverwrite channel target)
        (.deleteOverwrite s.visibleIdsByClient channel target)
  | create {name trimmed : String} {parent : Option ChannelId} {topic : String} {kind : ChannelKind}
      {maxUsers : Option UInt16} {order : Int32} :
      s.canGlobally client .manageChannels = true → validateChannel s client nonce none name parent = .ok trimmed →
      ChannelPasses s client nonce (.create name parent topic kind maxUsers order)
        (.create { id := s.nextChannelId, parent, name := trimmed, topic, kind, maxUsers, order, overwrites := [] })
  | update {id : ChannelId} {name trimmed : String} {parent : Option ChannelId} {topic : String} {kind : ChannelKind}
      {maxUsers : Option UInt16} {order : Int32} :
      s.canGlobally client .manageChannels = true → s.can client id .viewChannel = true →
      validateChannel s client nonce (some id) name parent = .ok trimmed →
      ChannelPasses s client nonce (.update id parent name topic kind maxUsers order)
        (.update { id, parent, name := trimmed, topic, kind, maxUsers, order, overwrites := [] })
  | delete {id : ChannelId} :
      s.canGlobally client .manageChannels = true → s.can client id .viewChannel = true →
      ChannelPasses s client nonce (.delete id) (.delete id)

/-- The command passes the checks it makes before its store call. -/
def ChannelAccepted (s : Shared) (client : ClientId) (nonce : UInt64) (cmd : ChannelCommand) : Prop :=
  s.store = true ∧ ∃ c, ChannelPasses s client nonce cmd c

theorem validateChannel_error {s s' : Shared} {client : ClientId} {nonce : UInt64} {id : Option ChannelId}
    {name : String} {parent : Option ChannelId} (h : validateChannel s client nonce id name parent = .error s') :
    Refused s client s' := by
  unfold validateChannel at h
  dsimp only at h
  split at h; · cases h; exact .refuse ..
  split at h; · cases h
  split at h; · cases h; exact .refuse ..
  split at h; · cases h
  split at h
  · cases h; exact .inl rfl
  · cases h; exact .refuse ..
  · cases h

theorem ChannelCommand.handle_cases {s : Shared} {client : ClientId} {nonce : UInt64} {cmd : ChannelCommand}
    {r : Shared × Todo} (hr : cmd.handle client nonce s = r) :
    (r.2 = .done ∧ Refused s client r.1) ∨
      ∃ c detail, s.store = true ∧ ChannelPasses s client nonce cmd c ∧ r = (s, c.save client nonce detail) := by
  cases cmd with
  | setOverwrite channel target allow deny =>
    cases ha : actor s client nonce with
    | error s' =>
      simp only [handle, setChannelOverwrite, ha] at hr
      subst hr; exact .inl ⟨rfl, actor_error ha⟩
    | ok a =>
    simp only [handle, setChannelOverwrite, ha] at hr
    split at hr; · subst hr; exact .inl ⟨rfl, .refuse ..⟩
    split at hr; · subst hr; exact .inl ⟨rfl, .refuse ..⟩
    split at hr; · subst hr; exact .inl ⟨rfl, .refuse ..⟩
    rename_i hview hclash hrole
    have pass : WithinChannel s client a channel ((channelBits allow).union (channelBits deny)) →
        ChannelPasses s client nonce (.setOverwrite channel target allow deny)
          (.setOverwrite s.visibleIdsByClient channel ⟨target, channelBits allow, channelBits deny⟩) := fun hw =>
      .setOverwrite ha (by simpa using hview) (by simpa [channelBits] using hclash) (by simpa using hrole) hw
    split at hr
    · split at hr; · subst hr; exact .inl ⟨rfl, .inl rfl⟩
      rename_i f hf
      obtain ⟨e, he, rfl⟩ := Option.map_eq_some_iff.mp hf
      split at hr; · subst hr; exact .inl ⟨rfl, .refuse ..⟩
      rename_i c hc
      split at hr; · subst hr; exact .inl ⟨rfl, .refuse ..⟩
      rename_i hmine
      split at hr; · subst hr; exact .inl ⟨rfl, .refuse ..⟩
      have hw : WithinChannel s client a channel ((channelBits allow).union (channelBits deny)) :=
        fun _ _ => ⟨e, c, he, hc, by simpa [channelBits] using hmine⟩
      rw [setChannelOverwriteSave_eq] at hr
      exact .inr ⟨_, _, by simp_all, pass hw, hr.symm⟩
    · rename_i hadmin
      split at hr; · subst hr; exact .inl ⟨rfl, .refuse ..⟩
      have hw : WithinChannel s client a channel ((channelBits allow).union (channelBits deny)) :=
        fun ho hb => absurd hadmin (by simp [ho, hb])
      rw [setChannelOverwriteSave_eq] at hr
      exact .inr ⟨_, _, by simp_all, pass hw, hr.symm⟩
  | deleteOverwrite channel target =>
    cases ha : actor s client nonce with
    | error s' =>
      simp only [handle, deleteChannelOverwrite, ha] at hr
      subst hr; exact .inl ⟨rfl, actor_error ha⟩
    | ok a =>
    simp only [handle, deleteChannelOverwrite, ha] at hr
    split at hr; · subst hr; exact .inl ⟨rfl, .refuse ..⟩
    split at hr; · subst hr; exact .inl ⟨rfl, .refuse ..⟩
    rw [deleteChannelOverwriteSave_eq] at hr
    exact .inr ⟨_, _, by simp_all, .deleteOverwrite ha (by simp_all), hr.symm⟩
  | create name parent topic kind maxUsers order =>
    simp only [handle, createChannel] at hr
    split at hr; · subst hr; exact .inl ⟨rfl, .refuse ..⟩
    split at hr; · subst hr; exact .inl ⟨rfl, validateChannel_error ‹_›⟩
    split at hr; · subst hr; exact .inl ⟨rfl, .refuse ..⟩
    rw [createChannelSave_eq] at hr
    exact .inr ⟨_, _, by simp_all, .create (by simp_all) ‹_›, hr.symm⟩
  | update id parent name topic kind maxUsers order =>
    simp only [handle, updateChannel] at hr
    split at hr; · subst hr; exact .inl ⟨rfl, .refuse ..⟩
    split at hr; · subst hr; exact .inl ⟨rfl, .refuse ..⟩
    split at hr; · subst hr; exact .inl ⟨rfl, validateChannel_error ‹_›⟩
    split at hr; · subst hr; exact .inl ⟨rfl, .refuse ..⟩
    rw [updateChannelSave_eq] at hr
    exact .inr ⟨_, _, by simp_all, .update (by simp_all) (by simp_all) ‹_›, hr.symm⟩
  | delete id =>
    simp only [handle, deleteChannel] at hr
    split at hr; · subst hr; exact .inl ⟨rfl, .refuse ..⟩
    split at hr; · subst hr; exact .inl ⟨rfl, .refuse ..⟩
    split at hr; · subst hr; exact .inl ⟨rfl, .refuse ..⟩
    rw [deleteChannelSave_eq] at hr
    exact .inr ⟨_, _, by simp_all, .delete (by simp_all) (by simp_all), hr.symm⟩

section
variable {perform : (op : Await) → World → op.Reply × World}

theorem Change.run_save (c : Change) (client : ClientId) (nonce : UInt64) (detail : String) (s : Shared) (w : World) :
    (c.save client nonce detail).run perform s w =
      if (perform (.save c.call) w).1 then
        ((c.mem s).deliver fun i => c.frames s i ++ acks client nonce i, (perform (.save c.call) w).2)
      else (refuse s client nonce .internal detail, (perform (.save c.call) w).2) := by
  unfold save
  rw [run_onSaved]
  rfl

theorem ChannelCommand.acked {s : Shared} {w : World} {client : ClientId} {nonce : UInt64} {cmd : ChannelCommand}
    (h : Acked s (exec perform (cmd.handle client nonce) s w).1 client nonce) :
    ∃ c, ChannelPasses s client nonce cmd c ∧
      (exec perform (cmd.handle client nonce) s w).1 = (c.mem s).deliver fun i =>
      c.frames s i ++ acks client nonce i := by
  unfold exec at h ⊢
  rcases handle_cases (rfl : cmd.handle client nonce s = _) with ⟨hd, hr⟩ | ⟨c, detail, -, hp, he⟩
  · rw [hd] at h
    exact absurd h (hr.not_acked nonce)
  · rw [he] at h ⊢
    simp only [c.run_save] at h ⊢
    split at h
    · rw [if_pos ‹_›]
      exact ⟨c, hp, rfl⟩
    · exact absurd h ((Refused.refuse ..).not_acked nonce)

/-- A handled command was refused, by its checks or by the store, or is saved and in memory. -/
theorem ChannelCommand.exec_cases (hf : Faulty perform) (s : Shared) (w : World) (client : ClientId) (nonce : UInt64)
    (cmd : ChannelCommand) :
    (Refused s client (exec perform (cmd.handle client nonce) s w).1 ∧
      (exec perform (cmd.handle client nonce) s w).2 = w) ∨
      ∃ c db, s.store = true ∧ ChannelPasses s client nonce cmd c ∧ c.call.perform w.db = some db ∧
        exec perform (cmd.handle client nonce) s w =
          ((c.mem s).deliver fun i => c.frames s i ++ acks client nonce i, { w with db }) := by
  unfold exec
  rcases handle_cases (rfl : cmd.handle client nonce s = _) with ⟨hd, hr⟩ | ⟨c, detail, hs, hp, he⟩
  · rw [hd]
    exact .inl ⟨hr, rfl⟩
  · rw [he]
    simp only [c.run_save]
    rcases hf.save c.call w with ⟨db, hdb, hsave⟩ | hsave
    · rw [hsave, if_pos rfl]
      exact .inr ⟨c, db, hs, hp, hdb, rfl⟩
    · rw [hsave, if_neg Bool.false_ne_true]
      exact .inl ⟨.refuse .., rfl⟩

end

end PickleChat
