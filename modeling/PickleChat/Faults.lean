import PickleChat.Facts
import PickleChat.Restart
import PickleChat.BanRaces

/-!
# Commands whose store calls fail

A store call takes effect as a whole or not at all, but a command may make two
of them. A creation that has moved the positions and then fails to insert its
role, and a deletion whose compaction fails, stop half way. And where the rows
of what a command changes are missing, its calls may all succeed and yet write
nothing.
-/

namespace PickleChat

open Async (exec)

/-- The commands that write to the store and answer with `Ack` or `CommandFailed`. -/
inductive AdminCommand where
  | role (cmd : RoleCommand)
  | channel (cmd : ChannelCommand)
  | ban (f : Fingerprint) (reason : String) (untilUnixMs : Option UInt64)
  | unban (f : Fingerprint)

def AdminCommand.handle (client : ClientId) (nonce : UInt64) : AdminCommand → Handler
  | role cmd => cmd.handle client nonce
  | channel cmd => cmd.handle client nonce
  | ban f reason til => PickleChat.ban client nonce f reason til
  | unban f => PickleChat.unban client nonce f

/-- Tables, snapshot, channel map and roster are as they were. -/
structure Unchanged (x y : Shared × World) : Prop where
  db : y.2.db = x.2.db
  perms : y.1.perms = x.1.perms
  channels : y.1.channels = x.1.channels
  users : y.1.users = x.1.users

/-- Memory and tables agree on what the command changed. -/
def AdminCommand.Consistent (x y : Shared × World) : AdminCommand → Prop
  | role _ | channel _ => Settled x y
  | ban f _ _ => (∃ row ∈ y.2.db.bans.rows, row.fingerprint = f.toText) ∧
      ∀ victim ∈ sessionsOf x.1 f, y.1.client? victim = none
  | unban f => ∀ row ∈ y.2.db.bans.rows, row.fingerprint ≠ f.toText

/-- A command answered with `CommandFailed` changed nothing, one answered with
`Ack` left memory and tables in agreement. -/
structure Atomic (client : ClientId) (nonce : UInt64) (cmd : AdminCommand) (x y : Shared × World) : Prop where
  failed : Failed x.1 y.1 client nonce → Unchanged x y
  acked : Acked x.1 y.1 client nonce → cmd.Consistent x y

/-- Some stored role does not stand where a creation puts it. -/
def Shifts (p : PermState) (db : Db) : Prop :=
  ∃ row ∈ db.roles.rows, ∃ r ∈ p.roles, row.id = Word.toColumn r.id ∧ row.position ≠ Word.toColumn (shift r.position)

/-- The command leaves memory and tables apart: the second of two store calls fails
and the first has left a trace, or all of them succeed and the tables cannot hold
what they write. -/
inductive Torn (perform : (op : Await) → World → op.Reply × World) (s : Shared) (w : World) (client : ClientId)
    (nonce : UInt64) : AdminCommand → Prop
  | unborn {name : String} {permissions : Permissions} : Accepted s client nonce (.create name permissions) →
      (perform (.save (.setRolePositions (shiftedPositions s.perms.roles))) w).1 = true →
      (perform (.save (.insertRole (newRole s.perms (Text.trim name) (permissions.intersect .all))))
        { w with db := w.db.setRolePositions (shiftedPositions s.perms.roles) }).1 = false →
      Shifts s.perms w.db → Torn perform s w client nonce (.role (.create name permissions))
  | uncompacted {id : RoleId} : Accepted s client nonce (.delete id) → (perform (.save (.deleteRole id)) w).1 = true →
      (perform (.save (.setRolePositions (ordering (deletedPerms s.perms id).roles)))
        { w with db := w.db.deleteRole id }).1 = false →
      Uncompacted s.perms w.db id → Torn perform s w client nonce (.role (.delete id))
  | adrift {cmd : RoleCommand} : Accepted s client nonce cmd → SavesAll perform (cmd.calls s.perms) w →
      cmd.Adrift s.perms w.db → Torn perform s w client nonce (.role cmd)
  | stranded {cmd : ChannelCommand} {c : Change} : s.store = true → ChannelPasses s client nonce cmd c →
      (perform (.save c.call) w).1 = true → cmd.Adrift s w.db → Torn perform s w client nonce (.channel cmd)

/-! ## Answers -/

section
variable {s s' t : Shared} {client : ClientId} {nonce : UInt64}

theorem acked_deliver {f : UserInfo → List ServerControl} {e : ConnectedClient}
    (hq : t.queue client = s.queue client) (he : t.client? client = some e) (hm : .ack nonce ∈ f e.info) :
    Acked s (t.deliver f) client nonce := by
  unfold Acked
  rw [Shared.queue_deliver, hq, List.drop_left, he]
  exact hm

theorem failed_refuse {e : ConnectedClient} (he : s.client? client = some e) (code : ErrorCode) (detail : String) :
    Failed s (refuse s client nonce code detail) client nonce := by
  refine ⟨code, detail, ?_⟩
  rw [refuse_eq, Shared.queue_deliver, List.drop_left, he]
  simp [Shared.client?_id he]

theorem Refused.unchanged {w : World} (h : Refused s client s') : Unchanged (s, w) (s', w) := by
  rcases h with rfl | ⟨_, _, _, rfl⟩
  · exact ⟨rfl, rfl, rfl, rfl⟩
  · rw [refuse_eq]
    exact ⟨rfl, rfl, rfl, Shared.deliver_users ..⟩

theorem Refused.atomic {w : World} (h : Refused s client s') (cmd : AdminCommand) :
    Atomic client nonce cmd (s, w) (s', w) :=
  ⟨fun _ => h.unchanged, fun ha => absurd ha (h.not_acked nonce)⟩

theorem Accepted.connected {cmd : RoleCommand} (h : Accepted s client nonce cmd) : ∃ e, s.client? client = some e := by
  obtain ⟨-, a, next, save, ha, -⟩ := h
  obtain ⟨-, e, he, -⟩ := actor_ok ha
  exact ⟨e, he⟩

end

/-! ## Positions that move, and positions that do not -/

theorem Db.ext_roles {db : Db} {t : Keyed.Table RoleRow Int64 RoleRow.id} (h : t.rows = db.roles.rows) :
    { db with roles := t } = db := by
  have ht : t = db.roles := by
    obtain ⟨rows, hu⟩ := t
    cases hr : db.roles with
    | mk rows' hu' =>
      rw [hr] at h
      cases h
      rfl
  rw [ht]

theorem setRolePositions_shifted {p : PermState} (hids : Keyed.Unique Role.id p.roles) (db : Db) :
    db.setRolePositions (shiftedPositions p.roles) = db ↔ ¬ Shifts p db := by
  have hrows := setRolePositions_rows (unique_shifted hids) db.roles
  have hplaced : ∀ row : RoleRow, ∀ r ∈ p.roles, row.id = Word.toColumn r.id →
      placed (shiftedPositions p.roles) row = { row with position := Word.toColumn (shift r.position) } := by
    intro row r hr hid
    unfold placed
    rw [hid, find?_column, get_shifted hids hr]
  constructor
  · rintro he ⟨row, hrow, r, hr, hid, hne⟩
    have hsame : db.roles.rows.map (placed (shiftedPositions p.roles)) = db.roles.rows.map id := by
      rw [← hrows, List.map_id]
      exact congrArg (fun d : Db => d.roles.rows) he
    have hrow' : placed (shiftedPositions p.roles) row = row := List.map_inj_left.mp hsame row hrow
    rw [hplaced row r hr hid] at hrow'
    exact hne (congrArg RoleRow.position hrow').symm
  · intro hn
    refine Db.ext_roles (hrows.trans ((List.map_congr_left fun row hrow => ?_).trans (List.map_id _)))
    by_cases h : ∃ r ∈ p.roles, row.id = Word.toColumn r.id
    · obtain ⟨r, hr, hid⟩ := h
      have hpos : row.position = Word.toColumn (shift r.position) := by
        by_contra hne
        exact hn ⟨row, hrow, r, hr, hid, hne⟩
      rw [hplaced row r hr hid, ← hpos]
      rfl
    · have hf : (shiftedPositions p.roles).find? (fun q => Word.toColumn q.1 = row.id) = none := by
        rw [List.find?_eq_none]
        intro q hq he
        obtain ⟨r, hr, rfl⟩ := List.mem_map.mp hq
        refine h ⟨r, hr, ?_⟩
        rw [decide_eq_true_eq] at he
        rw [← he]
        split <;> rfl
      unfold placed
      rw [hf]
      rfl

/-! ## Role commands -/

section
variable {perform : (op : Await) → World → op.Reply × World} {s s' : Shared} {w : World} {client : ClientId}
  {nonce : UInt64} {cmd : RoleCommand} {next : PermState}

theorem acked_swap {t : Shared} {e : ConnectedClient} (he : s.client? client = some e) (hs : SameSessions s t)
    (hq : t.queue client = s.queue client) (f : UserInfo → List ServerControl) :
    Acked s (t.deliver fun i => f i ++ acks client nonce i) client nonce := by
  have hfp : t.fingerprintOf client = some e.info.fingerprint := by
    rw [hs.fingerprint]
    exact congrArg (Option.map _) he
  obtain ⟨e', he', -⟩ := Option.map_eq_some_iff.mp hfp
  apply acked_deliver hq he'
  apply List.mem_append_right
  simp [acks, Shared.client?_id he']

/-- What passed its checks is swapped in and acked, unless saving it failed. -/
theorem Passes.acks {a : Actor} {save : Todo} (h : Passes s client nonce a cmd next save) {e : ConnectedClient}
    (he : s.client? client = some e) (w : World) :
    Refused s client (save.run perform s w).1 ∧ ¬ SavesAll perform (cmd.calls s.perms) w ∨
      ((save.run perform s w).1.perms = next ∧ Acked s (save.run perform s w).1 client nonce) := by
  cases h with
  | create =>
    unfold createRoleSave
    simp only [run_onSaved]
    split; swap
    · rename_i hn
      exact .inl ⟨.refuse .., fun h => hn h.1⟩
    split; swap
    · rename_i hn
      exact .inl ⟨.refuse .., fun h => hn h.2.1⟩
    simp only [Async.Task.run_done, createRoleSwap_eq]
    exact .inr ⟨rfl, acked_swap he (swap_sessions ..) (by rfl) _⟩
  | update hget _ _ hedit =>
    unfold updateRoleSave
    simp only [run_onSaved, RoleCommand.calls, hget, ← editedRole_eq hedit]
    split; swap
    · rename_i hn
      exact .inl ⟨.refuse .., fun h => hn h.1⟩
    simp only [Async.Task.run_done, updateRoleSwap_eq]
    exact .inr ⟨rfl, acked_swap he (swap_sessions ..) (by rfl) _⟩
  | delete =>
    unfold deleteRoleSave
    simp only [run_onSaved, run_onWritten]
    split; swap
    · rename_i hn
      exact .inl ⟨.refuse .., fun h => hn h.1⟩
    simp only [Async.Task.run_done, deleteRoleSwap_eq]
    exact .inr ⟨rfl, acked_swap he (withoutRole_sessions ..) (withoutRole_queue ..) _⟩
  | reorder =>
    unfold reorderRolesSave
    simp only [run_onSaved]
    split; swap
    · rename_i hn
      exact .inl ⟨.refuse .., fun h => hn h.1⟩
    simp only [Async.Task.run_done, reorderRolesSwap_eq]
    exact .inr ⟨rfl, acked_swap he (swap_sessions ..) (by rfl) _⟩
  | grant =>
    unfold setMemberRolesSave
    simp only [run_onSaved]
    split; swap
    · rename_i hn
      exact .inl ⟨.refuse .., fun h => hn h.1⟩
    simp only [Async.Task.run_done, setMemberRolesSwap_eq]
    exact .inr ⟨rfl, acked_swap he (withGrants_sessions ..) (withGrants_queue ..) _⟩

theorem RoleOutcome.atomic (hids : Keyed.Unique Role.id s.perms.roles) (hacc : Accepted s client nonce cmd)
    {y : Shared × World} (h : RoleOutcome perform s w client nonce cmd next y)
    (hh : ¬ Torn perform s w client nonce (.role cmd)) : Atomic client nonce (.role cmd) (s, w) y := by
  cases h with
  | unsaved detail => exact (Refused.refuse ..).atomic _
  | @halfCreated name permissions _ role detail hrole hpos hins =>
    subst hrole
    have hsame := (setRolePositions_shifted hids w.db).mpr fun hsh => hh (.unborn hacc hpos hins hsh)
    have hw : { w with db := w.db.setRolePositions (shiftedPositions s.perms.roles) } = w := by rw [hsame]
    rw [hw]
    exact (Refused.refuse ..).atomic _
  | @uncompacted id s' hs hdel hfail =>
    have hne : id ≠ everyoneRoleId := by
      obtain ⟨-, a, next, save, -, hp⟩ := hacc
      cases hp with
      | delete hne => exact hne
    refine ⟨fun hf => absurd hf (hs.unfailed _ _), fun _ => ?_⟩
    exact (hs.uncompacted_iff hids hne).mpr fun hu => hh (.uncompacted hacc hdel hfail hu)
  | saved hs hw hsaved =>
    refine ⟨fun hf => absurd hf (hs.unfailed _ _), fun _ => ?_⟩
    exact hs.settled hw hids fun hadrift => hh (.adrift hacc hsaved hadrift)

theorem not_atomic_create (hf : Faulty perform) (hids : Keyed.Unique Role.id s.perms.roles) {name : String}
    {permissions : Permissions} (hacc : Accepted s client nonce (.create name permissions))
    (hpos : (perform (.save (.setRolePositions (shiftedPositions s.perms.roles))) w).1 = true)
    (hins : (perform (.save (.insertRole (newRole s.perms (Text.trim name) (permissions.intersect .all))))
      { w with db := w.db.setRolePositions (shiftedPositions s.perms.roles) }).1 = false)
    (hsh : Shifts s.perms w.db) :
    ¬ Atomic client nonce (.role (.create name permissions)) (s, w)
      (exec perform (createRole client nonce name permissions) s w) := by
  intro hat
  obtain ⟨e, he⟩ := hacc.connected
  obtain ⟨hstore, a, next, save, ha, hp⟩ := hacc
  have hhandle : createRole client nonce name permissions s = (s, save) := hp.handle_eq hstore ha
  unfold exec at hat
  rw [hhandle] at hat
  cases hp with
  | create =>
    unfold createRoleSave at hat
    simp only [run_onSaved, hpos, if_true] at hat
    rw [hf.saved rfl hpos, if_neg (by rw [hins]; exact Bool.false_ne_true)] at hat
    have hsame := (hat.failed (failed_refuse he ..)).db
    rw [hf.rejected hins] at hsame
    exact (setRolePositions_shifted hids w.db).mp hsame hsh

/-- The deletion is acknowledged, and a role that moved stands elsewhere in the tables. -/
theorem not_atomic_delete (hf : Faulty perform) (hids : Keyed.Unique Role.id s.perms.roles) {id : RoleId}
    (hacc : Accepted s client nonce (.delete id)) (hdel : (perform (.save (.deleteRole id)) w).1 = true)
    (hfail : (perform (.save (.setRolePositions (ordering (deletedPerms s.perms id).roles)))
      { w with db := w.db.deleteRole id }).1 = false)
    (hun : Uncompacted s.perms w.db id) :
    ¬ Atomic client nonce (.role (.delete id)) (s, w) (exec perform (deleteRole client nonce id) s w) := by
  intro hat
  obtain ⟨e, he⟩ := hacc.connected
  obtain ⟨hstore, a, next, save, ha, hp⟩ := hacc
  have hhandle : deleteRole client nonce id s = (s, save) := hp.handle_eq hstore ha
  unfold exec at hat
  rw [hhandle] at hat
  cases hp with
  | delete hne hex hrank =>
    unfold deleteRoleSave at hat
    simp only [run_onSaved, run_onWritten, hdel, if_true, Async.Task.run_done] at hat
    rw [hf.saved rfl hdel, hf.rejected hfail] at hat
    have hacked : Acked s (deleteRoleSwap s client nonce s.perms s.visibleIdsByClient id) client nonce := by
      rw [deleteRoleSwap_eq]
      exact acked_swap he (withoutRole_sessions ..) (withoutRole_queue ..) _
    exact ((deleteRole_swapped s client nonce id).uncompacted_iff hids hne).mp (hat.acked hacked) hun

theorem not_atomic_adrift (hf : Faulty perform) (hids : Keyed.Unique Role.id s.perms.roles)
    (hacc : Accepted s client nonce cmd) (hsaved : SavesAll perform (cmd.calls s.perms) w)
    (hadrift : cmd.Adrift s.perms w.db) :
    ¬ Atomic client nonce (.role cmd) (s, w) (exec perform (cmd.handle client nonce) s w) := by
  intro hat
  obtain ⟨e, he⟩ := hacc.connected
  obtain ⟨hstore, a, next, save, ha, hp⟩ := hacc
  unfold exec at hat
  rw [hp.handle_eq hstore ha] at hat
  have hacked : Acked s (save.run perform s w).1 client nonce := by
    rcases hp.acks he w with ⟨-, hn⟩ | ⟨-, hacked⟩
    · exact absurd hsaved hn
    · exact hacked
  have hagreed := hat.acked hacked
  have ho := hp.outcome hf w
  generalize save.run perform s w = y at ho hagreed
  cases ho with
  | unsaved _ hn => exact hn hsaved
  | halfCreated _ hrole hpos hins =>
    have hsecond := hsaved.2.1
    rw [hf.saved rfl hpos, ← hrole, hins] at hsecond
    cases hsecond
  | uncompacted _ hdel hfail =>
    have hsecond := hsaved.2.1
    rw [hf.saved rfl hdel, hfail] at hsecond
    cases hsecond
  | saved hs hw => exact hs.adrift hids hw hadrift hagreed

theorem role_atomic_iff (hf : Faulty perform) (hids : Keyed.Unique Role.id s.perms.roles) (cmd : RoleCommand) :
    Atomic client nonce (.role cmd) (s, w) (exec perform (cmd.handle client nonce) s w) ↔
      ¬ Torn perform s w client nonce (.role cmd) := by
  constructor
  · intro hat hh
    cases hh with
    | unborn hacc hpos hins hsh => exact not_atomic_create hf hids hacc hpos hins hsh hat
    | uncompacted hacc hdel hfail hun => exact not_atomic_delete hf hids hacc hdel hfail hun hat
    | adrift hacc hsaved hadrift => exact not_atomic_adrift hf hids hacc hsaved hadrift hat
  · intro hh
    unfold exec
    rcases RoleCommand.handle_cases (rfl : cmd.handle client nonce s = _) with
      ⟨hd, hr⟩ | ⟨a, next, save, ha, hstore, hp, he⟩
    · rw [hd]
      exact hr.atomic _
    · rw [he]
      exact (hp.outcome hf w).atomic hids ⟨hstore, a, next, save, ha, hp⟩ hh

end

/-! ## Channel commands -/

section
variable {perform : (op : Await) → World → op.Reply × World} {s : Shared} {w : World} {client : ClientId}
  {nonce : UInt64} {cmd : ChannelCommand} {c : Change}

theorem removeChannelMem_queue (s : Shared) (id : ChannelId) (k : ClientId) :
    (s.removeChannelMem id).2.queue k = s.queue k := by
  unfold Shared.removeChannelMem
  split
  · rfl
  · exact Shared.queue_of_map rfl (fun e => by split <;> exact ⟨rfl, rfl⟩) k

theorem ChannelPasses.unfailed (hp : ChannelPasses s client nonce cmd c) (k : ClientId) (nonce' : UInt64) :
    ¬ Failed s ((c.mem s).deliver fun i => c.frames s i ++ acks client nonce i) k nonce' := by
  apply not_failed_deliver
  · intro k
    cases hp with
    | delete => exact removeChannelMem_queue s _ k
    | _ => rfl
  · intro i nonce' code detail hm
    rcases List.mem_append.mp hm with hm | hm
    · cases hp with
      | delete =>
        rcases List.mem_append.mp hm with hm | hm
        · obtain ⟨j, -, hj⟩ := List.mem_flatMap.mp hm
          simp at hj
        · exact Shared.commandFailed_not_mem_resync _ _ _ _ _ _ _ hm
      | _ => exact Shared.commandFailed_not_mem_resync _ _ _ _ _ _ _ hm
    · exact commandFailed_not_mem_acks _ _ _ _ _ _ hm

theorem canGlobally_client {s : Shared} {client : ClientId} {bits : Permissions}
    (h : s.canGlobally client bits = true) :
    ∃ e, s.client? client = some e := by
  unfold Shared.canGlobally at h
  split at h
  · cases h
  · exact ⟨_, ‹_›⟩

theorem ChannelPasses.acked (hp : ChannelPasses s client nonce cmd c) :
    Acked s ((c.mem s).deliver fun i => c.frames s i ++ acks client nonce i) client nonce := by
  have hin : ∃ e, s.client? client = some e := by
    cases hp with
    | setOverwrite ha | deleteOverwrite ha =>
      obtain ⟨-, e, he, -⟩ := actor_ok ha
      exact ⟨e, he⟩
    | create hcan | update hcan | delete hcan => exact canGlobally_client hcan
  obtain ⟨e, he⟩ := hin
  have hkept : (c.mem s).queue client = s.queue client ∧
      ∃ e', (c.mem s).client? client = some e' ∧ e'.info.clientId = client := by
    have hid : e.info.clientId = client := Shared.client?_id he
    cases hp with
    | setOverwrite | deleteOverwrite | create | update => exact ⟨rfl, e, he, hid⟩
    | @delete id =>
      refine ⟨removeChannelMem_queue s id client, ?_⟩
      rw [show (Change.delete id).mem s = (s.removeChannelMem id).2 from rfl]
      unfold Shared.removeChannelMem
      cases s.channel id with
      | none => exact ⟨e, he, hid⟩
      | some _ =>
        let f : ConnectedClient → ConnectedClient := fun e =>
          if e.info.channel = some id then { e with info := { e.info with channel := none } } else e
        have hf : ∀ e, (f e).id = e.id := fun e => by unfold f; split <;> rfl
        refine ⟨f e, ?_, (hf e).trans hid⟩
        exact (Keyed.get_map hf client s.clients).trans (congrArg (Option.map f) he)
  obtain ⟨hq, e', he', hid⟩ := hkept
  refine acked_deliver hq he' (List.mem_append_right _ ?_)
  unfold acks
  rw [if_pos hid]
  exact List.mem_singleton_self _

theorem ChannelCommand.Adrift.handle_eq {db : Db} (h : cmd.Adrift s db) (hs : s.store = true)
    (hp : ChannelPasses s client nonce cmd c) :
    ∃ detail, cmd.handle client nonce s = (s, c.save client nonce detail) := by
  cases h with
  | updated =>
    cases hp with
    | update hcan hview hvalid =>
      refine ⟨"the change was not saved", ?_⟩
      simp only [handle, updateChannel, hcan, hview, hvalid, hs]
      rw [← updateChannelSave_eq]
      rfl
  | taken =>
    cases hp with
    | create hcan hvalid =>
      refine ⟨"the channel was not saved", ?_⟩
      simp only [handle, createChannel, hcan, hvalid, hs]
      rw [← createChannelSave_eq]
      rfl

theorem channel_atomic_iff (hf : Faulty perform) (cmd : ChannelCommand) :
    Atomic client nonce (.channel cmd) (s, w) (exec perform (cmd.handle client nonce) s w) ↔
      ¬ Torn perform s w client nonce (.channel cmd) := by
  constructor
  · intro hat ht
    cases ht with
    | @stranded _ c hstore hp hsaved hadrift =>
      obtain ⟨detail, he⟩ := hadrift.handle_eq hstore hp
      unfold exec at hat
      simp only [he, c.run_save, hsaved, if_true] at hat
      rcases hf.save c.call w with ⟨db, hdb, hp'⟩ | hp'
      · rw [hp'] at hat
        exact (hp.settled hdb _).mp (hat.acked hp.acked) hadrift
      · rw [hp'] at hsaved
        cases hsaved
  · intro ht
    unfold exec
    rcases cmd.handle_cases (rfl : cmd.handle client nonce s = _) with ⟨hd, hr⟩ | ⟨c, detail, hstore, hp, he⟩
    · rw [hd]
      exact hr.atomic _
    · simp only [he, c.run_save]
      rcases hf.save c.call w with ⟨db, hdb, hsave⟩ | hsave
      · rw [hsave, if_pos rfl]
        refine ⟨fun hfail => absurd hfail (hp.unfailed _ _), fun _ => (hp.settled hdb _).mpr fun hadrift => ?_⟩
        exact ht (.stranded hstore hp (by rw [hsave]) hadrift)
      · rw [hsave, if_neg Bool.false_ne_true]
        exact (Refused.refuse ..).atomic _

end

/-! ## Bans -/

/-- Nobody came, and only frames that are no `CommandFailed` were queued. -/
structure Unfailing (s s' : Shared) : Prop where
  gone : ∀ k, s.client? k = none → s'.client? k = none
  queued : ∀ k, s'.client? k = none ∨ ∃ frames, s'.queue k = s.queue k ++ frames ∧
    ∀ nonce code detail, .commandFailed nonce code detail ∉ frames

section
variable {s t u : Shared}

theorem Unfailing.refl (s : Shared) : Unfailing s s := ⟨fun _ h => h, fun _ => .inr ⟨[], by simp, by simp⟩⟩

theorem Unfailing.trans (h : Unfailing s t) (h' : Unfailing t u) : Unfailing s u := by
  refine ⟨fun k hk => h'.gone k (h.gone k hk), fun k => ?_⟩
  rcases h.queued k with hk | ⟨frames, hq, hn⟩
  · exact .inl (h'.gone k hk)
  · rcases h'.queued k with hk | ⟨frames', hq', hn'⟩
    · exact .inl hk
    · refine .inr ⟨frames ++ frames', by rw [hq', hq, List.append_assoc], fun nonce code detail hm => ?_⟩
      rcases List.mem_append.mp hm with hm | hm
      · exact hn _ _ _ hm
      · exact hn' _ _ _ hm

theorem Unfailing.deliver (s : Shared) {f : UserInfo → List ServerControl}
    (hf : ∀ i nonce code detail, .commandFailed nonce code detail ∉ f i) : Unfailing s (s.deliver f) := by
  refine ⟨fun k hk => by simp [hk], fun k => .inr ⟨_, Shared.queue_deliver .., fun nonce code detail hm => ?_⟩⟩
  cases he : s.client? k with
  | none => rw [he] at hm; cases hm
  | some e => rw [he] at hm; exact hf _ _ _ _ hm

theorem Unfailing.remove (s : Shared) (k : ClientId) : Unfailing s (s.remove k).2 := by
  refine ⟨fun k' hk' => ?_, fun k' => ?_⟩
  · rw [remove_client?]
    split
    · rfl
    · exact hk'
  · by_cases hk : k' = k
    · exact .inl (by rw [remove_client?, if_pos hk])
    · refine .inr ⟨[], ?_, by simp⟩
      unfold Shared.queue
      rw [remove_client?, if_neg hk, List.append_nil]

theorem Unfailing.eject (s : Shared) (k : ClientId) (reason : DisconnectReason) :
    Unfailing s (s.eject k reason).2 ∧ (s.eject k reason).2.client? k = none := by
  unfold Shared.eject
  split
  · rename_i hk
    exact ⟨.refl s, hk⟩
  · refine ⟨(Unfailing.remove s k).trans ?_, ?_⟩
    · dsimp only
      rw [Shared.broadcast_none]
      refine .deliver _ fun i nonce code detail hm => ?_
      cases List.mem_singleton.mp hm
    · rw [Shared.broadcast_none, Shared.deliver_client?, remove_client?, if_pos rfl]
      rfl

theorem eject_user (s : Shared) {k victim : ClientId} (hk : k ≠ victim) (reason : DisconnectReason) :
    (s.eject victim reason).2.user k = s.user k := by
  unfold Shared.eject
  split
  · rfl
  · dsimp only
    unfold Shared.user
    rw [Shared.broadcast_none, Shared.deliver_client?, remove_client?, if_neg hk, Option.map_map]
    rfl

theorem Unfailing.not_failed (h : Unfailing s t) (k : ClientId) (nonce : UInt64) : ¬ Failed s t k nonce := by
  rintro ⟨code, detail, hm⟩
  rcases h.queued k with hk | ⟨frames, hq, hn⟩
  · rw [show t.queue k = [] by simp [Shared.queue, hk], List.drop_nil] at hm
    cases hm
  · rw [hq, List.drop_left] at hm
    exact hn _ _ _ hm

end

section
variable {perform : (op : Await) → World → op.Reply × World} (hf : Faulty perform) {client : ClientId} {nonce : UInt64}
include hf

theorem run_onYield (k : Handler) (s : Shared) (w : World) : (onYield k).run perform s w = exec perform k s w := by
  have hp : perform .yield w = ((), w) := by rcases hf .yield w with h | h <;> exact h
  unfold onYield
  rw [Async.Task.run_wait, hp]
  rfl

theorem run_onSleep (k : Handler) (s : Shared) (w : World) : (onSleep k).run perform s w = exec perform k s w := by
  have hp : perform .sleep w = ((), w) := by rcases hf .sleep w with h | h <;> exact h
  unfold onSleep
  rw [Async.Task.run_wait, hp]
  rfl

theorem exec_ejectAndClose (victim : ClientId) (reason : DisconnectReason) (k : Handler) (s : Shared) (w : World) :
    exec perform (ejectAndClose victim reason k) s w = exec perform k (s.eject victim reason).2 w := by
  unfold exec ejectAndClose
  split
  · rename_i t he
    have hs : (s.eject victim reason).2 = s := by
      unfold Shared.eject at he ⊢
      split
      · rfl
      · rename_i hc
        simp [hc] at he
    rw [hs]
  · rename_i e t he
    rw [he]
    exact run_onSleep hf k t w

theorem exec_ejectVictims (client : ClientId) (nonce : UInt64) (victims : List ClientId) (s : Shared) (w : World) :
    ∃ t, exec perform (ejectVictims client nonce victims) s w = (ack t client nonce, w) ∧ Unfailing s t ∧
      (∀ victim ∈ victims, t.client? victim = none) ∧ ∀ k, k ∉ victims → t.user k = s.user k := by
  induction victims generalizing s with
  | nil => exact ⟨s, rfl, .refl s, by simp, fun _ _ => rfl⟩
  | cons victim victims ih =>
    obtain ⟨hej, hgone⟩ := Unfailing.eject s victim .banned
    obtain ⟨t, ht, hu, hv, hstay⟩ := ih (s.eject victim .banned).2
    refine ⟨t, ?_, hej.trans hu, fun v hm => ?_, fun k hk => ?_⟩
    · rw [← ht, ← exec_ejectAndClose hf]
      exact run_onYield hf _ s w
    · rcases List.mem_cons.mp hm with rfl | hm
      · exact hu.gone _ hgone
      · exact hv v hm
    · rw [List.mem_cons, not_or] at hk
      exact (hstay k hk.2).trans (eject_user s hk.1 .banned)

theorem exec_ban (f : Fingerprint) (reason : String) (til : Option UInt64) (s : Shared) (w : World) :
    (Refused s client (exec perform (ban client nonce f reason til) s w).1 ∧
        (exec perform (ban client nonce f reason til) s w).2 = w) ∨
      s.canGlobally client .banMembers = true ∧ s.actorOutranks client f = true ∧ some f ≠ s.fingerprintOf client ∧
      ∃ b t, b.fingerprint = f ∧
        exec perform (ban client nonce f reason til) s w = (ack t client nonce, { w with db := w.db.insertBan b }) ∧
        Unfailing s t ∧ (∀ victim ∈ sessionsOf s f, t.client? victim = none) ∧
        ∀ k, k ∉ sessionsOf s f → t.user k = s.user k := by
  unfold exec ban
  split; · exact .inl ⟨.refuse .., rfl⟩
  rename_i hcan
  rw [run_onYield hf]
  unfold exec
  dsimp only
  split; · exact .inl ⟨.refuse .., rfl⟩
  rename_i hself
  rw [run_onYield hf]
  unfold exec
  dsimp only
  split; · exact .inl ⟨.refuse .., rfl⟩
  rename_i hrank
  split; · exact .inl ⟨.refuse .., rfl⟩
  rw [run_onYield hf]
  unfold exec banSave
  dsimp only
  rw [run_onSaved]
  generalize hb : BanEntry.mk f reason til ((s.fingerprintOf client).getD f) s.nowUnixMs = b
  rcases hf.save (.insertBan b) w with ⟨db, hdb, hp⟩ | hp
  · obtain rfl : w.db.insertBan b = db := Option.some.inj hdb
    obtain ⟨t, ht, hu, hv, hstay⟩ := exec_ejectVictims hf client nonce (sessionsOf s f) s
        { w with db := w.db.insertBan b }
    rw [hp, if_pos rfl]
    refine .inr ⟨by simpa using hcan, by simpa using hrank, hself, b, t, by rw [← hb], ?_, hu, hv, hstay⟩
    exact ht
  · rw [hp, if_neg Bool.false_ne_true]
    exact .inl ⟨.refuse .., rfl⟩

end

theorem ban_atomic {perform : (op : Await) → World → op.Reply × World} (hf : Faulty perform) (s : Shared) (w : World)
    (client : ClientId) (nonce : UInt64) (f : Fingerprint) (reason : String) (til : Option UInt64) :
    Atomic client nonce (.ban f reason til) (s, w) (exec perform (ban client nonce f reason til) s w) := by
  rcases exec_ban hf f reason til s w with ⟨hr, hw⟩ | ⟨-, -, -, b, t, hb, he, hu, hv, -⟩
  · rw [← Prod.mk.eta (p := exec perform (ban client nonce f reason til) s w), hw]
    exact hr.atomic _
  · rw [he]
    have hack : Unfailing t (ack t client nonce) := by
      rw [ack_eq]
      exact .deliver t fun i nonce' => commandFailed_not_mem_acks client nonce nonce' i
    refine ⟨fun hfail => absurd hfail ((hu.trans hack).not_failed _ _), fun _ => ⟨?_, fun victim hm => ?_⟩⟩
    · exact ⟨banRow b, mem_insertBan.mpr (.inl rfl), by rw [← hb]; rfl⟩
    · exact hack.gone victim (hv victim hm)

theorem unban_atomic {perform : (op : Await) → World → op.Reply × World} (hf : Faulty perform) (s : Shared) (w : World)
    (client : ClientId) (nonce : UInt64) (f : Fingerprint) :
    Atomic client nonce (.unban f) (s, w) (exec perform (unban client nonce f) s w) := by
  unfold exec unban
  split; · exact (Refused.refuse ..).atomic _
  split; · exact (Refused.refuse ..).atomic _
  dsimp only
  rw [run_onSaved]
  rcases hf.save (.deleteBan f) w with ⟨db, hdb, hp⟩ | hp
  · obtain rfl : w.db.deleteBan f = db := Option.some.inj hdb
    rw [hp, if_pos rfl, Async.Task.run_done, ack_eq]
    refine ⟨fun hfail => ?_, fun _ row hrow => ?_⟩
    · refine absurd hfail (not_failed_deliver (fun _ => rfl) ?_ _ _)
      exact fun i nonce' => commandFailed_not_mem_acks client nonce nonce' i
    · simpa using (Keyed.Table.mem_delete.mp hrow).2
  · rw [hp, if_neg Bool.false_ne_true]
    exact (Refused.refuse ..).atomic _

/-! ## All of them -/

/-- Whatever store calls fail, a command is atomic exactly when it does not leave
memory and tables apart. -/
theorem command_atomic_iff {perform : (op : Await) → World → op.Reply × World} (hf : Faulty perform) {s : Shared}
    (hids : Keyed.Unique Role.id s.perms.roles) (w : World) (client : ClientId) (nonce : UInt64)
    (cmd : AdminCommand) :
    Atomic client nonce cmd (s, w) (exec perform (cmd.handle client nonce) s w) ↔
      ¬ Torn perform s w client nonce cmd := by
  cases cmd with
  | role cmd => exact role_atomic_iff hf hids cmd
  | channel cmd => exact channel_atomic_iff hf cmd
  | ban f reason til => exact iff_of_true (ban_atomic hf s w client nonce f reason til) (by rintro ⟨⟩)
  | unban f => exact iff_of_true (unban_atomic hf s w client nonce f) (by rintro ⟨⟩)

/-- A store that saves everything but new roles and one list of positions. -/
def failing (positions : List (RoleId × UInt32)) : (op : Await) → World → op.Reply × World
  | .save (.insertRole _), w => (false, w)
  | .save (.setRolePositions ps), w => if ps = positions then (false, w)
      else Await.perform (.save (.setRolePositions ps)) w
  | op, w => op.perform w

theorem failing_faulty (positions : List (RoleId × UInt32)) : Faulty (failing positions) := by
  intro op w
  unfold failing
  split
  · exact .inr rfl
  · split
    · exact .inr rfl
    · exact .inl rfl
  · exact .inl rfl

def shiftedWorld : World :=
  { managerWorld with db := managerWorld.db.setRolePositions (shiftedPositions managerServer.perms.roles) }

/-- A second try that stops there again changes nothing more. -/
theorem command_atomic_again :
    Atomic 1 7 (.role (.create "door" .none)) (managerServer, shiftedWorld)
      (exec (failing []) (createRole 1 7 "door" .none) managerServer shiftedWorld) := by
  refine (command_atomic_iff (failing_faulty _) (by unfold Keyed.Unique; decide) shiftedWorld 1 7
    (.role (.create "door" .none))).mpr fun h => ?_
  cases h with
  | unborn _ _ _ hshifts =>
    revert hshifts
    unfold Shifts
    decide +kernel
  | adrift _ hsaved _ => cases hsaved.2.1

/-- The role is not saved, the actor is told so, and the stored positions have moved. -/
theorem createRole_half_done :
    Faulty (failing []) ∧ ¬ Atomic 1 7 (.role (.create "door" .none)) (managerServer, managerWorld)
      (exec (failing []) (createRole 1 7 "door" .none) managerServer managerWorld) := by
  refine ⟨failing_faulty _, fun h => ?_⟩
  have hfail : Failed managerServer (exec (failing [])
      (createRole 1 7 "door" .none) managerServer managerWorld).1 1 7 :=
    ⟨.internal, "the role was not saved", by decide +kernel⟩
  have hdb := congrArg (fun d : Db => d.roles.rows.map RoleRow.position) (h.failed hfail).db
  revert hdb
  decide +kernel

end PickleChat
