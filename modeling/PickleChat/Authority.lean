import PickleChat.Faults

/-!
# Who may act on whom

Kicks, bans, server mutes and moves are decided on the roles a session was
admitted with and kept up to date with, and on the stored grants of the target.
Handled one after another the two agree, and rank is a strict order.
-/

namespace PickleChat

open Async (Run exec)

/-! ## The order -/

def MayActOn (p : PermState) (owner : Option Fingerprint) (f g : Fingerprint) : Prop :=
  canActOn p.roles (p.grants f) (owner = some f) (p.grants g) (owner = some g) = true

section
variable {p : PermState} {owner : Option Fingerprint} {f g h : Fingerprint}

theorem mayActOn_iff : MayActOn p owner f g ↔ owner ≠ some g ∧
    (owner = some f ∨ topRolePosition p.roles (p.grants g) < topRolePosition p.roles (p.grants f)) := by
  unfold MayActOn canActOn
  by_cases hg : owner = some g
  · simp [hg]
  · by_cases hf : owner = some f
    · simp_all
    · simp [hf, hg]

theorem mayActOn_irrefl : ¬ MayActOn p owner f f := by
  rw [mayActOn_iff]
  rintro ⟨hne, ho | hlt⟩
  · exact hne ho
  · exact UInt32.lt_irrefl _ hlt

theorem mayActOn_trans (hfg : MayActOn p owner f g) (hgh : MayActOn p owner g h) : MayActOn p owner f h := by
  rw [mayActOn_iff] at *
  obtain ⟨hg, hfg⟩ := hfg
  obtain ⟨hh, ho | hlt⟩ := hgh
  · exact absurd ho hg
  · refine ⟨hh, hfg.imp_right fun hlt' => UInt32.lt_trans hlt hlt'⟩

theorem mayActOn_asymm (hfg : MayActOn p owner f g) : ¬ MayActOn p owner g f :=
  fun hgf => mayActOn_irrefl (mayActOn_trans hfg hgf)

end

/-! ## Sessions in step with the snapshot -/

/-- Every session has the grants and the ownership of its fingerprint. -/
structure Coherent (s : Shared) : Prop where
  ids : Keyed.Unique ConnectedClient.id s.clients
  roles : ∀ e ∈ s.clients, e.info.roles = s.perms.grants e.info.fingerprint
  owner : ∀ e ∈ s.clients, e.info.owner = s.isOwner e.info.fingerprint

/-- Rooms are as they were, and sessions that were in step still are. -/
def KeepsSessions (s s' : Shared) : Prop := SameRooms s s' ∧ (Coherent s → Coherent s')

theorem Coherent.of_map {s s' : Shared} (h : Coherent s) (hperms : s'.perms = s.perms) (howner : s'.owner = s.owner)
    {f : ConnectedClient → ConnectedClient} (hclients : s'.clients = s.clients.map f)
    (hf : ∀ e, SameStanding e.info (f e).info) : Coherent s' := by
  have hfp : ∀ e, (f e).info.fingerprint = e.info.fingerprint :=
      fun e => congrArg PublicIdentity.fingerprint (hf e).identity
  refine ⟨?_, ?_, ?_⟩
  · rw [hclients]
    exact h.ids.map fun e => (hf e).clientId
  · intro e' he'
    rw [hclients] at he'
    obtain ⟨e, he, rfl⟩ := List.mem_map.mp he'
    rw [(hf e).roles, hfp, hperms]
    exact h.roles e he
  · intro e' he'
    rw [hclients] at he'
    obtain ⟨e, he, rfl⟩ := List.mem_map.mp he'
    rw [(hf e).owner, hfp]
    unfold Shared.isOwner
    rw [howner]
    exact h.owner e he

theorem SameStanding.refl (i : UserInfo) : SameStanding i i := ⟨rfl, rfl, rfl, rfl⟩

theorem Coherent.deliver {s : Shared} (h : Coherent s) (f : UserInfo → List ServerControl) : Coherent (s.deliver f) :=
  h.of_map rfl rfl rfl fun _ => ⟨rfl, rfl, rfl, rfl⟩

theorem KeepsSessions.tame : Tame KeepsSessions where
  refl s := ⟨.refl s, id⟩
  trans h h' := ⟨h.1.trans h'.1, h'.2 ∘ h.2⟩
  delivered s f := ⟨SameRooms.tame.delivered s f, fun h => h.deliver f⟩
  admitted := by
    intro s t identity nickname info ht
    refine ⟨SameRooms.tame.admitted ht, fun h => ?_⟩
    obtain ⟨-, hid, -, hroles, howner, -, rfl⟩ := Shared.admitUser_ok ht
    have hnew : ∀ e ∈ Keyed.put ConnectedClient.id ⟨info, [], []⟩ s.clients, e.info = info ∨ e ∈ s.clients := by
      intro e he
      rcases Keyed.mem_put.mp he with rfl | ⟨he, -⟩
      · exact .inl rfl
      · exact .inr he
    refine ⟨h.ids.put _, fun e he => ?_, fun e he => ?_⟩
    · rcases hnew e he with hi | he
      · rw [hi, hroles, UserInfo.fingerprint, hid]
        rfl
      · exact h.roles e he
    · rcases hnew e he with hi | he
      · rw [hi, howner, UserInfo.fingerprint, hid]
        rfl
      · exact h.owner e he
  removed s k := ⟨SameRooms.tame.removed s k, fun h =>
    ⟨h.ids.erase k, fun e he => h.roles e (Keyed.mem_erase.mp he).1, fun e he => h.owner e (Keyed.mem_erase.mp he).1⟩⟩
  edited s k f hf := by
    refine ⟨SameRooms.tame.edited s k f hf, fun h => h.of_map rfl rfl rfl fun e => ?_⟩
    split
    · exact hf e.info
    · exact .refl _
  voiced s k packet := by
    refine ⟨relayVoice_rooms s k packet, fun h => ?_⟩
    unfold Shared.relayVoice
    repeat' split
    all_goals first | exact h | refine h.of_map rfl rfl rfl fun e => ?_
    split <;> exact ⟨rfl, rfl, rfl, rfl⟩
  numbered s := ⟨SameRooms.tame.numbered s, fun h => ⟨h.ids, h.roles, h.owner⟩⟩
  ticked s now := ⟨SameRooms.tame.ticked s now, fun h => ⟨h.ids, h.roles, h.owner⟩⟩

/-! ## Role and channel commands -/

section
variable {perform : (op : Await) → World → op.Reply × World} {s : Shared} {client : ClientId} {nonce : UInt64}

theorem Coherent.swap (h : Coherent s) {p : PermState} (hp : ∀ f, p.grants f = s.perms.grants f) :
    Coherent (s.swapPermState p) :=
  ⟨h.ids, fun e he => (h.roles e he).trans (hp _).symm, h.owner⟩

theorem Coherent.withoutRole (h : Coherent s) (id : RoleId) : Coherent (s.withoutRole s.perms id) := by
  have hmem : ∀ e' ∈ (s.withoutRole s.perms id).clients, ∃ e ∈ s.clients,
      e'.info = { e.info with roles := e.info.roles.filter (· ≠ id) } := by
    intro e' he'
    obtain ⟨e, he, rfl⟩ := List.mem_map.mp he'
    refine ⟨e, he, ?_⟩
    split
    · rfl
    · rename_i hn
      have : e.info.roles.filter (· ≠ id) = e.info.roles := List.filter_eq_self.mpr fun j hj => by
        have hne : j ≠ id := fun he => hn (he ▸ hj)
        simpa using hne
      rw [this]
  refine ⟨h.ids.map fun e => by split <;> rfl, fun e' he' => ?_, fun e' he' => ?_⟩
  · obtain ⟨e, he, hi⟩ := hmem e' he'
    rw [hi, show (s.withoutRole s.perms id).perms = deletedPerms s.perms id from rfl, deletedPerms_grants]
    simp only [h.roles e he]
    rfl
  · obtain ⟨e, he, hi⟩ := hmem e' he'
    rw [hi]
    exact h.owner e he

theorem Coherent.withGrants (h : Coherent s) (f : Fingerprint) (roles : List RoleId) :
    Coherent (s.withGrants s.perms f roles) := by
  refine ⟨h.ids.map fun e => by split <;> rfl, fun e' he' => ?_, fun e' he' => ?_⟩
  · rw [show (s.withGrants s.perms f roles).perms = grantedPerms s.perms f roles from rfl, grantedPerms_grants]
    obtain ⟨e, he, rfl⟩ := List.mem_map.mp he'
    by_cases hf : e.info.fingerprint = f
    · rw [if_pos hf]
      simp [UserInfo.fingerprint, show e.info.identity.fingerprint = f from hf]
    · rw [if_neg hf, if_neg hf]
      exact h.roles e he
  · obtain ⟨e, he, rfl⟩ := List.mem_map.mp he'
    split <;> exact h.owner e he

theorem Refused.coherent {s' : Shared} (hr : Refused s client s') (h : Coherent s) : Coherent s' :=
  (KeepsSessions.tame.refused s hr).2 h

theorem Passes.coherent {a : Actor} {cmd : RoleCommand} {next : PermState} {save : Todo}
    (hp : Passes s client nonce a cmd next save) (h : Coherent s) (w : World) :
    Coherent (save.run perform s w).1 := by
  cases hp with
  | create =>
    unfold createRoleSave
    simp only [run_onSaved]
    split; swap; · exact (Refused.refuse ..).coherent h
    split; swap; · exact (Refused.refuse ..).coherent h
    simp only [Async.Task.run_done, createRoleSwap_eq]
    apply Coherent.deliver
    exact h.swap fun _ => rfl
  | update =>
    unfold updateRoleSave
    simp only [run_onSaved]
    split; swap; · exact (Refused.refuse ..).coherent h
    simp only [Async.Task.run_done, updateRoleSwap_eq]
    apply Coherent.deliver
    exact h.swap fun _ => rfl
  | delete =>
    unfold deleteRoleSave
    simp only [run_onSaved, run_onWritten]
    split; swap; · exact (Refused.refuse ..).coherent h
    simp only [Async.Task.run_done, deleteRoleSwap_eq]
    exact (h.withoutRole _).deliver _
  | reorder =>
    unfold reorderRolesSave
    simp only [run_onSaved]
    split; swap; · exact (Refused.refuse ..).coherent h
    simp only [Async.Task.run_done, reorderRolesSwap_eq]
    apply Coherent.deliver
    exact h.swap fun _ => rfl
  | grant =>
    unfold setMemberRolesSave
    simp only [run_onSaved]
    split; swap; · exact (Refused.refuse ..).coherent h
    simp only [Async.Task.run_done, setMemberRolesSwap_eq]
    exact (h.withGrants _ _).deliver _

theorem RoleCommand.coherent (cmd : RoleCommand) (h : Coherent s) (w : World) :
    Coherent (exec perform (cmd.handle client nonce) s w).1 := by
  unfold exec
  rcases handle_cases (rfl : cmd.handle client nonce s = _) with ⟨hd, hr⟩ | ⟨a, next, save, -, -, hp, he⟩
  · rw [hd]
    exact hr.coherent h
  · rw [he]
    exact hp.coherent h w

theorem ChannelPasses.coherent {cmd : ChannelCommand} {c : Change} (hp : ChannelPasses s client nonce cmd c)
    (h : Coherent s) : Coherent (c.mem s) := by
  cases hp with
  | @delete id _ _ =>
    rw [show (Change.delete id).mem s = (s.removeChannelMem id).2 from rfl]
    unfold Shared.removeChannelMem
    split
    · exact h
    · refine h.of_map rfl rfl rfl fun e => ?_
      split <;> exact ⟨rfl, rfl, rfl, rfl⟩
  | _ => exact ⟨h.ids, h.roles, h.owner⟩

theorem ChannelCommand.coherent (hf : Faulty perform) (cmd : ChannelCommand) (h : Coherent s) (w : World) :
    Coherent (exec perform (cmd.handle client nonce) s w).1 := by
  rcases cmd.exec_cases hf s w client nonce with ⟨hr, -⟩ | ⟨c, db, -, hp, -, he⟩
  · exact hr.coherent h
  · rw [he]
    exact (hp.coherent h).deliver fun i => c.frames s i ++ acks client nonce i

end

/-! ## Ban rows and the owner -/

section
variable {perform : (op : Await) → World → op.Reply × World} (hf : Faulty perform) (s : Shared) (w : World)
  (client : ClientId) (nonce : UInt64)
include hf

theorem RoleCommand.bans (cmd : RoleCommand) :
    (exec perform (cmd.handle client nonce) s w).1.owner = s.owner ∧
      (exec perform (cmd.handle client nonce) s w).2.db.bans = w.db.bans := by
  rcases cmd.outcome hf w with ⟨hr, hw⟩ | ⟨next, ho⟩
  · rw [hw]
    exact ⟨hr.sessions.owner, rfl⟩
  · generalize exec perform (cmd.handle client nonce) s w = y at ho ⊢
    cases ho with
    | unsaved => exact ⟨rfl, rfl⟩
    | halfCreated => exact ⟨rfl, rfl⟩
    | uncompacted hs => exact ⟨hs.sessions.owner, rfl⟩
    | saved hs hw =>
      refine ⟨hs.sessions.owner, ?_⟩
      cases hw with
      | create _ hdb =>
        obtain ⟨t, -, rfl⟩ := Option.map_eq_some_iff.mp hdb
        rfl
      | grant hdb =>
        obtain ⟨t, -, rfl⟩ := Option.map_eq_some_iff.mp hdb
        rfl
      | _ => rfl

theorem ChannelCommand.bans (cmd : ChannelCommand) :
    (exec perform (cmd.handle client nonce) s w).1.owner = s.owner ∧
      (exec perform (cmd.handle client nonce) s w).2.db.bans = w.db.bans := by
  rcases cmd.exec_cases hf s w client nonce with ⟨hr, hw⟩ | ⟨c, db, -, hp, hdb, he⟩
  · rw [hw]
    exact ⟨hr.sessions.owner, rfl⟩
  · rw [he]
    cases hp with
    | create =>
      obtain ⟨t, -, rfl⟩ := Option.map_eq_some_iff.mp hdb
      exact ⟨rfl, rfl⟩
    | @delete id _ _ =>
      obtain rfl := Option.some.inj hdb
      refine ⟨?_, rfl⟩
      rw [Shared.deliver_owner, show (Change.delete id).mem s = (s.removeChannelMem id).2 from rfl]
      unfold Shared.removeChannelMem
      split <;> rfl
    | setOverwrite => obtain rfl := Option.some.inj hdb; exact ⟨rfl, rfl⟩
    | deleteOverwrite => obtain rfl := Option.some.inj hdb; exact ⟨rfl, rfl⟩
    | update => obtain rfl := Option.some.inj hdb; exact ⟨rfl, rfl⟩

end

/-! ## What a moderation command needs -/

inductive ModerationCommand where
  | kick (target : ClientId) (reason : String)
  | ban (f : Fingerprint) (reason : String) (untilUnixMs : Option UInt64)
  | mute (target : ClientId) (muted : Bool)
  | move (target : ClientId) (dest : Option ChannelId)

namespace ModerationCommand

def frame (nonce : UInt64) : ModerationCommand → ClientControl
  | kick target reason => .kick nonce target reason
  | ban f reason til => .ban nonce f reason til
  | mute target muted => .setServerMute nonce target muted
  | move target dest => .moveMember nonce target dest

def bit : ModerationCommand → Permissions
  | kick .. => .kickMembers
  | ban .. => .banMembers
  | mute .. => .muteMembers
  | move .. => .moveMembers

def target (s : Shared) : ModerationCommand → Option Fingerprint
  | kick target _ | mute target _ | move target _ => s.fingerprintOf target
  | ban f _ _ => some f

end ModerationCommand

/-- A connected actor holds the bit on the whole server and outranks `f`, who is
neither the owner nor the actor itself. -/
structure Authorised (s : Shared) (actor : ClientId) (bit : Permissions) (f : Fingerprint) (g : Fingerprint) :
    Prop where
  connected : s.fingerprintOf actor = some g
  holds : (resolve s.perms.roles (s.perms.grants g) g (s.isOwner g) none).contains bit = true
  notOwner : s.isOwner f = false
  outranks : s.isOwner g = true ∨
    topRolePosition s.perms.roles (s.perms.grants f) < topRolePosition s.perms.roles (s.perms.grants g)
  other : g ≠ f

section
variable {s : Shared} (h : Coherent s) {client : ClientId} {bit : Permissions} {f : Fingerprint}
include h

theorem Coherent.authorised (hcan : s.canGlobally client bit = true) (hrank : s.actorOutranks client f = true) :
    ∃ g, Authorised s client bit f g := by
  unfold Shared.canGlobally at hcan
  unfold Shared.actorOutranks at hrank
  cases he : s.client? client with
  | none => rw [he] at hcan; cases hcan
  | some e =>
    have hm := Keyed.get_mem he
    simp only [he, h.roles e hm, h.owner e hm, Shared.bits] at hcan hrank
    have hmay : MayActOn s.perms s.owner e.info.fingerprint f := hrank
    obtain ⟨hf, hlt⟩ := mayActOn_iff.mp hmay
    refine ⟨e.info.fingerprint, by unfold Shared.fingerprintOf; rw [he]; rfl, hcan, by simpa [Shared.isOwner] using hf,
      hlt.imp_left fun ho => by simpa [Shared.isOwner] using ho, ?_⟩
    rintro rfl
    exact mayActOn_irrefl hmay

theorem Coherent.authorize {nonce : UInt64} {target : ClientId}
    (hok : authorizeAgainstOnline s client nonce bit target = .ok f) :
    s.fingerprintOf target = some f ∧ ∃ g, Authorised s client bit f g := by
  unfold authorizeAgainstOnline at hok
  split at hok; · cases hok
  rename_i hcan
  split at hok; · cases hok
  rename_i f' hf
  split at hok; · cases hok
  rename_i hrank
  cases hok
  exact ⟨hf, h.authorised (by simpa using hcan) (by simpa using hrank)⟩

end

/-- What a moderation command did: nothing but a refusal; or it was authorised,
and left the sessions of everyone else as they were. -/
def Moderated (cmd : ModerationCommand) (actor : ClientId) (x y : Shared × World) : Prop :=
  (Refused x.1 actor y.1 ∧ y.2 = x.2) ∨
    ∃ f g, cmd.target x.1 = some f ∧ Authorised x.1 actor cmd.bit f g ∧
      ∀ k e, x.1.client? k = some e → e.info.fingerprint ≠ f → y.1.user k = some e.info

section
variable {s : Shared} {k target : ClientId} {e : ConnectedClient} {f : Fingerprint}

theorem ne_of_fingerprint (ht : s.fingerprintOf target = some f) (he : s.client? k = some e)
    (hne : e.info.fingerprint ≠ f) : k ≠ target := by
  rintro rfl
  unfold Shared.fingerprintOf at ht
  rw [he] at ht
  exact hne (Option.some.inj ht)

theorem user_modifyInfo (hk : k ≠ target) (he : s.client? k = some e) (g : UserInfo → UserInfo)
    (hg : ∀ i, (g i).clientId = i.clientId) : (s.modifyInfo target g).user k = some e.info := by
  unfold Shared.user Shared.modifyInfo
  have hget : Keyed.get ConnectedClient.id k (Keyed.modify ConnectedClient.id target
      (fun e => { e with info := g e.info }) s.clients) = Keyed.get ConnectedClient.id k s.clients := by
    rw [Keyed.get_modify fun e => hg e.info, if_neg hk]
  unfold Shared.client? at he ⊢
  rw [hget, he]
  rfl

theorem user_deliver (s : Shared) (f : UserInfo → List ServerControl) (k : ClientId) :
    (s.deliver f).user k = s.user k := by
  unfold Shared.user
  rw [Shared.deliver_client?, Option.map_map]
  rfl

end

/-! ## The four handlers -/

section
variable {perform : (op : Await) → World → op.Reply × World} (hf : Faulty perform) {s : Shared} (h : Coherent s)
  {client : ClientId} {nonce : UInt64}
include hf h

theorem kick_moderated (target : ClientId) (reason : String) (w : World) :
    Moderated (.kick target reason) client (s, w) (exec perform (kick client nonce target) s w) := by
  cases ha : authorizeAgainstOnline s client nonce .kickMembers target with
  | error s' =>
    unfold exec kick
    simp only [ha]
    exact .inl ⟨authorize_error ha, rfl⟩
  | ok f =>
    obtain ⟨ht, g, hg⟩ := h.authorize ha
    have hrun : exec perform (kick client nonce target) s w = (ack (s.eject target .kicked).2 client nonce, w) := by
      have hk : kick client nonce target s = ejectAndClose target .kicked (fun s => (ack s client nonce, .done)) s := by
        simp only [kick, ha]
      unfold exec
      rw [hk]
      exact exec_ejectAndClose hf target .kicked _ s w
    refine .inr ⟨f, g, ht, hg, fun k e he hne => ?_⟩
    rw [hrun, ack_eq, user_deliver, eject_user s (ne_of_fingerprint ht he hne)]
    unfold Shared.user
    rw [he]
    rfl

theorem ban_moderated (f : Fingerprint) (reason : String) (til : Option UInt64) (w : World) :
    Moderated (.ban f reason til) client (s, w) (exec perform (ban client nonce f reason til) s w) := by
  rcases exec_ban hf f reason til s w with hr | ⟨hcan, hrank, -, b, t, -, he, -, -, hstay⟩
  · exact .inl hr
  · obtain ⟨g, hg⟩ := h.authorised hcan hrank
    refine .inr ⟨f, g, rfl, hg, fun k e hk hne => ?_⟩
    have hnot : k ∉ sessionsOf s f := by
      intro hm
      obtain ⟨e', he', hf', hid⟩ := mem_sessionsOf.mp hm
      have heq : e' = e := Keyed.eq_of_key h.ids he' (Keyed.get_mem hk) (hid.trans (Shared.client?_id hk).symm)
      exact hne (heq ▸ hf')
    rw [he, ack_eq, user_deliver, hstay k hnot]
    unfold Shared.user
    rw [hk]
    rfl

omit hf in
theorem mute_moderated (target : ClientId) (muted : Bool) (w : World) :
    Moderated (.mute target muted) client (s, w) (exec perform (setServerMute client nonce target muted) s w) := by
  unfold exec setServerMute
  split
  · exact .inl ⟨authorize_error ‹_›, rfl⟩
  · rename_i f ha
    obtain ⟨ht, g, hg⟩ := h.authorize ha
    split
    · exact .inl ⟨.refuse .., rfl⟩
    · rename_i hs
      obtain ⟨m, hsame, -, rfl⟩ := Shared.setServerMuted_some hs
      refine .inr ⟨f, g, ht, hg, fun k e he hne => ?_⟩
      rw [Async.Task.run_done, ack_eq, Shared.broadcast_none, user_deliver, user_deliver]
      exact user_modifyInfo (ne_of_fingerprint ht he hne) he m fun i => (SameStanding.of_voice (hsame i)).clientId

omit hf in
theorem move_moderated (target : ClientId) (dest : Option ChannelId) (w : World) :
    Moderated (.move target dest) client (s, w) (exec perform (moveMember client nonce target dest) s w) := by
  unfold exec moveMember
  split
  · exact .inl ⟨authorize_error ‹_›, rfl⟩
  · rename_i f ha
    obtain ⟨ht, g, hg⟩ := h.authorize ha
    split; · exact .inl ⟨.refuse .., rfl⟩
    split; · exact .inl ⟨.refuse .., rfl⟩
    split
    · rename_i hm
      obtain ⟨_, -, -, -, rfl⟩ := Shared.forceMove_ok hm
      refine .inr ⟨f, g, ht, hg, fun k e he hne => ?_⟩
      rw [Async.Task.run_done, ack_eq, Shared.broadcast_none, user_deliver, user_deliver]
      exact user_modifyInfo (ne_of_fingerprint ht he hne) he _ fun _ => rfl
    · exact .inl ⟨.refuse .., rfl⟩

theorem ModerationCommand.moderated (client : ClientId) (nonce : UInt64) (cmd : ModerationCommand) (w : World) :
    Moderated cmd client (s, w) (serve perform (.control client (cmd.frame nonce)) s w) := by
  cases cmd with
  | kick target reason => exact kick_moderated hf h target reason w
  | ban f reason til => exact ban_moderated hf h f reason til w
  | mute target muted => exact mute_moderated h target muted w
  | move target dest => exact move_moderated h target dest w

end

/-! ## Whole runs -/

/-- One input, handled alone, with any of its store calls failing. -/
def FaultyStep (x : Shared × World) (i : Input) (y : Shared × World) : Prop :=
  ∃ perform, Faulty perform ∧ serve perform i x.1 x.2 = y

/-- Sessions are in step, and nobody wrote a ban row for the owner. -/
structure Sound (owner : Option Fingerprint) (db₀ : Db) (x : Shared × World) : Prop where
  coherent : Coherent x.1
  owned : x.1.owner = owner
  unbanned : ∀ f, owner = some f → ∀ row ∈ x.2.db.bans.rows, row.fingerprint = f.toText → row ∈ db₀.bans.rows

section
variable {perform : (op : Await) → World → op.Reply × World} (hf : Faulty perform) {owner : Option Fingerprint}
  {db₀ : Db} {s : Shared} {w : World} {client : ClientId} {nonce : UInt64} (h : Sound owner db₀ (s, w))
include hf h

theorem Sound.ban (f : Fingerprint) (reason : String) (til : Option UInt64)
    (hc : Coherent (exec perform (ban client nonce f reason til) s w).1)
    (ho : (exec perform (PickleChat.ban client nonce f reason til) s w).1.owner = s.owner) :
    Sound owner db₀ (exec perform (PickleChat.ban client nonce f reason til) s w) := by
  refine ⟨hc, ho.trans h.owned, fun g hg row hrow hid => ?_⟩
  rcases exec_ban hf f reason til s w with ⟨-, hw⟩ | ⟨hcan, hrank, -, b, t, hb, he, -, -, -⟩
  · rw [hw] at hrow
    exact h.unbanned g hg row hrow hid
  · rw [he] at hrow
    rcases mem_insertBan.mp hrow with rfl | ⟨hrow, -⟩
    · -- The owner cannot be outranked.
      obtain ⟨_, hauth⟩ := h.coherent.authorised hcan hrank
      have hfg : f = g := hb ▸ Fingerprint.toText_inj hid
      have howner : s.isOwner f = true := by
        unfold Shared.isOwner
        rw [show s.owner = some g from h.owned.trans hg, hfg]
        simp
      rw [hauth.notOwner] at howner
      cases howner
    · exact h.unbanned g hg row hrow hid

omit h in
theorem unban_bans (f : Fingerprint) :
    ∀ row ∈ (exec perform (unban client nonce f) s w).2.db.bans.rows, row ∈ w.db.bans.rows := by
  unfold exec unban
  split; · exact fun row hrow => hrow
  split; · exact fun row hrow => hrow
  dsimp only
  rw [run_onSaved]
  rcases hf.save (.deleteBan f) w with ⟨db, hdb, hp⟩ | hp
  · obtain rfl : w.db.deleteBan f = db := Option.some.inj hdb
    rw [hp, if_pos rfl]
    exact fun row hrow => (Keyed.Table.mem_delete.mp hrow).1
  · rw [hp, if_neg Bool.false_ne_true]
    exact fun row hrow => hrow

end

theorem Sound.step {owner : Option Fingerprint} {db₀ : Db} {x y : Shared × World} {i : Input} (h : Sound owner db₀ x)
    (hst : FaultyStep x i y) : Sound owner db₀ y := by
  obtain ⟨perform, hf, rfl⟩ := hst
  obtain ⟨s, w⟩ := x
  have kept : ∀ {y : Shared × World}, Coherent y.1 → y.1.owner = s.owner →
      (∀ row ∈ y.2.db.bans.rows, row ∈ w.db.bans.rows) → Sound owner db₀ y := by
    intro y hc ho hb
    exact ⟨hc, ho.trans h.owned, fun f hown row hrow => h.unbanned f hown row (hb row hrow)⟩
  have hmsg : ∀ m, Spares Db.bans (.insertMessage m) := by
    intro m db db' hdb
    obtain ⟨t, -, rfl⟩ := Option.map_eq_some_iff.mp hdb
    rfl
  -- Sessions stay in step whatever becomes of the tables.
  have sessions : (∀ client frame, i = .control client frame → frame.plain = true) →
      Coherent (serve perform i s w).1 ∧ (serve perform i s w).1.owner = s.owner := by
    intro hi
    have ht : Traced KeepsSessions (fun _ => ()) s w _ _ := i.traced KeepsSessions.tame hf s w
      (fun _ _ _ _ _ _ _ _ _ _ => rfl) (fun _ _ _ _ _ _ _ => rfl) fun client frame he => .inl (hi client frame he)
    exact ⟨ht.1.2 h.coherent, ht.1.1.owner⟩
  have quiet := fun hban hunban hi =>
    have ht : Traced KeepsSessions Db.bans s w _ _ := i.traced KeepsSessions.tame hf s w hban hunban hi
    kept (ht.1.2 h.coherent) ht.1.1.owner fun row hrow => ht.2 ▸ hrow
  cases i with
  | control client frame =>
    rcases frame.kinds with ⟨nonce, cmd, rfl⟩ | ⟨nonce, cmd, rfl⟩ | hm | hp
    · rw [serve_role]
      have hb := cmd.bans hf s w client nonce
      exact kept (cmd.coherent h.coherent w) hb.1 fun row hrow => hb.2 ▸ hrow
    · rw [serve_channel]
      have hb := cmd.bans hf s w client nonce
      exact kept (cmd.coherent hf h.coherent w) hb.1 fun row hrow => hb.2 ▸ hrow
    · obtain ⟨channel, content, replyTo, nonce, rfl⟩ := hm
      exact quiet (fun _ _ _ _ _ he => nomatch he) (fun _ _ _ he => nomatch he) fun _ _ he => by
        cases he; exact .inr ⟨hmsg, _, _, _, _, rfl⟩
    · have hs := sessions fun _ _ he => by cases he; exact hp
      by_cases hban : ∃ nonce f reason til, frame = .ban nonce f reason til
      · obtain ⟨nonce, f, reason, til, rfl⟩ := hban
        exact h.ban hf f reason til hs.1 hs.2
      · by_cases hunban : ∃ nonce f, frame = .unban nonce f
        · obtain ⟨nonce, f, rfl⟩ := hunban
          exact kept hs.1 hs.2 (unban_bans hf f)
        · refine quiet (fun _ nonce f reason til he => ?_) (fun _ nonce f he => ?_) fun _ _ he => ?_
          · cases he; exact absurd ⟨nonce, f, reason, til, rfl⟩ hban
          · cases he; exact absurd ⟨nonce, f, rfl⟩ hunban
          · cases he; exact .inl hp
  | connect => exact quiet (fun _ _ _ _ _ he => nomatch he) (fun _ _ _ he => nomatch he) fun _ _ he => nomatch he
  | voice => exact quiet (fun _ _ _ _ _ he => nomatch he) (fun _ _ _ he => nomatch he) fun _ _ he => nomatch he
  | disconnect => exact quiet (fun _ _ _ _ _ he => nomatch he) (fun _ _ _ he => nomatch he) fun _ _ he => nomatch he
  | tick => exact quiet (fun _ _ _ _ _ he => nomatch he) (fun _ _ _ he => nomatch he) fun _ _ he => nomatch he

/-- In every run, a moderation command that does anything but be refused was
authorised against the one it acts on; so the owner's sessions stay as they are,
the owner gets no ban row, nobody acts on themselves, and rank is a strict order. -/
theorem moderation_authorised {s₀ : Shared} {w₀ : World} {x : Shared × World} (hstart : s₀.clients = [])
    (hrun : Run FaultyStep (fun _ _ => True) (s₀, w₀) x) :
    (∀ (perform : (op : Await) → World → op.Reply × World) (client : ClientId) (nonce : UInt64)
        (cmd : ModerationCommand), Faulty perform →
      Moderated cmd client x (serve perform (.control client (cmd.frame nonce)) x.1 x.2) ∧
      ∀ k e, x.1.client? k = some e → x.1.isOwner e.info.fingerprint = true →
        (serve perform (.control client (cmd.frame nonce)) x.1 x.2).1.user k = some e.info) ∧
    (∀ f, x.1.isOwner f = true → ∀ row ∈ x.2.db.bans.rows, row.fingerprint = f.toText → row ∈ w₀.db.bans.rows) ∧
    ∀ (p : PermState) (owner : Option Fingerprint),
      (∀ f, ¬ MayActOn p owner f f) ∧ (∀ f g, MayActOn p owner f g → ¬ MayActOn p owner g f) ∧
      ∀ f g h, MayActOn p owner f g → MayActOn p owner g h → MayActOn p owner f h := by
  have h₀ : Sound s₀.owner w₀.db (s₀, w₀) :=
    ⟨⟨hstart ▸ Keyed.Unique.nil, by simp [hstart], by simp [hstart]⟩, rfl, fun _ _ _ hrow _ => hrow⟩
  have h := hrun.invariant (Sound s₀.owner w₀.db) h₀ fun _ _ _ hi _ hst => hi.step hst
  refine ⟨fun perform client nonce cmd hf => ?_, fun f hown => ?_, fun p owner => ?_⟩
  · have hmod := ModerationCommand.moderated hf h.coherent client nonce cmd x.2
    refine ⟨hmod, fun k e he hown => ?_⟩
    rcases hmod with ⟨hr, -⟩ | ⟨f, g, -, hauth, hstay⟩
    · have huser : x.1.user k = some e.info := by unfold Shared.user; rw [he]; rfl
      rw [← huser]
      rcases hr with hr | ⟨_, _, _, hr⟩
      · rw [hr]
      · rw [hr, refuse_eq, user_deliver]
    · refine hstay k e he fun hf => ?_
      rw [hf, hauth.notOwner] at hown
      cases hown
  · refine h.unbanned f ?_
    have : x.1.owner = some f := by simpa [Shared.isOwner] using hown
    rw [← h.owned, this]
  · exact ⟨fun f => mayActOn_irrefl, fun f g => mayActOn_asymm, fun f g h => mayActOn_trans⟩

/-- The owner and a guest are connected; the guest kicks the owner in vain. -/
theorem moderation_authorised_guest :
    ∃ s₀ db₀ x e, Server.bind ownedConfig 5 .empty = some (s₀, db₀) ∧
      Run FaultyStep (fun _ _ => True) (s₀, ⟨db₀, []⟩) x ∧ x.1.clients.length = 2 ∧ x.1.client? 1 = some e ∧
      (serve Await.perform (.control 2 (.kick 7 1 "")) x.1 x.2).1.user 1 = some e.info := by
  have hrun : ∃ s₀ db₀ x e, Server.bind ownedConfig 5 .empty = some (s₀, db₀) ∧ s₀.clients = [] ∧
      Run FaultyStep (fun _ _ => True) (s₀, ⟨db₀, []⟩) x ∧ x.1.clients.length = 2 ∧ x.1.client? 1 = some e ∧
      x.1.isOwner e.info.fingerprint = true :=
    ⟨_, _, _, _, rfl, rfl,
      .step (.connect ⟨protocolVersion, ⟨.rep 2, 8⟩, "n", none, true⟩)
        (.step ownerConnects .refl trivial ⟨Await.perform, Await.faulty, rfl⟩) trivial
        ⟨Await.perform, Await.faulty, rfl⟩, by decide +kernel, rfl, by decide +kernel⟩
  obtain ⟨s₀, db₀, x, e, hb, hs, hrun, hlen, he, hown⟩ := hrun
  have hsafe := (moderation_authorised hs hrun).1 Await.perform 2 7 (.kick 1 "") Await.faulty
  exact ⟨s₀, db₀, x, e, hb, hrun, hlen, he, hsafe.2 1 e he hown⟩

end PickleChat
