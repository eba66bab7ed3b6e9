import PickleChat.ChannelViews
import PickleChat.RoleLists
import PickleChat.Sections

/-!
# Channel lists while commands and handshakes overlap

A command notes what every client sees, changes the state and sends each of
them the difference. A handshake takes a list of its own, with no lock shared
with the command. Two commands that overlap, or a client that is greeted
between a command's note and its change, leave a list that is wrong for good.
-/

namespace PickleChat

open Async (Run)

/-! ## How far a command is -/

inductive Stage where
  | idle
  | capturing
  /-- It knows what everyone sees, and nothing has changed since. -/
  | fresh
  | stripping (role : RoleId)
  | stripped (role : RoleId)
  | changed
  | recapturing
  | diffing
  | posting
  deriving DecidableEq

def stage : List Section → Stage
  | [] => .idle
  | .snapshot :: .capture :: _ => .idle
  | .snapshot :: _ => .changed
  | .capture :: _ => .capturing
  -- A swap that no resync follows is outside of any window.
  | .swap _ :: rest => if stage rest = .idle then .idle else .fresh
  | .stripOverwrites role :: _ => .stripping role
  | .stripLive role :: _ => .stripped role
  | .updateLive _ _ :: _ | .setOverwrite _ _ :: _ | .removeOverwrite _ _ :: _ | .insertChannel _ :: _
  | .updateChannel _ :: _ | .removeChannel _ :: _ => .fresh
  | .recapture :: _ => .recapturing
  | .diff :: _ => .diffing
  | .post _ m :: rest => if m.aboutChannels then .posting else stage rest
  | .save _ _ :: rest | .write _ :: rest | .tell _ :: rest | .announce :: rest | .announceEvicted _ :: rest =>
      stage rest

/-- The channel frames a command has still to send. -/
def outgoing : List Section → List (ClientId × ServerControl)
  | [] => []
  | .post k m :: rest => if m.aboutChannels then (k, m) :: outgoing rest else outgoing rest
  | _ :: rest => outgoing rest

/-- The sections come in the order in which the commands have them. -/
def Staged (p : PermState) : List Section → Prop
  | [] => True
  | x :: rest => Staged p rest ∧ (stage (x :: rest) = .posting ∨ outgoing (x :: rest) = []) ∧
    match x with
    | .snapshot => (∃ r, rest = .capture :: r) ∨ ∃ r, rest = .recapture :: r
    | .capture => stage rest = .fresh
    | .save _ _ => stage rest = .idle ∨ stage rest = .fresh
    | .swap next => stage rest = .idle ∨ stage rest = .changed ∨ (stage rest = .fresh ∧ next.roles = p.roles) ∨
        ∃ role, stage rest = .stripping role ∧ next = deletedPerms p role
    | .stripOverwrites role => stage rest = .stripped role
    | .stripLive _ | .updateLive _ _ | .setOverwrite _ _ | .removeOverwrite _ _ | .insertChannel _ | .updateChannel _
    | .removeChannel _ => stage rest = .changed
    | .recapture => stage rest = .diffing
    | .diff => stage rest = .idle
    | .tell m => m.aboutChannels = false
    | .post _ _ => stage rest = .idle ∨ stage rest = .posting
    | _ => True

theorem Order.staged (o : Order) (client : ClientId) (nonce : UInt64) (p : PermState) :
    Staged p (o.sections client nonce p) ∧ stage (o.sections client nonce p) = .idle := by
  cases o <;> simp [sections, captures, resyncs, Staged, stage, outgoing, ServerControl.aboutChannels, grantedPerms]

theorem Staged.out {p : PermState} {rest : List Section} (h : Staged p rest) :
    stage rest = .posting ∨ outgoing rest = [] := by
  cases rest with
  | nil => exact .inr rfl
  | cons x rest => exact h.2.1

theorem staged_tells {more : List Section} (h : ∀ y ∈ more, ∃ m, y = .tell m ∧ m.aboutChannels = false)
    {p : PermState} {rest : List Section} (hr : Staged p rest) :
    Staged p (more ++ rest) ∧ stage (more ++ rest) = stage rest ∧ outgoing (more ++ rest) = outgoing rest := by
  induction more with
  | nil => exact ⟨hr, rfl, rfl⟩
  | cons y more ih =>
    obtain ⟨hs, hst, hout⟩ := ih fun z hz => h z (List.mem_cons_of_mem _ hz)
    obtain ⟨m, rfl, hm⟩ := h y (List.mem_cons_self ..)
    exact ⟨⟨hs, hs.out, hm⟩, hst, hout⟩

theorem staged_posts {more : List (ClientId × ServerControl)} (h : ∀ b ∈ more, b.2.aboutChannels = true)
    {p : PermState} {rest : List Section} (hr : Staged p rest) (hi : stage rest = .idle) :
    Staged p (more.map (fun b => .post b.1 b.2) ++ rest) ∧ outgoing (more.map (fun b => .post b.1 b.2) ++ rest) = more ∧
      (stage (more.map (fun b => .post b.1 b.2) ++ rest) = .posting ∨
        (more = [] ∧ stage (more.map (fun b => .post b.1 b.2) ++ rest) = .idle)) := by
  induction more with
  | nil =>
    refine ⟨hr, ?_, .inr ⟨rfl, hi⟩⟩
    rcases hr.out with hp | ho
    · rw [hi] at hp
      cases hp
    · exact ho
  | cons b more ih =>
    obtain ⟨hs, hout, hst⟩ := ih fun c hc => h c (List.mem_cons_of_mem _ hc)
    have hb := h b (List.mem_cons_self ..)
    have hposting : stage (.post b.1 b.2 :: (more.map (fun b => .post b.1 b.2) ++ rest)) = .posting := by
      simp [stage, hb]
    refine ⟨⟨hs, .inl hposting, ?_⟩, ?_, .inl hposting⟩
    · rcases hst with hst | ⟨-, hst⟩
      · exact .inr hst
      · exact .inl hst
    · simp [outgoing, hb, hout]

/-! ## What the others may rely on -/

/-- Job `k` is a command between its note of what everyone sees and the last frame it sends for it. -/
def Floor.Window (p : Floor) (k : Nat) (d : Desk) (st : Stage) (out : List (ClientId × ServerControl)) : Prop :=
  st ≠ .idle ∧ ∃ client nonce snapshot rest, p.jobs k = some (.working client nonce snapshot d rest) ∧
    stage rest = st ∧ outgoing rest = out

/-- The client id belongs to somebody, or to somebody a command is about to write to. -/
def Floor.Used (p : Floor) (id : ClientId) : Prop :=
  (∃ e, p.shared.client? id = some e) ∨ (∃ i j info, p.jobs i = some j ∧ j.info? = some info ∧ info.clientId = id) ∨
    ∃ k d st out, p.Window k d st out ∧ ∃ b ∈ d.before, b.1 = id

/-- The `AuthOk` of this connection has its channels. -/
def Job.greeted : Job → Bool
  | greeting _ _ | connected _ _ => true
  | _ => false

/-- What the next section of a command must meet. -/
structure Clear (p : Floor) (snapshot : PermState) (d : Desk) (x : Section) (rest : List Section) : Prop where
  /-- No other command is between its note and its last frame. -/
  window : x = .snapshot → stage rest = .capturing → ∀ k d st out, ¬ p.Window k d st out
  /-- A swap that no resync follows changes what nobody sees. -/
  quiet : ∀ next, x = .swap next → stage rest = .idle → (∀ k d st out, ¬ p.Window k d st out) ∧
    ∀ e ∈ p.shared.clients, (p.shared.swapPermState next).visibleChannels e.info = p.shared.visibleChannels e.info
  /-- Any other is made from the snapshot in force. -/
  current : ∀ next, x = .swap next → stage rest ≠ .idle → snapshot = p.shared.perms
  /-- Ids are distinct, as the primary keys of the tables have it. -/
  distinct : ∀ next, x = .swap next → Keyed.Unique Role.id snapshot.roles
  unused : ∀ c, x = .insertChannel c → p.shared.channel c.id = none
  /-- Whoever was greeted after the note sees no change. -/
  late : stage (x :: rest) ≠ .idle → ∀ k j info e e', p.jobs k = some j → j.greeted = true → j.info? = some info →
    p.shared.client? info.clientId = some e → (x.run d p.shared).1.client? info.clientId = some e' →
    (∀ b ∈ d.before, b.1 ≠ info.clientId) →
    (x.run d p.shared).1.visibleChannels e'.info = p.shared.visibleChannels e.info

/-- Client ids do not come round, `AuthOk` lists what the client may view when
the list is made, and commands do not get in each other's way. -/
def OrderlyViews (p : Floor) : Turn → Prop
  | .insert _ => ¬ p.Used p.shared.nextClientId
  | .look i => ∀ info seen e, p.jobs i = some (.looking info seen) → p.shared.client? info.clientId = some e →
      (p.shared.swapPermState seen).visibleChannels info = p.shared.visibleChannels e.info
  | .advance i => ∀ client nonce snapshot d x rest,
      p.jobs i = some (.working client nonce snapshot d (x :: rest)) → Clear p snapshot d x rest
  | _ => True

/-! ## The invariant -/

/-- What a command in its window knows about the state. -/
def Ready (s : Shared) (d : Desk) (out : List (ClientId × ServerControl)) : Stage → Prop
  | .idle | .changed => True
  | .capturing | .recapturing => d.seen = s.perms
  | .fresh => d.touched = [] ∧ ∀ k e was, s.client? k = some e → (k, was) ∈ d.before →
      ∀ id, id ∈ was ↔ (s.view e.info id).isSome = true
  | .stripping role => d.touched = [] ∧ (∀ r ∈ s.perms.roles, r.id ≠ role) ∧
      ∀ k e was, s.client? k = some e → (k, was) ∈ d.before → ∀ id, (s.view e.info id).isSome = true → id ∈ was
  | .stripped role => (∀ r ∈ s.perms.roles, r.id ≠ role) ∧
      ∀ c ∈ s.channels, ∀ o ∈ c.overwrites, o.target ≠ .role role
  | .diffing => ∀ k e was, s.client? k = some e → (k, was) ∈ d.before →
      ∃ now, Keyed.get Prod.fst k d.after = some now ∧ ∀ id, id ∈ now.2 ↔ (s.view e.info id).isSome = true
  | .posting => (∀ b ∈ out, ∃ c ∈ d.before, c.1 = b.1) ∧ ∀ k e m, s.client? k = some e → (k, m) ∈ out →
      ∃ u, m.update? = some u ∧ u.2 = s.view e.info u.1

/-- The command will tell this client about channel `id`. -/
def Covers (s : Shared) (d : Desk) (out : List (ClientId × ServerControl)) (k : ClientId) (info : UserInfo)
    (id : ChannelId) : Stage → Prop
  | .idle | .capturing | .fresh => False
  | .posting => ∃ m a, (k, m) ∈ out ∧ m.update? = some (id, a)
  | _ => ∃ was, (k, was) ∈ d.before ∧
      ((id ∈ was ↔ ¬ (s.view info id).isSome = true) ∨ (id ∈ was ∧ id ∈ d.touched))

/-- Where the client's list starts from: its `AuthOk`, or what it would be. -/
def Job.base (v : ChannelId → Option Channel) : Job → ChannelId → Option Channel
  | greeting _ channels | connected _ channels => listed channels
  | _ => v

structure Synced (p : Floor) : Prop where
  ids : Keyed.Unique ConnectedClient.id p.shared.clients
  rooms : Keyed.Unique Channel.id p.shared.channels
  plans : ∀ k client nonce snapshot d rest, p.jobs k = some (.working client nonce snapshot d rest) →
    Staged snapshot rest
  one : ∀ k k' d d' st st' out out', p.Window k d st out → p.Window k' d' st' out' → k = k'
  ready : ∀ k d st out, p.Window k d st out → Ready p.shared d out st
  heard : ∀ i j info e, p.jobs i = some j → j.info? = some info → p.shared.client? info.clientId = some e → ∀ id,
    held (j.base (p.shared.view e.info)) e.control id = p.shared.view e.info id ∨
      ∃ k d st out, p.Window k d st out ∧ Covers p.shared d out info.clientId e.info id st
  /-- Nothing about channels is queued for a client inserted after the note and not yet greeted. -/
  silent : ∀ k d st out i j info e, p.Window k d st out → st ≠ .capturing → p.jobs i = some j → j.greeted = false →
    j.info? = some info → p.shared.client? info.clientId = some e → (∀ b ∈ d.before, b.1 ≠ info.clientId) →
    ∀ m ∈ e.control, m.update? = none

/-! ## Steps that leave the views alone -/

theorem update?_none {m : ServerControl} (h : m.aboutChannels = false) : m.update? = none := by
  cases m <;> first | rfl | cases h

/-- Entries keep their standing, and are sent nothing about channels. -/
structure CalmViews (s t : Shared) : Prop where
  perms : t.perms = s.perms
  channels : t.channels = s.channels
  ids : Keyed.Unique ConnectedClient.id s.clients → Keyed.Unique ConnectedClient.id t.clients
  clients : ∀ k e', t.client? k = some e' → ∃ e, s.client? k = some e ∧ SameStanding e.info e'.info ∧
    ∃ frames, e'.control = e.control ++ frames ∧ ∀ m ∈ frames, m.update? = none

theorem CalmViews.refl (s : Shared) : CalmViews s s :=
  ⟨rfl, rfl, id, fun _ e he => ⟨e, he, ⟨rfl, rfl, rfl, rfl⟩, [], by simp, by simp⟩⟩

theorem CalmViews.of_map {s t : Shared} {f : ConnectedClient → ConnectedClient} (hperms : t.perms = s.perms)
    (hchannels : t.channels = s.channels) (ht : t.clients = s.clients.map f)
    (hf : ∀ e, SameStanding e.info (f e).info ∧
      ∃ frames, (f e).control = e.control ++ frames ∧ ∀ m ∈ frames, m.update? = none) : CalmViews s t := by
  have hid : ∀ e, (f e).id = e.id := fun e => (hf e).1.clientId
  refine ⟨hperms, hchannels, fun hu => ?_, fun k e' he' => ?_⟩
  · rw [ht]
    exact hu.map hid
  · unfold Shared.client? at he'
    rw [ht, Keyed.get_map hid] at he'
    obtain ⟨e, he, rfl⟩ := Option.map_eq_some_iff.mp he'
    exact ⟨e, he, hf e⟩

theorem CalmViews.deliver (s : Shared) {f : UserInfo → List ServerControl}
    (hf : ∀ i, ∀ m ∈ f i, m.aboutChannels = false) :
    CalmViews s (s.deliver f) :=
  .of_map rfl rfl rfl fun e => ⟨⟨rfl, rfl, rfl, rfl⟩, f e.info, rfl, fun m hm => update?_none (hf _ m hm)⟩

theorem CalmViews.remove (s : Shared) (k : ClientId) : CalmViews s (s.remove k).2 := by
  refine ⟨rfl, rfl, fun hu => hu.erase k, fun k' e he => ?_⟩
  have hget : s.client? k' = some e := by
    have herase : Keyed.get ConnectedClient.id k' (Keyed.erase ConnectedClient.id k s.clients) = some e := he
    rw [Keyed.get_erase] at herase
    split at herase
    · cases herase
    · exact herase
  exact ⟨e, hget, ⟨rfl, rfl, rfl, rfl⟩, [], by simp, by simp⟩

theorem Elsewhere.calm {s t : Shared} (h : Elsewhere s t) : CalmViews s t := by
  cases h with
  | told f hf => exact .deliver s hf
  | removed k => exact .remove s k
  | edited k f hf =>
    refine .of_map rfl rfl rfl fun e => ?_
    split
    · exact ⟨hf e.info, [], by simp, by simp⟩
    · exact ⟨⟨rfl, rfl, rfl, rfl⟩, [], by simp, by simp⟩
  | voiced k packet =>
    unfold Shared.relayVoice
    repeat' split
    all_goals first | exact .refl s | refine .of_map rfl rfl rfl fun e => ?_
    split <;> exact ⟨⟨rfl, rfl, rfl, rfl⟩, [], by simp, by simp⟩
  | numbered => exact ⟨rfl, rfl, id, (CalmViews.refl s).clients⟩
  | ticked now => exact ⟨rfl, rfl, id, (CalmViews.refl s).clients⟩

section
variable {s t : Shared}

theorem CalmViews.view (h : CalmViews s t) {e e' : ConnectedClient} (hs : SameStanding e.info e'.info) :
    t.view e'.info = s.view e.info := by
  funext id
  refine Shared.view_congr (by rw [h.perms]) ?_ hs.roles ?_ hs.owner
  · unfold Shared.channel
    rw [h.channels]
  · exact congrArg PublicIdentity.fingerprint hs.identity

theorem Ready.calm {d : Desk} {out : List (ClientId × ServerControl)} {st : Stage} (hr : Ready s d out st)
    (h : CalmViews s t) : Ready t d out st := by
  cases st with
  | idle | changed => trivial
  | capturing | recapturing => exact Eq.trans hr h.perms.symm
  | fresh =>
    refine ⟨hr.1, fun k e' was he' hw id => ?_⟩
    obtain ⟨e, he, hs, -⟩ := h.clients k e' he'
    rw [h.view hs]
    exact hr.2 k e was he hw id
  | stripping role =>
    refine ⟨hr.1, ?_, fun k e' was he' hw id => ?_⟩
    · rw [h.perms]
      exact hr.2.1
    · obtain ⟨e, he, hs, -⟩ := h.clients k e' he'
      rw [h.view hs]
      exact hr.2.2 k e was he hw id
  | stripped role =>
    unfold Ready
    rw [h.perms, h.channels]
    exact hr
  | diffing =>
    intro k e' was he' hw
    obtain ⟨e, he, hs, -⟩ := h.clients k e' he'
    rw [h.view hs]
    exact hr k e was he hw
  | posting =>
    refine ⟨hr.1, fun k e' m he' hm => ?_⟩
    obtain ⟨e, he, hs, -⟩ := h.clients k e' he'
    rw [h.view hs]
    exact hr.2 k e m he hm

theorem Covers.congr {d : Desk} {out : List (ClientId × ServerControl)} {st : Stage} {k : ClientId} {i j : UserInfo}
    {id : ChannelId} (hv : t.view j = s.view i) (h : Covers s d out k i id st) : Covers t d out k j id st := by
  unfold Covers at h ⊢
  rw [hv]
  exact h

end

/-- The list of a client whose view moved from `v` to `v'` is what it was, or already right. -/
theorem held_moved (j : Job) (v v' : ChannelId → Option Channel) (q : List ServerControl) (id : ChannelId) :
    held (j.base v') q id = held (j.base v) q id ∨ held (j.base v') q id = v' id := by
  cases j with
  | greeting | connected => exact .inl rfl
  | _ =>
    rcases Feed.apply_base (q.filterMap ServerControl.update?) v' v id with h | ⟨h, -⟩
    · exact .inl h
    · exact .inr h

section
variable {p p' : Floor} {i : Nat} {s : Shared}

theorem Floor.Window.of_job {k : Nat} {client : ClientId} {nonce : UInt64} {snapshot : PermState} {d : Desk}
    {rest : List Section} (h : p.jobs k = some (.working client nonce snapshot d rest)) (hst : stage rest ≠ .idle) :
    p.Window k d (stage rest) (outgoing rest) := ⟨hst, client, nonce, snapshot, rest, h, rfl, rfl⟩

theorem Floor.Window.same {k : Nat} {d d' : Desk} {st st' : Stage} {out out' : List (ClientId × ServerControl)}
    (h : p.Window k d st out) (h' : p.Window k d' st' out') : d = d' ∧ st = st' ∧ out = out' := by
  obtain ⟨-, _, _, _, _, hj, rfl, rfl⟩ := h
  obtain ⟨-, _, _, _, _, hj', rfl, rfl⟩ := h'
  rw [hj] at hj'
  cases hj'
  exact ⟨rfl, rfl, rfl⟩

theorem Floor.Window.of_ne {k : Nat} (hk : k ≠ i) {j : Option Job} {d : Desk} {st : Stage}
    {out : List (ClientId × ServerControl)} : (p.set i j s).Window k d st out ↔ p.Window k d st out := by
  unfold Floor.Window
  rw [Floor.set_ne hk]

/-- Nobody's view moves, and no window opens; one closes only before its change. -/
theorem Synced.calm (h : Synced p) (hc : CalmViews p.shared p'.shared)
    (hplans : ∀ k client nonce snapshot d rest, p'.jobs k = some (.working client nonce snapshot d rest) →
      Staged snapshot rest)
    (hopen : ∀ k d st out, p'.Window k d st out → p.Window k d st out)
    (hclosed : ∀ k d st out, p.Window k d st out → p'.Window k d st out ∨ st = .capturing ∨ st = .fresh)
    (hjobs : ∀ k j' info, p'.jobs k = some j' → j'.info? = some info → ∃ k' j, p.jobs k' = some j ∧
      j.info? = some info ∧ (j'.greeted = false → j.greeted = false) ∧ ∀ e, p.shared.client? info.clientId = some e →
        j'.base (p.shared.view e.info) = j.base (p.shared.view e.info)) : Synced p' where
  ids := hc.ids h.ids
  rooms := by
    rw [hc.channels]
    exact h.rooms
  plans := hplans
  one k k' d d' st st' out out' hw hw' := h.one k k' d d' st st' out out' (hopen _ _ _ _ hw) (hopen _ _ _ _ hw')
  ready k d st out hw := (h.ready k d st out (hopen k d st out hw)).calm hc
  heard k j' info e' hk hinfo he' id := by
    obtain ⟨e, he, hs, frames, hq, hf⟩ := hc.clients _ e' he'
    obtain ⟨k', j, hk', hinfo', -, hbase⟩ := hjobs k j' info hk hinfo
    have hv := hc.view hs
    rw [hv, hq, held_append, held_silent hf, hbase e he]
    rcases h.heard k' j info e hk' hinfo' he id with hheard | ⟨l, d, st, out, hw, hcov⟩
    · exact .inl hheard
    · rcases hclosed l d st out hw with hw' | rfl | rfl
      · exact .inr ⟨l, d, st, out, hw', hcov.congr hv⟩
      · exact hcov.elim
      · exact hcov.elim
  silent k d st out l j' info e' hw hst hl hg hinfo he' hb m hm := by
    obtain ⟨e, he, -, frames, hq, hf⟩ := hc.clients _ e' he'
    obtain ⟨k', j, hk', hinfo', hgreeted, -⟩ := hjobs l j' info hl hinfo
    rw [hq] at hm
    rcases List.mem_append.mp hm with hm | hm
    · exact h.silent k d st out k' j info e (hopen k d st out hw) hst hk' (hgreeted hg) hinfo' he hb m hm
    · exact hf m hm

/-- As above, when job `i` is no command before and after. -/
theorem Synced.idle (h : Synced p) (hc : CalmViews p.shared s)
    (hi : ∀ client nonce snapshot d rest, p.jobs i ≠ some (.working client nonce snapshot d rest)) {j' : Option Job}
    (hj' : ∀ client nonce snapshot d rest, j' ≠ some (.working client nonce snapshot d rest))
    (hjob : ∀ j info, j' = some j → j.info? = some info → ∃ j₀, p.jobs i = some j₀ ∧ j₀.info? = some info ∧
      (j.greeted = false → j₀.greeted = false) ∧ ∀ e, p.shared.client? info.clientId = some e →
        j.base (p.shared.view e.info) = j₀.base (p.shared.view e.info)) : Synced (p.set i j' s) := by
  have hwork : ∀ k client nonce snapshot d rest, (p.set i j' s).jobs k = some (.working client nonce snapshot d rest) ↔
      p.jobs k = some (.working client nonce snapshot d rest) := by
    intro k client nonce snapshot d rest
    by_cases hk : k = i
    · subst hk
      rw [Floor.set_self]
      exact ⟨fun hw => absurd hw (hj' _ _ _ _ _), fun hw => absurd hw (hi _ _ _ _ _)⟩
    · rw [Floor.set_ne hk]
  have hwin : ∀ k d st out, (p.set i j' s).Window k d st out ↔ p.Window k d st out := by
    intro k d st out
    unfold Floor.Window
    simp only [hwork]
  refine h.calm hc (fun k client nonce snapshot d rest hw => ?_) (fun k d st out => (hwin k d st out).mp)
    (fun k d st out hw => .inl ((hwin k d st out).mpr hw)) fun k j info hk hinfo => ?_
  · exact h.plans k client nonce snapshot d rest ((hwork ..).mp hw)
  · rcases Floor.set_some hk with ⟨-, he⟩ | ⟨-, hk⟩
    · obtain ⟨j₀, hj₀, hrest⟩ := hjob j info he hinfo
      exact ⟨i, j₀, hj₀, hrest⟩
    · exact ⟨k, j, hk, hinfo, id, fun _ _ => rfl⟩

theorem Ready.stranger {t : Shared} {d : Desk} {out : List (ClientId × ServerControl)} {st : Stage}
    (hr : Ready s d out st) (hperms : t.perms = s.perms) (hchannels : t.channels = s.channels)
    (hknown : ∀ k e, t.client? k = some e → (∃ b ∈ d.before, b.1 = k) → s.client? k = some e) : Ready t d out st := by
  have hv : t.view = s.view := by
    funext i id
    refine Shared.view_congr (by rw [hperms]) ?_ rfl rfl rfl
    unfold Shared.channel
    rw [hchannels]
  cases st with
  | idle | changed => trivial
  | capturing | recapturing => exact Eq.trans hr hperms.symm
  | fresh =>
    refine ⟨hr.1, fun k e was he hw id => ?_⟩
    rw [hv]
    exact hr.2 k e was (hknown k e he ⟨_, hw, rfl⟩) hw id
  | stripping role =>
    refine ⟨hr.1, by rw [hperms]; exact hr.2.1, fun k e was he hw id => ?_⟩
    rw [hv]
    exact hr.2.2 k e was (hknown k e he ⟨_, hw, rfl⟩) hw id
  | stripped role =>
    unfold Ready
    rw [hperms, hchannels]
    exact hr
  | diffing =>
    intro k e was he hw
    rw [hv]
    exact hr k e was (hknown k e he ⟨_, hw, rfl⟩) hw
  | posting =>
    refine ⟨hr.1, fun k e m he hm => ?_⟩
    rw [hv]
    exact hr.2 k e m (hknown k e he (hr.1 _ hm)) hm

theorem Synced.insert {identity : PublicIdentity} {nickname : String} {roles : List RoleId} (h : Synced p)
    (hi : p.jobs i = some (.admitting identity nickname roles)) (hfree : ¬ p.Used p.shared.nextClientId) :
    Synced (p.set i (some (.admitted (p.shared.newcomer identity nickname roles)))
      (p.shared.insertNewcomer (p.shared.newcomer identity nickname roles))) := by
  let info := p.shared.newcomer identity nickname roles
  let t := p.shared.insertNewcomer info
  have hclient : ∀ k, t.client? k = if k = p.shared.nextClientId then some ⟨info, [], []⟩ else p.shared.client? k :=
    fun k => Keyed.get_put k _ _
  have hold : ∀ k e, t.client? k = some e → k ≠ p.shared.nextClientId → p.shared.client? k = some e := by
    intro k e he hk
    rwa [hclient, if_neg hk] at he
  have hnew : ∀ e, t.client? p.shared.nextClientId = some e → e = ⟨info, [], []⟩ := by
    intro e he
    rw [hclient, if_pos rfl] at he
    exact (Option.some.inj he).symm
  have hview : ∀ u, t.view u = p.shared.view u := fun u => rfl
  have hwork : ∀ k client nonce snapshot d rest, (p.set i (some (.admitted info)) t).jobs k =
      some (.working client nonce snapshot d rest) ↔ p.jobs k = some (.working client nonce snapshot d rest) := by
    intro k client nonce snapshot d rest
    by_cases hk : k = i
    · subst hk
      rw [Floor.set_self, hi]
      simp
    · rw [Floor.set_ne hk]
  have hwin : ∀ k d st out, (p.set i (some (.admitted info)) t).Window k d st out ↔ p.Window k d st out := by
    intro k d st out
    unfold Floor.Window
    simp only [hwork]
  have hjob : ∀ k j info', (p.set i (some (.admitted info)) t).jobs k = some j → j.info? = some info' →
      (j = .admitted info ∧ info' = info) ∨ (p.jobs k = some j ∧ info'.clientId ≠ p.shared.nextClientId) := by
    intro k j info' hk hinfo
    rcases Floor.set_some hk with ⟨-, he⟩ | ⟨-, hk⟩
    · cases he
      cases hinfo
      exact .inl ⟨rfl, rfl⟩
    · exact .inr ⟨hk, fun hid => hfree (.inr (.inl ⟨k, j, info', hk, hinfo, hid⟩))⟩
  refine ⟨h.ids.put _, h.rooms, ?_, ?_, ?_, ?_, ?_⟩
  · intro k client nonce snapshot d rest hw
    exact h.plans k client nonce snapshot d rest ((hwork ..).mp hw)
  · intro k k' d d' st st' out out' hw hw'
    exact h.one k k' d d' st st' out out' ((hwin ..).mp hw) ((hwin ..).mp hw')
  · intro k d st out hw
    have hw := (hwin ..).mp hw
    refine (h.ready k d st out hw).stranger (t := t) rfl rfl fun l e he hb => hold l e he ?_
    rintro rfl
    exact hfree (.inr (.inr ⟨k, d, st, out, hw, hb⟩))
  · intro k j info' e hk hinfo he id
    simp only [Floor.set_shared] at he ⊢
    rcases hjob k j info' hk hinfo with ⟨rfl, rfl⟩ | ⟨hk, hne⟩
    · obtain rfl := hnew e he
      exact .inl rfl
    · rcases h.heard k j info' e hk hinfo (hold _ e he hne) id with hheard | ⟨l, d, st, out, hw, hcov⟩
      · exact .inl hheard
      · exact .inr ⟨l, d, st, out, (hwin ..).mpr hw, hcov⟩
  · intro k d st out l j info' e hw hst hl hg hinfo he hb
    simp only [Floor.set_shared] at he
    rcases hjob l j info' hl hinfo with ⟨rfl, rfl⟩ | ⟨hl, hne⟩
    · obtain rfl := hnew e he
      simp
    · exact h.silent k d st out l j info' e ((hwin ..).mp hw) hst hl hg hinfo (hold _ e he hne) hb

section
variable {client : ClientId} {nonce : UInt64} {snapshot : PermState} {d d' : Desk} {x : Section}
  {rest rest' : List Section} (h : Synced p) (hi : p.jobs i = some (.working client nonce snapshot d (x :: rest)))
include h hi

/-- Job `i` is the only one in its window, and takes the state with it. -/
theorem Synced.move (hone : ∀ k d st out, p.Window k d st out → k = i)
    (hids : Keyed.Unique ConnectedClient.id s.clients) (hrooms : Keyed.Unique Channel.id s.channels)
    (hstaged : Staged snapshot rest') (hready : stage rest' ≠ .idle → Ready s d' (outgoing rest') (stage rest'))
    (hclients : ∀ k e', s.client? k = some e' → ∃ e, p.shared.client? k = some e)
    (hheard : ∀ k j info e e', p.jobs k = some j → j.info? = some info → p.shared.client? info.clientId = some e →
      s.client? info.clientId = some e' → ∀ id, held (j.base (s.view e'.info)) e'.control id = s.view e'.info id ∨
        (stage rest' ≠ .idle ∧ Covers s d' (outgoing rest') info.clientId e'.info id (stage rest')))
    (hsilent : stage rest' ≠ .idle → stage rest' ≠ .capturing → ∀ k j info e e', p.jobs k = some j →
      j.greeted = false → j.info? = some info → p.shared.client? info.clientId = some e →
      s.client? info.clientId = some e' → (∀ b ∈ d'.before, b.1 ≠ info.clientId) → ∀ m ∈ e'.control, m.update? = none) :
    Synced (p.set i (some (.working client nonce snapshot d' rest')) s) := by
  have hwin : ∀ {k e st out}, (p.set i (some (.working client nonce snapshot d' rest')) s).Window k e st out →
      k = i ∧ e = d' ∧ st = stage rest' ∧ out = outgoing rest' ∧ stage rest' ≠ .idle := by
    intro k e st out hw
    by_cases hk : k = i
    · subst hk
      obtain ⟨hne, _, _, _, _, hj, rfl, rfl⟩ := hw
      rw [Floor.set_self] at hj
      cases hj
      exact ⟨rfl, rfl, rfl, rfl, hne⟩
    · exact absurd (hone k e st out ((Floor.Window.of_ne hk).mp hw)) hk
  have hjob : ∀ {k j info}, (p.set i (some (.working client nonce snapshot d' rest')) s).jobs k = some j →
      j.info? = some info → p.jobs k = some j := by
    intro k j info hk hinfo
    rcases Floor.set_some hk with ⟨-, he⟩ | ⟨-, hk⟩
    · cases he
      cases hinfo
    · exact hk
  refine ⟨hids, hrooms, ?_, ?_, ?_, ?_, ?_⟩
  · intro k client' nonce' snapshot' e rest'' hw
    rcases Floor.set_some hw with ⟨-, he⟩ | ⟨-, hw⟩
    · cases he
      exact hstaged
    · exact h.plans k client' nonce' snapshot' e rest'' hw
  · intro k k' _ _ _ _ _ _ hw hw'
    exact (hwin hw).1.trans (hwin hw').1.symm
  · intro k e st out hw
    obtain ⟨-, rfl, rfl, rfl, hne⟩ := hwin hw
    exact hready hne
  · intro k j info e' hk hinfo he' id
    obtain ⟨e, he⟩ := hclients _ e' he'
    rcases hheard k j info e e' (hjob hk hinfo) hinfo he he' id with hheard | ⟨hne, hcov⟩
    · exact .inl hheard
    · exact .inr ⟨i, d', stage rest', outgoing rest', .of_job (Floor.set_self _) hne, hcov⟩
  · intro k e st out l j info e' hw hst hl hg hinfo he' hb
    obtain ⟨-, rfl, rfl, rfl, hne⟩ := hwin hw
    obtain ⟨e₀, he⟩ := hclients _ e' he'
    exact hsilent hne hst l j info e₀ e' (hjob hl hinfo) hg hinfo he he' hb

theorem Synced.still (hone : ∀ k d st out, p.Window k d st out → k = i)
    (hids : Keyed.Unique ConnectedClient.id s.clients) (hrooms : Keyed.Unique Channel.id s.channels)
    (hstaged : Staged snapshot rest') (hready : stage rest' ≠ .idle → Ready s d' (outgoing rest') (stage rest'))
    (hclients : ∀ k e', s.client? k = some e' → ∃ e, p.shared.client? k = some e ∧ e'.control = e.control ∧
      s.view e'.info = p.shared.view e.info)
    (hcov : ∀ k e e' id, p.shared.client? k = some e → s.client? k = some e' → stage (x :: rest) ≠ .idle →
      Covers p.shared d (outgoing (x :: rest)) k e.info id (stage (x :: rest)) →
      stage rest' ≠ .idle ∧ Covers s d' (outgoing rest') k e'.info id (stage rest'))
    (hknown : stage rest' ≠ .idle → stage rest' ≠ .capturing →
      (stage (x :: rest) ≠ .idle ∧ stage (x :: rest) ≠ .capturing ∧ d'.before = d.before) ∨
        ∀ k e, p.shared.client? k = some e → ∃ b ∈ d'.before, b.1 = k) :
    Synced (p.set i (some (.working client nonce snapshot d' rest')) s) := by
  refine h.move hi hone hids hrooms hstaged hready (fun k e' he' => ?_) ?_ ?_
  · obtain ⟨e, he, -⟩ := hclients k e' he'
    exact ⟨e, he⟩
  · intro k j info e e' hk hinfo he he' id
    obtain ⟨e₀, he₀, hq, hv⟩ := hclients _ e' he'
    rw [he] at he₀
    cases he₀
    rw [hv, hq]
    rcases h.heard k j info e hk hinfo he id with hheard | ⟨l, d₀, st, out, hw, hc⟩
    · exact .inl hheard
    · obtain rfl := hone l d₀ st out hw
      have hne : stage (x :: rest) ≠ .idle := by
        obtain ⟨hne, _, _, _, _, hj, rfl, -⟩ := hw
        rw [hi] at hj
        cases hj
        exact hne
      obtain ⟨rfl, rfl, rfl⟩ := hw.same (.of_job hi hne)
      exact .inr (hcov _ e e' id he he' hne hc)
  · intro hne hcap k j info e e' hk hg hinfo he he' hb
    obtain ⟨e₀, he₀, hq, -⟩ := hclients _ e' he'
    rw [he] at he₀
    cases he₀
    rw [hq]
    rcases hknown hne hcap with ⟨hne', hcap', hbefore⟩ | hall
    · rw [hbefore] at hb
      exact h.silent i d _ _ k j info e (.of_job hi hne') hcap' hk hg hinfo he hb
    · obtain ⟨b, hb', hid⟩ := hall _ e he
      exact absurd hid (hb b hb')

theorem Synced.reads (hone : ∀ k d st out, p.Window k d st out → k = i) (hstaged : Staged snapshot rest')
    (hready : stage rest' ≠ .idle → Ready p.shared d' (outgoing rest') (stage rest'))
    (hcov : ∀ k e id, p.shared.client? k = some e → stage (x :: rest) ≠ .idle →
      Covers p.shared d (outgoing (x :: rest)) k e.info id (stage (x :: rest)) →
      stage rest' ≠ .idle ∧ Covers p.shared d' (outgoing rest') k e.info id (stage rest'))
    (hknown : stage rest' ≠ .idle → stage rest' ≠ .capturing →
      (stage (x :: rest) ≠ .idle ∧ stage (x :: rest) ≠ .capturing ∧ d'.before = d.before) ∨
        ∀ k e, p.shared.client? k = some e → ∃ b ∈ d'.before, b.1 = k) :
    Synced (p.set i (some (.working client nonce snapshot d' rest')) p.shared) := by
  refine h.still hi hone h.ids h.rooms hstaged hready (fun k e he => ⟨e, he, rfl, rfl⟩) ?_ hknown
  intro k e e' id he he'
  rw [he] at he'
  cases he'
  exact hcov k e id he

theorem Synced.only (hne : stage (x :: rest) ≠ .idle) (k : Nat) (e : Desk) (st : Stage)
    (out : List (ClientId × ServerControl)) (hw : p.Window k e st out) : k = i :=
  h.one k i e d st _ out _ hw (.of_job hi hne)

theorem Synced.plan : Staged snapshot (x :: rest) := h.plans i client nonce snapshot d (x :: rest) hi

theorem Synced.ready_of (hne : stage (x :: rest) ≠ .idle) :
    Ready p.shared d (outgoing (x :: rest)) (stage (x :: rest)) :=
  h.ready i d _ _ (.of_job hi hne)

end

/-! ## Reading sections -/

theorem mem_visibleIdsByClient {k : ClientId} {e : ConnectedClient} (he : s.client? k = some e) :
    (k, s.visibleIds e.info) ∈ s.visibleIdsByClient := by
  have hid : e.id = k := Keyed.get_key he
  exact List.mem_map.mpr ⟨e, Keyed.get_mem he, by rw [hid]⟩

section
variable {client : ClientId} {nonce : UInt64} {snapshot : PermState} {d : Desk} {rest : List Section} (h : Synced p)
include h

theorem Synced.seesPerms (hi : p.jobs i = some (.working client nonce snapshot d (.snapshot :: rest)))
    (hclear : Clear p snapshot d .snapshot rest) :
    Synced (p.set i (some (.working client nonce snapshot { d with seen := p.shared.perms } rest)) p.shared) := by
  obtain ⟨hstaged, hout, hnext⟩ := h.plan hi
  rcases hnext with ⟨r, rfl⟩ | ⟨r, rfl⟩
  · have hnone := hclear.window rfl rfl
    refine h.reads hi (fun k d st out hw => absurd hw (hnone k d st out)) hstaged (fun _ => rfl) ?_ fun _ hc =>
      absurd rfl hc
    exact fun k e id _ hne => absurd rfl hne
  · have hne : stage (.snapshot :: .recapture :: r) ≠ .idle := by simp [stage]
    exact h.reads hi (h.only hi hne) hstaged (fun _ => rfl) (fun k e id _ _ hc => ⟨by simp [stage], hc⟩)
      fun _ _ => .inl ⟨hne, by simp [stage], rfl⟩

theorem Synced.noted {k : ClientId} {e : ConnectedClient} (he : p.shared.client? k = some e) {was : List ChannelId}
    (hw : (k, was) ∈ p.shared.visibleIdsByClient) : was = p.shared.visibleIds e.info := by
  obtain ⟨e', he', heq⟩ := List.mem_map.mp hw
  have hk : e'.id = k := congrArg Prod.fst heq
  have hget := Keyed.get_of_mem h.ids he'
  rw [hk] at hget
  have hsame : e' = e := Option.some.inj (hget.symm.trans he)
  rw [← hsame]
  exact (congrArg Prod.snd heq).symm

theorem Synced.capture (hi : p.jobs i = some (.working client nonce snapshot d (.capture :: rest))) :
    Synced (p.set i (some (.working client nonce snapshot
      { d with before := p.shared.idsUnder d.seen, touched := [] } rest)) p.shared) := by
  obtain ⟨hstaged, -, hnext⟩ := h.plan hi
  have hne : stage (.capture :: rest) ≠ .idle := by simp [stage]
  have hseen : d.seen = p.shared.perms := h.ready_of hi hne
  have hbefore : p.shared.idsUnder d.seen = p.shared.visibleIdsByClient := by
    rw [hseen]
    rfl
  rw [hbefore]
  refine h.reads hi (h.only hi hne) hstaged (fun _ => ?_) (fun k e id _ _ hc => hc.elim) fun _ _ => .inr fun k e he =>
    ?_
  · change stage rest = .fresh at hnext
    rw [hnext]
    refine ⟨rfl, fun k e was he hw id => ?_⟩
    rw [h.noted he hw]
    exact Shared.mem_visibleIds h.rooms
  · exact ⟨_, mem_visibleIdsByClient he, rfl⟩

theorem Synced.recapture (hi : p.jobs i = some (.working client nonce snapshot d (.recapture :: rest))) :
    Synced (p.set i (some (.working client nonce snapshot
      { d with after := p.shared.idsUnder d.seen } rest)) p.shared) := by
  obtain ⟨hstaged, -, hnext⟩ := h.plan hi
  change stage rest = .diffing at hnext
  have hne : stage (.recapture :: rest) ≠ .idle := by simp [stage]
  have hseen : d.seen = p.shared.perms := h.ready_of hi hne
  have hafter : p.shared.idsUnder d.seen = p.shared.visibleIdsByClient := by
    rw [hseen]
    rfl
  rw [hafter]
  refine h.reads hi (h.only hi hne) hstaged (fun _ => ?_) (fun k e id _ _ hc => ?_) fun _ _ => .inl
    ⟨hne, by simp [stage], rfl⟩
  · rw [hnext]
    intro k e was he _
    refine ⟨(e.id, p.shared.visibleIds e.info), ?_, fun id => Shared.mem_visibleIds h.rooms⟩
    rw [get_visibleIdsByClient, he]
    rfl
  · rw [hnext]
    exact ⟨by simp, hc⟩

end

/-- The frames of a resync, with whom they are for. -/
def Desk.letters (d : Desk) (s : Shared) : List (ClientId × ServerControl) :=
  d.before.flatMap fun b => match Keyed.get Prod.fst b.1 d.after with
    | none => []
    | some now => (s.resyncFrames d.touched b.2 now.2).map fun m => (b.1, m)

theorem posts_eq_letters (d : Desk) (s : Shared) :
    d.before.flatMap (d.posts s) = (d.letters s).map fun b => .post b.1 b.2 := by
  unfold Desk.letters
  rw [List.map_flatMap]
  congr 1
  funext b
  unfold Desk.posts
  cases Keyed.get Prod.fst b.1 d.after with
  | none => rfl
  | some now => rw [List.map_map]; rfl

theorem mem_letters {d : Desk} {k : ClientId} {m : ServerControl} : (k, m) ∈ d.letters s ↔
    ∃ was now, (k, was) ∈ d.before ∧ Keyed.get Prod.fst k d.after = some now ∧
      m ∈ s.resyncFrames d.touched was now.2 := by
  unfold Desk.letters
  rw [List.mem_flatMap]
  constructor
  · rintro ⟨⟨k', was⟩, hb, hm⟩
    dsimp only at hm
    cases hget : Keyed.get Prod.fst k' d.after with
    | none => rw [hget] at hm; cases hm
    | some now =>
      rw [hget] at hm
      obtain ⟨m', hm', he⟩ := List.mem_map.mp hm
      cases he
      exact ⟨was, now, hb, hget, hm'⟩
  · rintro ⟨was, now, hb, hget, hm⟩
    refine ⟨(k, was), hb, ?_⟩
    dsimp only
    rw [hget]
    exact List.mem_map.mpr ⟨m, hm, rfl⟩

theorem resyncFrames_about {touched was now : List ChannelId} :
    ∀ m ∈ s.resyncFrames touched was now, m.aboutChannels = true := by
  intro m hm
  unfold Shared.resyncFrames at hm
  rcases List.mem_append.mp hm with hm | hm
  · rcases List.mem_append.mp hm with hm | hm
    · obtain ⟨id, -, hc⟩ := List.mem_filterMap.mp hm
      obtain ⟨c, -, rfl⟩ := Option.map_eq_some_iff.mp hc
      rfl
    · obtain ⟨id, -, rfl⟩ := List.mem_map.mp hm
      rfl
  · obtain ⟨id, -, hc⟩ := List.mem_filterMap.mp hm
    obtain ⟨c, -, rfl⟩ := Option.map_eq_some_iff.mp hc
    rfl

section
variable {client : ClientId} {nonce : UInt64} {snapshot : PermState} {d : Desk} {x : Section}
  {rest rest' : List Section} (h : Synced p)
include h

theorem Synced.diff (hi : p.jobs i = some (.working client nonce snapshot d (.diff :: rest))) :
    Synced (p.set i (some (.working client nonce snapshot d
      (d.before.flatMap (d.posts p.shared) ++ rest))) p.shared) := by
  obtain ⟨hplan, -, hnext⟩ := h.plan hi
  have hne : stage (.diff :: rest) ≠ .idle := by simp [stage]
  have hready := h.ready_of hi hne
  have habout : ∀ b ∈ d.letters p.shared, b.2.aboutChannels = true := by
    intro b hb
    obtain ⟨was, now, -, -, hm⟩ := mem_letters.mp hb
    exact resyncFrames_about _ hm
  obtain ⟨hstaged, hout, hst⟩ := staged_posts habout hplan hnext
  rw [posts_eq_letters]
  refine h.reads hi (h.only hi hne) hstaged (fun hne' => ?_) (fun k e id he _ hc => ?_)
    fun _ _ => .inl ⟨hne, by simp [stage], rfl⟩
  · obtain hst | ⟨-, hst⟩ := hst
    · rw [hst, hout]
      refine ⟨fun b hb => ?_, fun k e m he hm => ?_⟩
      · obtain ⟨was, now, hw, -, -⟩ := mem_letters.mp hb
        exact ⟨_, hw, rfl⟩
      · obtain ⟨was, now, hw, hget, hm⟩ := mem_letters.mp hm
        obtain ⟨now', hget', hnow⟩ := hready k e was he hw
        rw [hget] at hget'
        cases hget'
        exact Shared.resyncFrames_truthful hnow m hm
    · exact absurd hst hne'
  · obtain ⟨was, hw, hcov⟩ := hc
    obtain ⟨now, hget, hnow⟩ := hready k e was he hw
    have hcov' : (id ∈ was ↔ id ∉ now.2) ∨ (id ∈ was ∧ id ∈ d.touched) := by
      rw [hnow]
      exact hcov
    obtain ⟨m, hm, a, hu⟩ := Shared.resyncFrames_names hnow hcov'
    have hletter : (k, m) ∈ d.letters p.shared := mem_letters.mpr ⟨was, now, hw, hget, hm⟩
    rcases hst with hst | ⟨hnil, -⟩
    · rw [hst, hout]
      exact ⟨by simp, m, a, hletter, hu⟩
    · rw [hnil] at hletter
      cases hletter

theorem Synced.light (hi : p.jobs i = some (.working client nonce snapshot d (x :: rest))) (hc : CalmViews p.shared s)
    (hstaged : Staged snapshot rest') (hst : stage rest' = stage (x :: rest))
    (hout : outgoing rest' = outgoing (x :: rest)) :
    Synced (p.set i (some (.working client nonce snapshot d rest')) s) := by
  have hwin : ∀ k e st out, (p.set i (some (.working client nonce snapshot d rest')) s).Window k e st out ↔
      p.Window k e st out := by
    intro k e st out
    by_cases hk : k = i
    · subst hk
      unfold Floor.Window
      rw [Floor.set_self, hi]
      simp only [Option.some.injEq, Job.working.injEq]
      constructor
      · rintro ⟨hne, _, _, _, _, ⟨rfl, rfl, rfl, rfl, rfl⟩, rfl, rfl⟩
        exact ⟨hne, _, _, _, _, ⟨rfl, rfl, rfl, rfl, rfl⟩, hst.symm, hout.symm⟩
      · rintro ⟨hne, _, _, _, _, ⟨rfl, rfl, rfl, rfl, rfl⟩, rfl, rfl⟩
        exact ⟨hne, _, _, _, _, ⟨rfl, rfl, rfl, rfl, rfl⟩, hst, hout⟩
    · exact Floor.Window.of_ne hk
  refine h.calm hc ?_ (fun k e st out => (hwin k e st out).mp) (fun k e st out hw => .inl ((hwin k e st out).mpr hw)) ?_
  · intro k client' nonce' snapshot' e rest'' hw
    rcases Floor.set_some hw with ⟨-, he⟩ | ⟨-, hw⟩
    · cases he
      exact hstaged
    · exact h.plans k client' nonce' snapshot' e rest'' hw
  · intro k j info hk hinfo
    rcases Floor.set_some hk with ⟨-, he⟩ | ⟨-, hk⟩
    · cases he
      cases hinfo
    · exact ⟨k, j, hk, hinfo, id, fun _ _ => rfl⟩

theorem Synced.post {k : ClientId} {m : ServerControl}
    (hi : p.jobs i = some (.working client nonce snapshot d (.post k m :: rest))) :
    Synced (p.set i (some (.working client nonce snapshot d rest)) (p.shared.send k m)) := by
  obtain ⟨hstaged, -, hnext⟩ := h.plan hi
  cases hm : m.aboutChannels with
  | false =>
    have hst : stage rest = stage (.post k m :: rest) := by simp [stage, hm]
    have hout : outgoing rest = outgoing (.post k m :: rest) := by simp [outgoing, hm]
    rw [Shared.send_eq]
    refine h.light hi (.deliver _ fun u m' hm' => ?_) hstaged hst hout
    split at hm'
    · obtain rfl := List.mem_singleton.mp hm'
      exact hm
    · cases hm'
  | true =>
    have hst : stage (.post k m :: rest) = .posting := by simp [stage, hm]
    have hout : outgoing (.post k m :: rest) = (k, m) :: outgoing rest := by simp [outgoing, hm]
    have hne : stage (.post k m :: rest) ≠ .idle := by simp [hst]
    have hready := h.ready_of hi hne
    rw [hst, hout] at hready
    have hclient : ∀ l e', (p.shared.send k m).client? l = some e' →
        ∃ e, p.shared.client? l = some e ∧ e'.info = e.info ∧
          e'.control = e.control ++ if l = k then [m] else [] := by
      intro l e' he'
      rw [Shared.send_eq, Shared.deliver_client?] at he'
      obtain ⟨e, he, rfl⟩ := Option.map_eq_some_iff.mp he'
      have hid : e.info.clientId = l := Shared.client?_id he
      exact ⟨e, he, rfl, by simp [ConnectedClient.push, hid]⟩
    refine h.move hi (h.only hi hne) (h.ids.modify (f := (·.push [m])) (fun _ => rfl) k) h.rooms hstaged ?_ ?_ ?_ ?_
    · intro hne'
      obtain hst' : stage rest = .posting := hnext.resolve_left hne'
      rw [hst']
      refine ⟨fun b hb => hready.1 b (List.mem_cons_of_mem _ hb), fun l e' m' he' hm' => ?_⟩
      obtain ⟨e, he, hinfo, -⟩ := hclient l e' he'
      rw [hinfo]
      exact hready.2 l e m' he (List.mem_cons_of_mem _ hm')
    · intro l e' he'
      obtain ⟨e, he, -⟩ := hclient l e' he'
      exact ⟨e, he⟩
    · intro l j info e e' hl hinfo he he' id
      obtain ⟨e₀, he₀, hi', hq⟩ := hclient _ e' he'
      rw [he] at he₀
      cases he₀
      have hview : (p.shared.send k m).view e'.info = p.shared.view e.info := by
        rw [hi']
        rfl
      rw [hview, hq, held_append]
      have hstill : held (j.base (p.shared.view e.info)) e.control id = p.shared.view e.info id ∨
          ∃ m' a, (info.clientId, m') ∈ (k, m) :: outgoing rest ∧ m'.update? = some (id, a) := by
        rcases h.heard l j info e hl hinfo he id with hheard | ⟨l', d₀, st, out, hw, hc⟩
        · exact .inl hheard
        · obtain rfl := h.only hi hne l' d₀ st out hw
          obtain ⟨rfl, rfl, rfl⟩ := hw.same (.of_job hi hne)
          rw [hst, hout] at hc
          exact .inr hc
      have hlater : ∀ m' a, (info.clientId, m') ∈ outgoing rest → m'.update? = some (id, a) → stage rest ≠ .idle ∧
          Covers (p.shared.send k m) d (outgoing rest) info.clientId e'.info id (stage rest) := by
        intro m' a hm' hu
        have hst' : stage rest = .posting := by
          rcases hstaged.out with hp | ho
          · exact hp
          · rw [ho] at hm'
            cases hm'
        rw [hst']
        exact ⟨by simp, m', a, hm', hu⟩
      by_cases hk : info.clientId = k
      · rw [if_pos hk]
        obtain ⟨u, hu, htrue⟩ := hready.2 _ e m he (by rw [hk]; exact List.mem_cons_self ..)
        have hset : held (held (j.base (p.shared.view e.info)) e.control) [m] =
            Feed.set (held (j.base (p.shared.view e.info)) e.control) u := by
          unfold held
          simp only [List.filterMap_cons, hu, List.filterMap_nil]
          rfl
        rw [hset]
        unfold Feed.set
        by_cases hid : id = u.1
        · rw [if_pos hid, hid]
          exact .inl htrue
        · rw [if_neg hid]
          rcases hstill with hheard | ⟨m', a, hm', hu'⟩
          · exact .inl hheard
          · rcases List.mem_cons.mp hm' with he | hm'
            · cases he
              rw [hu] at hu'
              cases hu'
              exact absurd rfl hid
            · exact .inr (hlater m' a hm' hu')
      · rw [if_neg hk, held_silent (by simp)]
        rcases hstill with hheard | ⟨m', a, hm', hu'⟩
        · exact .inl hheard
        · rcases List.mem_cons.mp hm' with he | hm'
          · exact absurd (congrArg Prod.fst he) hk
          · exact .inr (hlater m' a hm' hu')
    · intro hne' _ l j info e e' hl hg hinfo he he' hb
      obtain ⟨e₀, he₀, -, hq⟩ := hclient _ e' he'
      rw [he] at he₀
      cases he₀
      obtain ⟨c, hc, hck⟩ := hready.1 (k, m) (List.mem_cons_self ..)
      have hk : info.clientId ≠ k := fun hk => hb c hc (hck.trans hk.symm)
      rw [hq, if_neg hk, List.append_nil]
      exact h.silent i d _ _ l j info e (.of_job hi hne) (by simp [hst]) hl hg hinfo he hb

end

/-! ## Changing sections -/

theorem Covers.known {d : Desk} {out : List (ClientId × ServerControl)} {k : ClientId} {info : UserInfo}
    {id : ChannelId} {st : Stage} (h : Covers s d out k info id st) (hpost : st ≠ .posting) :
    ∃ b ∈ d.before, b.1 = k := by
  cases st with
  | idle | capturing | fresh => exact h.elim
  | posting => exact absurd rfl hpost
  | _ =>
    obtain ⟨was, hw, -⟩ := h
    exact ⟨_, hw, rfl⟩

section
variable {client : ClientId} {nonce : UInt64} {snapshot : PermState} {d d' : Desk} {x : Section}
  {rest : List Section} (h : Synced p) (hi : p.jobs i = some (.working client nonce snapshot d (x :: rest)))
include h hi

/-- The state changes under a note: what the note covers is left to the resync, and whoever is not in it sees no
change. -/
theorem Synced.shift (hne : stage (x :: rest) ≠ .idle) (hcap : stage (x :: rest) ≠ .capturing)
    (hpost : stage (x :: rest) ≠ .posting) (hclear : Clear p snapshot d x rest)
    (hrun : x.run d p.shared = (s, d', [])) (hbefore : d'.before = d.before)
    (hids : Keyed.Unique ConnectedClient.id s.clients) (hrooms : Keyed.Unique Channel.id s.channels)
    (hready : Ready s d' (outgoing rest) (stage rest))
    (hclients : ∀ k e', s.client? k = some e' → ∃ e, p.shared.client? k = some e ∧ e'.control = e.control)
    (hknown : ∀ k e e' was id a, p.shared.client? k = some e → s.client? k = some e' → (k, was) ∈ d.before →
      (a = p.shared.view e.info id ∨ Covers p.shared d (outgoing (x :: rest)) k e.info id (stage (x :: rest))) →
      a = s.view e'.info id ∨ (stage rest ≠ .idle ∧ Covers s d' (outgoing rest) k e'.info id (stage rest))) :
    Synced (p.set i (some (.working client nonce snapshot d' rest)) s) := by
  have hwindow := Floor.Window.of_job hi hne
  have hheard : ∀ k j info e, p.jobs k = some j → j.info? = some info → p.shared.client? info.clientId = some e →
      ∀ id, held (j.base (p.shared.view e.info)) e.control id = p.shared.view e.info id ∨
        Covers p.shared d (outgoing (x :: rest)) info.clientId e.info id (stage (x :: rest)) := by
    intro k j info e hk hinfo he id
    rcases h.heard k j info e hk hinfo he id with hheard | ⟨l, d₀, st, out, hw, hc⟩
    · exact .inl hheard
    · obtain rfl := h.only hi hne l d₀ st out hw
      obtain ⟨rfl, rfl, rfl⟩ := hw.same hwindow
      exact .inr hc
  refine h.move hi (h.only hi hne) hids hrooms (h.plan hi).1 (fun _ => hready) ?_ ?_ ?_
  · intro k e' he'
    obtain ⟨e, he, -⟩ := hclients k e' he'
    exact ⟨e, he⟩
  · intro k j info e e' hk hinfo he he' id
    obtain ⟨e₀, he₀, hq⟩ := hclients _ e' he'
    rw [he] at he₀
    cases he₀
    rw [hq]
    rcases held_moved j (p.shared.view e.info) (s.view e'.info) e.control id with hsame | hnew
    swap
    · exact .inl hnew
    have hold := hheard k j info e hk hinfo he id
    by_cases hin : ∃ b ∈ d.before, b.1 = info.clientId
    · obtain ⟨⟨k', was⟩, hb, rfl⟩ := hin
      rw [hsame]
      exact hknown _ e e' was id _ he he' hb hold
    · have hb : ∀ b ∈ d.before, b.1 ≠ info.clientId := fun b hb he => hin ⟨b, hb, he⟩
      left
      cases hg : j.greeted with
      | true =>
        have hlate := hclear.late hne k j info e e' hk hg hinfo he (by rw [hrun]; exact he') hb
        rw [hrun] at hlate
        have hview : s.view e'.info id = p.shared.view e.info id := by
          rw [← Shared.listed_visibleChannels hrooms, ← Shared.listed_visibleChannels h.rooms]
          exact congrFun (congrArg listed hlate) id
        rw [hsame, hview]
        exact hold.resolve_right fun hc => hin (hc.known hpost)
      | false =>
        have hsilent := h.silent i d _ _ k j info e hwindow hcap hk hg hinfo he hb
        have hbase : j.base (s.view e'.info) = s.view e'.info := by
          cases j <;> first | rfl | cases hg
        rw [held_silent hsilent, hbase]
  · intro _ _ k j info e e' hk hg hinfo he he' hb
    obtain ⟨e₀, he₀, hq⟩ := hclients _ e' he'
    rw [he] at he₀
    cases he₀
    rw [hq]
    rw [hbefore] at hb
    exact h.silent i d _ _ k j info e hwindow hcap hk hg hinfo he hb

/-- The one change of a command: what moves, moves away from the note or is noted as touched. -/
theorem Synced.change (hfresh : stage (x :: rest) = .fresh)
    (hnext : stage rest = .changed ∨ ∃ role, stage rest = .stripping role) (hclear : Clear p snapshot d x rest)
    (hrun : x.run d p.shared = (s, d', [])) (hbefore : d'.before = d.before)
    (hids : Keyed.Unique ConnectedClient.id s.clients) (hrooms : Keyed.Unique Channel.id s.channels)
    (hready : Ready s d' (outgoing rest) (stage rest))
    (hclients : ∀ k e', s.client? k = some e' → ∃ e, p.shared.client? k = some e ∧ e'.control = e.control)
    (hcontent : ∀ id c c', p.shared.channel id = some c → s.channel id = some c' → c' = c ∨ id ∈ d'.touched) :
    Synced (p.set i (some (.working client nonce snapshot d' rest)) s) := by
  have hne : stage (x :: rest) ≠ .idle := by simp [hfresh]
  have hnote := h.ready_of hi hne
  rw [hfresh] at hnote
  have hcovers : ∀ k info id, (∃ was, (k, was) ∈ d'.before ∧
      ((id ∈ was ↔ ¬ (s.view info id).isSome = true) ∨ (id ∈ was ∧ id ∈ d'.touched))) →
      stage rest ≠ .idle ∧ Covers s d' (outgoing rest) k info id (stage rest) := by
    intro k info id hc
    rcases hnext with hst | ⟨role, hst⟩ <;> rw [hst] <;> exact ⟨by simp, hc⟩
  refine h.shift hi hne (by simp [hfresh]) (by simp [hfresh]) hclear hrun hbefore hids hrooms hready hclients ?_
  intro k e e' was id a he he' hb ha
  have ha : a = p.shared.view e.info id := ha.resolve_right fun hc => by
    rw [hfresh] at hc
    exact hc
  have hwas := hnote.2 k e was he hb id
  by_cases hsome : (s.view e'.info id).isSome = (p.shared.view e.info id).isSome
  · cases hold : p.shared.view e.info id with
    | none =>
      rw [hold] at hsome
      rw [ha, hold]
      exact .inl (Option.isNone_iff_eq_none.mp (by simpa using hsome)).symm
    | some c =>
      rw [hold] at hsome
      obtain ⟨c', hc'⟩ := Option.isSome_iff_exists.mp hsome
      rcases hcontent id c c' (Shared.view_eq_some.mp hold).1 (Shared.view_eq_some.mp hc').1 with rfl | htouched
      · rw [ha, hold]
        exact .inl hc'.symm
      · refine .inr (hcovers _ _ _ ⟨was, hbefore ▸ hb, .inr ⟨?_, htouched⟩⟩)
        rw [hwas, hold]
        rfl
  · refine .inr (hcovers _ _ _ ⟨was, hbefore ▸ hb, .inl ?_⟩)
    rw [hwas]
    cases hs : (s.view e'.info id).isSome <;> cases hp : (p.shared.view e.info id).isSome <;> simp_all

end

section
variable {client : ClientId} {nonce : UInt64} {snapshot : PermState} {d : Desk} {rest : List Section} (h : Synced p)
include h

theorem Synced.modifyChannel {x : Section} {channel : ChannelId} {f : Channel → Channel}
    (hi : p.jobs i = some (.working client nonce snapshot d (x :: rest))) (hf : ∀ c, (f c).id = c.id)
    (hrun : x.run d p.shared = (p.shared.modifyChannel channel f, { d with touched := [channel] }, []))
    (hfresh : stage (x :: rest) = .fresh) (hnext : stage rest = .changed) (hclear : Clear p snapshot d x rest) :
    Synced (p.set i (some (.working client nonce snapshot { d with touched := [channel] } rest))
      (p.shared.modifyChannel channel f)) :=
  h.change hi hfresh (.inl hnext) hclear hrun rfl h.ids (h.rooms.modify hf channel) (by rw [hnext]; trivial)
    (fun k e he => ⟨e, he, rfl⟩) fun id c c' => modifyChannel_content f hf channel id c c'

theorem Synced.insertChannel {c : Channel} (hi :
    p.jobs i = some (.working client nonce snapshot d (.insertChannel c :: rest)))
    (hclear : Clear p snapshot d (.insertChannel c) rest) :
    Synced (p.set i (some (.working client nonce snapshot d rest)) (p.shared.insertChannelMem c)) := by
  have hnext : stage rest = .changed := (h.plan hi).2.2
  refine h.change hi rfl (.inl hnext) hclear rfl rfl h.ids (h.rooms.putSorted c) (by rw [hnext]; trivial)
    (fun k e he => ⟨e, he, rfl⟩) fun id c₁ c₂ h₁ h₂ => .inl ?_
  have hget : (p.shared.insertChannelMem c).channel id = if id = c.id then some c else p.shared.channel id :=
    Keyed.get_putSorted id c p.shared.channels
  have hne : id ≠ c.id := by
    rintro rfl
    rw [hclear.unused c rfl] at h₁
    cases h₁
  rw [hget, if_neg hne, h₁] at h₂
  exact (Option.some.inj h₂).symm

theorem Synced.removeChannel {id : ChannelId}
    (hi : p.jobs i = some (.working client nonce snapshot d (.removeChannel id :: rest)))
    (hclear : Clear p snapshot d (.removeChannel id) rest) :
    Synced (p.set i (some (.working client nonce snapshot { d with infos := (p.shared.removeChannelMem id).1 } rest))
      (p.shared.removeChannelMem id).2) := by
  have hnext : stage rest = .changed := (h.plan hi).2.2
  have hchannels := Shared.removeChannelMem_channels (s := p.shared) id
  have hclients : ∃ f : ConnectedClient → ConnectedClient, (∀ e, (f e).id = e.id ∧ (f e).control = e.control) ∧
      (p.shared.removeChannelMem id).2.clients = p.shared.clients.map f := by
    unfold Shared.removeChannelMem
    split
    · exact ⟨fun e => e, fun e => ⟨rfl, rfl⟩, by simp⟩
    · refine ⟨_, fun e => ?_, rfl⟩
      split <;> exact ⟨rfl, rfl⟩
  obtain ⟨f, hf, hmap⟩ := hclients
  refine h.change hi rfl (.inl hnext) hclear rfl rfl ?_ ?_ (by rw [hnext]; trivial) (fun k e' he' => ?_)
    fun id' c c' hc hc' => .inl ?_
  · rw [hmap]
    exact h.ids.map fun e => (hf e).1
  · rw [hchannels]
    exact h.rooms.erase id
  · unfold Shared.client? at he'
    rw [hmap, Keyed.get_map fun e => (hf e).1] at he'
    obtain ⟨e, he, rfl⟩ := Option.map_eq_some_iff.mp he'
    exact ⟨e, he, (hf e).2⟩
  · unfold Shared.channel at hc hc'
    rw [hchannels, Keyed.get_erase] at hc'
    split at hc'
    · cases hc'
    · rw [hc] at hc'
      exact (Option.some.inj hc').symm

theorem Synced.updateLive {f : Fingerprint} {roles : List RoleId}
    (hi : p.jobs i = some (.working client nonce snapshot d (.updateLive f roles :: rest)))
    (hclear : Clear p snapshot d (.updateLive f roles) rest) :
    Synced (p.set i (some (.working client nonce snapshot
      { d with infos := (p.shared.updateLiveMemberRoles f roles).1 } rest))
      (p.shared.updateLiveMemberRoles f roles).2) := by
  have hnext : stage rest = .changed := (h.plan hi).2.2
  have hid : ∀ e : ConnectedClient, (if e.info.fingerprint = f then { e with info := { e.info with roles } }
      else e).id =
      e.id ∧ (if e.info.fingerprint = f then { e with info := { e.info with roles } } else e).control = e.control := by
    intro e
    split <;> exact ⟨rfl, rfl⟩
  refine h.change hi rfl (.inl hnext) hclear rfl rfl (h.ids.map fun e => (hid e).1) h.rooms (by rw [hnext]; trivial)
    (fun k e' he' => ?_) fun id c c' hc hc' => .inl ?_
  · have hget := Shared.client?_map p.shared (fun e => (hid e).1) k
    obtain ⟨e, he, rfl⟩ := Option.map_eq_some_iff.mp (hget.symm.trans he')
    exact ⟨e, he, (hid e).2⟩
  · exact Option.some.inj (hc'.symm.trans hc)

theorem Synced.swap {next : PermState} (hi : p.jobs i = some (.working client nonce snapshot d (.swap next :: rest)))
    (hclear : Clear p snapshot d (.swap next) rest) :
    Synced (p.set i (some (.working client nonce snapshot d rest)) (p.shared.swapPermState next)) := by
  obtain ⟨hstaged, -, hnext⟩ := h.plan hi
  have hfresh : stage rest ≠ .idle → stage (.swap next :: rest) = .fresh := fun hne => by simp [stage, hne]
  rcases hnext with hst | hst | ⟨hst, hroles⟩ | ⟨role, hst, rfl⟩
  · -- No resync follows: the views are the same, and nobody is in a window.
    obtain ⟨hnone, hsame⟩ := hclear.quiet next rfl hst
    have hidle : stage (.swap next :: rest) = .idle := by simp [stage, hst]
    refine h.still hi (fun k d st out hw => absurd hw (hnone k d st out)) h.ids h.rooms hstaged
      (fun hne => absurd hst hne) (fun k e he => ⟨e, he, rfl, ?_⟩) (fun k e e' id _ _ hne => absurd hidle hne)
      fun hne => absurd hst hne
    have hview := congrArg listed (hsame e (Keyed.get_mem he))
    rwa [Shared.listed_visibleChannels h.rooms,
      Shared.listed_visibleChannels (s := p.shared.swapPermState next) h.rooms]
      at hview
  · refine h.change hi (hfresh (by simp [hst])) (.inl hst) hclear rfl rfl h.ids h.rooms (by rw [hst]; trivial)
      (fun k e he => ⟨e, he, rfl⟩) fun id c c' hc hc' => .inl (Option.some.inj (hc'.symm.trans hc))
  · -- Only the grants change, and nobody reads them here.
    have hperms := hclear.current next rfl (by simp [hst])
    have hf := hfresh (by simp [hst])
    have hne : stage (.swap next :: rest) ≠ .idle := by simp [hf]
    have hview : ∀ u, (p.shared.swapPermState next).view u = p.shared.view u := by
      intro u
      funext id
      exact Shared.view_congr (by rw [← hperms]; exact hroles) rfl rfl rfl rfl
    have hnote := h.ready_of hi hne
    rw [hf] at hnote
    refine h.still hi (h.only hi hne) h.ids h.rooms hstaged (fun _ => ?_) (fun k e he => ⟨e, he, rfl, hview _⟩)
      (fun k e e' id _ _ _ hc => ?_) fun _ _ => .inl ⟨hne, by simp [hf], rfl⟩
    · rw [hst]
      refine ⟨hnote.1, fun k e was he hw id => ?_⟩
      rw [hview]
      exact hnote.2 k e was he hw id
    · rw [hf] at hc
      exact hc.elim
  · have hperms := hclear.current _ rfl (by simp [hst])
    have hdistinct := hclear.distinct _ rfl
    have hf := hfresh (by simp [hst])
    have hne : stage (.swap (deletedPerms snapshot role) :: rest) ≠ .idle := by simp [hf]
    have hnote := h.ready_of hi hne
    rw [hf] at hnote
    refine h.change hi hf (.inr ⟨role, hst⟩) hclear rfl rfl h.ids h.rooms ?_ (fun k e he => ⟨e, he, rfl⟩)
      fun id c c' hc hc' => .inl (Option.some.inj (hc'.symm.trans hc))
    rw [hst]
    refine ⟨hnote.1, deletedPerms_id_ne snapshot role, fun k e was he hw id hv => ?_⟩
    · rw [hnote.2 k e was he hw id]
      obtain ⟨c, hc⟩ := Option.isSome_iff_exists.mp hv
      obtain ⟨hget, hsees⟩ := Shared.view_eq_some.mp hc
      refine Option.isSome_iff_exists.mpr ⟨c, Shared.view_eq_some.mpr ⟨hget, ?_⟩⟩
      refine resolve_view_mono (fun j bit hj => ?_) hsees
      rw [show (p.shared.swapPermState (deletedPerms snapshot role)).perms.roles =
          (deletedPerms snapshot role).roles from rfl,
        rolePermissions_deleted hdistinct] at hj
      rw [← hperms]
      split at hj
      · simp at hj
      · exact hj

theorem Synced.stripOverwrites {role : RoleId}
    (hi : p.jobs i = some (.working client nonce snapshot d (.stripOverwrites role :: rest)))
    (hclear : Clear p snapshot d (.stripOverwrites role) rest) :
    Synced (p.set i (some (.working client nonce snapshot
      { d with touched := (p.shared.stripRoleOverwrites role).1 } rest)) (p.shared.stripRoleOverwrites role).2) := by
  have hnext : stage rest = .stripped role := (h.plan hi).2.2
  have hne : stage (.stripOverwrites role :: rest) ≠ .idle := by simp [stage]
  obtain ⟨htouched, hroles, hsub⟩ := h.ready_of hi hne
  let named (c : Channel) : Bool := c.overwrites.any fun o => o.target = .role role
  let f (c : Channel) : Channel :=
    if named c then { c with overwrites := Keyed.erase Overwrite.target (.role role) c.overwrites } else c
  have hf : ∀ c, (f c).id = c.id := by
    intro c
    simp only [f]
    split <;> rfl
  let s := (p.shared.stripRoleOverwrites role).2
  have hget : ∀ id, s.channel id = (p.shared.channel id).map f := fun id => Keyed.get_map hf id p.shared.channels
  -- Where no overwrite names the role the view stays.
  have hsame : ∀ u id, id ∉ (p.shared.stripRoleOverwrites role).1 → s.view u id = p.shared.view u id := by
    intro u id hid
    refine Shared.view_congr rfl ?_ rfl rfl rfl
    rw [hget]
    cases hc : p.shared.channel id with
    | none => rfl
    | some c =>
      have hn : named c = false := by
        cases hn : named c with
        | false => rfl
        | true => exact absurd (List.mem_map.mpr ⟨c, List.mem_filter.mpr ⟨Keyed.get_mem hc, hn⟩, Keyed.get_key hc⟩) hid
      simp [f, hn]
  refine h.shift hi hne (by simp [stage]) (by simp [stage]) hclear rfl rfl h.ids (h.rooms.map hf) ?_
    (fun k e he => ⟨e, he, rfl⟩) ?_
  · rw [hnext]
    refine ⟨hroles, fun c' hc' o ho => ?_⟩
    obtain ⟨c, hc, rfl⟩ := List.mem_map.mp hc'
    split at ho
    · exact (Keyed.mem_erase.mp ho).2
    · rename_i hn
      intro he
      exact hn (List.any_eq_true.mpr ⟨o, ho, by simpa using he⟩)
  · intro k e e' was id a he he' hb ha
    have he'' : e' = e := Option.some.inj (he'.symm.trans he)
    rw [he'', hnext]
    by_cases hid : id ∈ (p.shared.stripRoleOverwrites role).1
    · -- Touched: the note has it, or nobody saw it and nobody does.
      have hcover : ∀ was, (k, was) ∈ d.before → (id ∈ was ∨ (s.view e.info id).isSome = true) →
          Covers s { d with touched := (p.shared.stripRoleOverwrites role).1 } (outgoing rest) k e.info id
            (.stripped role) := by
        intro was hw hor
        refine ⟨was, hw, ?_⟩
        by_cases hin : id ∈ was
        · exact .inr ⟨hin, hid⟩
        · left
          simp [hin, hor.resolve_left hin]
      by_cases hv : (s.view e.info id).isSome = true
      · exact .inr ⟨by simp, hcover was hb (.inr hv)⟩
      · rcases ha with rfl | ⟨was', hw', hcov⟩
        · by_cases hin : id ∈ was
          · exact .inr ⟨by simp, hcover was hb (.inl hin)⟩
          · left
            have hnone : ¬ (p.shared.view e.info id).isSome = true := fun hv' => hin (hsub k e was he hb id hv')
            exact (Option.not_isSome_iff_eq_none.mp hnone).trans (Option.not_isSome_iff_eq_none.mp hv).symm
        · refine .inr ⟨by simp, hcover was' hw' (.inl ?_)⟩
          rcases hcov with hcov | hcov
          · by_contra hin
            exact hin (hsub k e was' he hw' id (by
              by_contra hv'
              exact hin (hcov.mpr hv')))
          · exact hcov.1
    · rw [hsame _ _ hid]
      rcases ha with rfl | ⟨was', hw', hcov⟩
      · exact .inl rfl
      · refine .inr ⟨by simp, was', hw', ?_⟩
        rw [hsame _ _ hid]
        rw [htouched] at hcov
        exact .inl (hcov.resolve_right (by simp))

theorem Synced.stripLive {role : RoleId}
    (hi : p.jobs i = some (.working client nonce snapshot d (.stripLive role :: rest))) :
    Synced (p.set i (some (.working client nonce snapshot { d with infos := (p.shared.stripLiveRole role).1 } rest))
      (p.shared.stripLiveRole role).2) := by
  obtain ⟨hstaged, -, hnext⟩ := h.plan hi
  change stage rest = .changed at hnext
  have hne : stage (.stripLive role :: rest) ≠ .idle := by simp [stage]
  obtain ⟨hroles, hows⟩ := h.ready_of hi hne
  let f (e : ConnectedClient) : ConnectedClient :=
    if role ∈ e.info.roles then { e with info := { e.info with roles := e.info.roles.filter (· ≠ role) } } else e
  have hf : ∀ e, (f e).id = e.id ∧ (f e).control = e.control := by
    intro e
    simp only [f]
    split <;> exact ⟨rfl, rfl⟩
  -- Neither a role nor an overwrite has the id any more.
  have hview : ∀ e, (p.shared.stripLiveRole role).2.view (f e).info = p.shared.view e.info := by
    intro e
    simp only [f]
    split
    swap
    · rfl
    funext id
    unfold Shared.view
    cases hc : p.shared.channel id with
    | none => rw [show (p.shared.stripLiveRole role).2.channel id = none from hc]; rfl
    | some c =>
      rw [show (p.shared.stripLiveRole role).2.channel id = some c from hc]
      have hrole : rolePermissions p.shared.perms.roles role = .none := by
        unfold rolePermissions
        rw [Keyed.get_eq_none.mpr hroles]
        rfl
      have how : overwriteForRole c.overwrites role = none := Keyed.get_eq_none.mpr (hows c (Keyed.get_mem hc))
      have hsame : ∀ u : UserInfo, (p.shared.stripLiveRole role).2.views
          { u with roles := u.roles.filter (· ≠ role) } c =
          p.shared.views u c := by
        intro u
        exact congrArg (Permissions.contains · .viewChannel)
          (resolve_filter_ne hrole how u.fingerprint u.owner)
      simp only [Option.filter, hsame]
  have hclient : ∀ k e', (p.shared.stripLiveRole role).2.client? k = some e' → ∃ e, p.shared.client? k = some e ∧
      e' = f e := by
    intro k e' he'
    have hget := Shared.client?_map p.shared (fun e => (hf e).1) k
    obtain ⟨e, he, rfl⟩ := Option.map_eq_some_iff.mp (hget.symm.trans he')
    exact ⟨e, he, rfl⟩
  refine h.still hi (h.only hi hne) (h.ids.map fun e => (hf e).1) h.rooms hstaged (fun _ => ?_) (fun k e' he' => ?_)
    (fun k e e' id he he' _ hc => ?_) fun _ _ => .inl ⟨hne, by simp [stage], rfl⟩
  · rw [hnext]
    trivial
  · obtain ⟨e, he, rfl⟩ := hclient k e' he'
    exact ⟨e, he, (hf e).2, hview e⟩
  · obtain ⟨e₀, he₀, rfl⟩ := hclient k e' he'
    rw [he] at he₀
    cases he₀
    rw [hnext]
    obtain ⟨was, hw, hcov⟩ := hc
    refine ⟨by simp, was, hw, ?_⟩
    rw [hview]
    exact hcov

theorem Synced.advance {x : Section} (hi : p.jobs i = some (.working client nonce snapshot d (x :: rest)))
    (hclear : Clear p snapshot d x rest) :
    Synced (p.set i (some (.working client nonce snapshot (x.run d p.shared).2.1 ((x.run d p.shared).2.2 ++ rest)))
      (x.run d p.shared).1) := by
  obtain ⟨hstaged, -, hnext⟩ := h.plan hi
  cases x with
  | snapshot => exact h.seesPerms hi hclear
  | capture => exact h.capture hi
  | save => exact h.light hi (.refl _) hstaged rfl rfl
  | write => exact h.light hi (.refl _) hstaged rfl rfl
  | swap => exact h.swap hi hclear
  | stripOverwrites => exact h.stripOverwrites hi hclear
  | updateLive => exact h.updateLive hi hclear
  | stripLive => exact h.stripLive hi
  | setOverwrite => exact h.modifyChannel hi (fun _ => rfl) rfl rfl hnext hclear
  | removeOverwrite => exact h.modifyChannel hi (fun _ => rfl) rfl rfl hnext hclear
  | insertChannel => exact h.insertChannel hi hclear
  | updateChannel c =>
    have hmem := updateChannelMem_eq p.shared c
    rw [show (Section.updateChannel c).run d p.shared = (p.shared.updateChannelMem c, { d with touched := [c.id] }, [])
      from rfl, hmem]
    exact h.modifyChannel hi (fun _ => rfl) (by rw [← hmem]; rfl) rfl hnext hclear
  | removeChannel => exact h.removeChannel hi hclear
  | tell m =>
    refine h.light hi ?_ hstaged rfl rfl
    simp only [Section.run, Shared.broadcast_none]
    exact .deliver _ fun _ m' hm' => by
      obtain rfl := List.mem_singleton.mp hm'
      exact hnext
  | announce =>
    have htells : ∀ y ∈ (Section.announce.run d p.shared).2.2, ∃ m, y = .tell m ∧ m.aboutChannels = false := by
      intro y hy
      obtain ⟨info, -, rfl⟩ := List.mem_map.mp hy
      exact ⟨_, rfl, rfl⟩
    obtain ⟨hs, hst, hout⟩ := staged_tells htells hstaged
    exact h.light hi (.refl _) hs hst hout
  | announceEvicted id =>
    have htells : ∀ y ∈ ((Section.announceEvicted id).run d p.shared).2.2, ∃ m, y = .tell m ∧
        m.aboutChannels = false := by
      intro y hy
      obtain ⟨info, -, hy⟩ := List.mem_flatMap.mp hy
      rcases List.mem_cons.mp hy with rfl | hy
      · exact ⟨_, rfl, rfl⟩
      · obtain rfl := List.mem_singleton.mp hy
        exact ⟨_, rfl, rfl⟩
    obtain ⟨hs, hst, hout⟩ := staged_tells htells hstaged
    exact h.light hi (.refl _) hs hst hout
  | recapture => exact h.recapture hi
  | diff => exact h.diff hi
  | post => exact h.post hi

end

theorem Synced.step {t : Turn} (h : Synced p) (hok : OrderlyViews p t) (hst : p.Step t p') : Synced p' := by
  have hnone : ∀ {k : Nat}, p.jobs k = none → ∀ client nonce snapshot d rest,
      p.jobs k ≠ some (.working client nonce snapshot d rest) := fun hk => by simp [hk]
  cases hst with
  | knock identity hi => exact h.idle (.refl _) (hnone hi) (by simp) (fun j info he hinfo => by cases he; cases hinfo)
  | insert hi hfull => exact h.insert hi hok
  | turnAway hi => exact h.idle (.refl _) (by simp [hi]) (by simp) (fun j info he => by cases he)
  | @seePerms i info hi =>
    refine h.idle (.refl _) (by simp [hi]) (by simp) fun j info' he hinfo => ?_
    cases he
    cases hinfo
    exact ⟨.admitted info, hi, rfl, fun _ => rfl, fun _ _ => rfl⟩
  | @look i info seen hi =>
    refine h.idle (.refl _) (by simp [hi]) (by simp) fun j info' he hinfo => ?_
    cases he
    cases hinfo
    refine ⟨.looking info seen, hi, rfl, fun hg => (by cases hg), fun e he => ?_⟩
    change listed ((p.shared.swapPermState seen).visibleChannels info) = p.shared.view e.info
    rw [hok info seen e hi he]
    exact Shared.listed_visibleChannels h.rooms
  | @greet i info channels hi =>
    refine h.idle ?_ (by simp [hi]) (by simp) fun j info' he hinfo => ?_
    · rw [Shared.broadcast_eq]
      refine .deliver _ fun u m hm => ?_
      split at hm
      · cases hm
      · obtain rfl := List.mem_singleton.mp hm
        rfl
    · cases he
      cases hinfo
      exact ⟨.greeting info channels, hi, rfl, id, fun _ _ => rfl⟩
  | @leave i j info hi hinfo =>
    refine h.idle (.remove _ _) ?_ (by simp) fun j info he => (by cases he)
    rintro client nonce snapshot d rest hw
    rw [hi] at hw
    cases hw
    cases hinfo
  | @begin i client nonce o hi =>
    obtain ⟨hstaged, hidle⟩ := o.staged client nonce p.shared.perms
    have hwin : ∀ k d st out, (p.set i (some (.working client nonce p.shared.perms (.empty p.shared.perms)
        (o.sections client nonce p.shared.perms))) p.shared).Window k d st out ↔ p.Window k d st out := by
      intro k d st out
      by_cases hk : k = i
      · subst hk
        constructor
        · rintro ⟨hne, _, _, _, _, hj, rfl, -⟩
          rw [Floor.set_self] at hj
          cases hj
          exact absurd hidle hne
        · rintro ⟨-, _, _, _, _, hj, -⟩
          rw [hi] at hj
          cases hj
      · exact Floor.Window.of_ne hk
    refine h.calm (.refl _) (fun k client' nonce' snapshot' d rest' hw => ?_) (fun k d st out => (hwin k d st out).mp)
      (fun k d st out hw => .inl ((hwin k d st out).mpr hw)) fun k j info hk hinfo => ?_
    · rcases Floor.set_some hw with ⟨-, he⟩ | ⟨-, hw⟩
      · cases he
        exact hstaged
      · exact h.plans k client' nonce' snapshot' d rest' hw
    · rcases Floor.set_some hk with ⟨-, he⟩ | ⟨-, hk⟩
      · cases he
        cases hinfo
      · exact ⟨k, j, hk, hinfo, id, fun _ _ => rfl⟩
  | advance hi => exact h.advance hi (hok _ _ _ _ _ _ hi)
  | @fail i client nonce snapshot d call detail rest hi =>
    have hopen : ∀ k d st out, (p.set i none (refuse p.shared client nonce .internal detail)).Window k d st out →
        k ≠ i ∧ p.Window k d st out := by
      intro k d st out hw
      have hk : k ≠ i := by
        rintro rfl
        obtain ⟨-, _, _, _, _, hj, -⟩ := hw
        rw [Floor.set_self] at hj
        cases hj
      exact ⟨hk, (Floor.Window.of_ne hk).mp hw⟩
    refine h.calm ?_ (fun k client' nonce' snapshot' d rest' hw => ?_) (fun k d st out hw => (hopen k d st out hw).2)
      (fun k d' st out hw => ?_) fun k j info hk hinfo => ?_
    · simp only [Floor.set_shared, refuse_eq]
      refine .deliver _ fun u m hm => ?_
      split at hm
      · obtain rfl := List.mem_singleton.mp hm
        rfl
      · cases hm
    · rcases Floor.set_some hw with ⟨-, he⟩ | ⟨-, hw⟩
      · cases he
      · exact h.plans k client' nonce' snapshot' d rest' hw
    · by_cases hk : k = i
      · subst hk
        obtain ⟨hne, _, _, _, _, hj, rfl, -⟩ := hw
        rw [hi] at hj
        cases hj
        exact .inr (.inr ((h.plan hi).2.2.resolve_left hne))
      · exact .inl ((Floor.Window.of_ne hk).mpr hw)
    · rcases Floor.set_some hk with ⟨-, he⟩ | ⟨-, hk⟩
      · cases he
      · exact ⟨k, j, hk, hinfo, id, fun _ _ => rfl⟩
  | elsewhere he =>
    exact h.calm he.calm h.plans (fun _ _ _ _ hw => hw) (fun _ _ _ _ hw => .inl hw)
      fun k j info hk hinfo => ⟨k, j, hk, hinfo, id, fun _ _ => rfl⟩

end

/-- In every orderly run, once no command is in flight each client's list, its
`AuthOk` and the frames queued since, is what it may view. -/
theorem views_of_orderly {p₀ p : Floor} (hjobs : ∀ i, p₀.jobs i = none)
    (hids : Keyed.Unique ConnectedClient.id p₀.shared.clients) (hrooms : Keyed.Unique Channel.id p₀.shared.channels)
    (h : Run Floor.Step OrderlyViews p₀ p)
    (hquiet : ∀ i client nonce snapshot d rest, p.jobs i = some (.working client nonce snapshot d rest) → rest = [])
    {i : Nat} {info : UserInfo} {channels : List Channel} {e : ConnectedClient}
    (hi : p.jobs i = some (.connected info channels)) (he : p.shared.client? info.clientId = some e) :
    held (listed channels) e.control = p.shared.view e.info := by
  have hstart : Synced p₀ := by
    have hnone : ∀ k d st out, ¬ p₀.Window k d st out := by
      rintro k d st out ⟨-, _, _, _, _, hj, -⟩
      rw [hjobs] at hj
      cases hj
    refine ⟨hids, hrooms, ?_, ?_, ?_, ?_, ?_⟩
    · simp [hjobs]
    · exact fun k _ d _ st _ out _ hw => absurd hw (hnone k d st out)
    · exact fun k d st out hw => absurd hw (hnone k d st out)
    · simp [hjobs]
    · exact fun k d st out _ _ _ _ hw => absurd hw (hnone k d st out)
  have hsynced := h.invariant Synced hstart fun _ _ _ hs hok hst => hs.step hok hst
  funext id
  rcases hsynced.heard i _ info e hi rfl he id with hheard | ⟨k, d, st, out, ⟨hne, _, _, _, rest, hj, hst, -⟩, -⟩
  · exact hheard
  · obtain rfl := hquiet k _ _ _ _ rest hj
    exact absurd hst.symm hne

/-! ## A client greeted between a note and its change -/

/-- Client 1 manages roles; everyone sees channel 5. -/
def lobbyServer : Shared :=
  exampleServer [exampleRole 0 0 .defaultEveryone, exampleRole 2 2 .manageRoles]
    [{ id := 5, parent := none, name := "lobby", topic := "", kind := .text, maxUsers := none, order := 0,
       overwrites := [] }]
    [exampleClient 1 1 [2] none]

def lobbyFloor : Floor := ⟨lobbyServer, fun _ => none⟩

/-- What is left to ask of a section that neither swaps nor inserts a channel. -/
theorem Clear.of_plain {p : Floor} {snapshot : PermState} {d : Desk} {x : Section} {rest : List Section}
    (hswap : ∀ next, x ≠ .swap next) (hnew : ∀ c, x ≠ .insertChannel c)
    (hwindow : x = .snapshot → stage rest = .capturing → ∀ k d st out, ¬ p.Window k d st out)
    (hnoted : stage (x :: rest) ≠ .idle → ∀ k j info, p.jobs k = some j → j.greeted = true → j.info? = some info →
      ∃ b ∈ d.before, b.1 = info.clientId) : Clear p snapshot d x rest where
  window := hwindow
  quiet next he := absurd he (hswap next)
  current next he := absurd he (hswap next)
  distinct next he := absurd he (hswap next)
  unused c he := absurd he (hnew c)
  late hst k j info e e' hk hg hinfo _ _ hnot := by
    obtain ⟨b, hb, hid⟩ := hnoted hst k j info hk hg hinfo
    exact absurd hid (hnot b hb)

theorem stage_ne_capturing {rest : List Section} (h : ∀ y ∈ rest, y ≠ .capture) : stage rest ≠ .capturing := by
  fun_induction stage rest <;> simp_all

theorem run_before {x : Section} (hx : x ≠ .capture) (d : Desk) (s : Shared) : (x.run d s).2.1.before = d.before := by
  cases x with
  | capture => exact absurd rfl hx
  | _ => rfl

/-- A command that has noted everyone, and neither swaps nor inserts a channel any
more, is orderly to its end. -/
theorem orderly_through {p : Floor} {i : Nat} {client : ClientId} {nonce : UInt64} {snapshot : PermState} {d : Desk}
    {rest : List Section} (hi : p.jobs i = some (.working client nonce snapshot d rest))
    (hrest : ∀ y ∈ rest, y ≠ .capture ∧ (∀ next, y ≠ .swap next) ∧ ∀ c, y ≠ .insertChannel c)
    (hin : ∀ k j info, k ≠ i → p.jobs k = some j → j.greeted = true → j.info? = some info →
      ∃ b ∈ d.before, b.1 = info.clientId) :
    ∃ d', Run Floor.Step OrderlyViews p
      (p.set i (some (.working client nonce snapshot d' [])) (alone rest d p.shared)) := by
  refine Floor.run_through (q := p) (I := fun d' rest => d'.before = d.before ∧
      ∀ y ∈ rest, y ≠ .capture ∧ (∀ next, y ≠ .swap next) ∧ ∀ c, y ≠ .insertChannel c)
    (fun q d' x rest hq hi' hI => ⟨?_, fun s => ⟨?_, fun y hy => ?_⟩⟩) (fun _ _ => rfl) hi ⟨rfl, hrest⟩
  · intro client' nonce' snapshot' d'' x' rest' hj
    cases hi'.symm.trans hj
    obtain ⟨-, hswap, hnew⟩ := hI.2 x (List.mem_cons_self ..)
    refine .of_plain hswap hnew (fun _ hst => ?_) fun _ k j info hk hg hinfo => ?_
    · exact absurd hst (stage_ne_capturing fun y hy => (hI.2 y (List.mem_cons_of_mem _ hy)).1)
    by_cases hki : k = i
    · subst hki
      cases hi'.symm.trans hk
      cases hg
    · rw [hI.1]
      exact hin k j info hki (hq k hki ▸ hk) hg hinfo
  · exact (run_before (hI.2 x (List.mem_cons_self ..)).1 d' s).trans hI.1
  · rcases List.mem_append.mp hy with hy | hy
    · have hframe := run_more x d' s y hy
      refine ⟨?_, fun next => ?_, fun c => ?_⟩ <;> rintro rfl <;> cases hframe
    · exact hI.2 y (List.mem_cons_of_mem _ hy)

def lobbyGuest : UserInfo := lobbyServer.newcomer ⟨.rep 3, 8⟩ "n" []

/-- Client 1 hides the channel while a member connects, who is in the roster when
the command notes what everyone sees, and whose list is made before it is hidden. -/
theorem views_of_orderly_hidden : ∃ p info channels e, Run Floor.Step OrderlyViews lobbyFloor p ∧
    p.jobs 0 = some (.connected info channels) ∧ p.shared.client? info.clientId = some e ∧
    (listed channels 5).isSome = true ∧ p.shared.view e.info 5 = none ∧
    held (listed channels) e.control = p.shared.view e.info := by
  have hnoted : ∃ p d channels, Run Floor.Step OrderlyViews lobbyFloor p ∧
      p.shared = lobbyServer.insertNewcomer lobbyGuest ∧
      d = ⟨lobbyServer.perms, (lobbyServer.insertNewcomer lobbyGuest).idsUnder lobbyServer.perms, [], [], []⟩ ∧
      p.jobs 0 = some (.greeting lobbyGuest channels) ∧ (listed channels 5).isSome = true ∧
      (∀ k, k ≠ 0 → k ≠ 1 → p.jobs k = none) ∧
      p.jobs 1 = some (.working 1 8 lobbyServer.perms d
        (((Order.setOverwrite 5 ⟨.role 0, .none, .viewChannel⟩).sections 1 8 lobbyServer.perms).drop 2)) := by
    refine ⟨_, _, _, .step (.look 0) (.step (.seePerms 0) (.step (.advance 1) (.step (.advance 1) (.step (.insert 0)
      (.step (.begin 1 1 8 (.setOverwrite 5 ⟨.role 0, .none, .viewChannel⟩)) (.step (.knock 0 ⟨.rep 3, 8⟩ "n") .refl
      trivial (.knock ⟨.rep 3, 8⟩ rfl (by decide) (by decide +kernel)))
      trivial (.begin 1 8 _ rfl))
      ?_ (.insert rfl (by decide)))
      ?_ (.advance rfl))
      ?_ (.advance rfl))
      trivial (.seePerms rfl))
      ?_ (.look rfl), rfl, rfl, rfl, by decide +kernel, ?_, rfl⟩
    · rintro (⟨e, he⟩ | ⟨i, j, info, hj, hinfo, -⟩ | ⟨k, d, st, out, ⟨hst, _, _, _, rest, hj, hrest, -⟩, -⟩)
      · cases he
      · rcases Floor.set_some hj with ⟨-, he⟩ | ⟨-, hj⟩
        · cases he
          cases hinfo
        rcases Floor.set_some hj with ⟨-, he⟩ | ⟨-, hj⟩
        · cases he
          cases hinfo
        · cases hj
      · rcases Floor.set_some hj with ⟨-, he⟩ | ⟨-, hj⟩
        · cases he
          exact hst hrest.symm
        rcases Floor.set_some hj with ⟨-, he⟩ | ⟨-, hj⟩ <;> cases ‹_ = _›
    · intro client nonce snapshot d x rest hj
      cases hj
      refine .of_plain (by simp) (by simp) (fun _ _ => ?_) fun hst => absurd rfl hst
      rintro k d st out ⟨hst, _, _, _, rest, hj, hrest, -⟩
      rcases Floor.set_some hj with ⟨-, he⟩ | ⟨-, hj⟩; · cases he
      rcases Floor.set_some hj with ⟨-, he⟩ | ⟨-, hj⟩; · cases he; exact hst hrest.symm
      rcases Floor.set_some hj with ⟨-, he⟩ | ⟨-, hj⟩ <;> cases ‹_ = _›
    · intro client nonce snapshot d x rest hj
      cases hj
      refine .of_plain (by simp) (by simp) (fun he => by cases he) fun _ k j info hk hg => ?_
      -- Nobody has been greeted.
      rcases Floor.set_some hk with ⟨-, he⟩ | ⟨-, hk⟩; · cases he; cases hg
      rcases Floor.set_some hk with ⟨-, he⟩ | ⟨-, hk⟩; · cases he; cases hg
      rcases Floor.set_some hk with ⟨-, he⟩ | ⟨-, hk⟩; · cases he; cases hg
      rcases Floor.set_some hk with ⟨-, he⟩ | ⟨-, hk⟩; · cases he; cases hg
      cases hk
    · intro info seen e hj he
      cases hj
      cases he
      rfl
    · intro k h₀ h₁
      simp [Floor.set, h₀, h₁, lobbyFloor]
  obtain ⟨p, d, channels, hrun, hs, rfl, hgreeting, hlisted, hnone, hworks⟩ := hnoted
  have hplain : ∀ y ∈ ((Order.setOverwrite 5 ⟨.role 0, .none, .viewChannel⟩).sections 1 8 lobbyServer.perms).drop 2,
      y ≠ .capture ∧ (∀ next, y ≠ .swap next) ∧ ∀ c, y ≠ .insertChannel c := by
    intro y hy
    simp only [Order.sections, Order.captures, Order.resyncs, List.cons_append, List.nil_append, List.drop_succ_cons,
      List.drop_zero, List.mem_cons, List.not_mem_nil, or_false] at hy
    rcases hy with rfl | rfl | rfl | rfl | rfl | rfl <;> simp
  have hin : ∀ k j info, k ≠ 1 → p.jobs k = some j → j.greeted = true → j.info? = some info →
      ∃ b ∈ (lobbyServer.insertNewcomer lobbyGuest).idsUnder lobbyServer.perms, b.1 = info.clientId := by
    intro k j info h₁ hk hg hinfo
    by_cases h₀ : k = 0
    · subst h₀
      cases hgreeting.symm.trans hk
      cases hinfo
      decide +kernel
    · rw [hnone k h₀ h₁] at hk
      cases hk
  obtain ⟨d', hwork⟩ := orderly_through hworks hplain hin
  rw [hs] at hwork
  have hgreet : ∃ p' e, Run Floor.Step OrderlyViews lobbyFloor p' ∧
      (∀ i client nonce snapshot d rest, p'.jobs i = some (.working client nonce snapshot d rest) → rest = []) ∧
      p'.jobs 0 = some (.connected lobbyGuest channels) ∧ p'.shared.client? lobbyGuest.clientId = some e ∧
      p'.shared.view e.info 5 = none := by
    refine ⟨_, _, .step (.greet 0) (hrun.trans hwork) trivial (.greet hgreeting), ?_, Floor.set_self _, rfl, ?_⟩
    · intro i client nonce snapshot d rest hj
      rcases Floor.set_some hj with ⟨-, he⟩ | ⟨h₀, hj⟩
      · cases he
      rcases Floor.set_some hj with ⟨-, he⟩ | ⟨h₁, hj⟩
      · cases he
        rfl
      rw [hnone i h₀ h₁] at hj
      cases hj
    · simp only [Floor.set_shared]
      decide +kernel
  obtain ⟨p', e, hrun', hquiet, hi, he, hhidden⟩ := hgreet
  exact ⟨p', lobbyGuest, channels, e, hrun', hi, he, hlisted, hhidden, views_of_orderly (fun _ => rfl)
    (by unfold Keyed.Unique; decide) (by unfold Keyed.Unique; decide) hrun' hquiet hi he⟩

/-- Client 1's command to hide the channel, with what everyone saw noted. -/
def lobbyNoted : Floor :=
  lobbyFloor.set 1 (some (.working 1 8 lobbyServer.perms ⟨lobbyServer.perms, lobbyServer.visibleIdsByClient, [], [], []⟩
    (((Order.setOverwrite 5 ⟨.role 0, .none, .viewChannel⟩).sections 1 8 lobbyServer.perms).drop 2))) lobbyServer

def lobbyGreeted : Shared := (lobbyServer.insertNewcomer lobbyGuest).broadcast (.userJoined lobbyGuest) (some 100)

/-- The channel is hidden from everyone. The command passes its checks and is
acknowledged, nothing is in flight, and the member still has the channel. -/
theorem greeted_too_early :
    setChannelOverwrite 1 8 5 (.role 0) .none .viewChannel lobbyServer =
      (lobbyServer, (Order.setOverwrite 5 ⟨.role 0, .none, .viewChannel⟩).todo 1 8 lobbyServer.perms
        lobbyServer.visibleIdsByClient) ∧
    ∃ p info channels e, Run Floor.Step (fun _ _ => True) lobbyFloor p ∧ (∀ i j, p.jobs i = some j → j.settled) ∧
      Acked lobbyServer p.shared 1 8 ∧ p.jobs 0 = some (.connected info channels) ∧
      p.shared.client? info.clientId = some e ∧ held (listed channels) e.control ≠ p.shared.view e.info := by
  refine ⟨by rfl, ?_⟩
  have hnoted : Run Floor.Step (fun _ _ => True) lobbyFloor lobbyNoted := by
    have hrun : Run Floor.Step (fun _ _ => True) lobbyFloor _ := .step (.advance 1) (.step (.advance 1) (.step
      (.begin 1 1 8 (.setOverwrite 5 ⟨.role 0, .none, .viewChannel⟩)) .refl trivial (.begin 1 8 _ rfl)) trivial
      (.advance rfl)) trivial (.advance rfl)
    simp only [Floor.set_set] at hrun
    exact hrun
  have hknock : Run Floor.Step (fun _ _ => True) lobbyFloor
      (lobbyNoted.set 0 (some (.admitting ⟨.rep 3, 8⟩ "n" [])) lobbyServer) :=
    .step (.knock 0 ⟨.rep 3, 8⟩ "n") hnoted trivial (.knock ⟨.rep 3, 8⟩ rfl (by decide) (by decide +kernel))
  have hgreet := Floor.run_admitting (i := 0) (p := lobbyNoted.set 0 (some (.admitting ⟨.rep 3, 8⟩ "n" [])) lobbyServer)
    rfl (by decide)
  rw [Floor.set_set] at hgreet
  obtain ⟨d', hwork⟩ := Floor.run_alone (i := 1) (p := lobbyNoted.set 0 (some (.connected lobbyGuest
    ((lobbyServer.insertNewcomer lobbyGuest).visibleChannels lobbyGuest))) lobbyGreeted) rfl
  refine ⟨_, lobbyGuest, _, _, (hknock.trans hgreet).trans hwork, ?_, ?_, rfl, rfl, ?_⟩
  · intro i j hj
    rcases Floor.set_some hj with ⟨-, he⟩ | ⟨h₁, hj⟩
    · cases he
      exact rfl
    rcases Floor.set_some hj with ⟨-, he⟩ | ⟨h₀, hj⟩
    · cases he
      trivial
    simp [lobbyNoted, lobbyFloor, Floor.set, h₁] at hj
  · simp only [Floor.set_shared]
    decide +kernel
  · intro h
    have h5 := congrFun h 5
    simp only [Floor.set_shared] at h5
    revert h5
    decide +kernel

end PickleChat
