import PickleChat.Restart

/-!
# Channel ids over a run

The allocator hands out the id after the highest one in the map, and a deleted
channel leaves its messages behind. Along every run in which the highest
channel is never deleted and ids do not run out, an id never comes back, and
history only shows what was posted in the channel that has the id now.
-/

namespace PickleChat

open Async (Run exec)

/-- A run so far: where it stands, and every state before, latest first. -/
structure Trace where
  now : Shared × World
  past : List (Shared × World)

inductive Happening where
  | input (i : Input)
  | restart (config : ServerConfig) (now : UInt64)

def TraceStep (t : Trace) (e : Happening) (t' : Trace) : Prop :=
  t'.past = t.now :: t.past ∧
    match e with
    | .input i => ServeStep t.now i t'.now
    | .restart config now => Server.bind config now t.now.2.db = some (t'.now.1, t'.now.2.db)

def Live (x : Shared × World) (id : ChannelId) : Prop := ∃ c ∈ x.1.channels, c.id = id

instance (x : Shared × World) (id : ChannelId) : Decidable (Live x id) :=
  inferInstanceAs (Decidable (∃ c ∈ x.1.channels, c.id = id))

def Stored (x : Shared × World) (row : MessageRow) : Prop := row ∈ x.2.db.messages.rows

/-- No client that may deletes the highest channel, or creates one while that has no successor. -/
def IdsMoveOn (t : Trace) : Happening → Prop
  | .input (.control client (.deleteChannel nonce id)) =>
    ChannelAccepted t.now.1 client nonce (.delete id) → Live t.now id → ∃ higher, Live t.now higher ∧ id < higher
  | .input (.control client (.createChannel nonce name parent topic kind maxUsers order)) =>
    ChannelAccepted t.now.1 client nonce (.create name parent topic kind maxUsers order) →
      (Word.maxOr0 (t.now.1.channels.map Channel.id)).toNat + 1 < 2 ^ 32
  | _ => True

/-- The tables hold the ids of the map. -/
def IdsStored (x : Shared × World) : Prop :=
  ∀ n, n ∈ x.2.db.channels.rows.map ChannelRow.id ↔ ∃ id, Live x id ∧ Word.toColumn id = n

structure IdsSound (t : Trace) : Prop where
  stored : IdsStored t.now
  /-- Every id there was is at most one there is. -/
  below : ∀ z ∈ t.past, ∀ id, Live z id → ∃ top, Live t.now top ∧ id ≤ top
  kept : ∀ z ∈ t.past, ∀ row, Stored z row → Stored t.now row
  /-- Every message names a channel there was. -/
  named : ∀ row, Stored t.now row → ∃ z ∈ t.now :: t.past, ∃ id, Live z id ∧ Word.toColumn id = row.channel
  /-- A channel that has messages now had them whenever they were stored. -/
  same : ∀ row, Stored t.now row → ∀ id, Live t.now id → Word.toColumn id = row.channel →
    ∀ z ∈ t.past, Stored z row → Live z id

/-- What one step does to the map and to the messages. -/
inductive IdsStep (x y : Shared × World) : Prop
  | same (hlive : ∀ id, Live y id ↔ Live x id) (hrows : y.2.db.messages = x.2.db.messages) (hids : IdsStored y)
  | posted (row : MessageRow) (id : ChannelId) (hlive : ∀ id, Live y id ↔ Live x id) (hnamed : Live x id)
      (hid : Word.toColumn id = row.channel) (hnew : ¬ Stored x row)
      (hrows : ∀ r, Stored y r ↔ Stored x r ∨ r = row) (hids : IdsStored y)
  | created (new : ChannelId) (hfresh : ∀ id, Live x id → id < new) (hlive : ∀ id, Live y id ↔ Live x id ∨ id = new)
      (hrows : y.2.db.messages = x.2.db.messages) (hids : IdsStored y)
  | deleted (gone : ChannelId) (htop : Live x gone → ∃ top, Live x top ∧ gone < top)
      (hlive : ∀ id, Live y id ↔ Live x id ∧ id ≠ gone) (hrows : y.2.db.messages = x.2.db.messages) (hids : IdsStored y)
  | seeded (hempty : ∀ id, ¬ Live x id) (hrows : y.2.db.messages = x.2.db.messages) (hids : IdsStored y)

section
variable {t : Trace} {y : Shared × World} (h : IdsSound t)
include h

theorem IdsSound.below_now {z : Shared × World} (hz : z ∈ t.now :: t.past) {id : ChannelId} (hid : Live z id) :
    ∃ top, Live t.now top ∧ id ≤ top := by
  rcases List.mem_cons.mp hz with rfl | hz
  · exact ⟨id, hid, UInt32.le_refl _⟩
  · exact h.below z hz id hid

theorem IdsSound.kept_now {z : Shared × World} (hz : z ∈ t.now :: t.past) {row : MessageRow} (hrow : Stored z row) :
    Stored t.now row := by
  rcases List.mem_cons.mp hz with rfl | hz
  · exact hrow
  · exact h.kept z hz row hrow

theorem IdsSound.same_now {row : MessageRow} (hrow : Stored t.now row) {id : ChannelId} (hid : Live t.now id)
    (hc : Word.toColumn id = row.channel) {z : Shared × World} (hz : z ∈ t.now :: t.past) (hsz : Stored z row) :
    Live z id := by
  rcases List.mem_cons.mp hz with rfl | hz
  · exact hid
  · exact h.same row hrow id hid hc z hz hsz

theorem IdsSound.step (hst : IdsStep t.now y) : IdsSound ⟨y, t.now :: t.past⟩ := by
  have named : ∀ row, Stored t.now row →
      ∃ z ∈ y :: t.now :: t.past, ∃ id, Live z id ∧ Word.toColumn id = row.channel := by
    intro row hrow
    obtain ⟨z, hz, hid⟩ := h.named row hrow
    exact ⟨z, List.mem_cons_of_mem _ hz, hid⟩
  cases hst with
  | same hlive hrows hids =>
    have hst : ∀ row, Stored y row ↔ Stored t.now row := fun row => by unfold Stored; rw [hrows]
    refine ⟨hids, ?_, ?_, ?_, ?_⟩
    · intro z hz id hid
      obtain ⟨top, htop, hle⟩ := h.below_now hz hid
      exact ⟨top, (hlive top).mpr htop, hle⟩
    · intro z hz row hrow
      exact (hst row).mpr (h.kept_now hz hrow)
    · intro row hrow
      exact named row ((hst row).mp hrow)
    · intro row hrow id hid hc z hz hsz
      exact h.same_now ((hst row).mp hrow) ((hlive id).mp hid) hc hz hsz
  | posted row id hlive hnamed hid hnew hrows hids =>
    refine ⟨hids, ?_, ?_, ?_, ?_⟩
    · intro z hz id hid
      obtain ⟨top, htop, hle⟩ := h.below_now hz hid
      exact ⟨top, (hlive top).mpr htop, hle⟩
    · intro z hz r hr
      exact (hrows r).mpr (.inl (h.kept_now hz hr))
    · intro r hr
      rcases (hrows r).mp hr with hr | rfl
      · exact named r hr
      · exact ⟨y, List.mem_cons_self, id, (hlive id).mpr hnamed, hid⟩
    · intro r hr id' hid' hc z hz hsz
      rcases (hrows r).mp hr with hr | rfl
      · exact h.same_now hr ((hlive id').mp hid') hc hz hsz
      · exact absurd (h.kept_now hz hsz) hnew
  | created new hfresh hlive hrows hids =>
    have hst : ∀ row, Stored y row ↔ Stored t.now row := fun row => by unfold Stored; rw [hrows]
    refine ⟨hids, ?_, ?_, ?_, ?_⟩
    · intro z hz id hid
      obtain ⟨top, htop, hle⟩ := h.below_now hz hid
      exact ⟨top, (hlive top).mpr (.inl htop), hle⟩
    · intro z hz row hrow
      exact (hst row).mpr (h.kept_now hz hrow)
    · intro row hrow
      exact named row ((hst row).mp hrow)
    · intro row hrow id hid hc z hz hsz
      have hrow := (hst row).mp hrow
      rcases (hlive id).mp hid with hid | rfl
      · exact h.same_now hrow hid hc hz hsz
      · -- The message names an id there was, and all of these are below the new one.
        obtain ⟨z', hz', id', hid', hc'⟩ := h.named row hrow
        obtain rfl := Word.toColumn_inj (hc'.trans hc.symm)
        obtain ⟨top, htop, hle⟩ := h.below_now hz' hid'
        exact absurd (hfresh top htop) (UInt32.not_lt.mpr hle)
  | deleted gone htop hlive hrows hids =>
    have hst : ∀ row, Stored y row ↔ Stored t.now row := fun row => by unfold Stored; rw [hrows]
    refine ⟨hids, ?_, ?_, ?_, ?_⟩
    · intro z hz id hid
      obtain ⟨top, htop', hle⟩ := h.below_now hz hid
      by_cases he : top = gone
      · subst he
        obtain ⟨higher, hhigher, hlt⟩ := htop htop'
        have hne : higher ≠ top := fun e => UInt32.lt_irrefl _ (e ▸ hlt)
        exact ⟨higher, (hlive higher).mpr ⟨hhigher, hne⟩, UInt32.le_trans hle (UInt32.le_of_lt hlt)⟩
      · exact ⟨top, (hlive top).mpr ⟨htop', he⟩, hle⟩
    · intro z hz row hrow
      exact (hst row).mpr (h.kept_now hz hrow)
    · intro row hrow
      exact named row ((hst row).mp hrow)
    · intro row hrow id hid hc z hz hsz
      exact h.same_now ((hst row).mp hrow) ((hlive id).mp hid).1 hc hz hsz
  | seeded hempty hrows hids =>
    -- No channel now means no channel ever, and so no message.
    have hnone : ∀ z ∈ t.now :: t.past, ∀ id, ¬ Live z id := by
      intro z hz id hid
      obtain ⟨top, htop, -⟩ := h.below_now hz hid
      exact hempty top htop
    have hnomsg : ∀ row, ¬ Stored t.now row := by
      intro row hrow
      obtain ⟨z, hz, id, hid, -⟩ := h.named row hrow
      exact hnone z hz id hid
    have hst : ∀ row, ¬ Stored y row := fun row => by unfold Stored; rw [hrows]; exact hnomsg row
    refine ⟨hids, ?_, ?_, ?_, ?_⟩
    · intro z hz id hid
      exact absurd hid (hnone z hz id)
    · intro z hz row hrow
      exact absurd (h.kept_now hz hrow) (hnomsg row)
    · intro row hrow
      exact absurd hrow (hst row)
    · intro row hrow
      exact absurd hrow (hst row)

/-- An id that is in the map after a step and was not before it was never there. -/
theorem IdsSound.fresh_step (hst : IdsStep t.now y) {id : ChannelId} (hid : Live y id) (hnew : ¬ Live t.now id) :
    ∀ z ∈ t.past, ¬ Live z id := by
  intro z hz hlz
  obtain ⟨top, htop, hle⟩ := h.below z hz id hlz
  cases hst with
  | same hlive => exact hnew ((hlive id).mp hid)
  | posted row c hlive => exact hnew ((hlive id).mp hid)
  | created new hfresh hlive =>
    rcases (hlive id).mp hid with hid | rfl
    · exact hnew hid
    · exact UInt32.not_lt.mpr hle (hfresh top htop)
  | deleted gone _ hlive => exact hnew ((hlive id).mp hid).1
  | seeded hempty => exact hempty top htop

end

/-! ## Role commands and messages -/

theorem live_iff {x : Shared × World} {id : ChannelId} : Live x id ↔ id ∈ x.1.channels.map Channel.id := by
  simp [Live]

def roomTables (db : Db) := (db.channels, db.messages)

def SameIds (x y : Shared × World) : Prop :=
  y.1.channels.map Channel.id = x.1.channels.map Channel.id ∧ roomTables y.2.db = roomTables x.2.db

theorem SameIds.idsStep {x y : Shared × World} (h : SameIds x y) (hx : IdsStored x) : IdsStep x y := by
  obtain ⟨hids, htables⟩ := h
  simp only [roomTables, Prod.mk.injEq] at htables
  have hlive : ∀ id, Live y id ↔ Live x id := fun id => by rw [live_iff, live_iff, hids]
  refine .same hlive htables.2 fun n => ?_
  rw [htables.1, hx n]
  simp only [hlive]

def SameBare (x y : Shared × World) : Prop :=
  y.1.channels.map Channel.bare = x.1.channels.map Channel.bare ∧ roomTables y.2.db = roomTables x.2.db

theorem SameBare.sameIds {x y : Shared × World} (h : SameBare x y) : SameIds x y := by
  obtain ⟨hbare, htables⟩ := h
  refine ⟨?_, htables⟩
  have hids := congrArg (List.map Channel.id) hbare
  rwa [List.map_map, List.map_map] at hids

theorem strip_bare (s : Shared) (role : RoleId) :
    (s.stripRoleOverwrites role).2.channels.map Channel.bare = s.channels.map Channel.bare := by
  unfold Shared.stripRoleOverwrites
  simp only [List.map_map]
  apply List.map_congr_left
  intro c _
  rw [Function.comp_apply]
  split <;> rfl

section
variable {perform : (op : Await) → World → op.Reply × World} (hf : Faulty perform) {x : Shared × World}
include hf

theorem keepsBare_onSaved {call : StoreWrite} {failed : Shared → Shared} {saved : Handler}
    (hc : Spares roomTables call) (hfail : ∀ s, (failed s).channels = s.channels)
    (hbare : ∀ s, (saved s).1.channels.map Channel.bare = s.channels.map Channel.bare)
    (hk : ∀ s, (saved s).2.Keeps perform fun s w => SameBare x (s, w)) :
    (onSaved call failed saved).Keeps perform fun s w => SameBare x (s, w) := by
  intro s w hi
  rcases hf.save call w with ⟨db, hdb, hp⟩ | hp
  · rw [hp]
    exact ⟨⟨(hbare s).trans hi.1, (hc _ _ hdb).trans hi.2⟩, hk s⟩
  · rw [hp]
    refine ⟨⟨?_, hi.2⟩, trivial⟩
    exact (congrArg (List.map Channel.bare) (hfail s)).trans hi.1

theorem keepsBare_onWritten {call : StoreWrite} {k : Handler} (hc : Spares roomTables call)
    (hbare : ∀ s, (k s).1.channels.map Channel.bare = s.channels.map Channel.bare)
    (hk : ∀ s, (k s).2.Keeps perform fun s w => SameBare x (s, w)) :
    (onWritten call k).Keeps perform fun s w => SameBare x (s, w) := by
  intro s w hi
  rcases hf.save call w with ⟨db, hdb, hp⟩ | hp <;> rw [hp]
  · exact ⟨⟨(hbare s).trans hi.1, (hc _ _ hdb).trans hi.2⟩, hk s⟩
  · exact ⟨⟨(hbare s).trans hi.1, hi.2⟩, hk s⟩

theorem Passes.sameBare {s : Shared} {client : ClientId} {nonce : UInt64} {a : Actor} {cmd : RoleCommand}
    {next : PermState} {save : Todo} (hp : Passes s client nonce a cmd next save) :
    save.Keeps perform fun s w => SameBare x (s, w) := by
  have hpos : ∀ positions, Spares roomTables (.setRolePositions positions) := fun _ db db' h => by cases h; rfl
  cases hp with
  | create =>
    unfold createRoleSave
    refine keepsBare_onSaved hf (hpos _) (fun _ => rfl) (fun _ => rfl) fun s => ?_
    refine keepsBare_onSaved hf ?_ (fun _ => rfl) (fun s => by rw [createRoleSwap_eq]; rfl) fun _ => trivial
    intro db db' h
    obtain ⟨t, -, rfl⟩ := Option.map_eq_some_iff.mp h
    rfl
  | update =>
    unfold updateRoleSave
    refine keepsBare_onSaved hf ?_ (fun _ => rfl) (fun s => by rw [updateRoleSwap_eq]; rfl) fun _ => trivial
    intro db db' h
    cases h; rfl
  | delete =>
    unfold deleteRoleSave
    refine keepsBare_onSaved hf ?_ (fun _ => rfl) (fun _ => rfl) fun s => ?_
    · intro db db' h
      cases h; rfl
    · refine keepsBare_onWritten hf (hpos _) (fun s => ?_) fun _ => trivial
      rw [deleteRoleSwap_eq]
      exact strip_bare _ _
  | reorder =>
    unfold reorderRolesSave
    exact keepsBare_onSaved hf (hpos _) (fun _ => rfl) (fun s => by rw [reorderRolesSwap_eq]; rfl) fun _ => trivial
  | grant =>
    unfold setMemberRolesSave
    refine keepsBare_onSaved hf ?_ (fun _ => rfl) (fun s => by rw [setMemberRolesSwap_eq]; rfl) fun _ => trivial
    intro db db' h
    obtain ⟨t, -, rfl⟩ := Option.map_eq_some_iff.mp h
    rfl

theorem RoleCommand.sameBare (cmd : RoleCommand) (client : ClientId) (nonce : UInt64) (s : Shared) (w : World) :
    SameBare (s, w) (exec perform (cmd.handle client nonce) s w) := by
  unfold exec
  rcases handle_cases (rfl : cmd.handle client nonce s = _) with ⟨hd, hr⟩ | ⟨a, next, save, -, -, hp, he⟩
  · rw [hd, Async.Task.run_done]
    exact ⟨congrArg (List.map Channel.bare) hr.rooms.channels, rfl⟩
  · rw [he]
    exact (hp.sameBare hf).run ⟨rfl, rfl⟩

end

theorem SameIds.of_rooms {s s' : Shared} {w : World} (h : SameRooms s s') : SameIds (s, w) (s', w) :=
  ⟨congrArg (List.map Channel.id) h.channels, rfl⟩

theorem sendMessage_ids (client : ClientId) (channel : ChannelId) (content : String) (replyTo : Option MessageId)
    (nonce : UInt64) {s : Shared} {w : World} (hx : IdsStored (s, w)) :
    IdsStep (s, w) (exec Await.perform (sendMessage client channel content replyTo nonce) s w) := by
  have unchanged : ∀ {s' : Shared}, SameRooms s s' → IdsStep (s, w) (s', w) := fun h => (SameIds.of_rooms h).idsStep hx
  unfold exec sendMessage
  split; · exact unchanged (.refl s)
  split; · exact unchanged (.refl s)
  split; · exact unchanged (send_rooms ..)
  split; · exact unchanged (send_rooms ..)
  rename_i c hc
  split; · exact unchanged (send_rooms ..)
  split; · exact unchanged (send_rooms ..)
  split; · exact unchanged (send_rooms ..)
  have hbump : SameRooms s s.nextMessageIdBump.2 := ⟨rfl, rfl, rfl, rfl, rfl⟩
  dsimp only [Shared.buildMessage]
  split; · exact unchanged (hbump.trans (postMessage_rooms ..))
  generalize hm : (ChatMessage.mk _ _ _ _ _ _ _ _ _) = m
  have hchannel : m.channel = channel := by rw [← hm]
  dsimp only
  rw [run_onSaved]
  cases hdb : StoreWrite.perform (.insertMessage m) w.db with
  | none =>
    rw [Await.perform_rejected hdb, if_neg Bool.false_ne_true]
    exact unchanged (hbump.trans (send_rooms ..))
  | some db' =>
    rw [Await.perform_saved hdb, if_pos rfl, Async.Task.run_done]
    have hrooms := hbump.trans (postMessage_rooms s.nextMessageIdBump.2 client m nonce)
    obtain ⟨t, ht, rfl⟩ := Option.map_eq_some_iff.mp hdb
    obtain ⟨hrows, hnew⟩ := Keyed.Table.insert_rows ht
    have hlive : ∀ id, Live (postMessage s.nextMessageIdBump.2 client m nonce,
        { w with db := { w.db with messages := t } }) id ↔
        Live (s, w) id := fun id => by rw [live_iff, live_iff, hrooms.channels]
    refine .posted (messageRow m) channel hlive ⟨c, Keyed.get_mem hc, Keyed.get_key hc⟩ ?_ ?_ ?_ ?_
    · rw [← hchannel]; rfl
    · intro hst
      exact hnew _ hst rfl
    · intro r
      simp [Stored, hrows]
    · intro n
      simp only [hlive]
      exact hx n

/-! ## Channel commands -/

theorem modify_ids (l : List Channel) (id : ChannelId) {f : Channel → Channel} (hf : ∀ c, c.id = id → (f c).id = id) :
    (Keyed.modify Channel.id id f l).map Channel.id = l.map Channel.id := by
  unfold Keyed.modify
  rw [List.map_map]
  apply List.map_congr_left
  intro c _
  rw [Function.comp_apply]
  split
  · rename_i hc
    rw [hf c hc, hc]
  · rfl

theorem lt_succ_maxOr0 {l : List UInt32} (h : (Word.maxOr0 l).toNat + 1 < 2 ^ 32) {id : UInt32} (hid : id ∈ l) :
    id < Word.maxOr0 l + 1 := by
  have hle := UInt32.le_iff_toNat_le.mp (Word.le_maxOr0 hid)
  rw [UInt32.lt_iff_toNat_lt, UInt32.toNat_add]
  simp
  omega

theorem ChannelPasses.ids {s : Shared} {w : World} {client : ClientId} {nonce : UInt64} {cmd : ChannelCommand}
    {c : Change} (hp : ChannelPasses s client nonce cmd c) (hstore : s.store = true) (hx : IdsStored (s, w)) {db : Db}
    (hdb : c.call.perform w.db = some db) (past : List (Shared × World))
    (hok : IdsMoveOn ⟨(s, w), past⟩ (.input (.control client (cmd.frame nonce)))) (f : UserInfo → List ServerControl) :
    IdsStep (s, w) ((c.mem s).deliver f, { w with db }) := by
  have hacc : ChannelAccepted s client nonce cmd := ⟨hstore, c, hp⟩
  cases hp with
  | setOverwrite =>
    obtain rfl := Option.some.inj hdb
    exact SameIds.idsStep ⟨modify_ids _ _ fun c hc => hc, rfl⟩ hx
  | deleteOverwrite =>
    obtain rfl := Option.some.inj hdb
    exact SameIds.idsStep ⟨modify_ids _ _ fun c hc => hc, rfl⟩ hx
  | @create name trimmed parent topic kind maxUsers order _ _ =>
    obtain ⟨t, ht, rfl⟩ := Option.map_eq_some_iff.mp hdb
    obtain ⟨hrows, -⟩ := Keyed.Table.insert_rows ht
    have hlive : ∀ id, id ∈ (Keyed.putSorted Channel.id
        { id := s.nextChannelId, parent, name := trimmed, topic, kind, maxUsers, order, overwrites := [] }
        s.channels).map Channel.id ↔ id ∈ s.channels.map Channel.id ∨ id = s.nextChannelId := by
      intro id
      simp only [List.mem_map, Keyed.mem_putSorted]
      constructor
      · rintro ⟨d, rfl | ⟨hd, -⟩, rfl⟩
        · exact .inr rfl
        · exact .inl ⟨d, hd, rfl⟩
      · rintro (⟨d, hd, rfl⟩ | rfl)
        · by_cases he : d.id = s.nextChannelId
          · exact ⟨_, .inl rfl, he.symm⟩
          · exact ⟨d, .inr ⟨hd, he⟩, rfl⟩
        · exact ⟨_, .inl rfl, rfl⟩
    refine .created s.nextChannelId (fun id hid => lt_succ_maxOr0 (hok hacc) (live_iff.mp hid)) ?_ rfl fun n => ?_
    · intro id
      rw [live_iff, live_iff]
      exact hlive id
    · have := hx n
      simp only [live_iff] at this ⊢
      simp only [Shared.deliver_channels, Change.create, Shared.insertChannelMem, hlive, hrows, List.map_append,
        List.map_singleton, List.mem_append, List.mem_singleton, this]
      constructor
      · rintro (⟨id, hid, rfl⟩ | rfl)
        · exact ⟨id, .inl hid, rfl⟩
        · exact ⟨_, .inr rfl, rfl⟩
      · rintro ⟨id, hid | rfl, rfl⟩
        · exact .inl ⟨id, hid, rfl⟩
        · exact .inr rfl
  | @update id name trimmed parent topic kind maxUsers order _ _ _ =>
    obtain rfl := Option.some.inj hdb
    generalize hc : Channel.mk id parent trimmed topic kind maxUsers order [] = c
    have hids : (s.updateChannelMem c).channels.map Channel.id = s.channels.map Channel.id :=
      modify_ids _ _ fun _ _ => rfl
    have hlive : ∀ j, Live ((s.updateChannelMem c).deliver f, { w with db := w.db.updateChannel c }) j ↔
        Live (s, w) j := fun j => by
      rw [live_iff, live_iff]
      exact hids ▸ Iff.rfl
    refine .same hlive rfl fun n => ?_
    have hkeys : (w.db.updateChannel c).channels.rows.map ChannelRow.id = w.db.channels.rows.map ChannelRow.id :=
      w.db.channels.update_keys _ _ (by intro; rfl)
    simp only [Change.update, hlive]
    rw [hkeys]
    exact hx n
  | @delete id _ _ =>
    obtain rfl := Option.some.inj hdb
    have hlive : ∀ j, Live (((s.removeChannelMem id).2).deliver f, { w with db := w.db.deleteChannel id }) j ↔
        Live (s, w) j ∧ j ≠ id := by
      intro j
      simp only [Live, Shared.deliver_channels, Shared.removeChannelMem_channels, Keyed.mem_erase]
      constructor
      · rintro ⟨c, ⟨hc, hne⟩, rfl⟩
        exact ⟨⟨c, hc, rfl⟩, hne⟩
      · rintro ⟨⟨c, hc, rfl⟩, hne⟩
        exact ⟨c, ⟨hc, hne⟩, rfl⟩
    refine .deleted id (hok hacc) hlive rfl fun n => ?_
    have hrows : n ∈ (w.db.deleteChannel id).channels.rows.map ChannelRow.id ↔
        n ∈ w.db.channels.rows.map ChannelRow.id ∧ n ≠ Word.toColumn id := by
      simp only [List.mem_map, Db.deleteChannel, Keyed.Table.mem_delete, decide_eq_false_iff_not]
      constructor
      · rintro ⟨row, ⟨hrow, hne⟩, rfl⟩
        exact ⟨⟨row, hrow, rfl⟩, hne⟩
      · rintro ⟨⟨row, hrow, rfl⟩, hne⟩
        exact ⟨row, ⟨hrow, hne⟩, rfl⟩
    simp only [Change.delete, hlive]
    rw [hrows, hx n]
    constructor
    · rintro ⟨⟨j, hj, rfl⟩, hne⟩
      exact ⟨j, ⟨hj, fun e => hne (congrArg Word.toColumn e)⟩, rfl⟩
    · rintro ⟨j, ⟨hj, hne⟩, rfl⟩
      exact ⟨⟨j, hj, rfl⟩, fun e => hne (Word.toColumn_inj e)⟩

/-! ## Every input -/

theorem Input.ids {t : Trace} {y : Shared × World} {i : Input} (hx : IdsStored t.now) (hok : IdsMoveOn t (.input i))
    (hst : ServeStep t.now i y) : IdsStep t.now y := by
  obtain ⟨⟨s, w⟩, past⟩ := t
  subst hst
  have hban : ∀ b, Spares roomTables (.insertBan b) := fun b db db' hdb => by cases hdb; rfl
  have hunban : ∀ f, Spares roomTables (.deleteBan f) := fun f db db' hdb => by cases hdb; rfl
  have quiet : Undisturbed roomTables s w (serve Await.perform i s w).1 (serve Await.perform i s w).2 →
      IdsStep (s, w) (serve Await.perform i s w) := fun hu =>
    SameIds.idsStep ⟨congrArg (List.map Channel.id) hu.1.channels, hu.2⟩ hx
  cases i with
  | control client frame =>
    rcases frame.kinds with ⟨nonce, cmd, rfl⟩ | ⟨nonce, cmd, rfl⟩ | ⟨channel, content, replyTo, nonce, rfl⟩ | hp
    · rw [serve_role]
      exact (cmd.sameBare Await.faulty client nonce s w).sameIds.idsStep hx
    · rw [serve_channel]
      rcases cmd.exec_cases Await.faulty s w client nonce with ⟨hr, hw⟩ | ⟨c, db, hstore, hp, hdb, he⟩
      · refine SameIds.idsStep ⟨congrArg (List.map Channel.id) hr.rooms.channels, ?_⟩ hx
        exact congrArg (fun w => roomTables w.db) hw
      · rw [he]
        exact hp.ids hstore hx hdb past hok _
    · exact sendMessage_ids client channel content replyTo nonce hx
    · exact quiet (Input.undisturbed Await.faulty hban hunban s w fun _ _ he => by cases he; exact .inl hp)
  | connect => exact quiet (Input.undisturbed Await.faulty hban hunban s w fun _ _ he => nomatch he)
  | voice => exact quiet (Input.undisturbed Await.faulty hban hunban s w fun _ _ he => nomatch he)
  | disconnect => exact quiet (Input.undisturbed Await.faulty hban hunban s w fun _ _ he => nomatch he)
  | tick => exact quiet (Input.undisturbed Await.faulty hban hunban s w fun _ _ he => nomatch he)

/-! ## Restarts -/

/-- The ids loaded or seeded are those of the rows; nothing is seeded over rows there are. -/
theorem loadOrSeedChannels_ids {config : ServerConfig} {db db' : Db} {channels : List Channel}
    (h : loadOrSeedChannels config db = some (channels, db'))
    (hcanon : ∀ n ∈ db.channels.rows.map ChannelRow.id, ∃ id, Word.toColumn id = n) :
    ((channels.map Channel.id).map Word.toColumn).Perm (db'.channels.rows.map ChannelRow.id) ∧
      db'.messages = db.messages ∧ (db.channels.rows = [] ∨ db'.channels = db.channels) := by
  unfold loadOrSeedChannels at h
  split at h
  · rename_i hempty
    obtain ⟨db₁, h₁, he⟩ := Option.map_eq_some_iff.mp h
    cases he
    obtain ⟨hrows, hmsg⟩ := insertChannels_rows h₁
    have hnil : db.channels.rows = [] := by
      have := congrArg List.length hempty
      simpa [Db.loadChannels] using this
    refine ⟨?_, hmsg, .inl hnil⟩
    rw [hrows, hnil, List.nil_append, List.map_map, List.map_map]
    exact .refl _
  · cases h
    refine ⟨?_, rfl, .inr rfl⟩
    unfold Db.loadChannels
    rw [List.map_map, List.map_map]
    have hmap : ∀ l : List ChannelRow, (∀ row ∈ l, row ∈ db.channels.rows) →
        l.map ((Word.toColumn ∘ Channel.id) ∘ rowToChannel) = l.map ChannelRow.id := by
      intro l hl
      apply List.map_congr_left
      intro row hrow
      obtain ⟨id, hid⟩ := hcanon row.id (List.mem_map_of_mem (hl row hrow))
      simp only [Function.comp_apply, rowToChannel, ← hid, Word.ofColumn_toColumn]
    rw [hmap _ fun row hrow => List.mem_insertionSort _ |>.mp hrow]
    exact (List.perm_insertionSort _ _).map ChannelRow.id

theorem bind_ids {config : ServerConfig} {now : UInt64} {db db' : Db} {s : Shared} (wire : List ServerControl)
    (h : Server.bind config now db = some (s, db'))
    (hcanon : ∀ n ∈ db.channels.rows.map ChannelRow.id, ∃ id, Word.toColumn id = n) :
    IdsStored (s, ⟨db', wire⟩) ∧ db'.messages = db.messages ∧
      (db.channels.rows = [] ∨ db'.channels = db.channels) := by
  obtain ⟨channels, db₁, roles, hc, hr, -, hchannels⟩ := bind_some h
  obtain ⟨hperm, hmsg, hsame⟩ := loadOrSeedChannels_ids hc hcanon
  obtain ⟨hctable, hmtable⟩ := loadOrSeedRoles_tables hr
  refine ⟨fun n => ?_, hmtable.trans hmsg, ?_⟩
  · have hids : Keyed.Unique Channel.id channels :=
      List.Nodup.of_map _ (hperm.nodup_iff.mpr db₁.channels.unique)
    have hattach : ∀ c, (attached db'.loadOverwrites c).id = c.id := fun _ => rfl
    rw [foldl_attach _ hids] at hchannels
    obtain ⟨-, hmem⟩ := Keyed.foldl_putSorted (hids.map hattach) List.Pairwise.nil (by simp)
    rw [← hchannels] at hmem
    rw [hctable, ← hperm.mem_iff]
    simp only [Live, hmem, List.mem_map]
    constructor
    · rintro ⟨id, ⟨c, hc, rfl⟩, rfl⟩
      exact ⟨c.id, ⟨_, .inr ⟨c, hc, rfl⟩, rfl⟩, rfl⟩
    · rintro ⟨id, ⟨_, hc | ⟨c, hc, rfl⟩, rfl⟩, rfl⟩
      · cases hc
      · exact ⟨_, ⟨c, hc, rfl⟩, rfl⟩
  · rw [hctable]
    exact hsame

theorem restart_ids {config : ServerConfig} {now : UInt64} {x y : Shared × World} (hx : IdsStored x)
    (h : Server.bind config now x.2.db = some (y.1, y.2.db)) : IdsStep x y := by
  have hcanon : ∀ n ∈ x.2.db.channels.rows.map ChannelRow.id, ∃ id, Word.toColumn id = n := by
    intro n hn
    obtain ⟨id, -, he⟩ := (hx n).mp hn
    exact ⟨id, he⟩
  obtain ⟨hy, hmsg, hrows⟩ := bind_ids y.2.wire h hcanon
  by_cases hempty : ∃ id, Live x id
  · obtain ⟨id, hid⟩ := hempty
    have hrow : Word.toColumn id ∈ x.2.db.channels.rows.map ChannelRow.id := (hx _).mpr ⟨id, hid, rfl⟩
    have hsame : y.2.db.channels = x.2.db.channels := by
      rcases hrows with hnil | hsame
      · rw [hnil] at hrow
        cases hrow
      · exact hsame
    refine .same (fun j => ?_) hmsg hy
    have hj := hy (Word.toColumn j)
    rw [show y.2.db.channels = x.2.db.channels from hsame, hx] at hj
    constructor
    · intro hl
      obtain ⟨k, hk, he⟩ := hj.mpr ⟨j, hl, rfl⟩
      exact Word.toColumn_inj he ▸ hk
    · intro hl
      obtain ⟨k, hk, he⟩ := hj.mp ⟨j, hl, rfl⟩
      exact Word.toColumn_inj he ▸ hk
  · exact .seeded (fun id hid => hempty ⟨id, hid⟩) hmsg hy

theorem IdsSound.run_step {t t' : Trace} {e : Happening} (h : IdsSound t) (hok : IdsMoveOn t e)
    (hst : TraceStep t e t') : IdsStep t.now t'.now := by
  obtain ⟨-, hst⟩ := hst
  cases e with
  | input i => exact Input.ids h.stored hok hst
  | restart config now => exact restart_ids h.stored hst

/-! ## Fetched history -/

theorem mem_of_mapM {α β : Type} {f : α → Option β} {l : List α} {ys : List β} (h : l.mapM f = some ys) {y : β}
    (hy : y ∈ ys) : ∃ a ∈ l, f a = some y := by
  induction l generalizing ys with
  | nil => cases h; cases hy
  | cons a l ih =>
    rw [List.mapM_cons] at h
    obtain ⟨b, hb, h⟩ := Option.bind_eq_some_iff.mp h
    obtain ⟨bs, hbs, h⟩ := Option.bind_eq_some_iff.mp h
    cases h
    rcases List.mem_cons.mp hy with rfl | hy
    · exact ⟨a, by simp, hb⟩
    · obtain ⟨a', ha', he⟩ := ih hbs hy
      exact ⟨a', by simp [ha'], he⟩

theorem mem_history {db : Db} {channel : ChannelId} {before : Option MessageId} {limit : UInt16}
    {messages : List ChatMessage} {start : Bool} (h : db.history channel before limit = some (messages, start))
    {m : ChatMessage} (hm : m ∈ messages) :
    ∃ row ∈ db.messages.rows, rowToMessage row = some m ∧ row.channel = Word.toColumn channel := by
  obtain ⟨page, hpage, he⟩ := Option.map_eq_some_iff.mp h
  cases he
  obtain ⟨row, hrow, hrm⟩ := mem_of_mapM hpage (List.mem_reverse.mp hm)
  have hrow := List.mem_of_mem_take (List.mem_of_mem_take hrow)
  have hrow := List.mem_filter.mp (List.mem_insertionSort _ |>.mp hrow)
  have hc : row.channel = Word.toColumn channel := (decide_eq_true_eq.mp hrow.2).1
  exact ⟨row, hrow.1, hrm, hc⟩

def fetched (x : Shared × World) (client : ClientId) (channel : ChannelId) (before : Option MessageId)
    (limit : UInt16) : List ServerControl :=
  ((serve Await.perform (.control client (.fetchHistory channel before limit)) x.1 x.2).1.queue client).drop
    (x.1.queue client).length

theorem queue_send (s : Shared) (client : ClientId) (m : ServerControl) :
    ∀ f ∈ ((s.send client m).queue client).drop (s.queue client).length, f = m := by
  intro f hf
  rw [Shared.send_eq, Shared.queue_deliver, List.drop_left] at hf
  cases hc : s.client? client with
  | none => simp [hc] at hf
  | some e => simpa [hc, Shared.client?_id hc] using hf

theorem fetched_stored {x : Shared × World} {client : ClientId} {channel : ChannelId} {before : Option MessageId}
    {limit : UInt16} {c : ChannelId} {messages : List ChatMessage} {start : Bool}
    (h : .history c messages start ∈ fetched x client channel before limit) {m : ChatMessage} (hm : m ∈ messages) :
    c = channel ∧ Live x channel ∧
      ∃ row, Stored x row ∧ rowToMessage row = some m ∧ row.channel = Word.toColumn channel := by
  unfold fetched serve at h
  simp only [Input.handler, handleControl, exec, fetchHistory] at h
  have empty : ∀ f ∈ ((x.1.send client (.history channel [] true)).queue client).drop (x.1.queue client).length,
      f = .history c messages start → False := by
    intro f hf he
    rw [queue_send _ _ _ f hf] at he
    cases he
    cases hm
  split at h; · exact (empty _ h rfl).elim
  split at h; · exact (empty _ h rfl).elim
  rename_i hkind
  split at h; · exact (empty _ h rfl).elim
  split at h; · exact (empty _ h rfl).elim
  have hlive : Live x channel := by
    cases hc : x.1.channel channel with
    | none => simp [hc] at hkind
    | some room => exact ⟨room, Keyed.get_mem hc, Keyed.get_key hc⟩
  have hload : Await.perform (.load (.history channel before limit)) x.2 =
      (x.2.db.history channel before limit, x.2) := rfl
  simp only [onLoad, Async.Task.run_wait, hload] at h
  cases hh : x.2.db.history channel before limit with
  | none =>
    rw [hh] at h
    cases queue_send _ _ _ _ h
  | some page =>
    obtain ⟨page, start'⟩ := page
    rw [hh] at h
    cases queue_send _ _ _ _ h
    obtain ⟨row, hrow, hrm, hc⟩ := mem_history hh hm
    exact ⟨rfl, hlive, row, hrow, hrm, hc⟩

/-! ## The run -/

/-- An id in the map that was not there a step ago was never there. -/
def NeverBack (t : Trace) : Prop :=
  match t.past with
  | [] => True
  | prev :: older => ∀ id, Live t.now id → ¬ Live prev id → ∀ z ∈ older, ¬ Live z id

/-- Every message fetched for a channel was posted in it: the channel is in the
map in every state the message is stored in. -/
def HistoryOwn (t : Trace) : Prop :=
  ∀ client channel before limit c messages start,
    .history c messages start ∈ fetched t.now client channel before limit →
    ∀ m ∈ messages, ∃ row, Stored t.now row ∧ rowToMessage row = some m ∧
      ∀ z ∈ t.now :: t.past, Stored z row → Live z c

/-- The id the next channel gets was never in the map. -/
def NextIdFresh (t : Trace) : Prop :=
  (Word.maxOr0 (t.now.1.channels.map Channel.id)).toNat + 1 < 2 ^ 32 →
    ∀ z ∈ t.now :: t.past, ¬ Live z t.now.1.nextChannelId

theorem IdsSound.historyOwn {t : Trace} (h : IdsSound t) : HistoryOwn t := by
  intro client channel before limit c messages start hf m hm
  obtain ⟨rfl, hlive, row, hrow, hrm, hc⟩ := fetched_stored hf hm
  exact ⟨row, hrow, hrm, fun z hz hsz => h.same_now hrow hlive hc.symm hz hsz⟩

theorem IdsSound.nextIdFresh {t : Trace} (h : IdsSound t) : NextIdFresh t := by
  intro hleft z hz hid
  obtain ⟨top, htop, hle⟩ := h.below_now hz hid
  exact UInt32.not_lt.mpr hle (lt_succ_maxOr0 hleft (live_iff.mp htop))

/-- From a start whose messages all name a channel, in every run that never
deletes the highest channel and does not run out of ids: no id comes back, and
history never shows what was posted in another channel. -/
theorem channelIds_moveOn {config : ServerConfig} {now : UInt64} {db db₀ : Db} {s₀ : Shared}
    {wire : List ServerControl} {t : Trace} (hb : Server.bind config now db = some (s₀, db₀))
    (hcanon : ∀ n ∈ db.channels.rows.map ChannelRow.id, ∃ id, Word.toColumn id = n)
    (hnamed : ∀ row ∈ db.messages.rows, ∃ c ∈ s₀.channels, Word.toColumn c.id = row.channel)
    (hrun : Run TraceStep IdsMoveOn ⟨(s₀, ⟨db₀, wire⟩), []⟩ t) :
    NeverBack t ∧ NextIdFresh t ∧ HistoryOwn t := by
  obtain ⟨hids, hmsg, -⟩ := bind_ids wire hb hcanon
  have h₀ : IdsSound ⟨(s₀, ⟨db₀, wire⟩), []⟩ := by
    refine ⟨hids, ?_, ?_, ?_, ?_⟩
    · intro z hz; cases hz
    · intro z hz; cases hz
    · intro row hrow
      unfold Stored at hrow
      rw [show (s₀, World.mk db₀ wire).2.db.messages = db.messages from hmsg] at hrow
      obtain ⟨c, hc, he⟩ := hnamed row hrow
      exact ⟨_, List.mem_cons_self, c.id, ⟨c, hc, rfl⟩, he⟩
    · intro row _ id _ _ z hz; cases hz
  have hsound : IdsSound t ∧ NeverBack t := by
    refine hrun.invariant (fun t => IdsSound t ∧ NeverBack t) ⟨h₀, trivial⟩ ?_
    rintro t e ⟨now', past'⟩ ⟨hi, -⟩ hok hst
    have hstep := hi.run_step hok hst
    obtain ⟨rfl, -⟩ := hst
    exact ⟨hi.step hstep, fun id hid hnew => hi.fresh_step hstep hid hnew⟩
  exact ⟨hsound.2, hsound.1.nextIdFresh, hsound.1.historyOwn⟩

/-! ## An id handed out twice -/

/-- The default roles, and channels 1 and 2. -/
def twoChannelsDb : Db :=
  { Db.empty with
    roles := leftoverDb.roles
    channels := ⟨[exampleChannel 1, exampleChannel 2].map channelRow, by decide⟩ }

def Trace.serve (t : Trace) (i : Input) : Trace := ⟨PickleChat.serve Await.perform i t.now.1 t.now.2, t.now :: t.past⟩

theorem Trace.run_serve {ok : Trace → Happening → Prop} {t₀ t : Trace} (h : Run TraceStep ok t₀ t) (i : Input)
    (hok : ok t (.input i)) : Run TraceStep ok t₀ (t.serve i) := .step (.input i) h hok ⟨rfl, rfl⟩

def twoChannelsStart : Trace :=
  ⟨(((Server.bind ownedConfig 5 twoChannelsDb).get (by decide +kernel)).1, ⟨twoChannelsDb, []⟩), []⟩

def ownerPosts : Trace :=
  (twoChannelsStart.serve ownerConnects).serve (.control 1 (.sendMessage 2 "secret" none 7))

def channelDeleted : Trace := ownerPosts.serve (.control 1 (.deleteChannel 8 2))

def channelRecreated : Trace := channelDeleted.serve (.control 1 (.createChannel 9 "door" none "" .text none 0))

theorem twoChannelsStart_bind :
    Server.bind ownedConfig 5 twoChannelsDb = some (twoChannelsStart.now.1, twoChannelsDb) := rfl

/-- The new channel has the id of the deleted one, and shows its message. -/
theorem channelId_reused :
    Server.bind ownedConfig 5 twoChannelsDb = some (twoChannelsStart.now.1, twoChannelsDb) ∧
      twoChannelsDb.messages.rows = [] ∧ Run TraceStep (fun _ _ => True) twoChannelsStart channelRecreated ∧
      ¬ NeverBack channelRecreated ∧ ¬ HistoryOwn channelRecreated := by
  let m : ChatMessage :=
    { id := 1, channel := 2, author := none, authorFingerprint := .rep 1, authorNickname := "n", sentAtUnixMs := 5,
      editedAtUnixMs := none, content := "secret", replyTo := none }
  have hids : Live ownerPosts.now 2 ∧ ¬ Live channelDeleted.now 2 ∧ Live channelRecreated.now 2 ∧
      .history 2 [m] true ∈ fetched channelRecreated.now 1 2 none 50 := by decide +kernel
  obtain ⟨hposted, hgone, hrecreated, hf⟩ := hids
  refine ⟨twoChannelsStart_bind, rfl, ?_, fun h => ?_, fun h => ?_⟩
  · apply Trace.run_serve
    · apply Trace.run_serve
      · apply Trace.run_serve
        · apply Trace.run_serve
          · exact .refl
          · trivial
        · trivial
      · trivial
    · trivial
  · exact h 2 hrecreated hgone ownerPosts.now List.mem_cons_self hposted
  · obtain ⟨row, hrow, -, hall⟩ := h 1 2 none 50 2 [m] true hf m List.mem_cons_self
    exact hgone (hall channelDeleted.now (List.mem_cons_of_mem _ List.mem_cons_self) hrow)

/-- A guest asks for the highest channel to be deleted, and is refused. -/
def guestRefused : Trace :=
  (ownerPosts.serve (.connect ⟨protocolVersion, ⟨.rep 2, 8⟩, "n", none, true⟩)).serve (.control 2 (.deleteChannel 8 2))

/-- The owner posts in a channel, which stays though a guest would have it deleted, and creates another. -/
theorem channelIds_moveOn_create :
    let t := guestRefused.serve (.control 1 (.createChannel 9 "door" none "" .text none 0))
    Live t.now 2 ∧ Live t.now 3 ∧ NeverBack t ∧ NextIdFresh t ∧ HistoryOwn t := by
  have hids : (Word.maxOr0 (guestRefused.now.1.channels.map Channel.id)).toNat + 1 < 2 ^ 32 ∧
      Live (guestRefused.serve (.control 1 (.createChannel 9 "door" none "" .text none 0))).now 2 ∧
      Live (guestRefused.serve (.control 1 (.createChannel 9 "door" none "" .text none 0))).now 3 := by decide +kernel
  have hguest : (ownerPosts.serve (.connect ⟨protocolVersion, ⟨.rep 2, 8⟩, "n", none, true⟩)).now.1.canGlobally 2
      .manageChannels = false := by decide +kernel
  have hrun : Run TraceStep IdsMoveOn twoChannelsStart
      (guestRefused.serve (.control 1 (.createChannel 9 "door" none "" .text none 0))) := by
    apply Trace.run_serve
    · apply Trace.run_serve
      · apply Trace.run_serve
        · apply Trace.run_serve
          · apply Trace.run_serve
            · exact .refl
            · trivial
          · trivial
        · trivial
      · rintro ⟨-, c, hp⟩
        cases hp with
        | delete hcan _ => exact absurd (hguest.symm.trans hcan) Bool.false_ne_true
    · exact fun _ => hids.1
  refine ⟨hids.2.1, hids.2.2, channelIds_moveOn twoChannelsStart_bind ?_ ?_ hrun⟩
  · intro n hn
    obtain ⟨row, hrow, rfl⟩ := List.mem_map.mp hn
    obtain ⟨c, -, rfl⟩ := List.mem_map.mp hrow
    exact ⟨c.id, rfl⟩
  · intro row hrow
    cases hrow

end PickleChat
