import PickleChat.ChannelIds
import PickleChat.Faults
import PickleChat.Seeding

/-!
# What inputs and restarts do to the channels

Inputs handled one after the other, whichever store calls fail, and restarts in
between. The rows of the channel table are the channels of the map throughout;
only three commands change them, and each is acknowledged when it does.
-/

namespace PickleChat

open Async (Run exec)

/-- The map is in order, and the rows of the table are its channels. -/
structure RoomsStored (x : Shared × World) : Prop where
  sorted : x.1.channels.Pairwise fun a b => a.id < b.id
  rows : ChannelRows x.1.channels x.2.db

/-- One input, handled alone; any store call may fail. -/
def HandledStep (x : Shared × World) (i : Input) (y : Shared × World) : Prop :=
  ∃ perform, Faulty perform ∧ serve perform i x.1 x.2 = y

def RestartStep (x : Shared × World) (config : ServerConfig) (now : UInt64) (y : Shared × World) : Prop :=
  config.validate = .ok () ∧ Server.bind config now x.2.db = some (y.1, y.2.db)

def ParentIn (channels : List Channel) (parent : Option ChannelId) : Prop :=
  ∀ p, parent = some p → ∃ d ∈ channels, d.id = p

def ChannelCommand.shapes : ChannelCommand → Bool
  | create .. | update .. | delete .. => true
  | setOverwrite .. | deleteOverwrite .. => false

/-- What an input does to the channels. -/
inductive RoomsStep (x y : Shared × World) (i : Input) : Prop
  | same (hbare : y.1.channels.map Channel.bare = x.1.channels.map Channel.bare)
      (hquiet : ∀ client nonce cmd, i = .control client (ChannelCommand.frame nonce cmd) → cmd.shapes = true →
        ¬ Acked x.1 y.1 client nonce)
  | created (client : ClientId) (nonce : UInt64) (name : String) (c : Channel)
      (hi : i = .control client (.createChannel nonce name c.parent c.topic c.kind c.maxUsers c.order))
      (hnew : ∀ d ∈ x.1.channels, d.id ≠ c.id) (hparent : ParentIn x.1.channels c.parent)
      (hmap : y.1.channels = Keyed.putSorted Channel.id c x.1.channels) (hack : Acked x.1 y.1 client nonce)
  | updated (client : ClientId) (nonce : UInt64) (name : String) (c : Channel)
      (hi : i = .control client (.updateChannel nonce c.id c.parent name c.topic c.kind c.maxUsers c.order))
      (hparent : ParentIn x.1.channels c.parent)
      (hmap : y.1.channels =
        Keyed.modify Channel.id c.id (fun old => { c with overwrites := old.overwrites }) x.1.channels)
      (hack : Acked x.1 y.1 client nonce)
  | deleted (client : ClientId) (nonce : UInt64) (id : ChannelId) (hi : i = .control client (.deleteChannel nonce id))
      (hmanage : x.1.canGlobally client .manageChannels = true) (hview : x.1.can client id .viewChannel = true)
      (hmap : y.1.channels = Keyed.erase Channel.id id x.1.channels) (hack : Acked x.1 y.1 client nonce)

theorem RoomsStored.of_bare {x y : Shared × World} (h : RoomsStored x)
    (hbare : y.1.channels.map Channel.bare = x.1.channels.map Channel.bare)
    (hrows : y.2.db.channels = x.2.db.channels) :
    RoomsStored y := by
  refine ⟨?_, h.rows.of_bare hbare hrows⟩
  have hids : y.1.channels.map Channel.id = x.1.channels.map Channel.id := by
    have hids := congrArg (List.map Channel.id) hbare
    rwa [List.map_map, List.map_map] at hids
  have hsorted : (y.1.channels.map Channel.id).Pairwise (· < ·) := by
    rw [hids]
    exact List.pairwise_map.mpr h.sorted
  exact List.pairwise_map.mp hsorted

/-! ## Commands -/

theorem ChannelCommand.frame_inj {nonce nonce' : UInt64} {cmd cmd' : ChannelCommand}
    (h : cmd.frame nonce = cmd'.frame nonce') : nonce = nonce' ∧ cmd = cmd' := by
  cases cmd <;> cases cmd' <;> cases h <;> exact ⟨rfl, rfl⟩

theorem validateChannel_parent {s : Shared} {client : ClientId} {nonce : UInt64} {id : Option ChannelId}
    {name trimmed : String} {parent : Option ChannelId}
    (h : validateChannel s client nonce id name parent = .ok trimmed) :
    ParentIn s.channels parent := by
  rintro p rfl
  unfold validateChannel at h
  dsimp only at h
  split at h; · cases h
  split at h; · cases h
  rename_i hany
  simpa using hany

section
variable {s : Shared} {w : World} {client : ClientId} {nonce : UInt64}

theorem ChannelPasses.rooms {cmd : ChannelCommand} {c : Change} (hp : ChannelPasses s client nonce cmd c)
    (hx : RoomsStored (s, w)) {db : Db} (hdb : c.call.perform w.db = some db) {y : Shared × World}
    (hy : y = ((c.mem s).deliver fun i => c.frames s i ++ acks client nonce i, { w with db })) :
    RoomsStored y ∧ RoomsStep (s, w) y (.control client (cmd.frame nonce)) := by
  have hacked : cmd.shapes = true → Acked s y.1 client nonce := by
    rw [hy]
    exact fun _ => hp.acked
  have hmap : y.1.channels = (c.mem s).channels := by rw [hy]; rfl
  have hdb' : y.2.db = db := by rw [hy]
  clear hy
  have modified : ∀ (id : ChannelId) (f : Channel → Channel),
      y.1.channels = Keyed.modify Channel.id id f s.channels → (∀ c, (f c).bare = c.bare) →
        db.channels = w.db.channels → cmd.shapes = false →
      RoomsStored y ∧ RoomsStep (s, w) y (.control client (cmd.frame nonce)) := by
    intro id f hy hf hrows hcmd
    have hbare : y.1.channels.map Channel.bare = s.channels.map Channel.bare := by
      rw [hy]
      unfold Keyed.modify
      rw [List.map_map]
      apply List.map_congr_left
      intro c _
      rw [Function.comp_apply]
      split
      · exact hf c
      · rfl
    refine ⟨hx.of_bare hbare (by rw [hdb', hrows]), .same hbare ?_⟩
    intro client' nonce' cmd' he hshapes
    obtain ⟨-, rfl⟩ := ChannelCommand.frame_inj (Input.control.inj he).2
    rw [hcmd] at hshapes
    cases hshapes
  cases hp with
  | setOverwrite =>
    obtain rfl := Option.some.inj hdb
    exact modified _ _ hmap (fun _ => rfl) rfl rfl
  | deleteOverwrite =>
    obtain rfl := Option.some.inj hdb
    exact modified _ _ hmap (fun _ => rfl) rfl rfl
  | create _ hvalid =>
    refine ⟨⟨?_, ?_⟩, .created client nonce _ _ rfl (hx.rows.fresh hdb) (validateChannel_parent hvalid) hmap
      (hacked rfl)⟩
    · rw [hmap]
      exact Keyed.putSorted_sorted hx.sorted _
    · rw [hmap, hdb']
      exact hx.rows.created hdb
  | @update id name trimmed parent topic kind maxUsers order _ _ hvalid =>
    obtain rfl := Option.some.inj hdb
    refine ⟨⟨?_, ?_⟩, .updated client nonce name
      { id, parent, name := trimmed, topic, kind, maxUsers, order, overwrites := [] } rfl
      (validateChannel_parent hvalid) hmap (hacked rfl)⟩
    · have hids : y.1.channels.map Channel.id = s.channels.map Channel.id := by
        rw [hmap]
        exact modify_ids _ _ fun _ _ => rfl
      have hsorted : (y.1.channels.map Channel.id).Pairwise (· < ·) := by
        rw [hids]
        exact List.pairwise_map.mpr hx.sorted
      exact List.pairwise_map.mp hsorted
    · rw [hmap, hdb']
      exact hx.rows.updated _
  | @delete id hmanage hview =>
    obtain rfl := Option.some.inj hdb
    have hmap : y.1.channels = Keyed.erase Channel.id id s.channels := by
      rw [hmap]
      exact Shared.removeChannelMem_channels id
    refine ⟨⟨?_, ?_⟩, .deleted client nonce id rfl hmanage hview hmap (hacked rfl)⟩
    · rw [hmap]
      exact hx.sorted.filter _
    · rw [hmap, hdb']
      exact hx.rows.deleted id

/-! ## Every input -/

theorem Input.rooms {x y : Shared × World} {i : Input} (hx : RoomsStored x) (hst : HandledStep x i y) :
    RoomsStored y ∧ RoomsStep x y i := by
  obtain ⟨perform, hf, rfl⟩ := hst
  obtain ⟨s, w⟩ := x
  have hban : ∀ b, Spares Db.channels (.insertBan b) := fun b db db' hdb => by cases hdb; rfl
  have hunban : ∀ f, Spares Db.channels (.deleteBan f) := fun f db db' hdb => by cases hdb; rfl
  have hmsg : ∀ m, Spares Db.channels (.insertMessage m) := by
    intro m db db' hdb
    obtain ⟨t, -, rfl⟩ := Option.map_eq_some_iff.mp hdb
    rfl
  have quiet : Undisturbed Db.channels s w (serve perform i s w).1 (serve perform i s w).2 →
      (∀ client nonce cmd, i ≠ .control client (ChannelCommand.frame nonce cmd)) →
      RoomsStored (serve perform i s w) ∧ RoomsStep (s, w) (serve perform i s w) i := by
    intro hu hi
    have hbare := congrArg (List.map Channel.bare) hu.1.channels
    exact ⟨hx.of_bare hbare hu.2, .same hbare fun client nonce cmd he => absurd he (hi client nonce cmd)⟩
  cases i with
  | control client frame =>
    rcases frame.kinds with ⟨nonce, cmd, rfl⟩ | ⟨nonce, cmd, rfl⟩ | hm | hp
    · rw [serve_role]
      obtain ⟨hbare, htables⟩ := cmd.sameBare hf client nonce s w
      simp only [roomTables, Prod.mk.injEq] at htables
      refine ⟨hx.of_bare hbare htables.1, .same hbare fun client' nonce' cmd' he => ?_⟩
      cases cmd <;> cases cmd' <;> cases he
    · rw [serve_channel]
      rcases cmd.exec_cases hf s w client nonce with ⟨hr, hw⟩ | ⟨c, db, -, hp, hdb, he⟩
      · have hbare := congrArg (List.map Channel.bare) hr.rooms.channels
        refine ⟨hx.of_bare hbare (by rw [hw]), .same hbare fun client' nonce' cmd' he _ => ?_⟩
        obtain ⟨hc, he⟩ := Input.control.inj he
        obtain ⟨hn, -⟩ := ChannelCommand.frame_inj he
        rw [← hc, ← hn]
        exact hr.not_acked nonce
      · exact hp.rooms hx hdb he
    · refine quiet (Input.undisturbed hf hban hunban s w fun _ _ he => by cases he; exact .inr ⟨hmsg, hm⟩) ?_
      obtain ⟨channel, content, replyTo, nonce, rfl⟩ := hm
      intro _ _ cmd he
      cases cmd <;> cases he
    · refine quiet (Input.undisturbed hf hban hunban s w fun _ _ he => by cases he; exact .inl hp) ?_
      intro _ _ cmd he
      cases cmd <;> cases he <;> cases hp
  | connect => exact quiet (Input.undisturbed hf hban hunban s w fun _ _ he => by cases he) fun _ _ _ he => by cases he
  | voice => exact quiet (Input.undisturbed hf hban hunban s w fun _ _ he => by cases he) fun _ _ _ he => by cases he
  | disconnect =>
    exact quiet (Input.undisturbed hf hban hunban s w fun _ _ he => by cases he) fun _ _ _ he => by cases he
  | tick => exact quiet (Input.undisturbed hf hban hunban s w fun _ _ he => by cases he) fun _ _ _ he => by cases he

end

/-! ## Restarts -/

def RowsWritten (db : Db) : Prop := ∀ row ∈ db.channels.rows, channelRow (rowToChannel row) = row

theorem RoomsStored.written {x : Shared × World} (h : RoomsStored x) : RowsWritten x.2.db := by
  intro row hrow
  obtain ⟨c, -, rfl⟩ := (h.rows row).mp hrow
  rw [rowToChannel_channelRow]
  rfl

theorem RoomsStored.empty_iff {x : Shared × World} (h : RoomsStored x) :
    x.2.db.channels.rows = [] ↔ x.1.channels = [] := by
  constructor
  · intro hnil
    refine List.eq_nil_iff_forall_not_mem.mpr fun c hc => ?_
    have hrow := (h.rows _).mpr ⟨c, hc, rfl⟩
    rw [hnil] at hrow
    cases hrow
  · intro hnil
    refine List.eq_nil_iff_forall_not_mem.mpr fun row hrow => ?_
    obtain ⟨c, hc, -⟩ := (h.rows _).mp hrow
    rw [hnil] at hc
    cases hc

/-- A start has the channels of the table, or those of the config when there are none. -/
theorem bind_rooms {config : ServerConfig} {now : UInt64} {db : Db} {y : Shared × World}
    (h : Server.bind config now db = some (y.1, y.2.db)) (hdb : RowsWritten db) :
    RoomsStored y ∧
      ((db.channels.rows ≠ [] ∧ y.2.db.channels = db.channels) ∨
        (db.channels.rows = [] ∧ ∀ c, c ∈ y.1.channels.map Channel.bare ↔ c ∈ buildChannels config)) := by
  obtain ⟨channels, db₁, roles, hc, hr, -, hchannels⟩ := bind_some h
  have hsame := (loadOrSeedRoles_tables hr).1
  have hfrom : (db.channels.rows ≠ [] ∧ db₁.channels = db.channels) ∨
      (db.channels.rows = [] ∧ channels = buildChannels config ∧
        db₁.channels.rows = (buildChannels config).map channelRow) := by
    unfold loadOrSeedChannels at hc
    split at hc
    · rename_i hempty
      obtain ⟨db₂, h₂, he⟩ := Option.map_eq_some_iff.mp hc
      cases he
      have hnil := loadChannels_nil.mp hempty
      refine .inr ⟨hnil, rfl, ?_⟩
      rw [(insertChannels_rows h₂).1, hnil]
      rfl
    · rename_i hne
      cases hc
      exact .inl ⟨fun hnil => hne (loadChannels_nil.mpr hnil), rfl⟩
  have hwritten : RowsWritten db₁ := by
    intro row hrow
    rcases hfrom with ⟨-, he⟩ | ⟨-, -, he⟩
    · rw [he] at hrow
      exact hdb row hrow
    · rw [he] at hrow
      obtain ⟨c, -, rfl⟩ := List.mem_map.mp hrow
      rw [rowToChannel_channelRow]
      rfl
  obtain ⟨hperm, hbare⟩ := loadOrSeedChannels_rows hc hwritten
  have hids := unique_of_rows hperm
  have hattach : ∀ c, (attached y.2.db.loadOverwrites c).bare = c.bare := fun _ => rfl
  rw [foldl_attach _ hids] at hchannels
  obtain ⟨hsorted, hmem⟩ := Keyed.foldl_putSorted (hids.map fun c => Channel.id_of_bare (hattach c)) List.Pairwise.nil
    (by simp)
  rw [← hchannels] at hsorted hmem
  have hmem : ∀ c, c ∈ y.1.channels ↔ ∃ c₀ ∈ channels, attached y.2.db.loadOverwrites c₀ = c := by
    intro c
    rw [hmem c]
    simp
  refine ⟨⟨hsorted, fun row => ?_⟩, ?_⟩
  · rw [hsame, ← hperm.mem_iff, List.mem_map]
    simp only [hmem]
    constructor
    · rintro ⟨c, hc, rfl⟩
      exact ⟨_, ⟨c, hc, rfl⟩, rfl⟩
    · rintro ⟨_, ⟨c, hc, rfl⟩, rfl⟩
      exact ⟨c, hc, rfl⟩
  · rcases hfrom with ⟨hne, he⟩ | ⟨hnil, he, -⟩
    · exact .inl ⟨hne, hsame.trans he⟩
    · refine .inr ⟨hnil, fun c => ?_⟩
      simp only [List.mem_map, hmem]
      constructor
      · rintro ⟨_, ⟨c₀, hc₀, rfl⟩, rfl⟩
        have hc₀' : c₀.bare = c₀ := by
          unfold Channel.bare
          rw [← hbare c₀ hc₀]
        rw [hattach, hc₀', ← he]
        exact hc₀
      · intro hc
        rw [← he] at hc
        refine ⟨_, ⟨c, hc, rfl⟩, ?_⟩
        rw [hattach]
        unfold Channel.bare
        rw [← hbare c hc]

/-- A restart keeps the channels, but for their overwrites, or seeds them when there are none. -/
theorem RoomsStored.restart {x y : Shared × World} {config : ServerConfig} {now : UInt64} (h : RoomsStored x)
    (hst : RestartStep x config now y) : RoomsStored y ∧
      ((x.1.channels ≠ [] ∧ y.1.channels.map Channel.bare = x.1.channels.map Channel.bare) ∨
        (x.1.channels = [] ∧ ∀ c, c ∈ y.1.channels.map Channel.bare ↔ c ∈ buildChannels config)) := by
  obtain ⟨hy, hfrom⟩ := bind_rooms hst.2 h.written
  refine ⟨hy, ?_⟩
  rcases hfrom with ⟨hne, hsame⟩ | ⟨hnil, hseed⟩
  · have hrows : ChannelRows y.1.channels x.2.db := by
      have hrows := hy.rows
      unfold ChannelRows at hrows ⊢
      rwa [hsame] at hrows
    exact .inl ⟨fun hnil => hne (h.empty_iff.mpr hnil), h.rows.bare_eq hrows h.sorted hy.sorted⟩
  · exact .inr ⟨h.empty_iff.mp hnil, hseed⟩

end PickleChat
