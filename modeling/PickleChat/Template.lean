import PickleChat.ChannelRuns

/-!
# The config as a template

The config names the channels of the first start. Afterwards they are in the
database, and a deleted channel stays deleted over restarts, as long as no
restart finds the table empty: an empty table is taken for a first start.
-/

namespace PickleChat

open Async (Run exec)

/-- A run with the same config, and the channels whose deletion was
acknowledged and that were not created since. -/
structure Deletions where
  now : Shared × World
  gone : ChannelId → Prop

inductive Moment where
  | input (i : Input)
  | restart (now : UInt64)

def DeletedBy (x : Shared × World) (i : Input) (y : Shared × World) (id : ChannelId) : Prop :=
  ∃ client nonce, i = .control client (.deleteChannel nonce id) ∧ Acked x.1 y.1 client nonce

/-- The input is a creation, acknowledged, and the channel is the one it made. -/
def CreatedBy (x : Shared × World) (i : Input) (y : Shared × World) (id : ChannelId) : Prop :=
  (∃ client nonce name parent topic kind maxUsers order,
    i = .control client (.createChannel nonce name parent topic kind maxUsers order) ∧ Acked x.1 y.1 client nonce) ∧
    ¬ Live x id ∧ Live y id

def DeletionStep (config : ServerConfig) (t : Deletions) (m : Moment) (t' : Deletions) : Prop :=
  match m with
  | .input i => HandledStep t.now i t'.now ∧
      ∀ id, t'.gone id ↔ (t.gone id ∨ DeletedBy t.now i t'.now id) ∧ ¬ CreatedBy t.now i t'.now id
  | .restart now => RestartStep t.now config now t'.now ∧ ∀ id, t'.gone id ↔ t.gone id

def TableInUse (t : Deletions) : Moment → Prop
  | .input _ => True
  | .restart _ => t.now.2.db.channels.rows ≠ []

/-- Channels are the rows, and none of those that are gone is there. -/
structure StayGone (t : Deletions) : Prop where
  stored : RoomsStored t.now
  gone : ∀ id, t.gone id → ¬ Live t.now id

theorem live_of_bare {x y : Shared × World} (h : y.1.channels.map Channel.bare = x.1.channels.map Channel.bare)
    (id : ChannelId) : Live y id ↔ Live x id := by
  have hids := congrArg (List.map Channel.id) h
  rw [List.map_map, List.map_map] at hids
  rw [live_iff, live_iff]
  exact hids ▸ Iff.rfl

section
variable {config : ServerConfig} {t t' : Deletions}

theorem StayGone.input {i : Input} (h : StayGone t) (hst : DeletionStep config t (.input i) t') : StayGone t' := by
  obtain ⟨hhandled, hgone⟩ := hst
  obtain ⟨hstored, hrooms⟩ := Input.rooms h.stored hhandled
  refine ⟨hstored, fun id hid hlive => ?_⟩
  obtain ⟨hid, hnew⟩ := (hgone id).mp hid
  cases hrooms with
  | same hbare hquiet =>
    have hlive := (live_of_bare hbare id).mp hlive
    rcases hid with hid | ⟨client, nonce, hi, hack⟩
    · exact h.gone id hid hlive
    · exact hquiet client nonce (.delete id) hi rfl hack
  | created client nonce name c hi hfresh _ hmap hack =>
    have hgone : t.gone id := by
      rcases hid with hid | ⟨client', nonce', hi', -⟩
      · exact hid
      · rw [hi] at hi'
        cases hi'
    exact hnew ⟨⟨client, nonce, name, _, _, _, _, _, hi, hack⟩, h.gone id hgone, hlive⟩
  | updated client nonce name c hi _ hmap hack =>
    have hids : t'.now.1.channels.map Channel.id = t.now.1.channels.map Channel.id := by
      rw [hmap]
      exact modify_ids _ _ fun _ _ => rfl
    have hlive : Live t.now id := by
      rw [live_iff] at hlive ⊢
      rwa [hids] at hlive
    rcases hid with hid | ⟨client', nonce', hi', -⟩
    · exact h.gone id hid hlive
    · rw [hi] at hi'
      cases hi'
  | deleted client nonce id' hi _ _ hmap hack =>
    obtain ⟨c, hc, rfl⟩ := hlive
    rw [hmap] at hc
    obtain ⟨hc, hne⟩ := Keyed.mem_erase.mp hc
    rcases hid with hid | ⟨client', nonce', hi', -⟩
    · exact h.gone c.id hid ⟨c, hc, rfl⟩
    · rw [hi] at hi'
      cases hi'
      exact hne rfl

theorem StayGone.restart {now : UInt64} (h : StayGone t) (hok : TableInUse t (.restart now))
    (hst : DeletionStep config t (.restart now) t') : StayGone t' ∧ ∀ id, Live t'.now id ↔ Live t.now id := by
  obtain ⟨hrestart, hgone⟩ := hst
  obtain ⟨hstored, hfrom⟩ := h.stored.restart hrestart
  have hlive : ∀ id, Live t'.now id ↔ Live t.now id := by
    rcases hfrom with ⟨-, hbare⟩ | ⟨hnil, -⟩
    · exact live_of_bare hbare
    · exact absurd (h.stored.empty_iff.mpr hnil) hok
  refine ⟨⟨hstored, fun id hid hl => ?_⟩, hlive⟩
  exact h.gone id ((hgone id).mp hid) ((hlive id).mp hl)

end

/-- From a first start on, in every run of inputs and restarts whose restarts
find the channel table in use: a deleted channel is not there until it is
created, and no restart adds a channel. -/
theorem deleted_stay_gone {config : ServerConfig} {now : UInt64} {s₀ : Shared} {db₀ : Db} {wire : List ServerControl}
    {t : Deletions} (hb : Server.bind config now .empty = some (s₀, db₀))
    (hrun : Run (DeletionStep config) TableInUse ⟨(s₀, ⟨db₀, wire⟩), fun _ => False⟩ t) :
    (∀ id, t.gone id → ¬ Live t.now id ∧ Word.toColumn id ∉ t.now.2.db.channels.rows.map ChannelRow.id) ∧
      ∀ now t', TableInUse t (.restart now) → DeletionStep config t (.restart now) t' →
        ∀ id, Live t'.now id → Live t.now id := by
  have h : StayGone t := by
    have hempty : RowsWritten .empty := fun row hrow => absurd hrow List.not_mem_nil
    have hstored : RoomsStored (s₀, ⟨db₀, wire⟩) := (bind_rooms hb hempty).1
    refine hrun.invariant StayGone ⟨hstored, fun _ hid => False.elim hid⟩ ?_
    intro t m t' hi hok hst
    cases m with
    | input i => exact hi.input hst
    | restart now => exact (hi.restart hok hst).1
  refine ⟨fun id hid => ⟨h.gone id hid, fun hrow => ?_⟩, fun now t' hok hst id hl => ((h.restart hok hst).2 id).mp hl⟩
  obtain ⟨row, hrow, he⟩ := List.mem_map.mp hrow
  obtain ⟨c, hc, rfl⟩ := (h.stored.rows row).mp hrow
  exact h.gone id hid ⟨c, hc, Word.toColumn_inj he⟩

/-! ## The last channel -/

def Deletions.serve (t : Deletions) (i : Input) : Deletions :=
  let y := PickleChat.serve Await.perform i t.now.1 t.now.2
  ⟨y, fun id => (t.gone id ∨ DeletedBy t.now i y id) ∧ ¬ CreatedBy t.now i y id⟩

theorem Deletions.run_serve {config : ServerConfig} {ok : Deletions → Moment → Prop} {t₀ t : Deletions}
    (h : Run (DeletionStep config) ok t₀ t) (i : Input) (hok : ok t (.input i)) :
    Run (DeletionStep config) ok t₀ (t.serve i) :=
  .step (.input i) h hok ⟨⟨_, Await.faulty, rfl⟩, fun _ => Iff.rfl⟩

theorem Deletions.gone_serve {t : Deletions} {client : ClientId} {nonce : UInt64} {id : ChannelId}
    (h : Acked t.now.1 (PickleChat.serve Await.perform (.control client (.deleteChannel nonce id)) t.now.1 t.now.2).1
      client nonce) : (t.serve (.control client (.deleteChannel nonce id))).gone id := by
  refine ⟨.inr ⟨client, nonce, rfl, h⟩, ?_⟩
  rintro ⟨⟨_, _, _, _, _, _, _, _, hi, -⟩, -⟩
  cases hi

def ownedFile (channels : List ChannelConfig) : ServerConfig := { ownedConfig with channels }

/-- A start from the tables that goes on with what is known of deletions. -/
def Deletions.start (config : ServerConfig) (db : Db) (gone : ChannelId → Prop)
    (h : (Server.bind config 5 db).isSome = true) : Deletions :=
  ⟨(((Server.bind config 5 db).get h).1, ⟨((Server.bind config 5 db).get h).2, []⟩), gone⟩

theorem Deletions.start_bind {config : ServerConfig} {db : Db} (gone : ChannelId → Prop)
    (h : (Server.bind config 5 db).isSome = true) :
    Server.bind config 5 db = some ((start config db gone h).now.1, (start config db gone h).now.2.db) :=
  (Option.some_get h).symm

theorem Deletions.run_start {config : ServerConfig} {ok : Deletions → Moment → Prop} {t₀ t : Deletions}
    (h : Run (DeletionStep config) ok t₀ t) (hvalid : config.validate = .ok ()) (hok : ok t (.restart 5))
    (hb : (Server.bind config 5 t.now.2.db).isSome = true) :
    Run (DeletionStep config) ok t₀ (.start config t.now.2.db t.gone hb) :=
  .step (.restart 5) h hok ⟨⟨hvalid, start_bind _ _⟩, fun _ => Iff.rfl⟩

def lobbyOnly : ServerConfig := ownedFile [⟨"lobby", "", .text, none, none, 0⟩]

/-- After the first start the owner connects and deletes channel 1. -/
def lobbyDeleted : Deletions :=
  ((Deletions.start lobbyOnly .empty (fun _ => False) (by decide +kernel)).serve ownerConnects).serve
    (.control 1 (.deleteChannel 7 1))

/-- The only channel is deleted and acknowledged; after a restart it is there again. -/
theorem lobby_comes_back : lobbyOnly.validate = .ok () ∧ ∃ s₀ db₀ t,
    Server.bind lobbyOnly 5 .empty = some (s₀, db₀) ∧
      Run (DeletionStep lobbyOnly) (fun _ _ => True) ⟨(s₀, ⟨db₀, []⟩), fun _ => False⟩ t ∧ t.gone 1 ∧ Live t.now 1 := by
  have hvalid : lobbyOnly.validate = .ok () := by decide +kernel
  have hgone : lobbyDeleted.gone 1 := Deletions.gone_serve (by decide +kernel)
  refine ⟨hvalid, _, _, .start lobbyOnly lobbyDeleted.now.2.db lobbyDeleted.gone (by decide +kernel),
    Deletions.start_bind (fun _ => False) (by decide +kernel), ?_, hgone, by decide +kernel⟩
  have hrun : Run (DeletionStep lobbyOnly) (fun _ _ => True)
      (.start lobbyOnly .empty (fun _ => False) (by decide +kernel)) lobbyDeleted :=
    Deletions.run_serve (Deletions.run_serve .refl _ trivial) _ trivial
  exact Deletions.run_start hrun hvalid trivial _

def lobbyAndCorner : ServerConfig :=
  ownedFile [⟨"lobby", "", .text, none, none, 0⟩, ⟨"corner", "", .text, none, none, 0⟩]

/-- After the first start the owner connects and deletes channel 2. -/
def cornerDeleted : Deletions :=
  ((Deletions.start lobbyAndCorner .empty (fun _ => False) (by decide +kernel)).serve ownerConnects).serve
    (.control 1 (.deleteChannel 7 2))

/-- The second of two channels stays gone after a restart. -/
theorem deleted_stay_gone_corner :
    ∃ t, Run (DeletionStep lobbyAndCorner) TableInUse
      (.start lobbyAndCorner .empty (fun _ => False) (by decide +kernel)) t ∧ t.gone 2 ∧ ¬ Live t.now 2 ∧
      Live t.now 1 := by
  have hgone : cornerDeleted.gone 2 := Deletions.gone_serve (by decide +kernel)
  have hrun : Run (DeletionStep lobbyAndCorner) TableInUse
      (.start lobbyAndCorner .empty (fun _ => False) (by decide +kernel)) cornerDeleted :=
    Deletions.run_serve (Deletions.run_serve .refl _ trivial) _ trivial
  have hrun := Deletions.run_start hrun (by decide +kernel) (by unfold TableInUse; decide +kernel) (by decide +kernel)
  refine ⟨_, hrun, hgone, ?_, by decide +kernel⟩
  exact ((deleted_stay_gone (Deletions.start_bind (fun _ => False) (by decide +kernel)) hrun).1 2 hgone).1

end PickleChat
