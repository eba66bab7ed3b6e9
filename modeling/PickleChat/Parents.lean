import PickleChat.Template

/-!
# Parents over a run

A channel names its parent by id, and ids are handed out again. Along every run
in which no channel that has children is deleted, a parent is there, in memory
and in the table, and is the channel it was when it was set.
-/

namespace PickleChat

open Async (Run exec)

/-- A run so far. Ids are told apart by the step their channel came with: of
each channel it is known when it came, and when the parent it was given did. -/
structure Lineage where
  now : Shared × World
  clock : Nat
  born : ChannelId → Nat
  meant : ChannelId → Option Nat

/-- The parent of a channel is set: the channel is new, or an update of it is acknowledged. -/
def Sets (x : Shared × World) (e : Happening) (y : Shared × World) (id : ChannelId) : Prop :=
  (¬ Live x id ∧ Live y id) ∨
    ∃ client nonce parent name topic kind maxUsers order,
      e = .input (.control client (.updateChannel nonce id parent name topic kind maxUsers order)) ∧
        Acked x.1 y.1 client nonce

structure LineageStep (t : Lineage) (e : Happening) (t' : Lineage) : Prop where
  moves : match e with
    | .input i => HandledStep t.now i t'.now
    | .restart config now => RestartStep t.now config now t'.now
  clock : t'.clock = t.clock + 1
  comes : ∀ id, ¬ Live t.now id → Live t'.now id → t'.born id = t'.clock
  stays : ∀ id, (Live t'.now id → Live t.now id) → t'.born id = t.born id
  set : ∀ id, Sets t.now e t'.now id → t'.meant id = (parentOf t'.now.1.channels id).map t'.born
  kept : ∀ id, ¬ Sets t.now e t'.now id → t'.meant id = t.meant id

/-- A channel that a client may delete, and deletes, is no channel's parent. -/
def NoOrphans (t : Lineage) : Happening → Prop
  | .input (.control client (.deleteChannel _ id)) =>
      t.now.1.canGlobally client .manageChannels = true → t.now.1.can client id .viewChannel = true →
        ∀ c ∈ t.now.1.channels, c.parent ≠ some id
  | _ => True

/-- Parents are channels, and those they were when they were set. -/
structure ParentsReal (t : Lineage) : Prop where
  memory : ∀ c ∈ t.now.1.channels, ParentIn t.now.1.channels c.parent
  table : ∀ row ∈ t.now.2.db.channels.rows, ∀ p, row.parent = some p → ∃ row' ∈ t.now.2.db.channels.rows, row'.id = p
  meant : ∀ c ∈ t.now.1.channels, t.meant c.id = c.parent.map t.born

/-! ## One step -/

/-- What a step leaves: parents that are there, and of the channels that were
there before, those they had, or such as are set now. -/
structure ParentsStep (x : Shared × World) (e : Happening) (y : Shared × World) : Prop where
  stored : RoomsStored y
  real : ∀ c ∈ y.1.channels, ParentIn y.1.channels c.parent
  old : ∀ c ∈ y.1.channels, Sets x e y c.id ∨ ∃ d ∈ x.1.channels, d.id = c.id ∧ d.parent = c.parent

theorem ParentIn.mono {channels channels' : List Channel} {parent : Option ChannelId} (h : ParentIn channels parent)
    (hsub : ∀ d ∈ channels, ∃ d' ∈ channels', d'.id = d.id) : ParentIn channels' parent := by
  intro p hp
  obtain ⟨d, hd, rfl⟩ := h p hp
  exact hsub d hd

section
variable {x y : Shared × World} (hreal : ∀ c ∈ x.1.channels, ParentIn x.1.channels c.parent)
include hreal

theorem ParentsStep.of_bare {e : Happening} (hstored : RoomsStored y)
    (hbare : y.1.channels.map Channel.bare = x.1.channels.map Channel.bare) : ParentsStep x e y := by
  have hback : ∀ {l l' : List Channel}, l.map Channel.bare = l'.map Channel.bare →
      ∀ c ∈ l, ∃ d ∈ l', d.bare = c.bare := by
    intro l l' h c hc
    have hm := List.mem_map_of_mem (f := Channel.bare) hc
    rw [h] at hm
    exact List.mem_map.mp hm
  have hparent : ∀ {c d : Channel}, d.bare = c.bare → d.parent = c.parent := by
    intro c d h
    have hp : d.bare.parent = c.bare.parent := by rw [h]
    exact hp
  refine ⟨hstored, fun c hc => ?_, fun c hc => ?_⟩
  · obtain ⟨d, hd, he⟩ := hback hbare c hc
    rw [← hparent he]
    refine (hreal d hd).mono fun d hd => ?_
    obtain ⟨d', hd', he'⟩ := hback hbare.symm d hd
    exact ⟨d', hd', Channel.id_of_bare he'⟩
  · obtain ⟨d, hd, he⟩ := hback hbare c hc
    exact .inr ⟨d, hd, Channel.id_of_bare he, hparent he⟩

theorem Input.parents {i : Input} (hstored : RoomsStored x) (hst : HandledStep x i y)
    (hok : ∀ client nonce id, i = .control client (.deleteChannel nonce id) →
      x.1.canGlobally client .manageChannels = true → x.1.can client id .viewChannel = true →
        ∀ c ∈ x.1.channels, c.parent ≠ some id) : ParentsStep x (.input i) y := by
  obtain ⟨hstored, hrooms⟩ := Input.rooms hstored hst
  cases hrooms with
  | same hbare => exact .of_bare hreal hstored hbare
  | created client nonce name c hi hnew hparent hmap hack =>
    have hmem := mem_putSorted_new hnew
    rw [← hmap] at hmem
    have hsub : ∀ d ∈ x.1.channels, ∃ d' ∈ y.1.channels, d'.id = d.id := fun d hd => ⟨d, (hmem d).mpr (.inr hd), rfl⟩
    refine ⟨hstored, fun d hd => ?_, fun d hd => ?_⟩
    · rcases (hmem d).mp hd with rfl | hd
      · exact hparent.mono hsub
      · exact (hreal d hd).mono hsub
    · rcases (hmem d).mp hd with rfl | hd'
      · refine .inl (.inl ⟨?_, d, hd, rfl⟩)
        rintro ⟨e, he, hid⟩
        exact hnew e he hid
      · exact .inr ⟨d, hd', rfl, rfl⟩
  | updated client nonce name c hi hparent hmap hack =>
    have hsub : ∀ d ∈ x.1.channels, ∃ d' ∈ y.1.channels, d'.id = d.id := by
      intro d hd
      have hids : y.1.channels.map Channel.id = x.1.channels.map Channel.id := by
        rw [hmap]
        exact modify_ids _ _ fun _ _ => rfl
      have hm := List.mem_map_of_mem (f := Channel.id) hd
      rw [← hids] at hm
      exact List.mem_map.mp hm
    -- A channel of the map is the one that was updated, with the new parent, or another one as it was.
    have hcases : ∀ d ∈ y.1.channels, (d.id = c.id ∧ d.parent = c.parent) ∨ d ∈ x.1.channels := by
      intro d hd
      rw [hmap] at hd
      obtain ⟨d₀, hd₀, rfl⟩ := List.mem_map.mp hd
      split
      · exact .inl ⟨rfl, rfl⟩
      · exact .inr hd₀
    refine ⟨hstored, fun d hd => ?_, fun d hd => ?_⟩
    · rcases hcases d hd with ⟨-, he⟩ | hd'
      · rw [he]
        exact hparent.mono hsub
      · exact (hreal d hd').mono hsub
    · rcases hcases d hd with ⟨hid, -⟩ | hd'
      · rw [hid, hi]
        exact .inl (.inr ⟨client, nonce, _, _, _, _, _, _, rfl, hack⟩)
      · exact .inr ⟨d, hd', rfl, rfl⟩
  | deleted client nonce id hi hmanage hview hmap hack =>
    have hmem : ∀ d, d ∈ y.1.channels ↔ d ∈ x.1.channels ∧ d.id ≠ id := fun d => by rw [hmap, Keyed.mem_erase]
    refine ⟨hstored, fun d hd => ?_, fun d hd => .inr ⟨d, ((hmem d).mp hd).1, rfl, rfl⟩⟩
    intro p hp
    have hd := ((hmem d).mp hd).1
    obtain ⟨e, he, rfl⟩ := hreal d hd p hp
    refine ⟨e, (hmem e).mpr ⟨he, fun hid => ?_⟩, rfl⟩
    exact hok client nonce id hi hmanage hview d hd (hid ▸ hp)

theorem RestartStep.parents {config : ServerConfig} {now : UInt64} (hstored : RoomsStored x)
    (hst : RestartStep x config now y) : ParentsStep x (.restart config now) y := by
  obtain ⟨hy, hfrom⟩ := hstored.restart hst
  rcases hfrom with ⟨-, hbare⟩ | ⟨hnil, hseed⟩
  · exact .of_bare hreal hy hbare
  · have hseeded : ∀ c ∈ y.1.channels, c.bare ∈ buildChannels config := fun c hc =>
      (hseed _).mp (List.mem_map_of_mem hc)
    refine ⟨hy, fun c hc p hp => ?_, fun c hc => .inl (.inl ⟨?_, c, hc, rfl⟩)⟩
    · obtain ⟨e, he, rfl⟩ := seeded_parents (ServerConfig.validate_ok hst.1) c.bare (hseeded c hc) p hp
      obtain ⟨d, hd, rfl⟩ := List.mem_map.mp ((hseed e).mpr he)
      exact ⟨d, hd, rfl⟩
    · rintro ⟨d, hd, -⟩
      rw [hnil] at hd
      cases hd

end

/-! ## Runs -/

theorem table_parents {x : Shared × World} (hstored : RoomsStored x)
    (hreal : ∀ c ∈ x.1.channels, ParentIn x.1.channels c.parent) :
    ∀ row ∈ x.2.db.channels.rows, ∀ p, row.parent = some p → ∃ row' ∈ x.2.db.channels.rows, row'.id = p := by
  intro row hrow p hp
  obtain ⟨c, hc, rfl⟩ := (hstored.rows row).mp hrow
  obtain ⟨q, hq, rfl⟩ := Option.map_eq_some_iff.mp hp
  obtain ⟨d, hd, rfl⟩ := hreal c hc q hq
  exact ⟨channelRow d, (hstored.rows _).mpr ⟨d, hd, rfl⟩, rfl⟩

theorem LineageStep.parents {t t' : Lineage} {e : Happening} (hst : LineageStep t e t') (hstored : RoomsStored t.now)
    (hreal : ParentsReal t) (hok : NoOrphans t e) : RoomsStored t'.now ∧ ParentsReal t' := by
  have hstep : ParentsStep t.now e t'.now := by
    cases e with
    | input i =>
      refine Input.parents hreal.memory hstored hst.moves fun client nonce id hi => ?_
      subst hi
      exact hok
    | restart config now => exact RestartStep.parents hreal.memory hstored hst.moves
  refine ⟨hstep.stored, hstep.real, table_parents hstep.stored hstep.real, fun c hc => ?_⟩
  have hids : Keyed.Unique Channel.id t'.now.1.channels := .of_sorted hstep.stored.sorted
  by_cases hset : Sets t.now e t'.now c.id
  · rw [hst.set c.id hset, parentOf_id hids hc]
  · obtain ⟨d, hd, hid, hparent⟩ := (hstep.old c hc).resolve_left hset
    rw [hst.kept c.id hset, ← hid, hreal.meant d hd, hparent]
    -- The parent was there before the step, so it has not come with it.
    apply Option.map_congr
    intro p hp
    obtain ⟨e', he', rfl⟩ := hreal.memory d hd p (hparent.trans hp)
    exact (hst.stays e'.id fun _ => ⟨e', he', rfl⟩).symm

/-- From a start whose parents are channels, in every run of inputs and
restarts that deletes no channel with children: parents are channels, in memory
and in the table, and those they were when they were set. -/
theorem parents_stay_real {config : ServerConfig} {now : UInt64} {db db₀ : Db} {s₀ : Shared}
    {wire : List ServerControl} {t : Lineage} (hb : Server.bind config now db = some (s₀, db₀)) (hdb : RowsWritten db)
    (hreal : ∀ c ∈ s₀.channels, ParentIn s₀.channels c.parent)
    (hrun : Run LineageStep NoOrphans
      ⟨(s₀, ⟨db₀, wire⟩), 0, fun _ => 0, fun id => (parentOf s₀.channels id).map fun _ => 0⟩ t) :
    ParentsReal t := by
  have hstored : RoomsStored (s₀, ⟨db₀, wire⟩) := (bind_rooms hb hdb).1
  have h : RoomsStored t.now ∧ ParentsReal t := by
    refine hrun.invariant (fun t => RoomsStored t.now ∧ ParentsReal t) ⟨hstored, hreal, ?_, ?_⟩ ?_
    · exact table_parents hstored hreal
    · intro c hc
      exact congrArg (Option.map fun _ => 0) (parentOf_id (.of_sorted hstored.sorted) hc)
    · intro t e t' hi hok hst
      exact hst.parents hi.1 hi.2 hok
  exact h.2

/-! ## A parent that is deleted -/

instance (channels : List Channel) (parent : Option ChannelId) : Decidable (ParentIn channels parent) :=
  decidable_of_iff (parent.all (fun p => channels.any fun d => d.id = p) = true) (by
    unfold ParentIn
    simp [Option.all_eq_true])

def Lineage.serve (t : Lineage) (i : Input) : Lineage :=
  let y := PickleChat.serve Await.perform i t.now.1 t.now.2
  let born id := if ¬ Live t.now id ∧ Live y id then t.clock + 1 else t.born id
  { now := y, clock := t.clock + 1, born
    meant := fun id => if ¬ Live t.now id ∧ Live y id then (parentOf y.1.channels id).map born else t.meant id }

theorem Lineage.run_serve {ok : Lineage → Happening → Prop} {t₀ t : Lineage} (h : Run LineageStep ok t₀ t) (i : Input)
    (hok : ok t (.input i))
    (hi : ∀ client nonce id parent name topic kind maxUsers order,
      i ≠ .control client (.updateChannel nonce id parent name topic kind maxUsers order)) :
    Run LineageStep ok t₀ (t.serve i) := by
  have hsets : ∀ id, Sets t.now (.input i) (t.serve i).now id ↔ ¬ Live t.now id ∧ Live (t.serve i).now id := by
    intro id
    refine ⟨fun hset => hset.resolve_right ?_, .inl⟩
    rintro ⟨_, _, _, _, _, _, _, _, he, -⟩
    exact hi _ _ _ _ _ _ _ _ _ (Happening.input.inj he)
  refine .step (.input i) h hok ⟨⟨_, Await.faulty, rfl⟩, rfl, ?_, ?_, ?_, ?_⟩
  · exact fun id hnot hlive => if_pos ⟨hnot, hlive⟩
  · exact fun id hstay => if_neg fun ⟨hnot, hlive⟩ => hnot (hstay hlive)
  · exact fun id hset => if_pos ((hsets id).mp hset)
  · exact fun id hset => if_neg fun hnew => hset ((hsets id).mpr hnew)

def Lineage.first (config : ServerConfig) (h : (Server.bind config 5 .empty).isSome = true) : Lineage :=
  let s := ((Server.bind config 5 .empty).get h).1
  ⟨(s, ⟨((Server.bind config 5 .empty).get h).2, []⟩), 0, fun _ => 0, fun id => (parentOf s.channels id).map fun _ => 0⟩

/-- Channel 1 is below channel 2. -/
def cornerFirst : ServerConfig :=
  ownedFile [⟨"corner", "", .text, some "lobby", none, 0⟩, ⟨"lobby", "", .text, none, none, 0⟩]

def parentDeleted : Lineage :=
  ((Lineage.first cornerFirst (by decide +kernel)).serve ownerConnects).serve (.control 1 (.deleteChannel 7 2))

def parentReplaced : Lineage := parentDeleted.serve (.control 1 (.createChannel 8 "door" none "" .text none 0))

/-- Channel 1 is left with a parent that is gone, and then with one that it was never given. -/
theorem parent_lost : cornerFirst.validate = .ok () ∧
    Run LineageStep (fun _ _ => True) (.first cornerFirst (by decide +kernel)) parentDeleted ∧
    ¬ (∀ c ∈ parentDeleted.now.1.channels, ParentIn parentDeleted.now.1.channels c.parent) ∧
    Run LineageStep (fun _ _ => True) (.first cornerFirst (by decide +kernel)) parentReplaced ∧
    (∀ c ∈ parentReplaced.now.1.channels, ParentIn parentReplaced.now.1.channels c.parent) ∧
    ¬ (∀ c ∈ parentReplaced.now.1.channels, parentReplaced.meant c.id = c.parent.map parentReplaced.born) := by
  have hdeleted : Run LineageStep (fun _ _ => True) (.first cornerFirst (by decide +kernel)) parentDeleted := by
    apply Lineage.run_serve
    · apply Lineage.run_serve
      · exact .refl
      · trivial
      · intros; exact fun he => nomatch he
    · trivial
    · intros; exact fun he => nomatch he
  refine ⟨by decide +kernel, hdeleted, by decide +kernel, ?_, by decide +kernel, by decide +kernel⟩
  apply Lineage.run_serve hdeleted
  · trivial
  · intros; exact fun he => nomatch he

/-- The owner deletes the channel below. -/
theorem parents_stay_real_corner :
    let t := ((Lineage.first cornerFirst (by decide +kernel)).serve ownerConnects).serve
      (.control 1 (.deleteChannel 7 1))
    ParentsReal t ∧ t.now.1.channels.length = 1 := by
  have hrun : Run LineageStep NoOrphans (.first cornerFirst (by decide +kernel))
      (((Lineage.first cornerFirst (by decide +kernel)).serve ownerConnects).serve
        (.control 1 (.deleteChannel 7 1))) := by
    apply Lineage.run_serve
    · apply Lineage.run_serve
      · exact .refl
      · trivial
      · intros; exact fun he => nomatch he
    · unfold NoOrphans
      decide +kernel
    · intros; exact fun he => nomatch he
  have hb : (Server.bind cornerFirst 5 .empty).isSome = true := by decide +kernel
  refine ⟨parents_stay_real (Option.some_get hb).symm ?_ (by decide +kernel) hrun, by decide +kernel⟩
  exact fun row hrow => absurd hrow List.not_mem_nil

end PickleChat
