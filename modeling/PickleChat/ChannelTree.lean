import PickleChat.Lib.Forest
import PickleChat.State

/-!
# The tree of channels

Channels name their parents by id. The check against loops follows parents in
the channel map; it returns just when the chain it follows ends or meets the
child.
-/

namespace PickleChat

open Forest

/-- The parent of a channel in a map; none for an id that is not there. -/
def parentOf (channels : List Channel) (id : ChannelId) : Option ChannelId :=
  (Keyed.get Channel.id id channels).bind Channel.parent

def Acyclic (channels : List Channel) : Prop := IsForest (parentOf channels)

def reparented (parents : ChannelId → Option ChannelId) (child : ChannelId) (parent : Option ChannelId) :
    ChannelId → Option ChannelId :=
  fun id => if id = child then parent else parents id

section
variable {channels : List Channel}

theorem walkParents_eq (child : ChannelId) (n : Nat) (cursor : Option ChannelId) :
    Shared.walkParents channels child n cursor = climb (parentOf channels) child n cursor := by
  induction n generalizing cursor with
  | zero => cases cursor <;> rfl
  | succ n ih =>
    cases cursor with
    | none => rfl
    | some id =>
      unfold Shared.walkParents climb
      rw [ih]
      rfl

theorem mem_ids_of_parentOf {id : ChannelId} (h : parentOf channels id ≠ none) : id ∈ channels.map Channel.id := by
  unfold parentOf at h
  cases hget : Keyed.get Channel.id id channels with
  | none =>
    rw [hget] at h
    exact absurd rfl h
  | some c => exact List.mem_map.mpr ⟨c, Keyed.get_mem hget, Keyed.get_key hget⟩

theorem parentOf_congr {channels' : List Channel}
    (h : ∀ id, Keyed.get Channel.id id channels' = Keyed.get Channel.id id channels) :
    parentOf channels' = parentOf channels := by
  funext id
  unfold parentOf
  rw [h]

end

section
variable {s : Shared} {child : ChannelId} {parent : Option ChannelId}

theorem parentWouldCycle_iff {r : Bool} :
    s.parentWouldCycle child parent = some r ↔ ∃ n, Shared.walkParents s.channels child n parent = some r := by
  unfold Shared.parentWouldCycle
  simp only [walkParents_eq]
  constructor
  · exact fun h => ⟨_, h⟩
  · rintro ⟨n, h⟩
    have hb := climb_bounded (fun a ha => mem_ids_of_parentOf ha) h
    rwa [List.length_map] at hb

theorem Acyclic.returns (h : Acyclic s.channels) (child : ChannelId) (parent : Option ChannelId) :
    ∃ r, s.parentWouldCycle child parent = some r := by
  obtain ⟨n, r, hr⟩ := (IsForest.ends h parent).climbs child
  exact ⟨r, parentWouldCycle_iff.mpr ⟨n, by rw [walkParents_eq]; exact hr⟩⟩

theorem not_acyclic (h : s.parentWouldCycle child parent = none) : ¬ Acyclic s.channels := by
  intro hacyclic
  obtain ⟨r, hr⟩ := hacyclic.returns child parent
  rw [h] at hr
  cases hr

/-! ## What the check says -/

theorem parentOf_insertChannelMem (s : Shared) (c : Channel) :
    parentOf (s.insertChannelMem c).channels = reparented (parentOf s.channels) c.id c.parent := by
  funext id
  unfold parentOf reparented
  rw [Shared.insertChannelMem, Keyed.get_putSorted]
  by_cases hid : id = c.id
  · rw [if_pos hid, if_pos hid, Option.bind_some]
  · rw [if_neg hid, if_neg hid]

theorem parentOf_updateChannelMem {c old : Channel} (hold : old ∈ s.channels) (hid : old.id = c.id) :
    parentOf (s.updateChannelMem c).channels = reparented (parentOf s.channels) c.id c.parent := by
  funext id
  have hsome : (Keyed.get Channel.id c.id s.channels).isSome := Keyed.get_isSome.mpr ⟨old, hold, hid⟩
  obtain ⟨found, hfound⟩ := Option.isSome_iff_exists.mp hsome
  let edit (o : Channel) : Channel := { c with overwrites := o.overwrites }
  have hkey : ∀ o : Channel, o.id = c.id → (edit o).id = c.id := fun _ _ => rfl
  have hget : Keyed.get Channel.id id (Keyed.modify Channel.id c.id edit s.channels) =
      if id = c.id then (Keyed.get Channel.id id s.channels).map edit else Keyed.get Channel.id id s.channels :=
    Keyed.get_modify_at hkey id s.channels
  unfold parentOf reparented Shared.updateChannelMem Shared.modifyChannel
  rw [hget]
  by_cases hhere : id = c.id
  · rw [if_pos hhere, if_pos hhere, hhere, hfound, Option.map_some, Option.bind_some]
  · rw [if_neg hhere, if_neg hhere]

/-- Where channels form a forest the walk ends, and it meets the child exactly if the edit would close a loop through
it. -/
theorem parentWouldCycle_exact (s : Shared) (child : ChannelId) (parent : Option ChannelId)
    (h : Acyclic s.channels) :
    ∃ r, s.parentWouldCycle child parent = some r ∧
      (r = true ↔ Relation.TransGen (Link (reparented (parentOf s.channels) child parent)) child child) ∧
        ∀ c : Channel, c.id = child → c.parent = parent →
          parentOf (s.insertChannelMem c).channels = reparented (parentOf s.channels) child parent ∧
            ∀ old ∈ s.channels, old.id = child →
              parentOf (s.updateChannelMem c).channels = reparented (parentOf s.channels) child parent := by
  obtain ⟨r, hr⟩ := h.returns child parent
  obtain ⟨n, hwalk⟩ := parentWouldCycle_iff.mp hr
  rw [walkParents_eq] at hwalk
  refine ⟨r, hr, climb_iff_loop hwalk, fun c hid hparent => ?_⟩
  subst hid
  subst hparent
  exact ⟨parentOf_insertChannelMem s c, fun old hold hid => parentOf_updateChannelMem hold hid⟩

/-- A channel, one below it, and one below a channel that is gone. -/
def nestedServer : Shared :=
  let placed (id : ChannelId) (parent : Option ChannelId) : Channel :=
    { id, parent, name := "c", topic := "", kind := .voiceAndText, maxUsers := none, order := 0, overwrites := [] }
  exampleServer [] [placed 1 none, placed 2 (some 1), placed 3 (some 9)] []

theorem nestedServer_acyclic : Acyclic nestedServer.channels := by
  have hparents : ∀ c ∈ nestedServer.channels, c.parent = none ∨ c.parent = some 1 ∨ c.parent = some 9 := by decide
  intro id
  apply Ends.up
  unfold parentOf
  cases hget : Keyed.get Channel.id id nestedServer.channels with
  | none => exact .top
  | some c =>
    rw [Option.bind_some]
    rcases hparents c (Keyed.get_mem hget) with hc | hc | hc
    · rw [hc]
      exact .top
    · rw [hc]
      apply Ends.up
      exact .top
    · rw [hc]
      apply Ends.up
      exact .top

/-- The first channel may not go below the second. -/
theorem parentWouldCycle_exact_nested : nestedServer.parentWouldCycle 1 (some 2) = some true ∧
    Relation.TransGen (Link (reparented (parentOf nestedServer.channels) 1 (some 2))) 1 1 := by
  have htrue : nestedServer.parentWouldCycle 1 (some 2) = some true := by decide
  obtain ⟨r, hr, hloop, -⟩ := parentWouldCycle_exact nestedServer 1 (some 2) nestedServer_acyclic
  rw [htrue] at hr
  cases hr
  exact ⟨htrue, hloop.mp rfl⟩

end

end PickleChat
