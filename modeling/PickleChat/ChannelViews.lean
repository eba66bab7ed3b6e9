import PickleChat.Lib.Feed
import PickleChat.Delivery

/-!
# Channel lists

What a member may view, as a map from ids to channels, and the list a client
makes of what it is sent. A resync tells the truth about every channel it
names, and names every channel whose place in the list may have changed.
-/

namespace PickleChat

/-- What a frame says about a channel list. -/
def ServerControl.update? : ServerControl → Option (ChannelId × Option Channel)
  | .channelCreated c | .channelUpdated c => some (c.id, some c)
  | .channelRemoved id => some (id, none)
  | _ => none

/-- A list that starts from `base`, once `frames` are read. -/
def held (base : ChannelId → Option Channel) (frames : List ServerControl) : ChannelId → Option Channel :=
  Feed.apply (frames.filterMap ServerControl.update?) base

def listed (channels : List Channel) (id : ChannelId) : Option Channel := Keyed.get Channel.id id channels

def Shared.view (s : Shared) (i : UserInfo) (id : ChannelId) : Option Channel := (s.channel id).filter (s.views i)

theorem held_append (base : ChannelId → Option Channel) (q frames : List ServerControl) :
    held base (q ++ frames) = held (held base q) frames := by
  unfold held
  rw [List.filterMap_append, Feed.apply_append]

theorem held_silent {frames : List ServerControl} (h : ∀ m ∈ frames, m.update? = none)
    (base : ChannelId → Option Channel) : held base frames = base := by
  have hnil : frames.filterMap ServerControl.update? = [] := List.filterMap_eq_nil_iff.mpr h
  unfold held
  rw [hnil]
  rfl

namespace Shared

variable {s : Shared} {i : UserInfo} {id : ChannelId}

theorem view_eq_some {c : Channel} : s.view i id = some c ↔ s.channel id = some c ∧ s.views i c = true := by
  unfold view
  exact Option.filter_eq_some_iff

section
variable (hu : Keyed.Unique Channel.id s.channels)
include hu

theorem mem_visibleIds : id ∈ s.visibleIds i ↔ (s.view i id).isSome = true := by
  unfold visibleIds visibleChannels
  rw [Option.isSome_iff_exists]
  constructor
  · intro h
    obtain ⟨c, hc, rfl⟩ := List.mem_map.mp h
    obtain ⟨hc, hv⟩ := List.mem_filter.mp hc
    exact ⟨c, view_eq_some.mpr ⟨Keyed.get_of_mem hu hc, hv⟩⟩
  · rintro ⟨c, hc⟩
    obtain ⟨hget, hv⟩ := view_eq_some.mp hc
    exact List.mem_map.mpr ⟨c, List.mem_filter.mpr ⟨Keyed.get_mem hget, hv⟩, Keyed.get_key hget⟩

theorem listed_visibleChannels : listed (s.visibleChannels i) = s.view i := by
  funext id
  have huv : Keyed.Unique Channel.id (s.visibleChannels i) := hu.filter _
  apply Option.ext
  intro c
  unfold listed
  rw [Keyed.get_eq_some huv, view_eq_some]
  unfold channel visibleChannels
  rw [Keyed.get_eq_some hu, List.mem_filter]
  tauto

end

theorem resyncFrames_truthful {touched was now : List ChannelId} (hnow : ∀ id, id ∈ now ↔ (s.view i id).isSome = true) :
    ∀ m ∈ s.resyncFrames touched was now, ∃ u, m.update? = some u ∧ u.2 = s.view i u.1 := by
  have hsees : ∀ id c, id ∈ now → s.channel id = some c → s.view i c.id = some c := by
    intro id c hid hc
    obtain ⟨c', hc'⟩ := Option.isSome_iff_exists.mp ((hnow id).mp hid)
    have hget := (view_eq_some.mp hc').1
    rw [hget] at hc
    cases hc
    rwa [Keyed.get_key hget]
  intro m hm
  unfold resyncFrames at hm
  rcases List.mem_append.mp hm with hm | hm
  · rcases List.mem_append.mp hm with hm | hm
    · obtain ⟨id, hid, hc⟩ := List.mem_filterMap.mp hm
      obtain ⟨c, hroom, rfl⟩ := Option.map_eq_some_iff.mp hc
      exact ⟨_, rfl, (hsees id c (List.mem_filter.mp hid).1 hroom).symm⟩
    · obtain ⟨id, hid, rfl⟩ := List.mem_map.mp hm
      refine ⟨_, rfl, ?_⟩
      have hnot : id ∉ now := by simpa using (List.mem_filter.mp hid).2
      rw [hnow] at hnot
      exact (Option.not_isSome_iff_eq_none.mp hnot).symm
  · obtain ⟨id, hid, hc⟩ := List.mem_filterMap.mp hm
    obtain ⟨c, hroom, rfl⟩ := Option.map_eq_some_iff.mp hc
    have hboth : id ∈ was ∧ id ∈ now := by simpa using (List.mem_filter.mp hid).2
    exact ⟨_, rfl, (hsees id c hboth.2 hroom).symm⟩

theorem resyncFrames_names {touched was now : List ChannelId} (hnow : ∀ id, id ∈ now ↔ (s.view i id).isSome = true)
    (h : (id ∈ was ↔ id ∉ now) ∨ (id ∈ was ∧ id ∈ touched)) :
    ∃ m ∈ s.resyncFrames touched was now, ∃ a, m.update? = some (id, a) := by
  have hroom : id ∈ now → ∃ c, s.channel id = some c ∧ c.id = id := by
    intro hid
    obtain ⟨c, hc⟩ := Option.isSome_iff_exists.mp ((hnow id).mp hid)
    exact ⟨c, (view_eq_some.mp hc).1, Keyed.get_key (view_eq_some.mp hc).1⟩
  unfold resyncFrames
  simp only [List.mem_append]
  by_cases hid : id ∈ now
  · obtain ⟨c, hc, hcid⟩ := hroom hid
    by_cases hw : id ∈ was
    · have ht : id ∈ touched := by tauto
      refine ⟨.channelUpdated c, .inr ?_, some c, by rw [← hcid]; rfl⟩
      refine List.mem_filterMap.mpr ⟨id, List.mem_filter.mpr ⟨ht, by simp [hw, hid]⟩, by rw [hc]; rfl⟩
    · refine ⟨.channelCreated c, .inl (.inl ?_), some c, by rw [← hcid]; rfl⟩
      exact List.mem_filterMap.mpr ⟨id, List.mem_filter.mpr ⟨hid, by simp [hw]⟩, by rw [hc]; rfl⟩
  · have hw : id ∈ was := by tauto
    exact ⟨.channelRemoved id, .inl (.inr (List.mem_map.mpr ⟨id, List.mem_filter.mpr ⟨hw, by simp [hid]⟩, rfl⟩)), none,
      rfl⟩

theorem view_congr {t : Shared} {j : UserInfo} (hroles : t.perms.roles = s.perms.roles)
    (hchannel : t.channel id = s.channel id) (hr : j.roles = i.roles) (hf : j.fingerprint = i.fingerprint)
    (ho : j.owner = i.owner) : t.view j id = s.view i id := by
  unfold view
  rw [hchannel]
  congr 1
  funext c
  unfold views bits
  rw [hroles, hr, hf, ho]

end Shared

theorem updateChannelMem_eq (s : Shared) (c : Channel) : s.updateChannelMem c =
    s.modifyChannel c.id fun old => { c with id := old.id, overwrites := old.overwrites } := by
  unfold Shared.updateChannelMem Shared.modifyChannel Keyed.modify
  congr 1
  apply List.map_congr_left
  intro old _
  split
  · rename_i hid
    simp only [hid]
  · rfl

theorem modifyChannel_content {s : Shared} (f : Channel → Channel) (hf : ∀ c, (f c).id = c.id)
    (channel id : ChannelId) (c c' : Channel) (hc : s.channel id = some c)
    (hc' : (s.modifyChannel channel f).channel id = some c') : c' = c ∨ id ∈ [channel] := by
  by_cases hid : id = channel
  · exact .inr (by simp [hid])
  · left
    have hget : (s.modifyChannel channel f).channel id = s.channel id := by
      refine (Keyed.get_modify hf id channel s.channels).trans ?_
      rw [if_neg hid]
      rfl
    rw [hget, hc] at hc'
    exact (Option.some.inj hc').symm

end PickleChat
