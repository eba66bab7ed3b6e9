import PickleChat.Delivery

/-!
# Entries of the roster

What each operation on a connected client does when it goes through.
-/

namespace PickleChat

namespace Shared

section
variable {s t : Shared} {client : ClientId}

theorem joinChannel_ok {channel : ChannelId} {source : Option ChannelId}
    (h : s.joinChannel client channel = .ok (source, t)) :
    ∃ e room, s.client? client = some e ∧ s.channel channel = some room ∧ s.views e.info room = true ∧
      room.kind.hasVoice = true ∧ source = e.info.channel ∧
      t = s.modifyInfo client fun i => { i with channel := some channel } := by
  unfold joinChannel at h
  split at h; · cases h
  rename_i room hroom
  split at h; · cases h
  rename_i e he
  dsimp only at h
  split at h; · cases h
  split at h; · cases h
  split at h; · cases h
  split at h; · cases h
  cases h
  exact ⟨e, room, he, hroom, by simp_all [views], by simp_all, rfl, rfl⟩

theorem forceMove_ok {dest source : Option ChannelId} (h : s.forceMove client dest = .ok (source, t)) :
    ∃ e, s.client? client = some e ∧ source = e.info.channel ∧
      (∀ channel, dest = some channel → ∃ room, s.channel channel = some room ∧ room.kind.hasVoice = true) ∧
      t = s.modifyInfo client fun i => { i with channel := dest } := by
  unfold forceMove at h
  dsimp only at h
  split at h
  · split at h; · cases h
    rename_i e he
    cases h
    refine ⟨e, he, rfl, ?_, rfl⟩
    intro c hc
    cases hc
  · split at h; · cases h
    rename_i room hroom
    split at h; · cases h
    split at h; · cases h
    split at h; · cases h
    rename_i e he
    cases h
    refine ⟨e, he, rfl, ?_, rfl⟩
    intro c hc
    cases hc
    exact ⟨room, hroom, by simp_all⟩

theorem setVoiceState_some {selfMuted selfDeafened : Bool} {info : UserInfo}
    (h : s.setVoiceState client selfMuted selfDeafened = some (info, t)) :
    ∃ f : UserInfo → UserInfo, (∀ i, { f i with voice := i.voice } = i) ∧ (s.user client).map f = some info ∧
      t = s.modifyInfo client f := by
  obtain ⟨i, hi, he⟩ := Option.map_eq_some_iff.mp h
  cases he
  refine ⟨_, ?_, ?_, rfl⟩
  · intro i; rfl
  · rw [hi]; rfl

theorem setServerMuted_some {muted : Bool} {info : UserInfo} (h : s.setServerMuted client muted = some (info, t)) :
    ∃ f : UserInfo → UserInfo, (∀ i, { f i with voice := i.voice } = i) ∧ (s.user client).map f = some info ∧
      t = s.modifyInfo client f := by
  obtain ⟨i, hi, he⟩ := Option.map_eq_some_iff.mp h
  cases he
  refine ⟨_, ?_, ?_, rfl⟩
  · intro i; rfl
  · rw [hi]; rfl

theorem setNickname_some {nickname : String} {info : UserInfo} (h : s.setNickname client nickname = some (info, t)) :
    ∃ f : UserInfo → UserInfo, (∀ i, { f i with nickname := i.nickname } = i) ∧ (s.user client).map f = some info ∧
      t = s.modifyInfo client f := by
  unfold setNickname at h
  split at h; · cases h
  obtain ⟨i, hi, he⟩ := Option.map_eq_some_iff.mp h
  cases he
  refine ⟨_, ?_, ?_, rfl⟩
  · intro i; rfl
  · rw [hi]; rfl

/-- The client id after `id`; zero is never handed out. -/
def idAfter (id : ClientId) : ClientId := if id + 1 = 0 then 1 else id + 1

theorem admitUser_ok {identity : PublicIdentity} {nickname : String} {info : UserInfo}
    (h : s.admitUser identity nickname = .ok (info, t)) :
    info.clientId = s.nextClientId ∧ info.identity = identity ∧ info.channel = none ∧
      info.roles = s.memberRoles identity.fingerprint ∧ info.owner = s.isOwner identity.fingerprint ∧
      s.clients.length < s.config.maxUsers.toNat ∧
      t = { s with nextClientId := idAfter s.nextClientId
                   clients := Keyed.put ConnectedClient.id ⟨info, [], []⟩ s.clients } := by
  unfold admitUser at h
  split at h; · cases h
  split at h; · cases h
  split at h; · cases h
  rename_i hlen
  cases h
  exact ⟨rfl, rfl, rfl, rfl, rfl, by omega, rfl⟩

theorem removeChannelMem_perms (id : ChannelId) : (s.removeChannelMem id).2.perms = s.perms := by
  unfold removeChannelMem; split <;> rfl

theorem removeChannelMem_channels (id : ChannelId) :
    (s.removeChannelMem id).2.channels = Keyed.erase Channel.id id s.channels := by
  unfold removeChannelMem
  split
  · rename_i hnone
    exact (List.filter_eq_self.mpr fun c hc => by simpa using Keyed.get_eq_none.mp hnone c hc).symm
  · rfl

end

end Shared

end PickleChat
