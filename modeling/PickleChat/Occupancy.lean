import PickleChat.Lib.Run
import PickleChat.Roster

/-!
# Who stands where

The operations under the lock that touch clients and channels. In any order of
them everybody stands in a channel that exists, and only joining and moving
fill a room, never past its cap.
-/

namespace PickleChat

open Async (Run)

/-- One operation under the lock. -/
inductive Act where
  | admitUser (identity : PublicIdentity) (nickname : String)
  | remove (client : ClientId)
  | eject (victim : ClientId) (reason : DisconnectReason)
  | joinChannel (client : ClientId) (channel : ChannelId)
  | leaveChannel (client : ClientId)
  | forceMove (client : ClientId) (dest : Option ChannelId)
  | insertChannelMem (c : Channel)
  | updateChannelMem (c : Channel)
  | removeChannelMem (channel : ChannelId)

namespace Shared

/-- A refused operation changes nothing. -/
def act (s : Shared) : Act → Shared
  | .admitUser identity nickname =>
    match s.admitUser identity nickname with
    | .ok (_, t) => t
    | .error _ => s
  | .remove client => (s.remove client).2
  | .eject victim reason => (s.eject victim reason).2
  | .joinChannel client channel =>
    match s.joinChannel client channel with
    | .ok (_, t) => t
    | .error _ => s
  | .leaveChannel client => (s.leaveChannel client).2
  | .forceMove client dest =>
    match s.forceMove client dest with
    | .ok (_, t) => t
    | .error _ => s
  | .insertChannelMem c => s.insertChannelMem c
  | .updateChannelMem c => s.updateChannelMem c
  | .removeChannelMem channel => (s.removeChannelMem channel).2

def standing (s : Shared) (channel : ChannelId) : Nat :=
  (s.clients.filter fun e => e.info.channel = some channel).length

end Shared

def Act.enters : Act → Bool
  | .joinChannel .. | .forceMove .. => true
  | _ => false

/-- Clients are told apart by their ids, and stand in channels that exist. -/
structure Placed (s : Shared) : Prop where
  ids : Keyed.Unique ConnectedClient.id s.clients
  rooms : ∀ e ∈ s.clients, ∀ channel, e.info.channel = some channel → ∃ room, s.channel channel = some room

/-! ## Counting -/

section
variable {α κ : Type} [DecidableEq κ] {key : α → κ}

omit [DecidableEq κ] in
theorem length_filter_map_le {p : α → Bool} {f : α → α} (l : List α) (hf : ∀ a, p (f a) = true → p a = true) :
    ((l.map f).filter p).length ≤ (l.filter p).length := by
  induction l with
  | nil => exact Nat.le_refl _
  | cons a l ih =>
    rw [List.map_cons, List.filter_cons, List.filter_cons]
    by_cases ha : p (f a) = true
    · rw [if_pos ha, if_pos (hf a ha)]
      exact Nat.succ_le_succ ih
    · rw [if_neg ha]
      split
      · exact Nat.le_succ_of_le ih
      · exact ih

theorem length_filter_modify {p : α → Bool} {f : α → α} (hf : ∀ a, p (f a) = true) {k : κ} :
    ∀ {l : List α}, Keyed.Unique key l → (∃ a, Keyed.get key k l = some a) →
      ((Keyed.modify key k f l).filter p).length = (l.filter fun a => p a && decide (key a ≠ k)).length + 1
  | [], _, ⟨_, h⟩ => by cases h
  | a :: l, hu, hget => by
    obtain ⟨hnew, hl⟩ := List.nodup_cons.mp hu
    by_cases ha : key a = k
    · have hother : ∀ b ∈ l, key b ≠ k := fun b hb he => hnew (ha ▸ he ▸ List.mem_map_of_mem hb)
      have hsame : Keyed.modify key k f l = l := by
        unfold Keyed.modify
        exact (List.map_congr_left fun b hb => if_neg (hother b hb)).trans (List.map_id l)
      have hfilter : (l.filter fun b => p b && decide (key b ≠ k)) = l.filter p := by
        refine List.filter_congr fun b hb => ?_
        simp [hother b hb]
      have hcons : Keyed.modify key k f (a :: l) = f a :: Keyed.modify key k f l := by
        simp [Keyed.modify, ha]
      rw [hcons, hsame, List.filter_cons_of_pos (hf a), List.filter_cons_of_neg (by simp [ha]), hfilter]
      rfl
    · have hrest : ∃ b, Keyed.get key k l = some b := by
        obtain ⟨b, hb⟩ := hget
        exact ⟨b, by simpa [Keyed.get, ha] using hb⟩
      have hcons : Keyed.modify key k f (a :: l) = a :: Keyed.modify key k f l := by
        simp [Keyed.modify, ha]
      have ih := length_filter_modify hf hl hrest
      rw [hcons]
      by_cases hp : p a = true
      · rw [List.filter_cons_of_pos hp, List.filter_cons_of_pos (by simp [hp, ha])]
        simp only [List.length_cons, ih]
      · rw [List.filter_cons_of_neg hp, List.filter_cons_of_neg (by simp [hp])]
        exact ih

end

/-! ## One operation -/

section
variable {s t : Shared}

theorem standing_placed (h : Placed s) {client : ClientId} {channel : ChannelId} {e : ConnectedClient}
    (he : s.client? client = some e) :
    (s.modifyInfo client fun i => { i with channel := some channel }).standing channel =
      s.occupants channel client + 1 := by
  have hcount := length_filter_modify (p := fun e : ConnectedClient => decide (e.info.channel = some channel))
    (f := fun e => { e with info := { e.info with channel := some channel } }) (fun _ => by simp) h.ids ⟨e, he⟩
  unfold Shared.standing Shared.occupants Shared.modifyInfo
  rw [hcount]
  congr 2
  refine List.filter_congr fun e _ => ?_
  simp

/-- What a client that enters finds: a room with voice, not filled past its cap. -/
theorem entered (h : Placed s) {client : ClientId} {channel : ChannelId} {e : ConnectedClient} {room : Channel}
    (he : s.client? client = some e) (hroom : s.channel channel = some room) (hfull : s.full room client = false) :
    ∀ max, room.maxUsers = some max →
      (s.modifyInfo client fun i => { i with channel := some channel }).standing channel ≤ max.toNat := by
  intro max hmax
  have hid : room.id = channel := Keyed.get_key hroom
  unfold Shared.full at hfull
  rw [hmax, hid] at hfull
  have hlt : ¬ s.occupants channel client ≥ max.toNat := by simpa using hfull
  rw [standing_placed h he]
  omega

theorem joinChannel_full {client : ClientId} {channel : ChannelId} {source : Option ChannelId} {room : Channel}
    (h : s.joinChannel client channel = .ok (source, t)) (hroom : s.channel channel = some room) :
    s.full room client = false := by
  unfold Shared.joinChannel at h
  rw [hroom] at h
  dsimp only at h
  split at h; · cases h
  split at h; · cases h
  split at h; · cases h
  split at h; · cases h
  split at h; · cases h
  rename_i hfull
  simpa using hfull

theorem forceMove_full {client : ClientId} {channel : ChannelId} {source : Option ChannelId} {room : Channel}
    (h : s.forceMove client (some channel) = .ok (source, t)) (hroom : s.channel channel = some room) :
    s.full room client = false := by
  unfold Shared.forceMove at h
  dsimp only at h
  rw [hroom] at h
  dsimp only at h
  split at h; · cases h
  split at h; · cases h
  rename_i hfull
  simpa using hfull

theorem exists_channel_iff {id : ChannelId} : (∃ room, s.channel id = some room) ↔ id ∈ s.channels.map Channel.id := by
  constructor
  · rintro ⟨room, h⟩
    exact List.mem_map.mpr ⟨room, Keyed.get_mem h, Keyed.get_key h⟩
  · intro h
    obtain ⟨room, hroom, rfl⟩ := List.mem_map.mp h
    cases hget : s.channel room.id with
    | some found => exact ⟨found, rfl⟩
    | none => exact absurd rfl (Keyed.get_eq_none.mp hget room hroom)

theorem ids_updateChannelMem (s : Shared) (c : Channel) :
    (s.updateChannelMem c).channels.map Channel.id = s.channels.map Channel.id := by
  unfold Shared.updateChannelMem Shared.modifyChannel Keyed.modify
  rw [List.map_map]
  refine List.map_congr_left fun old _ => ?_
  by_cases h : old.id = c.id <;> simp [h]

theorem Placed.mono (h : Placed s) (hids : Keyed.Unique ConnectedClient.id t.clients)
    (hchannels : ∀ id, id ∈ s.channels.map Channel.id → id ∈ t.channels.map Channel.id)
    (hclients : ∀ e ∈ t.clients, ∀ channel, e.info.channel = some channel →
      ∃ e₀ ∈ s.clients, e₀.info.channel = some channel) : Placed t := by
  refine ⟨hids, fun e he channel hc => ?_⟩
  obtain ⟨e₀, he₀, hc₀⟩ := hclients e he channel hc
  exact exists_channel_iff.mpr (hchannels channel (exists_channel_iff.mp (h.rooms e₀ he₀ channel hc₀)))

theorem Placed.enter (h : Placed s) {client : ClientId} {dest : Option ChannelId}
    (hdest : ∀ channel, dest = some channel → ∃ room, s.channel channel = some room) :
    Placed (s.modifyInfo client fun i => { i with channel := dest }) := by
  refine ⟨h.ids.map fun e => by split <;> rfl, fun e he channel hc => ?_⟩
  obtain ⟨e₀, he₀, rfl⟩ := List.mem_map.mp he
  split at hc
  · exact hdest channel hc
  · exact h.rooms e₀ he₀ channel hc

theorem Placed.removed (h : Placed s) (client : ClientId) : Placed (s.remove client).2 :=
  h.mono (h.ids.erase _) (fun _ hid => hid) fun e he _ hc => ⟨e, (Keyed.mem_erase.mp he).1, hc⟩

theorem Placed.broadcast (h : Placed s) (m : ServerControl) (except : Option ClientId) :
    Placed (s.broadcast m except) := by
  refine h.mono (h.ids.map fun e => ?_) (fun _ hid => hid) fun e he channel hc => ?_
  · split <;> rfl
  · obtain ⟨e₀, he₀, rfl⟩ := List.mem_map.mp he
    refine ⟨e₀, he₀, ?_⟩
    split at hc <;> exact hc

theorem Placed.removedChannel (h : Placed s) (id : ChannelId) : Placed (s.removeChannelMem id).2 := by
  unfold Shared.removeChannelMem
  split
  · exact h
  refine ⟨h.ids.map fun e => ?_, fun e he channel hc => ?_⟩
  · split <;> rfl
  obtain ⟨e₀, he₀, rfl⟩ := List.mem_map.mp he
  split at hc
  · cases hc
  · rename_i hne
    obtain ⟨room, hroom⟩ := h.rooms e₀ he₀ channel hc
    refine ⟨room, ?_⟩
    unfold Shared.channel
    rw [Keyed.get_erase, if_neg]
    · exact hroom
    · rintro rfl
      exact hne hc

theorem Placed.act (h : Placed s) (a : Act) : Placed (s.act a) := by
  cases a with
  | admitUser identity nickname =>
    unfold Shared.act
    dsimp only
    split
    · rename_i info t ht
      obtain ⟨-, -, hnowhere, -, -, -, rfl⟩ := Shared.admitUser_ok ht
      refine h.mono (h.ids.put _) (fun _ hid => hid) fun e he channel hc => ?_
      rcases Keyed.mem_put.mp he with rfl | ⟨he, -⟩
      · rw [hnowhere] at hc
        cases hc
      · exact ⟨e, he, hc⟩
    · exact h
  | remove client => exact h.removed client
  | eject victim reason =>
    change Placed (s.eject victim reason).2
    unfold Shared.eject
    split
    · exact h
    · exact (h.removed victim).broadcast _ _
  | joinChannel client channel =>
    unfold Shared.act
    dsimp only
    split
    · rename_i hj
      obtain ⟨e, room, -, hroom, -, -, -, rfl⟩ := Shared.joinChannel_ok hj
      refine h.enter fun id hid => ?_
      cases hid
      exact ⟨room, hroom⟩
    · exact h
  | leaveChannel client => exact h.enter fun channel hc => (nomatch hc)
  | forceMove client dest =>
    unfold Shared.act
    dsimp only
    split
    · rename_i hm
      obtain ⟨e, -, -, hdest, rfl⟩ := Shared.forceMove_ok hm
      refine h.enter fun channel hc => ?_
      obtain ⟨room, hroom, -⟩ := hdest channel hc
      exact ⟨room, hroom⟩
    · exact h
  | insertChannelMem c =>
    refine h.mono h.ids (fun id hid => ?_) fun e he channel hc => ⟨e, he, hc⟩
    obtain ⟨room, hroom, rfl⟩ := List.mem_map.mp hid
    by_cases hnew : room.id = c.id
    · exact List.mem_map.mpr ⟨c, Keyed.mem_putSorted.mpr (.inl rfl), hnew.symm⟩
    · exact List.mem_map.mpr ⟨room, Keyed.mem_putSorted.mpr (.inr ⟨hroom, hnew⟩), rfl⟩
  | updateChannelMem c =>
    refine h.mono h.ids (fun id hid => ?_) fun e he channel hc => ⟨e, he, hc⟩
    change id ∈ (s.updateChannelMem c).channels.map Channel.id
    rwa [ids_updateChannelMem]
  | removeChannelMem id => exact h.removedChannel id

theorem standing_le_of_map {f : ConnectedClient → ConnectedClient} (ht : t.clients = s.clients.map f)
    {channel : ChannelId} (hf : ∀ e, (f e).info.channel = some channel → e.info.channel = some channel) :
    t.standing channel ≤ s.standing channel := by
  unfold Shared.standing
  rw [ht]
  exact length_filter_map_le _ fun e he => by simpa using hf e (by simpa using he)

theorem standing_remove_le (s : Shared) (client : ClientId) (channel : ChannelId) :
    (s.remove client).2.standing channel ≤ s.standing channel := by
  unfold Shared.standing Shared.remove Keyed.erase
  exact (List.filter_sublist.filter _).length_le

/-- Nobody is put anywhere by an operation that is neither a join nor a move. -/
theorem standing_act_le {a : Act} (ha : a.enters = false) (channel : ChannelId) :
    (s.act a).standing channel ≤ s.standing channel := by
  cases a with
  | admitUser identity nickname =>
    unfold Shared.act
    dsimp only
    split
    · rename_i info t ht
      obtain ⟨-, -, hnowhere, -, -, -, rfl⟩ := Shared.admitUser_ok ht
      unfold Shared.standing Keyed.put
      rw [List.filter_append, List.filter_cons_of_neg (by simp [hnowhere]), List.filter_nil, List.append_nil]
      exact (List.filter_sublist.filter _).length_le
    · exact Nat.le_refl _
  | remove client => exact standing_remove_le s client channel
  | eject victim reason =>
    change (s.eject victim reason).2.standing channel ≤ _
    unfold Shared.eject
    split
    · exact Nat.le_refl _
    · have hsent : ((s.remove victim).2.broadcast (.userLeft victim reason) none).standing channel ≤
          (s.remove victim).2.standing channel := by
        refine standing_le_of_map rfl fun e he => ?_
        split at he <;> exact he
      exact Nat.le_trans hsent (standing_remove_le s victim channel)
  | joinChannel => cases ha
  | leaveChannel client =>
    refine standing_le_of_map rfl fun e he => ?_
    split at he
    · cases he
    · exact he
  | forceMove => cases ha
  | insertChannelMem => exact Nat.le_refl _
  | updateChannelMem => exact Nat.le_refl _
  | removeChannelMem id =>
    change (s.removeChannelMem id).2.standing channel ≤ _
    unfold Shared.removeChannelMem
    split
    · exact Nat.le_refl _
    · refine standing_le_of_map rfl fun e he => ?_
      split at he
      · cases he
      · exact he

end

/-! ## Runs -/

/-- The rule of entering: into a room with voice, within its cap. -/
structure Entered (t : Shared) (client : ClientId) (channel : ChannelId) : Prop where
  placed : (t.user client).map UserInfo.channel = some (some channel)
  room : ∃ room, t.channel channel = some room ∧ room.kind.hasVoice = true ∧
    ∀ max, room.maxUsers = some max → t.standing channel ≤ max.toNat

/-- From a start without clients, in any order of the operations: everybody
stands in a channel that exists, whoever joins or is moved enters a room with
voice within its cap, and no other operation fills a room. -/
theorem occupancy {s₀ s : Shared} (hstart : s₀.clients = [])
    (h : Run (fun s a t => t = Shared.act s a) (fun _ _ => True) s₀ s) :
    (∀ e ∈ s.clients, e.info.channel = none ∨
      ∃ channel room, e.info.channel = some channel ∧ s.channel channel = some room) ∧
    (∀ client channel source t, s.joinChannel client channel = .ok (source, t) → Entered t client channel) ∧
    (∀ client channel source t, s.forceMove client (some channel) = .ok (source, t) → Entered t client channel) ∧
    ∀ a : Act, a.enters = false → ∀ channel, (s.act a).standing channel ≤ s.standing channel := by
  have hplaced : Placed s := by
    refine h.invariant Placed ⟨?_, ?_⟩ fun s a t hs _ ht => ?_
    · rw [hstart]
      exact .nil
    · intro e he
      rw [hstart] at he
      cases he
    · rw [ht]
      exact hs.act a
  have henter : ∀ {client channel e room}, s.client? client = some e → s.channel channel = some room →
      room.kind.hasVoice = true → s.full room client = false →
      Entered (s.modifyInfo client fun i => { i with channel := some channel }) client channel := by
    intro client channel e room he hroom hvoice hfull
    refine ⟨?_, room, hroom, hvoice, entered hplaced he hroom hfull⟩
    have hget : (s.modifyInfo client fun i => { i with channel := some channel }).client? client =
        some { e with info := { e.info with channel := some channel } } := by
      refine (Keyed.get_modify (f := fun e : ConnectedClient =>
        { e with info := { e.info with channel := some channel } })
        (fun _ => rfl) client client s.clients).trans ?_
      rw [if_pos rfl, show Keyed.get ConnectedClient.id client s.clients = some e from he]
      rfl
    unfold Shared.user
    rw [hget]
    rfl
  refine ⟨fun e he => ?_, fun client channel source t hj => ?_, fun client channel source t hm => ?_,
    fun a ha channel => standing_act_le ha channel⟩
  · cases hc : e.info.channel with
    | none => exact .inl rfl
    | some channel =>
      obtain ⟨room, hroom⟩ := hplaced.rooms e he channel hc
      exact .inr ⟨channel, room, rfl, hroom⟩
  · obtain ⟨e, room, he, hroom, -, hvoice, -, rfl⟩ := Shared.joinChannel_ok hj
    exact henter he hroom hvoice (joinChannel_full hj hroom)
  · obtain ⟨e, he, -, hdest, rfl⟩ := Shared.forceMove_ok hm
    obtain ⟨room, hroom, hvoice⟩ := hdest channel rfl
    exact henter he hroom hvoice (forceMove_full hm hroom)

def boothServer : Shared :=
  exampleServer [exampleRole 0 0 .defaultEveryone]
    [{ id := 5, parent := none, name := "booth", topic := "", kind := .voice, maxUsers := some 1, order := 0,
       overwrites := [] }] []

/-- The first member joins it. -/
theorem occupancy_booth : ∃ source t,
    (boothServer.act (.admitUser ⟨.rep 3, 8⟩ "n")).joinChannel 100 5 = .ok (source, t) ∧ Entered t 100 5 := by
  have hrun : Run (fun s a t => t = Shared.act s a) (fun _ _ => True) boothServer
      (boothServer.act (.admitUser ⟨.rep 3, 8⟩ "n")) := .step _ .refl trivial rfl
  have hok : ((boothServer.act (.admitUser ⟨.rep 3, 8⟩ "n")).joinChannel 100 5).isOk = true := by decide +kernel
  cases hj : (boothServer.act (.admitUser ⟨.rep 3, 8⟩ "n")).joinChannel 100 5 with
  | error code =>
    rw [hj] at hok
    cases hok
  | ok r => exact ⟨r.1, r.2, rfl, (occupancy rfl hrun).2.1 100 5 r.1 r.2 hj⟩

end PickleChat
