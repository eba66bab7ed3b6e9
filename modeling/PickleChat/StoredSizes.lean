import PickleChat.Frames
import PickleChat.Lib.Bounded
import PickleChat.RoleLists
import PickleChat.Serve

/-!
# Stored content and the frame limit

Commands arrive in frames that fit; what they store is sent again, alone and in
sum, and nothing bounds the sum. Every frame with stored content is a copy of
what the state holds as it is queued, so all of them fit where the state's own
records do.
-/

namespace PickleChat

open Async (Run Pool Event Bound Task bounded_wait)
open Postcard

abbrev ServerPool := Pool Shared Await Await.Reply World Nat

/-! ## What queued frames are copies of -/

/-- A frame with stored content says what the state holds. -/
def Grounded (t : Shared) : ServerControl → Prop
  | .channelCreated c | .channelUpdated c => ∃ i ∈ t.users, ∃ id ∈ t.visibleIds i, t.channel id = some c
  | .roleCreated r | .roleUpdated r => r ∈ t.perms.roles
  | .userUpdated u => u ∈ t.users
  | .banList bans => 1 + seq BanEntry.len bans ≤ maxFrameLen
  | .authOk _ => False
  | _ => True

/-- Every queued frame was queued already, or says what `t` holds. -/
def Tells (s t : Shared) : Prop :=
  ∀ e ∈ t.clients, ∀ m ∈ e.control, (∃ e₀ ∈ s.clients, m ∈ e₀.control) ∨ Grounded t m

theorem Tells.refl (s : Shared) : Tells s s := fun e he _ hm => .inl ⟨e, he, hm⟩

theorem Tells.of_map {s t : Shared} {f : ConnectedClient → ConnectedClient} (hc : t.clients = s.clients.map f)
    (hf : ∀ e, (f e).control = e.control) : Tells s t := by
  intro e he m hm
  rw [hc] at he
  obtain ⟨e₀, he₀, rfl⟩ := List.mem_map.mp he
  rw [hf] at hm
  exact .inl ⟨e₀, he₀, hm⟩

theorem Tells.of_clients {s t : Shared} (hc : t.clients = s.clients) : Tells s t :=
  .of_map (f := id) (by rw [hc, List.map_id]) fun _ => rfl

theorem Tells.modifyInfo (s : Shared) (k : ClientId) (f : UserInfo → UserInfo) : Tells s (s.modifyInfo k f) := by
  refine .of_map rfl fun e => ?_
  split <;> rfl

theorem Tells.remove (s : Shared) (k : ClientId) : Tells s (s.remove k).2 := by
  intro e he m hm
  exact .inl ⟨e, (Keyed.mem_erase.mp he).1, hm⟩

section
variable {s t : Shared}

theorem grounded_deliver (f : UserInfo → List ServerControl) {m : ServerControl} (h : Grounded t m) :
    Grounded (t.deliver f) m := by
  cases m with
  | channelCreated c | channelUpdated c =>
    obtain ⟨i, hi, hc⟩ := h
    exact ⟨i, by rwa [Shared.deliver_users], hc⟩
  | userUpdated u =>
    have hu : u ∈ t.users := h
    change u ∈ (t.deliver f).users
    rwa [Shared.deliver_users]
  | _ => exact h

theorem Tells.deliver (h : Tells s t) {f : UserInfo → List ServerControl}
    (hf : ∀ i ∈ t.users, ∀ m ∈ f i, Grounded t m) : Tells s (t.deliver f) := by
  intro e he m hm
  obtain ⟨e₀, he₀, rfl⟩ := List.mem_map.mp he
  rcases List.mem_append.mp hm with hm | hm
  · exact (h e₀ he₀ m hm).imp_right (grounded_deliver f)
  · exact .inr (grounded_deliver f (hf _ (List.mem_map_of_mem he₀) m hm))

theorem grounded_resync {before : List (ClientId × List ChannelId)} {touched : List ChannelId} {i : UserInfo}
    {m : ServerControl} (h : m ∈ s.resync before touched i) : Grounded s m := by
  rcases Shared.mem_resync h with ⟨id, rfl⟩ | ⟨e, id, c, he, hid, hc, rfl | rfl⟩
  · trivial
  · exact ⟨e.info, List.mem_map_of_mem (Keyed.get_mem he), id, hid, hc⟩
  · exact ⟨e.info, List.mem_map_of_mem (Keyed.get_mem he), id, hid, hc⟩

theorem Tells.send (h : Tells s t) (k : ClientId) {m : ServerControl} (hm : Grounded t m) : Tells s (t.send k m) := by
  rw [Shared.send_eq]
  refine h.deliver fun i _ m' hm' => ?_
  split at hm'
  · obtain rfl := List.mem_singleton.mp hm'
    exact hm
  · cases hm'

theorem Tells.broadcast (h : Tells s t) {m : ServerControl} (hm : Grounded t m) (except : Option ClientId) :
    Tells s (t.broadcast m except) := by
  rw [Shared.broadcast_eq]
  refine h.deliver fun i _ m' hm' => ?_
  split at hm'
  · cases hm'
  · obtain rfl := List.mem_singleton.mp hm'
    exact hm

theorem Tells.broadcastFiltered (h : Tells s t) {m : ServerControl} (hm : Grounded t m) (channel : ChannelId)
    (except : Option ClientId) : Tells s (t.broadcastFiltered m channel except) := by
  rw [Shared.broadcastFiltered_eq]
  refine h.deliver fun i _ m' hm' => ?_
  split at hm'
  · obtain rfl := List.mem_singleton.mp hm'
    exact hm
  · cases hm'

theorem grounded_acks {k : ClientId} {nonce : UInt64} {i : UserInfo} {m : ServerControl} (h : m ∈ acks k nonce i) :
    Grounded t m := by
  unfold acks at h
  split at h
  · obtain rfl := List.mem_singleton.mp h
    trivial
  · cases h

theorem tells_refused {client : ClientId} (h : Refused s client t) : Tells s t := by
  rcases h with rfl | ⟨_, _, _, rfl⟩
  · exact .refl t
  · exact (Tells.refl s).send client (by trivial)

end

/-! ## Room in the state -/

/-- Nobody was admitted after this client. -/
def Shared.newest (s : Shared) (e : ConnectedClient) : Prop := Shared.idAfter e.id = s.nextClientId

instance (s : Shared) (e : ConnectedClient) : Decidable (s.newest e) :=
  inferInstanceAs (Decidable (_ = _))

section
variable (counter : PublicIdentity → UInt64)

/-- What a member who connects is told at once: the channels it may view, who is
there, and the roles. -/
def Shared.welcomeLen (s : Shared) (i : UserInfo) : Nat :=
  u32 i.clientId + seq Channel.len (s.visibleChannels i) + seq (UserInfo.len counter) s.users +
    seq Role.len s.perms.roles + opt u32 (s.defaultChannelFor i) +
    ServerLimits.len { s.limits with historyEnabled := s.historyEnabled }

/-- What the state holds leaves room for a frame around it. -/
structure Room (s : Shared) : Prop where
  channels : ∀ i ∈ s.users, ∀ id ∈ s.visibleIds i, ∀ c ∈ s.channel id, 1 + c.len ≤ maxFrameLen
  roles : s.users ≠ [] → ∀ r ∈ s.perms.roles, 1 + r.len ≤ maxFrameLen
  users : ∀ i ∈ s.users, 1 + i.len counter ≤ maxFrameLen
  welcome : ∀ e ∈ s.clients, s.newest e → e.control = [] → 1 + s.welcomeLen counter e.info ≤ maxFrameLen

instance (s : Shared) : Decidable (Room counter s) :=
  decidable_of_iff
    ((∀ i ∈ s.users, (s.visibleIds i).all (fun id => (s.channel id).all fun c => 1 + c.len ≤ maxFrameLen) = true) ∧
      (s.users ≠ [] → ∀ r ∈ s.perms.roles, 1 + r.len ≤ maxFrameLen) ∧
      (∀ i ∈ s.users, 1 + i.len counter ≤ maxFrameLen) ∧
      ∀ e ∈ s.clients, s.newest e → e.control = [] → 1 + s.welcomeLen counter e.info ≤ maxFrameLen) <| by
    have hchannels : ∀ i, (s.visibleIds i).all (fun id => (s.channel id).all fun c => 1 + c.len ≤ maxFrameLen) = true ↔
        ∀ id ∈ s.visibleIds i, ∀ c ∈ s.channel id, 1 + c.len ≤ maxFrameLen := by
      intro i
      simp [Option.all_eq_true]
    simp only [hchannels]
    exact ⟨fun h => ⟨h.1, h.2.1, h.2.2.1, h.2.2.2⟩, fun h => ⟨h.channels, h.roles, h.users, h.welcome⟩⟩

def Readable : (op : Await) → op.Reply → Prop
  | .load .listBans, some bans => 1 + seq BanEntry.len bans ≤ maxFrameLen
  | _, _ => True

def Writable : Await → Prop
  | .write m => m.Fits counter
  | _ => True

def sizeBound : Bound Shared Await Await.Reply := ⟨Tells, Room counter, Writable counter, Readable⟩

def Queued (s : Shared) : Prop := ∀ e ∈ s.clients, ∀ m ∈ e.control, m.Fits counter

def Wired (w : World) : Prop := ∀ m ∈ w.wire, m.Fits counter

variable {counter}

theorem Grounded.fits {t : Shared} (h : Room counter t) (hne : t.users ≠ []) {m : ServerControl} (hm : Grounded t m) :
    m.Fits counter := by
  intro n hn
  cases m with
  | channelCreated c | channelUpdated c =>
    obtain ⟨i, hi, id, hid, hc⟩ := hm
    obtain rfl := Option.some.inj hn
    exact h.channels i hi id hid c hc
  | roleCreated r | roleUpdated r =>
    obtain rfl := Option.some.inj hn
    exact h.roles hne r hm
  | userUpdated u =>
    obtain rfl := Option.some.inj hn
    exact h.users u hm
  | banList bans =>
    obtain rfl := Option.some.inj hn
    exact hm
  | authOk ok => exact hm.elim
  | _ => cases hn

theorem Queued.tells {s t : Shared} (hs : Queued counter s) (h : Tells s t) (hr : Room counter t) :
    Queued counter t := by
  intro e he m hm
  rcases h e he m hm with ⟨e₀, he₀, hm₀⟩ | hg
  · exact hs e₀ he₀ m hm₀
  · have hne : t.users ≠ [] := by
      intro h
      have : e.info ∈ t.users := List.mem_map_of_mem he
      rw [h] at this
      cases this
    exact hg.fits hr hne

theorem Wired.performs {op : Await} {w w' : World} {r : op.Reply} (hw : Wired counter w) (hop : Writable counter op)
    (hp : Performs op w r w') : Wired counter w' := by
  cases hp with
  | @write frame w =>
    intro m hm
    rcases List.mem_append.mp hm with hm | hm
    · exact hw m hm
    · obtain rfl := List.mem_singleton.mp hm
      exact hop
  | _ => exact hw

end

/-! ## Sections of the handlers -/

section
variable (counter : PublicIdentity → UInt64)

def Sized (h : Handler) : Prop := (sizeBound counter).Holds h

def SizedTodo (t : Todo) : Prop := t.Bounded (sizeBound counter)

variable {counter}

theorem sized_done {h : Shared → Shared} (hs : ∀ s, Tells s (h s)) : Sized counter fun s => (h s, .done) :=
  fun s => ⟨hs s, fun _ => trivial⟩

theorem sized_onYield {k : Handler} (hk : Sized counter k) : SizedTodo counter (onYield k) :=
  bounded_wait trivial fun _ _ => hk

theorem sized_onSleep {k : Handler} (hk : Sized counter k) : SizedTodo counter (onSleep k) :=
  bounded_wait trivial fun _ _ => hk

theorem sized_onLoad {call : StoreRead} {k : Option call.Answer → Handler}
    (hk : ∀ r, Readable (.load call) r → Sized counter (k r)) : SizedTodo counter (onLoad call k) :=
  bounded_wait trivial hk

theorem sized_onWritten {call : StoreWrite} {k : Handler} (hk : Sized counter k) :
    SizedTodo counter (onWritten call k) := bounded_wait trivial fun _ _ => hk

theorem sized_onSaved {call : StoreWrite} {failed : Shared → Shared} {saved : Handler}
    (hfail : ∀ s, Tells s (failed s)) (hk : Sized counter saved) : SizedTodo counter (onSaved call failed saved) := by
  refine bounded_wait trivial fun (ok : Bool) _ s => ?_
  cases ok with
  | true => exact hk s
  | false => exact ⟨hfail s, fun _ => trivial⟩

theorem tells_refuse (s : Shared) (client : ClientId) (nonce : UInt64) (code : ErrorCode) (detail : String) :
    Tells s (refuse s client nonce code detail) :=
  (Tells.refl s).send client (by trivial)

theorem Sized.stays {s : Shared} {todo : Todo} (h : SizedTodo counter todo) :
    Tells s s ∧ (Room counter s → SizedTodo counter todo) := ⟨.refl s, fun _ => h⟩

end

/-! ## Role and channel commands -/

section
variable {counter : PublicIdentity → UInt64} {client : ClientId} {nonce : UInt64}

theorem tells_withoutRole (s : Shared) (p : PermState) (id : RoleId) : Tells s (s.withoutRole p id) :=
  .of_map rfl fun e => by split <;> rfl

theorem tells_withGrants (s : Shared) (p : PermState) (f : Fingerprint) (roles : List RoleId) :
    Tells s (s.withGrants p f roles) := .of_map rfl fun e => by split <;> rfl

theorem tells_removeChannelMem (s : Shared) (id : ChannelId) : Tells s (s.removeChannelMem id).2 := by
  unfold Shared.removeChannelMem
  split
  · exact .refl s
  · exact .of_map rfl fun e => by split <;> rfl

/-- An entry that a map over all entries rewrites is one of those afterwards. -/
theorem mem_users_of_edit {s t : Shared} (P : ConnectedClient → Prop) [DecidablePred P] (f : UserInfo → UserInfo)
    (ht : t.clients = s.clients.map fun e => if P e then { e with info := f e.info } else e) {u : UserInfo}
    (hu : u ∈ (s.clients.filter P).map fun e => f e.info) : u ∈ t.users := by
  obtain ⟨e, he, rfl⟩ := List.mem_map.mp hu
  obtain ⟨he, hp⟩ := List.mem_filter.mp he
  have hp : P e := by simpa using hp
  unfold Shared.users
  rw [ht, List.map_map]
  refine List.mem_map.mpr ⟨e, he, ?_⟩
  simp [hp]

theorem grounded_users {t : Shared} {infos : List UserInfo} (h : ∀ u ∈ infos, u ∈ t.users) {m : ServerControl}
    (hm : m ∈ infos.map .userUpdated) : Grounded t m := by
  obtain ⟨u, hu, rfl⟩ := List.mem_map.mp hm
  exact h u hu

theorem mem_modifyFirst {κ α : Type} [DecidableEq κ] {key : α → κ} {k : κ} {a b : α} :
    ∀ {l : List α}, Keyed.get key k l = some a → b ∈ Keyed.modifyFirst key k (fun _ => b) l
  | [], h => by cases h
  | c :: l, h => by
    unfold Keyed.modifyFirst
    split
    · exact List.mem_cons_self
    · rename_i hc
      have h' : Keyed.get key k l = some a := by simpa [Keyed.get, hc] using h
      exact List.mem_cons_of_mem _ (mem_modifyFirst h')

/-- Whatever state a role command resumes on, what it announces is what it swapped in. -/
theorem Passes.sized {s : Shared} {a : Actor} {cmd : RoleCommand} {next : PermState} {save : Todo}
    (h : Passes s client nonce a cmd next save) : SizedTodo counter save := by
  have hfail : ∀ detail (t : Shared), Tells t (refuse t client nonce .internal detail) :=
    fun detail t => tells_refuse t client nonce .internal detail
  have hswap : ∀ (t : Shared) (p : PermState), Tells t (t.swapPermState p) := fun t p => .of_clients rfl
  cases h with
  | create =>
    refine sized_onSaved (hfail _) fun t => Sized.stays (sized_onSaved (hfail _) (sized_done fun t => ?_))
    rw [createRoleSwap_eq]
    refine Tells.deliver (hswap _ _) fun i _ m hm => ?_
    simp only [List.cons_append, List.nil_append, List.mem_cons] at hm
    rcases hm with rfl | rfl | hm
    · exact mem_sortByPosition.mpr (List.mem_append_right _ (List.mem_singleton.mpr rfl))
    · trivial
    · exact grounded_acks hm
  | @update id _ _ _ existing updated hget _ _ hupdated =>
    have hid : updated.id = id := (editedRole_ok hupdated).1.trans (Keyed.get_key hget)
    refine sized_onSaved (hfail _) (sized_done fun t => ?_)
    rw [updateRoleSwap_eq]
    refine Tells.deliver (hswap _ _) fun i _ m hm => ?_
    simp only [List.cons_append, List.nil_append, List.mem_cons, List.mem_append] at hm
    rcases hm with rfl | hm | hm
    · rw [← hid] at hget
      exact mem_modifyFirst hget
    · exact grounded_resync hm
    · exact grounded_acks hm
  | @delete id =>
    refine sized_onSaved (hfail _) fun t => Sized.stays (sized_onWritten (sized_done fun t => ?_))
    rw [deleteRoleSwap_eq]
    refine Tells.deliver (tells_withoutRole _ _ _) fun i _ m hm => ?_
    simp only [List.cons_append, List.nil_append, List.mem_cons, List.mem_append] at hm
    rcases hm with rfl | rfl | (hm | hm) | hm
    · trivial
    · trivial
    · exact grounded_users (fun u hu => mem_users_of_edit (fun e => id ∈ e.info.roles)
        (fun i => { i with roles := i.roles.filter (· ≠ id) }) rfl hu) hm
    · exact grounded_resync hm
    · exact grounded_acks hm
  | reorder =>
    refine sized_onSaved (hfail _) (sized_done fun t => ?_)
    rw [reorderRolesSwap_eq]
    refine Tells.deliver (hswap _ _) fun i _ m hm => ?_
    rcases List.mem_cons.mp hm with rfl | hm
    · trivial
    · exact grounded_acks hm
  | @grant f roles =>
    refine sized_onSaved (hfail _) (sized_done fun t => ?_)
    rw [setMemberRolesSwap_eq]
    refine Tells.deliver (tells_withGrants _ _ _ _) fun i _ m hm => ?_
    simp only [List.mem_append] at hm
    rcases hm with (hm | hm) | hm
    · exact grounded_users (fun u hu => mem_users_of_edit (fun e => e.info.fingerprint = f)
        (fun i => { i with roles }) rfl hu) hm
    · exact grounded_resync hm
    · exact grounded_acks hm

theorem RoleCommand.sized (cmd : RoleCommand) : Sized counter (cmd.handle client nonce) := by
  intro s
  rcases RoleCommand.handle_cases (rfl : cmd.handle client nonce s = _) with ⟨hd, hr⟩ | ⟨a, next, save, -, -, hp, he⟩
  · rw [hd]
    exact ⟨tells_refused hr, fun _ => trivial⟩
  · rw [he]
    exact Sized.stays hp.sized

/-- A channel command tells everyone what it now sees, and of everyone it put out. -/
theorem ChannelPasses.sized {s : Shared} {cmd : ChannelCommand} {c : Change} (h : ChannelPasses s client nonce cmd c)
    (detail : String) : SizedTodo counter (c.save client nonce detail) := by
  refine sized_onSaved (fun t => tells_refuse t client nonce .internal detail) (sized_done fun t => ?_)
  have hmem : Tells t (c.mem t) := by
    cases h with
    | delete => exact tells_removeChannelMem t _
    | _ => exact .of_clients rfl
  refine hmem.deliver fun i _ m hm => ?_
  rcases List.mem_append.mp hm with hm | hm
  swap
  · exact grounded_acks hm
  cases h with
  | @delete id =>
    rcases List.mem_append.mp hm with hm | hm
    · obtain ⟨u, hu, hm⟩ := List.mem_flatMap.mp hm
      rcases List.mem_cons.mp hm with rfl | hm
      · trivial
      · obtain rfl := List.mem_singleton.mp hm
        change u ∈ ((t.removeChannelMem id).2).users
        unfold Shared.removeChannelMem at hu ⊢
        split at hu
        · cases hu
        · exact mem_users_of_edit (fun e => e.info.channel = some id) (fun i => { i with channel := none }) rfl hu
    · exact grounded_resync hm
  | _ => exact grounded_resync hm

theorem ChannelCommand.sized (cmd : ChannelCommand) : Sized counter (cmd.handle client nonce) := by
  intro s
  rcases ChannelCommand.handle_cases (rfl : cmd.handle client nonce s = _) with ⟨hd, hr⟩ | ⟨c, detail, -, hp, he⟩
  · rw [hd]
    exact ⟨tells_refused hr, fun _ => trivial⟩
  · rw [he]
    exact Sized.stays (hp.sized detail)

end

/-! ## Connecting and moderating -/

section
variable {counter : PublicIdentity → UInt64}

theorem storedLen_authOk (s : Shared) (i : UserInfo) :
    (ServerControl.authOk (s.authOk i)).storedLen counter = some (1 + s.welcomeLen counter i) := rfl

theorem sized_reject (failure : AuthFailure) : SizedTodo counter (reject failure) := by
  refine bounded_wait (fun n hn => by cases hn) fun ok _ s => ?_
  split
  · exact Sized.stays (sized_onSleep (sized_done fun s => Tells.refl s))
  · exact ⟨Tells.refl s, fun _ => trivial⟩

theorem sized_admitClient (auth : ClientAuth) : Sized counter (admitClient auth) := by
  intro s
  unfold admitClient
  split
  · exact Sized.stays (sized_reject _)
  · rename_i info t ht
    obtain ⟨hid, -, -, -, -, -, rfl⟩ := Shared.admitUser_ok ht
    refine ⟨?_, fun hroom => bounded_wait ?_ fun (ok : Bool) _ u => ?_⟩
    · intro e he m hm
      rcases Keyed.mem_put.mp he with rfl | ⟨he, -⟩
      · cases hm
      · exact .inl ⟨e, he, hm⟩
    · intro n hn
      rw [storedLen_authOk] at hn
      obtain rfl := Option.some.inj hn
      refine hroom.welcome ⟨info, [], []⟩ (Keyed.mem_put.mpr (.inl rfl)) ?_ rfl
      exact congrArg Shared.idAfter hid
    · split
      · exact ⟨(Tells.refl u).broadcast (by trivial) _, fun _ => trivial⟩
      · exact ⟨.remove u _, fun _ => trivial⟩

theorem sized_handshake (auth : ClientAuth) : Sized counter (handshake auth) := by
  intro s
  unfold handshake
  split
  · exact Sized.stays (sized_reject _)
  · split
    · exact sized_admitClient auth s
    · refine Sized.stays (sized_onLoad fun r _ s => ?_)
      split
      · exact Sized.stays (sized_reject _)
      · exact sized_admitClient auth s

theorem tells_eject (s : Shared) (victim : ClientId) (reason : DisconnectReason) :
    Tells s (s.eject victim reason).2 := by
  unfold Shared.eject
  split
  · exact .refl s
  · exact (Tells.remove s victim).broadcast (by trivial) none

theorem sized_ejectAndClose (victim : ClientId) (reason : DisconnectReason) {k : Handler} (hk : Sized counter k) :
    Sized counter (ejectAndClose victim reason k) := by
  intro s
  have htells := tells_eject s victim reason
  unfold ejectAndClose
  split
  · exact hk s
  · rename_i t he
    rw [he] at htells
    exact ⟨htells, fun _ => sized_onSleep hk⟩

theorem sized_ejectVictims (client : ClientId) (nonce : UInt64) (victims : List ClientId) :
    Sized counter (ejectVictims client nonce victims) := by
  induction victims with
  | nil => exact sized_done fun s => (Tells.refl s).send client (by trivial)
  | cons victim victims ih =>
    intro s
    exact Sized.stays (sized_onYield (sized_ejectAndClose victim .banned ih))

theorem Sized.refuses {s : Shared} (client : ClientId) (nonce : UInt64) (code : ErrorCode) (detail : String) :
    Tells s (refuse s client nonce code detail) ∧
      (Room counter (refuse s client nonce code detail) → SizedTodo counter (.done : Todo)) :=
  ⟨tells_refuse s client nonce code detail, fun _ => trivial⟩

theorem sized_ban (client : ClientId) (nonce : UInt64) (f : Fingerprint) (reason : String) (til : Option UInt64) :
    Sized counter (ban client nonce f reason til) := by
  intro s
  unfold ban
  split; · exact Sized.refuses ..
  refine Sized.stays (sized_onYield fun s => ?_)
  split; · exact Sized.refuses ..
  refine Sized.stays (sized_onYield fun s => ?_)
  split; · exact Sized.refuses ..
  split; · exact Sized.refuses ..
  refine Sized.stays (sized_onYield fun s => Sized.stays ?_)
  refine sized_onSaved (fun s => tells_refuse s _ _ _ _) fun s => ?_
  exact sized_ejectVictims client nonce _ s

theorem tells_edited (s : Shared) {client : ClientId} {info : UserInfo} {f : UserInfo → UserInfo}
    (h : (s.user client).map f = some info) : Tells s ((s.modifyInfo client f).broadcast (.userUpdated info) none) := by
  obtain ⟨i, hi, rfl⟩ := Option.map_eq_some_iff.mp h
  obtain ⟨e, he, rfl⟩ := Option.map_eq_some_iff.mp hi
  have hmem : f e.info ∈ (s.modifyInfo client f).users := by
    have hid : e.id = client := Keyed.get_key he
    refine List.mem_map.mpr ⟨{ e with info := f e.info }, ?_, rfl⟩
    refine List.mem_map.mpr ⟨e, Keyed.get_mem he, ?_⟩
    rw [if_pos hid]
  exact (Tells.modifyInfo s client f).broadcast (by exact hmem) none

theorem Sized.replies (s : Shared) (client : ClientId) {m : ServerControl} (hm : Grounded s m) :
    Tells s (s.send client m) ∧ (Room counter (s.send client m) → SizedTodo counter (.done : Todo)) :=
  ⟨(Tells.refl s).send client hm, fun _ => trivial⟩

theorem tells_relayVoice (s : Shared) (client : ClientId) (packet : VoiceUpstream) :
    Tells s (s.relayVoice client packet) := by
  unfold Shared.relayVoice
  repeat' split
  all_goals first | exact .refl s | exact .of_map rfl fun e => by split <;> rfl

theorem tells_postMessage {s t : Shared} (h : Tells s t) (client : ClientId) (m : ChatMessage) (nonce : UInt64) :
    Tells s (postMessage t client m nonce) :=
  (h.send client (by trivial)).broadcastFiltered (by trivial) m.channel (some client)

theorem sized_sendMessage (client : ClientId) (channel : ChannelId) (content : String) (replyTo : Option MessageId)
    (nonce : UInt64) : Sized counter (sendMessage client channel content replyTo nonce) := by
  intro s
  unfold sendMessage
  split; · exact Sized.stays trivial
  split; · exact Sized.stays trivial
  split; · exact Sized.replies s client (by trivial)
  split; · exact Sized.replies s client (by trivial)
  split; · exact Sized.replies s client (by trivial)
  split; · exact Sized.replies s client (by trivial)
  split; · exact Sized.replies s client (by trivial)
  have hbump : Tells s s.nextMessageIdBump.2 := .of_clients rfl
  dsimp only [Shared.buildMessage]
  split
  · exact ⟨tells_postMessage hbump _ _ _, fun _ => trivial⟩
  · exact ⟨hbump, fun _ => sized_onSaved (fun s => (Tells.refl s).send client (by trivial))
      (sized_done fun s => tells_postMessage (.refl s) _ _ _)⟩

theorem sized_plain (client : ClientId) {frame : ClientControl} (hp : frame.plain = true) :
    Sized counter (handleControl client frame) := by
  intro s
  cases frame <;> simp only [handleControl]
  case auth => exact Sized.replies s client (by trivial)
  case ping => exact Sized.replies s client (by trivial)
  case kick nonce target reason =>
    unfold kick
    split
    · exact ⟨tells_refused (authorize_error ‹_›), fun _ => trivial⟩
    · exact sized_ejectAndClose target .kicked (sized_done fun s => (Tells.refl s).send client (by trivial)) s
  case ban nonce f reason til => exact sized_ban client nonce f reason til s
  case unban nonce f =>
    unfold unban
    split; · exact Sized.refuses ..
    split; · exact Sized.refuses ..
    exact Sized.stays (sized_onSaved (fun s => tells_refuse s _ _ _ _)
      (sized_done fun s => (Tells.refl s).send client (by trivial)))
  case listBans nonce =>
    unfold listBans
    split; · exact Sized.refuses ..
    split; · exact Sized.refuses ..
    refine Sized.stays (sized_onLoad fun (r : Option (List BanEntry)) hr s => ?_)
    cases r with
    | some bans => exact Sized.replies s client hr
    | none => exact Sized.refuses ..
  case setServerMute nonce target muted =>
    unfold setServerMute
    split; · exact ⟨tells_refused (authorize_error ‹_›), fun _ => trivial⟩
    split; · exact Sized.refuses ..
    rename_i hs
    obtain ⟨f, -, hinfo, rfl⟩ := Shared.setServerMuted_some hs
    exact ⟨(tells_edited s hinfo).send client (by trivial), fun _ => trivial⟩
  case moveMember nonce target dest =>
    unfold moveMember
    split; · exact ⟨tells_refused (authorize_error ‹_›), fun _ => trivial⟩
    split; · exact Sized.refuses ..
    split; · exact Sized.refuses ..
    split
    · rename_i hm
      obtain ⟨e, -, -, -, rfl⟩ := Shared.forceMove_ok hm
      exact ⟨((Tells.modifyInfo s _ _).broadcast (by trivial) none).send client (by trivial), fun _ => trivial⟩
    · exact Sized.refuses ..
  case joinChannel channel =>
    split
    · rename_i hj
      obtain ⟨e, room, -, -, -, -, -, rfl⟩ := Shared.joinChannel_ok hj
      exact ⟨(Tells.modifyInfo s _ _).broadcast (by trivial) none, fun _ => trivial⟩
    · exact Sized.replies s client (by trivial)
  case leaveChannel => exact ⟨(Tells.modifyInfo s _ _).broadcast (by trivial) none, fun _ => trivial⟩
  case setVoiceState selfMuted selfDeafened =>
    split
    · rename_i hv
      obtain ⟨f, -, hinfo, rfl⟩ := Shared.setVoiceState_some hv
      exact ⟨tells_edited s hinfo, fun _ => trivial⟩
    · exact Sized.stays trivial
  case setNickname nickname =>
    split
    · rename_i hn
      obtain ⟨f, -, hinfo, rfl⟩ := Shared.setNickname_some hn
      exact ⟨tells_edited s hinfo, fun _ => trivial⟩
    · exact Sized.replies s client (by trivial)
  case typing channel =>
    unfold typing
    dsimp only
    split
    · exact ⟨(Tells.refl s).broadcastFiltered (by trivial) _ _, fun _ => trivial⟩
    · exact Sized.stays trivial
  case fetchHistory channel before limit =>
    unfold fetchHistory
    dsimp only
    split; · exact Sized.replies s client (by trivial)
    split; · exact Sized.replies s client (by trivial)
    split; · exact Sized.replies s client (by trivial)
    split; · exact Sized.replies s client (by trivial)
    refine Sized.stays (sized_onLoad fun r _ s => ?_)
    split <;> exact Sized.replies s client (by trivial)
  case editMessage => exact Sized.replies s client (by trivial)
  case deleteMessage => exact Sized.replies s client (by trivial)
  case react => exact Sized.replies s client (by trivial)
  all_goals cases hp

theorem Input.sized (i : Input) : Sized counter i.handler := by
  cases i with
  | connect auth => exact sized_handshake auth
  | control client frame =>
    rcases frame.kinds with ⟨nonce, cmd, rfl⟩ | ⟨nonce, cmd, rfl⟩ | ⟨channel, content, replyTo, nonce, rfl⟩ | hp
    · change Sized counter (handleControl client _)
      rw [cmd.handle_eq]
      exact cmd.sized
    · change Sized counter (handleControl client _)
      rw [cmd.handle_eq]
      exact cmd.sized
    · exact sized_sendMessage client channel content replyTo nonce
    · exact sized_plain client hp
  | voice client packet => exact sized_done fun s => tells_relayVoice s client packet
  | disconnect client =>
    refine sized_done fun s => ?_
    unfold PickleChat.disconnect
    split
    · exact .refl s
    · rename_i info t hr
      obtain rfl : (s.remove client).2 = t := congrArg Prod.snd hr
      exact (Tells.remove s client).broadcast (by trivial) _
  | tick now => exact sized_done fun s => .of_clients rfl

end

/-! ## Runs -/

abbrev ServerEvent := Event Shared Await Await.Reply Nat

/-- Only what reaches the server starts a handler, and only handlers change the state. -/
def FromInput : ServerEvent → Prop
  | .spawn _ h => ∃ i : Input, h = i.handler
  | .outside _ => False
  | _ => True

end PickleChat
