import PickleChat.Delivery
import PickleChat.Moderation
import PickleChat.Resolution

/-!
# Mute and move against a channel's overwrites

`MUTE_MEMBERS` and `MOVE_MEMBERS` are channel-scoped, and an overwrite may name
them. The two commands read the actor's bits without a channel.
-/

namespace PickleChat

/-! ## A bit that stands -/

/-- In a room the bit stands as it does without a channel: the member is above
overwrites, or holds it, sees the room and loses it to no overwrite, or does not
hold it and sees no room in which an overwrite gives it. -/
def BitStands (s : Shared) (i : UserInfo) (room : Channel) (b : Nat) : Prop :=
  let base := basePermissions s.perms.roles i.roles
  let said := verdict room.overwrites i.roles i.fingerprint
  let sees := (said 16).getD (base.has 16) = true
  i.owner = true ∨ base.has 0 = true ∨
    if base.has b = true then sees ∧ said b ≠ some false else ¬ sees ∨ said b ≠ some true

instance decidableBitStands (s : Shared) (i : UserInfo) (room : Channel) (b : Nat) :
    Decidable (BitStands s i room b) := by unfold BitStands; infer_instance

theorem bitStands_iff (s : Shared) (i : UserInfo) (room : Channel) {b : Nat}
    (hb : Permissions.channelScoped.has b = true) :
    BitStands s i room b ↔ ((s.bits i none).has b = true ↔ (s.bits i (some room.overwrites)).has b = true) := by
  unfold BitStands Shared.bits
  cases i.owner with
  | true => simp [resolve_owner]
  | false =>
    rw [resolve_none, resolve_some]
    generalize hbase : basePermissions s.perms.roles i.roles = base
    by_cases h0 : base.has 0 = true
    · simp [h0]
    · have hview := has_channelPermissions_verdict base room.overwrites i.roles i.fingerprint (i := 16) (by decide)
      have hbit := has_channelPermissions_verdict base room.overwrites i.roles i.fingerprint hb
      rw [if_neg h0, if_neg h0]
      by_cases hs : (verdict room.overwrites i.roles i.fingerprint 16).getD (base.has 16) = true
      · rw [if_pos (hview.trans hs), hbit]
        cases hb' : base.has b <;> cases hv : verdict room.overwrites i.roles i.fingerprint b <;>
          simp [h0, hs, hb', hv]
      · rw [if_neg fun hv => hs (hview.symm.trans hv)]
        cases hb' : base.has b <;> simp [h0, hs, hb']

/-! ## Past the first check -/

def bitRefusal (s : Shared) (actor : ClientId) (nonce : UInt64) : Shared × Todo :=
  (refuse s actor nonce .notPermitted "you may not do that", .done)

/-- The command goes on to rank, destination and effect. -/
def AcceptsBit (s : Shared) (actor : ClientId) (nonce : UInt64) (h : Handler) : Prop := h s ≠ bitRefusal s actor nonce

section
variable {s : Shared} {actor : ClientId} {nonce : UInt64} {entry : ConnectedClient}

/-- The answer that a connected client got last tells refusals apart. -/
theorem send_ne_bitRefusal (ha : s.client? actor = some entry) {t : Shared} {todo : Todo} {m : ServerControl}
    (hm : m ≠ .commandFailed nonce .notPermitted "you may not do that") :
    (t.send actor m, todo) ≠ bitRefusal s actor nonce := by
  intro he
  have hlast := congrArg (fun r : Shared × Todo => (r.1.queue actor).getLast?) he
  have hid := Shared.client?_id ha
  simp only [bitRefusal, refuse, Shared.send_eq, Shared.queue_deliver, ha, Option.map_some, Option.getD_some, hid,
    if_true, List.getLast?_append, List.getLast?_singleton, Option.some_or] at hlast
  cases hc : t.client? actor with
  | none => simp [hc, Shared.queue] at hlast
  | some e =>
    simp only [hc, Option.map_some, Option.getD_some, Shared.client?_id hc, if_true, List.getLast?_singleton,
      Option.some_or, Option.some.injEq] at hlast
    exact hm hlast

variable (nonce) in
theorem authorize_of_bit {bit : Permissions} {target : ClientId} {t : ConnectedClient}
    (hcan : s.canGlobally actor bit = true)
    (ht : s.client? target = some t) :
    (∃ f, authorizeAgainstOnline s actor nonce bit target = .ok f) ∨
      authorizeAgainstOnline s actor nonce bit target =
        .error (refuse s actor nonce .notPermitted "their highest role is not below yours") := by
  unfold authorizeAgainstOnline Shared.fingerprintOf
  rw [hcan, ht]
  simp only [Bool.not_true, Bool.false_eq_true, if_false, Option.map_some]
  split
  · exact .inr rfl
  · exact .inl ⟨_, rfl⟩

theorem authorize_without_bit {bit : Permissions} {target : ClientId} (hcan : ¬ s.canGlobally actor bit = true) :
    authorizeAgainstOnline s actor nonce bit target =
      .error (refuse s actor nonce .notPermitted "you may not do that") := by
  unfold authorizeAgainstOnline
  simp [hcan]

theorem setServerMute_acceptsBit {target : ClientId} {t : ConnectedClient} (ha : s.client? actor = some entry)
    (ht : s.client? target = some t) (muted : Bool) :
    AcceptsBit s actor nonce (setServerMute actor nonce target muted) ↔ s.canGlobally actor .muteMembers = true := by
  constructor
  · intro h
    by_contra hcan
    apply h
    unfold setServerMute bitRefusal
    rw [authorize_without_bit hcan]
  · intro hcan
    unfold AcceptsBit setServerMute
    rcases authorize_of_bit nonce hcan ht with ⟨f, he⟩ | he
    · rw [he]
      dsimp only
      split
      · exact send_ne_bitRefusal ha (by simp)
      · exact send_ne_bitRefusal ha (by simp)
    · rw [he]
      exact send_ne_bitRefusal ha (by simp)

theorem moveMember_acceptsBit {target : ClientId} {t : ConnectedClient} (ha : s.client? actor = some entry)
    (ht : s.client? target = some t) (dest : Option ChannelId) :
    AcceptsBit s actor nonce (moveMember actor nonce target dest) ↔ s.canGlobally actor .moveMembers = true := by
  constructor
  · intro h
    by_contra hcan
    apply h
    unfold moveMember bitRefusal
    rw [authorize_without_bit hcan]
  · intro hcan
    unfold AcceptsBit moveMember
    rcases authorize_of_bit nonce hcan ht with ⟨f, he⟩ | he
    · rw [he]
      dsimp only
      split
      · exact send_ne_bitRefusal ha (by simp)
      · split
        · exact send_ne_bitRefusal ha (by simp)
        · split
          · exact send_ne_bitRefusal ha (by simp)
          · exact send_ne_bitRefusal ha (by simp)
    · rw [he]
      exact send_ne_bitRefusal ha (by simp)

/-- For any room, so for the one the target stands in: mute and move let through
those whose bits in the room hold `MUTE_MEMBERS` and `MOVE_MEMBERS`, exactly when
the room's overwrites leave the bit as it is without them. -/
theorem moderation_bits_iff {target : ClientId} {t : ConnectedClient} (ha : s.client? actor = some entry)
    (ht : s.client? target = some t) (room : Channel) (muted : Bool) (dest : Option ChannelId) :
    ((AcceptsBit s actor nonce (setServerMute actor nonce target muted) ↔
        (s.bits entry.info (some room.overwrites)).contains .muteMembers = true) ↔ BitStands s entry.info room 22) ∧
    ((AcceptsBit s actor nonce (moveMember actor nonce target dest) ↔
        (s.bits entry.info (some room.overwrites)).contains .moveMembers = true) ↔ BitStands s entry.info room 23) := by
  have hglobal : ∀ bit, s.canGlobally actor bit = (s.bits entry.info none).contains bit := by
    intro bit
    unfold Shared.canGlobally
    rw [ha]
  rw [setServerMute_acceptsBit ha ht, moveMember_acceptsBit ha ht, hglobal, hglobal]
  have hmute : ∀ p : Permissions, p.contains .muteMembers = p.has 22 := Permissions.contains_bit (by decide)
  have hmove : ∀ p : Permissions, p.contains .moveMembers = p.has 23 := Permissions.contains_bit (by decide)
  rw [hmute, hmute, hmove, hmove]
  exact ⟨(bitStands_iff s entry.info room (by decide)).symm, (bitStands_iff s entry.info room (by decide)).symm⟩

end

/-- Client 1 moderates; client 2 stands in room 5, where an overwrite takes the two bits from client 1. -/
def moderatedServer : Shared :=
  exampleServer [exampleRole 0 0 .defaultEveryone, exampleRole 1 1 (.union .muteMembers .moveMembers)]
    [{ id := 5, parent := none, name := "five", topic := "", kind := .voice, maxUsers := none, order := 0,
       overwrites := [⟨.member (.rep 1), .none, .union .muteMembers .moveMembers⟩] },
     { id := 6, parent := none, name := "six", topic := "", kind := .voice, maxUsers := none, order := 1,
       overwrites := [⟨.member (.rep 1), .none, .sendMessages⟩] }]
    [exampleClient 1 1 [1] none, exampleClient 2 2 [] (some 5), exampleClient 3 3 [] (some 6)]

theorem moderation_bits_iff_six :
    (AcceptsBit moderatedServer 1 7 (setServerMute 1 7 3 true) ↔
      (moderatedServer.bits (exampleClient 1 1 [1] none).info
        (some [⟨.member (.rep 1), .none, .sendMessages⟩])).contains
        .muteMembers = true) := by
  have ha : moderatedServer.client? 1 = some (exampleClient 1 1 [1] none) := rfl
  have ht : moderatedServer.client? 3 = some (exampleClient 3 3 [] (some 6)) := rfl
  let room : Channel :=
    { id := 6, parent := none, name := "six", topic := "", kind := .voice, maxUsers := none, order := 1,
      overwrites := [⟨.member (.rep 1), .none, .sendMessages⟩] }
  exact (moderation_bits_iff ha ht room true none).1.mpr (by decide +kernel)

/-- The overwrite that denies the bits in room 5 has no effect there. -/
theorem moderation_ignores_overwrite :
    ¬ (AcceptsBit moderatedServer 1 7 (setServerMute 1 7 2 true) ↔
      (moderatedServer.bits (exampleClient 1 1 [1] none).info
        (some [⟨.member (.rep 1), .none, .union .muteMembers .moveMembers⟩])).contains .muteMembers = true) ∧
    ¬ (AcceptsBit moderatedServer 1 7 (moveMember 1 7 2 none) ↔
      (moderatedServer.bits (exampleClient 1 1 [1] none).info
        (some [⟨.member (.rep 1), .none, .union .muteMembers .moveMembers⟩])).contains .moveMembers = true) := by
  have ha : moderatedServer.client? 1 = some (exampleClient 1 1 [1] none) := rfl
  have ht : moderatedServer.client? 2 = some (exampleClient 2 2 [] (some 5)) := rfl
  rw [setServerMute_acceptsBit ha ht, moveMember_acceptsBit ha ht]
  decide +kernel

end PickleChat
