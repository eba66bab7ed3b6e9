import PickleChat.ChannelCommands
import PickleChat.Escalation

/-!
# The subset rule of a channel

An overwrite command replaces or removes the whole pair stored for its target.
Whatever it changes for anyone is then a bit it names or a bit that was stored,
and only the bits it names are checked against what the actor holds.
-/

namespace PickleChat

open Async (exec)

/-! ## What a target's overwrite says about one bit -/

/-- Whether the overwrite of `t` allows bit `i`, and whether it denies it. -/
def marks (ows : List Overwrite) (t : OverwriteTarget) (i : Nat) : Bool × Bool :=
  ((Keyed.get Overwrite.target t ows).map fun o => ((channelBits o.allow).has i, (channelBits o.deny).has i)).getD
    (false, false)

theorem has_channelBits (p : Permissions) (i : Nat) :
    (channelBits p).has i = (p.has i && Permissions.channelScoped.has i) := Permissions.has_intersect ..

theorem has_applyOverwrite (p : Permissions) (ows : List Overwrite) (t : OverwriteTarget) (i : Nat) :
    (applyOverwrite p (Keyed.get Overwrite.target t ows)).has i =
      (p.has i && !(marks ows t i).2 || (marks ows t i).1) := by
  unfold marks
  cases Keyed.get Overwrite.target t ows with
  | none => simp [applyOverwrite]
  | some o => simp [applyOverwrite, has_channelBits]

theorem any_scoped (ows : List Overwrite) (g : List RoleId) (i : Nat) :
    (anyRoleOverwrite ows g Overwrite.deny i && Permissions.channelScoped.has i) =
        (g.any fun id => (marks ows (.role id) i).2) ∧
      (anyRoleOverwrite ows g Overwrite.allow i && Permissions.channelScoped.has i) =
        g.any fun id => (marks ows (.role id) i).1 := by
  unfold anyRoleOverwrite overwriteForRole marks
  induction g with
  | nil => simp
  | cons id g ih =>
    simp only [List.any_cons, Bool.and_or_distrib_right, ih]
    cases Keyed.get Overwrite.target (.role id) ows <;> simp [has_channelBits]

theorem channelPermissions_differs {base : Permissions} {ows ows' : List Overwrite} {g : List RoleId}
    {m : Fingerprint} {i : Nat}
    (h : (channelPermissions base ows g m).has i ≠ (channelPermissions base ows' g m).has i) :
    ∃ t, marks ows t i ≠ marks ows' t i := by
  by_contra hsame
  simp only [not_exists, not_not] at hsame
  apply h
  rw [has_channelPermissions, has_channelPermissions]
  unfold overwriteForMember overwriteForRole
  simp only [has_applyOverwrite, has_applyBits, (has_roleOverwrites ..).1, (has_roleOverwrites ..).2, any_scoped, hsame]

/-- Two sets of overwrites show somebody different bits only where they say
different things, of the bit itself or of whether the channel is seen at all. -/
theorem resolve_differs {roles : List Role} {g : List RoleId} {m : Fingerprint} {owner : Bool}
    {ows ows' : List Overwrite} {i : Nat}
    (h : (resolve roles g m owner (some ows)).has i ≠ (resolve roles g m owner (some ows')).has i) :
    (∃ t, marks ows t i ≠ marks ows' t i) ∨
      ((resolve roles g m owner (some ows)).has 16 ≠ (resolve roles g m owner (some ows')).has 16 ∧
        ∃ t, marks ows t 16 ≠ marks ows' t 16) := by
  cases owner with
  | true => exact absurd rfl h
  | false =>
  rw [resolve_some, resolve_some] at h ⊢
  by_cases hadmin : (basePermissions roles g).has 0 = true
  · rw [if_pos hadmin, if_pos hadmin] at h
    exact absurd rfl h
  rw [if_neg hadmin, if_neg hadmin] at h ⊢
  have hseen : ∀ p : Permissions, (if p.has 16 = true then p else .none).has 16 = p.has 16 := by
    intro p
    by_cases hp : p.has 16 = true <;> simp [hp]
  rw [hseen, hseen]
  by_cases hv : (channelPermissions (basePermissions roles g) ows g m).has 16 =
      (channelPermissions (basePermissions roles g) ows' g m).has 16
  · rw [hv] at h
    split at h
    · exact .inl (channelPermissions_differs h)
    · exact absurd rfl h
  · exact .inr ⟨hv, channelPermissions_differs hv⟩

/-! ## The rule -/

/-- What a member with these grants holds in a channel. -/
def Shared.bitsIn (s : Shared) (channel : ChannelId) (g : List RoleId) (m : Fingerprint) (owner : Bool) : Permissions :=
  match s.channel channel with
  | none => .none
  | some c => resolve s.perms.roles g m owner (some c.overwrites)

/-- Whatever changes in `channel` for anyone, whatever their grants, is a bit of
`mine`. A channel that appears or disappears changes `VIEW_CHANNEL` alone. -/
def TogglesOnly (s s' : Shared) (channel : ChannelId) (mine : Permissions) : Prop :=
  ∀ g m owner i, (s.bitsIn channel g m owner).has i ≠ (s'.bitsIn channel g m owner).has i →
    mine.has i = true ∨
      ((s.bitsIn channel g m owner).contains .viewChannel ≠ (s'.bitsIn channel g m owner).contains .viewChannel ∧
        mine.contains .viewChannel = true)

/-- The overwrite commands: the channel, the target and the bits they name. -/
def ChannelCommand.named : ChannelCommand → Option (ChannelId × OverwriteTarget × Permissions)
  | setOverwrite channel target allow deny => some (channel, target, channelBits (allow.union deny))
  | deleteOverwrite channel target => some (channel, target, .none)
  | _ => none

/-- The pair stored for the target sets no bit beyond those named and `mine`. -/
def ReplacesHeld (s : Shared) (channel : ChannelId) (target : OverwriteTarget) (named mine : Permissions) : Prop :=
  ∀ c o, s.channel channel = some c → Keyed.get Overwrite.target target c.overwrites = some o →
    (mine.union named).contains (channelBits (o.allow.union o.deny)) = true

section
variable {s : Shared} {channel : ChannelId} {target : OverwriteTarget} {named mine : Permissions}

theorem togglesOnly_of_replaced {s' : Shared} {c c' : Channel} (hc : s.channel channel = some c)
    (hc' : s'.channel channel = some c') (hroles : s'.perms.roles = s.perms.roles)
    (hother : ∀ t, t ≠ target → Keyed.get Overwrite.target t c'.overwrites = Keyed.get Overwrite.target t c.overwrites)
    (hnew : ∀ o, Keyed.get Overwrite.target target c'.overwrites = some o →
      ∀ i, (channelBits (o.allow.union o.deny)).has i = true → named.has i = true)
    (hnamed : ∀ i, named.has i = true → mine.has i = true) (hold : ReplacesHeld s channel target named mine) :
    TogglesOnly s s' channel mine := by
  have hmarks : ∀ i, (∃ t, marks c.overwrites t i ≠ marks c'.overwrites t i) → mine.has i = true := by
    intro i ⟨t, ht⟩
    by_cases htarget : t = target
    · subst htarget
      by_contra hi
      apply ht
      have hi : mine.has i = false := by simpa using hi
      have hn : named.has i = false := by
        cases hn : named.has i with
        | false => rfl
        | true => rw [hnamed i hn] at hi; cases hi
      have unset : ∀ ows, (∀ o, Keyed.get Overwrite.target t ows = some o →
          (channelBits (o.allow.union o.deny)).has i = false) → marks ows t i = (false, false) := by
        intro ows h
        unfold marks
        cases hg : Keyed.get Overwrite.target t ows with
        | none => rfl
        | some o =>
          have := h o hg
          simp only [has_channelBits, Permissions.has_union, Bool.and_or_distrib_right, Bool.or_eq_false_iff] at this
          simp [has_channelBits, this]
      rw [unset, unset]
      · intro o ho
        by_contra hs
        have := hnew o ho i (by simpa using hs)
        rw [hn] at this; cases this
      · intro o ho
        by_contra hs
        have := Permissions.has_of_contains (hold c o hc ho) (i := i) (by simpa using hs)
        rw [Permissions.has_union, hi, hn] at this; cases this
    · exact absurd (by unfold marks; rw [hother t htarget]) ht
  intro g m owner i hdiff
  simp only [Shared.bitsIn, hc, hc', hroles, Permissions.contains_viewChannel] at hdiff ⊢
  exact (resolve_differs hdiff).imp (hmarks i) fun ⟨hv, h16⟩ => ⟨hv, hmarks 16 h16⟩

theorem Shared.can_channel {client : ClientId} {bits : Permissions} (h : s.can client channel bits = true) :
    ∃ c, s.channel channel = some c := by
  unfold Shared.can at h
  split at h
  · cases h
  · split at h
    · cases h
    · exact ⟨_, ‹_›⟩

theorem Shared.modifyChannel_channel {c : Channel} (hc : s.channel channel = some c) {f : Channel → Channel}
    (hf : ∀ c, (f c).id = c.id) : (s.modifyChannel channel f).channel channel = some (f c) := by
  unfold Shared.modifyChannel Shared.channel at *
  rw [Keyed.get_modify hf, if_pos rfl, hc]
  rfl

end

section
variable {perform : (op : Await) → World → op.Reply × World} {s : Shared} {w : World} {client : ClientId}
  {nonce : UInt64}

/-- An acknowledged overwrite command of a manager who is neither owner nor
administrator toggles only what the manager holds in the channel, where the
pair it replaces sets nothing else. -/
theorem togglesOnly_of_replacesHeld {cmd : ChannelCommand} {e : ConnectedClient} {channel : ChannelId}
    {target : OverwriteTarget} {named : Permissions} (hcmd : cmd.named = some (channel, target, named))
    (he : s.client? client = some e) (howner : s.isOwner e.info.fingerprint = false)
    (hplain : (s.perms.base e.info.fingerprint).contains .administrator = false)
    (hack : Acked s (exec perform (cmd.handle client nonce) s w).1 client nonce)
    (hold : ReplacesHeld s channel target named
      (s.bitsIn channel (s.perms.grants e.info.fingerprint) e.info.fingerprint false)) :
    TogglesOnly s (exec perform (cmd.handle client nonce) s w).1 channel
      (s.bitsIn channel (s.perms.grants e.info.fingerprint) e.info.fingerprint false) := by
  obtain ⟨change, hp, hexec⟩ := ChannelCommand.acked hack
  rw [hexec]
  cases hp with
  | @setOverwrite _ _ allow deny a ha hview _ _ hwithin =>
    cases hcmd
    obtain ⟨c, hc⟩ := Shared.can_channel hview
    have hnamed : ∀ i, (channelBits (allow.union deny)).has i = true →
        (s.bitsIn channel (s.perms.grants e.info.fingerprint) e.info.fingerprint false).has i = true := by
      obtain ⟨-, e', he', rfl⟩ := actor_ok ha
      obtain rfl : e = e' := Option.some.inj (he.symm.trans he')
      rw [howner] at hwithin
      obtain ⟨e', c', he', hc', hmine⟩ := hwithin rfl hplain
      obtain rfl : e = e' := Option.some.inj (he.symm.trans he')
      obtain rfl : c = c' := Option.some.inj (hc.symm.trans hc')
      intro i hi
      unfold Shared.bitsIn
      rw [hc]
      refine Permissions.has_of_contains hmine ?_
      simpa [has_channelBits, Bool.and_or_distrib_right] using hi
    refine togglesOnly_of_replaced hc (Shared.modifyChannel_channel hc fun _ => rfl) rfl (fun t ht => ?_)
      (fun o ho i hi => ?_) hnamed hold
    · rw [Keyed.get_put, if_neg ht]
    · rw [Keyed.get_put, if_pos rfl] at ho
      cases ho
      simpa [has_channelBits, Bool.and_or_distrib_right, Bool.and_assoc] using hi
  | @deleteOverwrite _ _ a ha hview =>
    cases hcmd
    obtain ⟨c, hc⟩ := Shared.can_channel hview
    refine togglesOnly_of_replaced hc (Shared.modifyChannel_channel hc fun _ => rfl) rfl (fun t ht => ?_)
      (fun o ho => ?_) (fun i hi => ?_) hold
    · rw [Keyed.get_erase, if_neg ht]
    · rw [Keyed.get_erase, if_pos rfl] at ho
      cases ho
    · rw [Permissions.has_none] at hi
      cases hi
  | create | update | delete => cases hcmd

end

/-- Client 1 manages roles. Someone holds `MANAGE_MESSAGES` in channel 5 by an
overwrite of their own. -/
def overwriteServer : Shared :=
  exampleServer [exampleRole 0 0 .defaultEveryone, exampleRole 2 2 .manageRoles]
    [{ id := 5, parent := none, name := "five", topic := "", kind := .text, maxUsers := none, order := 0,
       overwrites := [⟨.member (.rep 9), .manageMessages, .none⟩, ⟨.member (.rep 8), .none, .speak⟩] }]
    [exampleClient 1 1 [2] none]

theorem togglesOnly_of_replacesHeld_delete :
    TogglesOnly overwriteServer
      (exec Await.perform (ChannelCommand.handle 1 7 (.deleteOverwrite 5 (.member (.rep 8)))) overwriteServer .empty).1
      5 (overwriteServer.bitsIn 5 [2] (.rep 1) false) :=
  togglesOnly_of_replacesHeld (e := exampleClient 1 1 [2] none) rfl (by decide +kernel) rfl (by decide +kernel)
    (by decide +kernel) (by
      intro c o hc ho
      cases hc
      cases ho
      decide +kernel)

/-- Client 1, no owner and no administrator, is acknowledged, and a bit that it
does not hold is toggled. -/
def TogglesUnheld (cmd : ChannelCommand) : Prop :=
  let s' := (exec Await.perform (cmd.handle 1 7) overwriteServer .empty).1
  overwriteServer.isOwner (.rep 1) = false ∧
    (overwriteServer.perms.base (.rep 1)).contains .administrator = false ∧ Acked overwriteServer s' 1 7 ∧
    ¬ TogglesOnly overwriteServer s' 5 (overwriteServer.bitsIn 5 (overwriteServer.perms.grants (.rep 1)) (.rep 1) false)

/-- Neither replacing the pair of somebody who manages messages nor deleting it
asks for `MANAGE_MESSAGES`. -/
theorem overwrite_toggles_unheld : TogglesUnheld (.setOverwrite 5 (.member (.rep 9)) .none .none) ∧
    TogglesUnheld (.deleteOverwrite 5 (.member (.rep 9))) := by
  constructor
  all_goals
    refine ⟨rfl, by decide +kernel, by decide +kernel, fun h => ?_⟩
    have := h [] (.rep 9) false 19 (by decide +kernel)
    revert this
    decide +kernel

end PickleChat
