import PickleChat.RoleCommands

/-!
# Clients that are gone

A session goes on reading after its roster entry is gone. What it then sends
must find nothing to act for.
-/

namespace PickleChat

open Async (exec)

def Untouched (s : Shared) (w : World) (r : Shared × World) : Prop :=
  r.1.clients = s.clients ∧ r.1.channels = s.channels ∧ r.1.perms = s.perms ∧ r.2.db = w.db

section
variable {s : Shared} {k : ClientId} (hk : s.client? k = none)
include hk

theorem canGlobally_gone (bits : Permissions) : s.canGlobally k bits = false := by
  unfold Shared.canGlobally
  rw [hk]

theorem can_gone (channel : ChannelId) (bits : Permissions) : s.can k channel bits = false := by
  unfold Shared.can
  rw [hk]

theorem user_gone : s.user k = none := by
  unfold Shared.user
  rw [hk]
  rfl

theorem modify_gone (f : ConnectedClient → ConnectedClient) :
    Keyed.modify ConnectedClient.id k f s.clients = s.clients := by
  unfold Keyed.modify
  refine (List.map_congr_left fun e he => ?_).trans (List.map_id s.clients)
  exact if_neg (Keyed.get_eq_none.mp hk e he)

theorem send_gone (m : ServerControl) : s.send k m = s := by
  unfold Shared.send Shared.sendAll
  rw [modify_gone hk]

theorem refuse_gone (nonce : UInt64) (code : ErrorCode) (detail : String) : refuse s k nonce code detail = s :=
  send_gone hk _

theorem actor_gone (nonce : UInt64) : actor s k nonce = .error s := by
  unfold actor
  simp [canGlobally_gone hk, refuse_gone hk]

theorem authorize_gone (nonce : UInt64) (bit : Permissions) (target : ClientId) :
    authorizeAgainstOnline s k nonce bit target = .error s := by
  unfold authorizeAgainstOnline
  simp [canGlobally_gone hk, refuse_gone hk]

theorem handleControl_gone {frame : ClientControl} (hf : frame ≠ .leaveChannel) :
    handleControl k frame s = (s, .done) := by
  cases frame <;> simp only [handleControl]
  case leaveChannel => exact absurd rfl hf
  case kick => simp [kick, authorize_gone hk]
  case ban => simp [ban, canGlobally_gone hk, refuse_gone hk]
  case unban => simp [unban, canGlobally_gone hk, refuse_gone hk]
  case listBans => simp [listBans, canGlobally_gone hk, refuse_gone hk]
  case setServerMute => simp [setServerMute, authorize_gone hk]
  case moveMember => simp [moveMember, authorize_gone hk]
  case createRole => simp [createRole, actor_gone hk]
  case updateRole => simp [updateRole, actor_gone hk]
  case deleteRole => simp [deleteRole, actor_gone hk]
  case reorderRoles => simp [reorderRoles, actor_gone hk]
  case setMemberRoles => simp [setMemberRoles, actor_gone hk]
  case setChannelOverwrite => simp [setChannelOverwrite, actor_gone hk]
  case deleteChannelOverwrite => simp [deleteChannelOverwrite, actor_gone hk]
  case createChannel => simp [createChannel, canGlobally_gone hk, refuse_gone hk]
  case updateChannel => simp [updateChannel, canGlobally_gone hk, refuse_gone hk]
  case deleteChannel => simp [deleteChannel, canGlobally_gone hk, refuse_gone hk]
  case joinChannel channel =>
    unfold Shared.joinChannel
    cases s.channel channel <;> simp [hk, send_gone hk]
  case setVoiceState => simp [Shared.setVoiceState, user_gone hk]
  case setNickname nickname =>
    have hn : s.setNickname k nickname = none := by
      unfold Shared.setNickname
      split
      · rfl
      · simp [user_gone hk]
    simp [hn, send_gone hk]
  case sendMessage => simp [sendMessage, user_gone hk]
  case typing => simp [typing, can_gone hk]
  case fetchHistory => simp [fetchHistory, can_gone hk, send_gone hk]
  all_goals rw [send_gone hk]

theorem relayVoice_gone (packet : VoiceUpstream) : s.relayVoice k packet = s := by
  unfold Shared.relayVoice
  rw [hk]

theorem leaveChannel_gone : handleControl k .leaveChannel s = (s.deliver fun _ => [.userMoved k none none], .done) := by
  have hs : s.modifyInfo k (fun i => { i with channel := none }) = s := by
    unfold Shared.modifyInfo
    rw [modify_gone hk]
  simp only [handleControl, Shared.leaveChannel, hs, hk, Option.bind_none, Shared.broadcast_none]

/-- A client that is gone changes nothing and reaches nobody, whatever it sends,
as long as it does not leave a channel while others are connected. -/
theorem gone_untouched_iff (perform : (op : Await) → World → op.Reply × World) (w : World) (frame : ClientControl) :
    (Untouched s w (exec perform (handleControl k frame) s w) ∧
        ∀ packet, Untouched s w (s.relayVoice k packet, w)) ↔
      (frame = .leaveChannel → s.clients = []) := by
  have hvoice : ∀ packet, Untouched s w (s.relayVoice k packet, w) := by
    intro packet
    rw [relayVoice_gone hk]
    exact ⟨rfl, rfl, rfl, rfl⟩
  by_cases hf : frame = .leaveChannel
  · subst hf
    unfold exec
    rw [leaveChannel_gone hk]
    constructor
    · intro h _
      have hc := h.1.1
      cases hs : s.clients with
      | nil => rfl
      | cons e es =>
        -- The first entry's queue has grown.
        simp only [Async.Task.run_done, Shared.deliver, hs, List.map_cons, List.cons.injEq] at hc
        have := congrArg (fun e : ConnectedClient => e.control.length) hc.1
        simp [ConnectedClient.push] at this
    · intro hs
      refine ⟨⟨?_, rfl, rfl, rfl⟩, hvoice⟩
      simp [Shared.deliver, hs rfl]
  · unfold exec
    rw [handleControl_gone hk hf]
    exact iff_of_true ⟨⟨rfl, rfl, rfl, rfl⟩, hvoice⟩ fun h => absurd h hf

end

/-- Client 2 has been kicked; client 1 is still there. -/
def goneServer : Shared := exampleServer [exampleRole 0 0 .defaultEveryone] [] [exampleClient 1 1 [] none]

theorem gone_untouched_nickname :
    Untouched goneServer .empty (exec Await.perform (handleControl 2 (.setNickname "n")) goneServer .empty) :=
  ((gone_untouched_iff (k := 2) rfl Await.perform .empty (.setNickname "n")).mpr fun h => by cases h).1

/-- Everybody is told that client 2, which is not there, has left nowhere. -/
theorem gone_leaveChannel_announced : goneServer.client? 2 = none ∧
    ¬ Untouched goneServer .empty (exec Await.perform (handleControl 2 .leaveChannel) goneServer .empty) := by
  refine ⟨rfl, fun h => ?_⟩
  have := h.1
  revert this
  decide +kernel

end PickleChat
