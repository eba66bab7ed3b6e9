import PickleChat.Traffic
import PickleChat.Voice

/-!
# Who hears a voice frame

`relay_voice` against its purpose: a frame of somebody who may speak in the room
they stand in goes to everyone else there who listens, under the speaker's id.
-/

namespace PickleChat

def ListensIn (s : Shared) (client : ClientId) (channel : ChannelId) : Prop :=
  ∃ e, s.client? client = some e ∧ e.info.channel = some channel ∧ e.info.voice.selfDeafened = false

def HearsVoice (s : Shared) (sender client : ClientId) : Prop :=
  client ≠ sender ∧ ∃ channel, SpeaksIn s sender channel ∧ ListensIn s client channel

def ConnectedClient.quiet (e : ConnectedClient) : ConnectedClient := { e with datagrams := [] }

def Shared.quiet (s : Shared) : Shared := { s with clients := s.clients.map ConnectedClient.quiet }

section
variable {s : Shared} {sender : ClientId} {channel : ChannelId} {packet : VoiceUpstream}

theorem ConnectedClient.hear_quiet (d : VoiceDownstream) (e : ConnectedClient) :
    (e.hear sender channel d).quiet = e.quiet := by
  unfold ConnectedClient.hear
  split <;> rfl

theorem voice_of_speaks (h : SpeaksIn s sender channel) (client : ClientId) :
    (s.relayVoice sender packet).voice client =
      (((s.client? client).map (ConnectedClient.hear sender channel (packet.intoDownstream sender))).map
        ConnectedClient.datagrams).getD [] := by
  unfold Shared.voice
  rw [client?_of_map (by rw [relayVoice_of_speaks h]) (fun e => e.hear_id ..)]

/-- A frame reaches exactly those who are to hear it, once and under the sender's
id, and nothing else changes. -/
theorem relayVoice_exact (s : Shared) (sender : ClientId) (packet : VoiceUpstream) :
    (∀ client, HearsVoice s sender client →
      (s.relayVoice sender packet).voice client = s.voice client ++ [packet.intoDownstream sender]) ∧
    (∀ client, ¬ HearsVoice s sender client → (s.relayVoice sender packet).voice client = s.voice client) ∧
    (∀ datagram, VoiceUpstream.decode datagram = .ok packet →
      VoiceDownstream.decode (packet.intoDownstream sender).encode =
        .ok ⟨sender, packet.seq, packet.flags, packet.payload⟩) ∧
    (s.relayVoice sender packet).quiet = s.quiet := by
  refine ⟨?_, ?_, fun _ h => VoiceDownstream.decode_encode (VoiceUpstream.payload_of_decode h), ?_⟩
  · rintro client ⟨hne, channel, hspeaks, e, he, hchannel, hdeaf⟩
    have hid : e.id ≠ sender := fun h => hne ((Keyed.get_key he).symm.trans h)
    rw [voice_of_speaks hspeaks]
    simp [Shared.voice, he, ConnectedClient.hear, hid, hchannel, hdeaf]
  · intro client hnot
    by_cases hspeaks : ∃ channel, SpeaksIn s sender channel
    · obtain ⟨channel, hspeaks⟩ := hspeaks
      rw [voice_of_speaks hspeaks, Shared.voice]
      cases he : s.client? client with
      | none => rfl
      | some e =>
        have hout : e.id = sender ∨ e.info.channel ≠ some channel ∨ e.info.voice.selfDeafened = true := by
          by_contra hin
          rw [not_or, not_or, Decidable.not_not, Bool.not_eq_true] at hin
          exact hnot ⟨fun h => hin.1 ((Keyed.get_key he).trans h), channel, hspeaks, e, he, hin.2.1, hin.2.2⟩
        simp [ConnectedClient.hear, hout]
    · rw [relayVoice_of_silent fun channel h => hspeaks ⟨channel, h⟩]
  · by_cases hspeaks : ∃ channel, SpeaksIn s sender channel
    · obtain ⟨channel, hspeaks⟩ := hspeaks
      rw [relayVoice_of_speaks hspeaks]
      unfold Shared.quiet
      congr 1
      rw [List.map_map]
      exact List.map_congr_left fun e _ => ConnectedClient.hear_quiet _ e
    · rw [relayVoice_of_silent fun channel h => hspeaks ⟨channel, h⟩]

end

end PickleChat
