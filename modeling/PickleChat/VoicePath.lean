import PickleChat.ArrivalOrder
import PickleChat.Capture
import PickleChat.Lib.Pipeline
import PickleChat.Relay
import PickleChat.Reordering

/-!
# A voice on its way

From the microphone of a speaker through the server to the loudspeaker of a
listener, with datagrams lost and overtaken on both ways and everybody else at
work. What the listener is played under the speaker's name is what the speaker's
microphone caught, each frame once.
-/

namespace PickleChat

open Stream
open Async (Run)
open JitterBuffer (frames)
open Pipeline (Line Event Thinned)

/-! ## Datagrams -/

/-- What a datagram says, accepted or not. -/
def VoiceUpstream.read (datagram : List UInt8) : VoiceUpstream :=
  ⟨fromLe (slice datagram 1 5), datagram.getD 5 0, datagram.drop upstreamHeaderLen⟩

def VoiceDownstream.read (datagram : List UInt8) : VoiceDownstream :=
  ⟨fromLe (slice datagram 1 5), fromLe (slice datagram 5 9), datagram.getD 9 0, datagram.drop downstreamHeaderLen⟩

def VoiceDownstream.packet (p : VoiceDownstream) : VoicePacket (List UInt8) := ⟨p.sender, p.seq, p.flags, p.payload⟩

/-- What `send_voice` sends. -/
def sendVoice (frame : CapturedFrame (List UInt8)) : List UInt8 :=
  VoiceUpstream.encode ⟨frame.seq, frame.flags, frame.payload⟩

def VoicePacket.Opens {β : Type} (packet : VoicePacket β) : Prop := packet.startsBurst = true

section
variable {datagram : List UInt8}

theorem VoiceUpstream.read_encode (p : VoiceUpstream) : read p.encode = p := by
  have hseq : slice p.encode 1 5 = u32Le p.seq := rfl
  unfold read
  rw [hseq, fromLe_u32Le]
  rfl

theorem VoiceDownstream.read_encode (p : VoiceDownstream) : read p.encode = p := by
  have hsender : slice p.encode 1 5 = u32Le p.sender := rfl
  have hseq : slice p.encode 5 9 = u32Le p.seq := rfl
  unfold read
  rw [hsender, hseq, fromLe_u32Le, fromLe_u32Le]
  rfl

theorem VoiceUpstream.read_of_decode {p : VoiceUpstream} (h : decode datagram = .ok p) : read datagram = p := by
  rw [← (encode_decode h).2, read_encode]

theorem VoiceDownstream.read_of_decode {p : VoiceDownstream} (h : decode datagram = .ok p) : read datagram = p := by
  rw [← (encode_decode h).2, read_encode]

end

/-! ## The path -/

def Shared.utters (s : Shared) (op : Operation) (k : ClientId) : List VoiceDownstream :=
  ((s.operate op).voice k).drop (s.voice k).length

/-- What has been done at the microphone, what is on the way to the server, the server, what is on the way
to the listener, and what has been done at its mixer. -/
structure VoicePath (α : Type) where
  captured : List (CaptureOp α)
  up : List (List UInt8)
  server : Shared
  down : List (List UInt8)
  played : List (MixerOp (List UInt8) α)

/-- A datagram is named by how many are on the way before it. -/
inductive VoiceMove (α : Type) where
  | capture (op : CaptureOp α)
  | loseUp (n : Nat)
  | relay (n : Nat)
  | operate (op : Operation)
  | loseDown (n : Nat)
  | accept (n : Nat)
  | play (op : MixerOp (List UInt8) α)

section
variable {δ α ε ℓ : Type} (l : Loudness α ℓ) (x : OpusEncoder ε α (List UInt8)) (mic : Capture ε α ℓ)
  (speaker listener : ClientId)

namespace VoicePath

def start (server : Shared) : VoicePath α := ⟨[], [], server, [], []⟩

def operate (v : VoicePath α) (op : Operation) : VoicePath α :=
  { v with server := v.server.operate op, down := v.down ++ (v.server.utters op listener).map VoiceDownstream.encode }

/-- The bodies of the capture pump, of the two datagram readers and of the event pump. -/
def next (v : VoicePath α) : VoiceMove α → VoicePath α
  | .capture op =>
    { v with
      captured := v.captured ++ [op]
      up := v.up ++ ((mic.run l x v.captured).exec l x op).1.toList.map sendVoice }
  | .loseUp n => { v with up := v.up.eraseIdx n }
  | .relay n =>
    match v.up[n]? with
    | none => v
    | some datagram =>
      match VoiceUpstream.decode datagram with
      | .ok packet => { v with up := v.up.eraseIdx n }.operate listener (.relayVoice speaker packet)
      | .error _ => { v with up := v.up.eraseIdx n }
  | .operate op => v.operate listener op
  | .loseDown n => { v with down := v.down.eraseIdx n }
  | .accept n =>
    match v.down[n]? with
    | none => v
    | some datagram =>
      match VoiceDownstream.decode datagram with
      | .ok packet => { v with down := v.down.eraseIdx n, played := v.played ++ [.accept packet.packet] }
      | .error _ => { v with down := v.down.eraseIdx n }
  | .play op => { v with played := v.played ++ [op] }

def Step (v : VoicePath α) (move : VoiceMove α) (v' : VoicePath α) : Prop := v' = v.next l x mic speaker listener move

def said (v : VoicePath α) : List (CapturedFrame (List UInt8)) := mic.emitted l x v.captured

/-- Only the speaker's datagrams are relayed as the speaker's, and only what has come is taken for voice. -/
def Fair (_ : VoicePath α) : VoiceMove α → Prop
  | .operate op => ∀ packet, op ≠ .relayVoice speaker packet
  | .play op => ∀ packet, op ≠ .accept packet
  | _ => True

def upward (datagram : List UInt8) : VoicePacket (List UInt8) :=
  ((VoiceUpstream.read datagram).intoDownstream speaker).packet

/-- Nothing is overtaken, and the first frame of a burst is neither lost nor kept from the listener. -/
def InOrder (v : VoicePath α) : VoiceMove α → Prop
  | .loseUp n => ∀ datagram ∈ v.up[n]?, ¬ (upward speaker datagram).Opens
  | .relay n => n = 0 ∧ ∀ datagram ∈ v.up[n]?, (upward speaker datagram).Opens → HearsVoice v.server speaker listener
  | .loseDown n => ∀ datagram ∈ v.down[n]?, (VoiceDownstream.read datagram).sender = speaker →
      ¬ (VoiceDownstream.read datagram).packet.Opens
  | .accept n => n = 0
  | _ => True

/-- The speaker's datagrams are all accepted where they come. -/
structure Sound (v : VoicePath α) : Prop where
  up : ∀ datagram ∈ v.up, ∃ packet, VoiceUpstream.decode datagram = .ok packet
  down : ∀ datagram ∈ v.down, (VoiceDownstream.read datagram).sender = speaker →
    ∃ packet, VoiceDownstream.decode datagram = .ok packet

/-! ## The path as a line -/

def downward (down : List (List UInt8)) : List (VoicePacket (List UInt8)) :=
  (down.map fun datagram => (VoiceDownstream.read datagram).packet).filter (·.sender = speaker)

def line (v : VoicePath α) : Line (VoicePacket (List UInt8)) :=
  ⟨(v.said l x mic).map (·.packet speaker),
    [arrivals speaker v.played, downward speaker v.down, v.up.map (upward speaker)]⟩

end VoicePath

end

/-! ## One move -/

theorem Capture.emitted_append {α β ε ℓ : Type} (l : Loudness α ℓ) (x : OpusEncoder ε α β) (c : Capture ε α ℓ)
    (ops : List (CaptureOp α)) (op : CaptureOp α) :
    c.emitted l x (ops ++ [op]) = c.emitted l x ops ++ ((c.run l x ops).exec l x op).1.toList := by
  induction ops generalizing c with
  | nil => simp [emitted, run]
  | cons op' ops ih =>
    rw [List.cons_append, emitted, ih, emitted, List.append_assoc]
    rfl

section
variable {s : Shared} {speaker k : ClientId}

/-- A frame of the speaker is queued for whoever is to hear it. -/
theorem Shared.utters_relayVoice (s : Shared) (speaker k : ClientId) (packet : VoiceUpstream) :
    HearsVoice s speaker k ∧ s.utters (.relayVoice speaker packet) k = [packet.intoDownstream speaker] ∨
      ¬ HearsVoice s speaker k ∧ s.utters (.relayVoice speaker packet) k = [] := by
  by_cases hhears : HearsVoice s speaker k
  · refine .inl ⟨hhears, ?_⟩
    obtain ⟨hne, channel, hspeaks, e, he, hchannel, hdeaf⟩ := hhears
    have hid : e.id ≠ speaker := fun h => hne ((Keyed.get_key he).symm.trans h)
    simp only [utters, operate]
    rw [voice_of_speaks hspeaks]
    simp [Shared.voice, he, ConnectedClient.hear, hid, hchannel, hdeaf]
  · refine .inr ⟨hhears, ?_⟩
    simp only [utters, operate]
    by_cases hspeaks : ∃ channel, SpeaksIn s speaker channel
    · obtain ⟨channel, hspeaks⟩ := hspeaks
      rw [voice_of_speaks hspeaks, Shared.voice]
      cases he : s.client? k with
      | none => rfl
      | some e =>
        have hout : e.id = speaker ∨ e.info.channel ≠ some channel ∨ e.info.voice.selfDeafened = true := by
          by_contra hin
          rw [not_or, not_or, Decidable.not_not, Bool.not_eq_true] at hin
          exact hhears ⟨fun h => hin.1 ((Keyed.get_key he).trans h), channel, hspeaks, e, he, hin.2.1, hin.2.2⟩
        simp [ConnectedClient.hear, hout]
    · rw [relayVoice_of_silent fun channel h => hspeaks ⟨channel, h⟩, List.drop_length]

/-- Nothing else puts a frame under the speaker's name. -/
theorem Shared.utters_other {op : Operation} (hop : ∀ packet, op ≠ .relayVoice speaker packet) :
    ∀ d ∈ s.utters op k, d.sender ≠ speaker := by
  intro d hd
  have hquiet : s.utters op k = [] → d.sender ≠ speaker := by
    intro hnil
    rw [hnil] at hd
    cases hd
  cases hqueues : op.queues with
  | false => exact hquiet ((operate_still s hqueues).voice k)
  | true =>
    unfold utters at hquiet
    cases op with
    | send client m => exact hquiet (by simp only [operate, send_eq, deliver_voice, List.drop_length])
    | broadcast m except => exact hquiet (by simp only [operate, broadcast_eq, deliver_voice, List.drop_length])
    | broadcastFiltered m channel except =>
      exact hquiet (by simp only [operate, broadcastFiltered_eq, deliver_voice, List.drop_length])
    | resyncVisibility before touched =>
      exact hquiet (by simp only [operate, resyncVisibility_eq, deliver_voice, List.drop_length])
    | relayVoice sender packet =>
      rcases s.utters_relayVoice sender k packet with ⟨-, he⟩ | ⟨-, he⟩
      · rw [he] at hd
        rw [List.mem_singleton.mp hd]
        rintro rfl
        exact hop packet rfl
      · rw [he] at hd
        cases hd
    | _ => cases hqueues

end

section
variable {δ α ε ℓ : Type} {l : Loudness α ℓ} {x : OpusEncoder ε α (List UInt8)} {mic : Capture ε α ℓ}
  {speaker listener : ClientId}

/-- A datagram on the way, and those before and behind it. -/
theorem eraseIdx_split {γ : Type} {way : List γ} {n : Nat} {datagram : γ} (h : way[n]? = some datagram) :
    ∃ before rest, way = before ++ datagram :: rest ∧ way.eraseIdx n = before ++ rest ∧ (n = 0 → before = []) := by
  obtain ⟨hn, rfl⟩ := List.getElem?_eq_some_iff.mp h
  refine ⟨way.take n, way.drop (n + 1), ?_, List.eraseIdx_eq_take_drop_succ way n, ?_⟩
  · rw [List.getElem_cons_drop, List.take_append_drop]
  · rintro rfl
    rfl

namespace VoicePath

theorem upward_sendVoice (frame : CapturedFrame (List UInt8)) :
    upward speaker (sendVoice frame) = frame.packet speaker := by
  unfold upward sendVoice
  rw [VoiceUpstream.read_encode]
  rfl

theorem arrivals_snoc (c : ClientId) (ops : List (MixerOp (List UInt8) α)) (op : MixerOp (List UInt8) α) :
    arrivals c (ops ++ [op]) = arrivals c ops ++ (op.arrival c).toList := by
  unfold arrivals
  rw [List.filterMap_append, List.filterMap_cons]
  cases op.arrival c <;> rfl

theorem downward_append (down down' : List (List UInt8)) :
    downward speaker (down ++ down') = downward speaker down ++ downward speaker down' := by
  unfold downward
  rw [List.map_append, List.filter_append]

theorem downward_cons (datagram : List UInt8) (down : List (List UInt8)) :
    downward speaker (datagram :: down) =
      (if (VoiceDownstream.read datagram).sender = speaker then [(VoiceDownstream.read datagram).packet] else []) ++
        downward speaker down := by
  unfold downward
  rw [List.map_cons, List.filter_cons]
  by_cases hs : (VoiceDownstream.read datagram).sender = speaker
  · simp [VoiceDownstream.packet, hs]
  · simp [VoiceDownstream.packet, hs]

theorem downward_encode (uttered : List VoiceDownstream) :
    downward speaker (uttered.map VoiceDownstream.encode) =
      (uttered.filter (·.sender = speaker)).map VoiceDownstream.packet := by
  have hpacket : (fun datagram => (VoiceDownstream.read datagram).packet) ∘ VoiceDownstream.encode =
      VoiceDownstream.packet :=
    funext fun d => congrArg VoiceDownstream.packet d.read_encode
  unfold downward
  rw [List.map_map, hpacket, List.filter_map]
  rfl

variable (v : VoicePath α)

/-- Losing a datagram on its way up is losing its packet. -/
theorem line_loseUp (n : Nat) :
    ∃ e, Line.Step (v.line l x mic speaker) e ({ v with up := v.up.eraseIdx n }.line l x mic speaker) ∧
      ((∀ datagram ∈ v.up[n]?, ¬ (upward speaker datagram).Opens) → e.Orderly VoicePacket.Opens) := by
  cases hn : v.up[n]? with
  | none =>
    rw [List.eraseIdx_of_length_le (List.getElem?_eq_none_iff.mp hn)]
    exact ⟨.rest, .rest _, fun _ => trivial⟩
  | some datagram =>
    obtain ⟨before, rest, hup, herase, -⟩ := eraseIdx_split hn
    rw [herase]
    refine ⟨.lose (upward speaker datagram), ?_, fun h => h datagram rfl⟩
    simp only [line, hup, List.map_append, List.map_cons]
    exact .lose _ [arrivals speaker v.played, downward speaker v.down] _ _ _ []

theorem line_loseDown (n : Nat) :
    ∃ e, Line.Step (v.line l x mic speaker) e ({ v with down := v.down.eraseIdx n }.line l x mic speaker) ∧
      ((∀ datagram ∈ v.down[n]?, (VoiceDownstream.read datagram).sender = speaker →
        ¬ (VoiceDownstream.read datagram).packet.Opens) → e.Orderly VoicePacket.Opens) := by
  cases hn : v.down[n]? with
  | none =>
    rw [List.eraseIdx_of_length_le (List.getElem?_eq_none_iff.mp hn)]
    exact ⟨.rest, .rest _, fun _ => trivial⟩
  | some datagram =>
    obtain ⟨before, rest, hdown, herase, -⟩ := eraseIdx_split hn
    rw [herase]
    simp only [line, hdown, downward_append, downward_cons]
    by_cases hs : (VoiceDownstream.read datagram).sender = speaker
    · rw [if_pos hs]
      exact ⟨.lose (VoiceDownstream.read datagram).packet, .lose _ [arrivals speaker v.played] _ _ _ [_],
        fun h => h datagram rfl hs⟩
    · rw [if_neg hs]
      exact ⟨.rest, .rest _, fun _ => trivial⟩

theorem line_capture (op : CaptureOp α) :
    ∃ e, Line.Step (v.line l x mic speaker) e ((v.next l x mic speaker listener (.capture op)).line l x mic speaker) ∧
      e.Orderly VoicePacket.Opens := by
  have hsaid := mic.emitted_append l x v.captured op
  simp only [line, said, next, hsaid]
  cases hframe : ((mic.run l x v.captured).exec l x op).1 with
  | none =>
    simp only [Option.toList_none, List.map_nil, List.append_nil]
    exact ⟨.rest, .rest _, trivial⟩
  | some frame =>
    refine ⟨.send (frame.packet speaker), ?_, trivial⟩
    simp only [Option.toList_some, List.map_append, List.map_cons, List.map_nil, upward_sendVoice]
    exact .send _ [arrivals speaker v.played, downward speaker v.down] _ _

/-- Whatever else the server does says nothing in the speaker's name. -/
theorem line_operate {op : Operation} (hop : ∀ packet, op ≠ .relayVoice speaker packet) :
    (v.operate listener op).line l x mic speaker = v.line l x mic speaker := by
  have hnone : (v.server.utters op listener).filter (·.sender = speaker) = [] := by
    rw [List.filter_eq_nil_iff]
    intro d hd
    simpa using Shared.utters_other hop d hd
  simp only [line, operate, said, downward_append, downward_encode, hnone, List.map_nil, List.append_nil]

theorem line_relay (n : Nat) :
    ∃ e, Line.Step (v.line l x mic speaker) e ((v.next l x mic speaker listener (.relay n)).line l x mic speaker) ∧
      (v.Sound speaker → v.InOrder speaker listener (.relay n) → e.Orderly VoicePacket.Opens) := by
  cases hn : v.up[n]? with
  | none =>
    simp only [next, hn]
    exact ⟨.rest, .rest _, fun _ _ => trivial⟩
  | some datagram =>
    obtain ⟨before, rest, hup, herase, hfirst⟩ := eraseIdx_split hn
    cases hdecode : VoiceUpstream.decode datagram with
    | error err =>
      obtain ⟨e, hstep, -⟩ : ∃ e, Line.Step (v.line l x mic speaker) e
          ({ v with up := v.up.eraseIdx n }.line l x mic speaker) ∧ _ := line_loseUp v n
      simp only [next, hn, hdecode]
      refine ⟨e, hstep, fun hsound => ?_⟩
      obtain ⟨packet, haccepted⟩ := hsound.up datagram (List.mem_of_getElem? hn)
      rw [hdecode] at haccepted
      cases haccepted
    | ok packet =>
      have hpacket : upward speaker datagram = (packet.intoDownstream speaker).packet := by
        rw [upward, VoiceUpstream.read_of_decode hdecode]
      simp only [next, hn, hdecode, herase, line, operate, said, downward_append, downward_encode]
      rcases v.server.utters_relayVoice speaker listener packet with ⟨hhears, hutters⟩ | ⟨hdeaf, hutters⟩
      · -- the listener is sent the frame
        refine ⟨.pass (before.map (upward speaker)) (upward speaker datagram), ?_, fun _ horder => ?_⟩
        · have hsender : (packet.intoDownstream speaker).sender = speaker := rfl
          simp only [hutters, hup, List.map_append, List.map_cons, List.map_nil, List.filter_cons, List.filter_nil,
            hsender, decide_true, if_true, ← hpacket]
          exact .pass _ [arrivals speaker v.played] _ _ _ _ []
        · have hnone := hfirst horder.1
          rw [hnone]
          rfl
      · -- the frame ends at the server
        refine ⟨.lose (upward speaker datagram), ?_, fun _ horder => ?_⟩
        · simp only [hutters, hup, List.map_append, List.map_cons, List.map_nil, List.filter_nil, List.append_nil]
          exact .lose _ [arrivals speaker v.played, downward speaker v.down] _ _ _ []
        · exact fun hopens => hdeaf (horder.2 datagram hn hopens)

theorem line_accept (n : Nat) :
    ∃ e, Line.Step (v.line l x mic speaker) e ((v.next l x mic speaker listener (.accept n)).line l x mic speaker) ∧
      (v.Sound speaker → v.InOrder speaker listener (.accept n) → e.Orderly VoicePacket.Opens) := by
  cases hn : v.down[n]? with
  | none =>
    simp only [next, hn]
    exact ⟨.rest, .rest _, fun _ _ => trivial⟩
  | some datagram =>
    obtain ⟨before, rest, hdown, herase, hfirst⟩ := eraseIdx_split hn
    cases hdecode : VoiceDownstream.decode datagram with
    | error err =>
      obtain ⟨e, hstep, horderly⟩ : ∃ e, Line.Step (v.line l x mic speaker) e
          ({ v with down := v.down.eraseIdx n }.line l x mic speaker) ∧ _ := line_loseDown v n
      simp only [next, hn, hdecode]
      refine ⟨e, hstep, fun hsound _ => horderly ?_⟩
      rintro datagram' hn' hs
      obtain rfl := Option.some.inj (hn.symm.trans hn')
      obtain ⟨packet, haccepted⟩ := hsound.down datagram (List.mem_of_getElem? hn) hs
      rw [hdecode] at haccepted
      cases haccepted
    | ok packet =>
      have hpacket := VoiceDownstream.read_of_decode hdecode
      simp only [next, hn, hdecode, herase]
      simp only [line, said, arrivals_snoc, hdown, downward_append, downward_cons, hpacket]
      by_cases hs : packet.sender = speaker
      · refine ⟨.pass (downward speaker before) packet.packet, ?_, fun _ horder => ?_⟩
        · rw [if_pos hs, MixerOp.arrival_accept hs]
          exact .pass _ [] _ _ _ _ [_]
        · have hnone := hfirst horder
          rw [hnone]
          rfl
      · refine ⟨.rest, ?_, fun _ _ => trivial⟩
        have hother : (MixerOp.accept packet.packet : MixerOp (List UInt8) α).arrival speaker = none := if_neg hs
        rw [if_neg hs, hother, Option.toList_none, List.append_nil]
        exact .rest _

/-- Each move takes the line one step. -/
theorem line_next {move : VoiceMove α} (hfair : v.Fair speaker move) :
    ∃ e, Line.Step (v.line l x mic speaker) e ((v.next l x mic speaker listener move).line l x mic speaker) ∧
      (v.Sound speaker → v.InOrder speaker listener move → e.Orderly VoicePacket.Opens) := by
  cases move with
  | capture op =>
    obtain ⟨e, hstep, horderly⟩ := v.line_capture op
    exact ⟨e, hstep, fun _ _ => horderly⟩
  | loseUp n =>
    obtain ⟨e, hstep, horderly⟩ := v.line_loseUp n
    exact ⟨e, hstep, fun _ => horderly⟩
  | relay n => exact v.line_relay n
  | operate op =>
    refine ⟨.rest, ?_, fun _ _ => trivial⟩
    simp only [next, v.line_operate hfair]
    exact .rest _
  | loseDown n =>
    obtain ⟨e, hstep, horderly⟩ := v.line_loseDown n
    exact ⟨e, hstep, fun _ => horderly⟩
  | accept n => exact v.line_accept n
  | play op =>
    refine ⟨.rest, ?_, fun _ _ => trivial⟩
    have hnone : op.arrival speaker = none := by
      cases op with
      | accept packet => exact absurd rfl (hfair packet)
      | _ => rfl
    simp only [next, line, said, arrivals_snoc, hnone, Option.toList_none, List.append_nil]
    exact .rest _

end VoicePath

/-! ## Datagrams that are accepted -/

/-- What Opus makes of a frame fits the buffer that `encode` gives it. -/
def OpusEncoder.Fits (x : OpusEncoder ε α (List UInt8)) : Prop :=
  ∀ e pcm payload, (x.encode e pcm).1 = .ok payload → payload.length ≤ maxOpusPacket

theorem VoiceEncoder.encode_fits (hfits : x.Fits) {e e' : VoiceEncoder ε} {pcm : List α} {payload : List UInt8}
    (h : e.encode x pcm = (.ok payload, e')) : payload.length ≤ maxOpusPacket := by
  unfold encode at h
  split at h
  · cases h
  · have hwritten := congrArg Prod.fst h
    simp only at hwritten
    cases hx : (x.encode e.encoder pcm).1 with
    | error err =>
      rw [hx] at hwritten
      cases hwritten
    | ok payload' =>
      rw [hx] at hwritten
      cases hwritten
      exact hfits _ _ _ hx

theorem Capture.exec_fits (hfits : x.Fits) (c : Capture ε α ℓ) (op : CaptureOp α) :
    ∀ frame ∈ (c.exec l x op).1, frame.payload.length ≤ maxOpusPacket := by
  intro frame hframe
  cases op with
  | frame pcm =>
    simp only [exec, process] at hframe
    split at hframe
    · cases hframe
    · split at hframe
      · rename_i payload encoder hencode
        obtain rfl := Option.some.inj hframe
        exact VoiceEncoder.encode_fits hfits hencode
      · cases hframe
  | setMuted | setPushToTalkHeld | setGateMode => cases hframe

namespace VoicePath

theorem Sound.operate {v : VoicePath α} (h : v.Sound speaker) {op : Operation}
    (hop : ∀ packet, op = .relayVoice speaker packet → packet.payload.length ≤ maxOpusPacket) :
    (v.operate listener op).Sound speaker := by
  refine ⟨h.up, fun datagram hdatagram hs => ?_⟩
  rcases List.mem_append.mp hdatagram with hold | hnew
  · exact h.down datagram hold hs
  · obtain ⟨d, hd, rfl⟩ := List.mem_map.mp hnew
    rw [VoiceDownstream.read_encode] at hs
    refine ⟨d, VoiceDownstream.decode_encode ?_⟩
    by_cases hrelay : ∃ packet, op = .relayVoice speaker packet
    · obtain ⟨packet, rfl⟩ := hrelay
      rcases v.server.utters_relayVoice speaker listener packet with ⟨-, hutters⟩ | ⟨-, hutters⟩
      · rw [hutters] at hd
        rw [List.mem_singleton.mp hd]
        exact hop packet rfl
      · rw [hutters] at hd
        cases hd
    · exact absurd hs (Shared.utters_other (fun packet he => hrelay ⟨packet, he⟩) d hd)

theorem Sound.next {v : VoicePath α} (h : v.Sound speaker) (hfits : x.Fits) {move : VoiceMove α}
    (hfair : v.Fair speaker move) : (v.next l x mic speaker listener move).Sound speaker := by
  have herase : ∀ {way : List (List UInt8)} {n : Nat} {datagram : List UInt8},
      datagram ∈ way.eraseIdx n → datagram ∈ way :=
    fun hm => (List.eraseIdx_sublist _ _).subset hm
  cases move with
  | capture op =>
    refine ⟨fun datagram hdatagram => ?_, h.down⟩
    rcases List.mem_append.mp hdatagram with hold | hnew
    · exact h.up datagram hold
    · obtain ⟨frame, hframe, rfl⟩ := List.mem_map.mp hnew
      exact ⟨_, VoiceUpstream.decode_encode (Capture.exec_fits hfits _ op frame (Option.mem_toList.mp hframe))⟩
  | loseUp n => exact ⟨fun datagram hdatagram => h.up datagram (herase hdatagram), h.down⟩
  | relay n =>
    simp only [VoicePath.next]
    split
    · exact h
    · rename_i datagram hn
      have hrest : ({ v with up := v.up.eraseIdx n } : VoicePath α).Sound speaker :=
        ⟨fun datagram hdatagram => h.up datagram (herase hdatagram), h.down⟩
      split
      · rename_i packet hdecode
        refine hrest.operate fun packet' he => ?_
        cases he
        exact VoiceUpstream.payload_of_decode hdecode
      · exact hrest
  | operate op => exact h.operate fun packet he => absurd he (hfair packet)
  | loseDown n => exact ⟨h.up, fun datagram hdatagram => h.down datagram (herase hdatagram)⟩
  | accept n =>
    simp only [VoicePath.next]
    split
    · exact h
    · split <;> exact ⟨h.up, fun datagram hdatagram => h.down datagram (herase hdatagram)⟩
  | play op => exact ⟨h.up, h.down⟩

end VoicePath

/-! ## Whole runs -/

theorem opens_start (c : ClientId) (payload : List UInt8) :
    ((⟨0, flagBurstStart, payload⟩ : CapturedFrame (List UInt8)).packet c).Opens := by
  change decide (flagBurstStart &&& flagBurstStart ≠ 0) = true
  decide

theorem ahead_of_near {next seq : UInt32} (hpos : 0 < (next - seq).toNat) (hnear : (next - seq).toNat < 2 ^ 31) :
    0 < (next - seq).toInt32.toInt := by
  have hself : (seq - seq).toNat = 0 := by
    rw [UInt32.sub_self]
    rfl
  rw [JitterBuffer.sub_near hnear (by omega), hself]
  omega

theorem succ_sub_toNat {next seq : UInt32} (hnear : (next - seq).toNat < 2 ^ 31) :
    (next + 1 - seq).toNat = (next - seq).toNat + 1 := by
  have hsucc : next + 1 - seq = (next - seq) + 1 := by grind
  rw [hsucc, UInt32.toNat_add]
  simp
  omega

theorem succ_follows {n : Nat} (next : UInt32) (hn : n < 2 ^ 31) :
    ∀ next' ∈ some (next + 1), ∀ seq ∈ some next, 0 < (next' - seq).toNat ∧ (next' - seq).toNat + n ≤ 2 ^ 31 := by
  rintro _ h₁ seq h₂
  obtain rfl := Option.some.inj h₁
  obtain rfl := Option.some.inj h₂
  have hone : next + 1 - next = 1 := by grind
  have hvalue : (1 : UInt32).toNat = 1 := rfl
  rw [hone, hvalue]
  omega

/-- In a burst each frame is numbered ahead of the one before it, also where some between are lost. -/
theorem advancing_of_grammar {c : ClientId} {next? last? : Option UInt32} {captured : List (CapturedFrame (List UInt8))}
    (hgrammar : BurstGrammar next? captured last?) {packets : List (VoicePacket (List UInt8))} {last : Option UInt32}
    (hthinned : Thinned VoicePacket.Opens packets (captured.map (·.packet c)))
    (hbehind : ∀ next ∈ next?, ∀ seq ∈ last, 0 < (next - seq).toNat ∧ (next - seq).toNat + captured.length ≤ 2 ^ 31)
    (hlen : captured.length < 2 ^ 31) : VoiceMixer.Advancing last packets := by
  induction hgrammar generalizing packets last with
  | done next? =>
    cases hthinned
    trivial
  | @start payload rest last? hgrammar ih =>
    rw [List.length_cons] at hlen
    cases hthinned with
    | keep _ hthinned =>
      exact ⟨.inl (opens_start c payload), ih hthinned (succ_follows 0 (by omega)) (by omega)⟩
    | lose hlost _ => exact absurd (opens_start c payload) hlost
  | @talk next payload rest last? hgrammar ih =>
    rw [List.length_cons] at hlen
    have hnext := hbehind next rfl
    cases hthinned with
    | keep _ hthinned =>
      refine ⟨.inr fun seq hseq => ?_, ih hthinned (succ_follows next (by omega)) (by omega)⟩
      obtain ⟨hpos, hnear⟩ := hnext seq hseq
      rw [List.length_cons] at hnear
      have hahead : 0 < (next - seq).toInt32.toInt := ahead_of_near hpos (by omega)
      exact hahead
    | lose _ hthinned =>
      refine ih hthinned ?_ (by omega)
      rintro _ h₁ seq hseq
      obtain rfl := Option.some.inj h₁
      obtain ⟨hpos, hnear⟩ := hnext seq hseq
      rw [List.length_cons] at hnear
      rw [succ_sub_toNat (by omega)]
      omega
  | @stop next payload rest last? hgrammar ih =>
    rw [List.length_cons] at hlen
    cases hthinned with
    | keep _ hthinned =>
      refine ⟨.inr fun seq hseq => ?_, ih hthinned (fun _ h => by cases h) (by omega)⟩
      obtain ⟨hpos, hnear⟩ := hbehind next rfl seq hseq
      rw [List.length_cons] at hnear
      have hahead : 0 < (next - seq).toInt32.toInt := ahead_of_near hpos (by omega)
      exact hahead
    | lose _ hthinned => exact ih hthinned (fun _ h => by cases h) (by omega)

variable {o : Opus δ (List UInt8) α} {f : Samples α} {server : Shared} {v : VoicePath α}

/-- What the listener is played under the speaker's name has come from the speaker's
microphone, each frame once, whatever is lost or overtaken and whatever anyone else does. -/
theorem voice_is_authentic
    (hr : Run (VoicePath.Step l x mic speaker listener) (VoicePath.Fair speaker) (.start server) v) :
    (frames ((VoiceMixer.new f).heard o f speaker v.played)).Subperm
      ((v.said l x mic).map CapturedFrame.payload) := by
  have hline : (v.line l x mic speaker).trail.Subperm (v.line l x mic speaker).sent := by
    refine Pipeline.run_subperm (VoicePath.line l x mic speaker) ?_ hr (List.Subperm.refl [])
    rintro v move v' hfair rfl
    obtain ⟨e, hstep, -⟩ : ∃ e, Line.Step (v.line l x mic speaker) e
        ((v.next l x mic speaker listener move).line l x mic speaker) ∧ _ := v.line_next hfair
    exact ⟨e, hstep⟩
  obtain ⟨kept, hperm, hkept⟩ := (List.sublist_append_left _ _).subperm.trans hline
  have hcome : ((arrivals speaker v.played).map VoicePacket.payload).Subperm
      ((v.said l x mic).map CapturedFrame.payload) := by
    refine ⟨kept.map VoicePacket.payload, hperm.map _, ?_⟩
    have hpayloads := hkept.map VoicePacket.payload
    rw [VoicePath.line, List.map_map] at hpayloads
    exact hpayloads
  exact (VoiceMixer.heard_subperm v.played).trans hcome

theorem advancing_prefix {packets packets' : List (VoicePacket (List UInt8))} {last : Option UInt32}
    (h : VoiceMixer.Advancing last (packets ++ packets')) : VoiceMixer.Advancing last packets := by
  induction packets generalizing last with
  | nil => trivial
  | cons packet packets ih => exact ⟨h.1, ih h.2⟩

/-- Where nothing is overtaken, and no burst's first frame is lost or kept from the listener, the
speaker's frames are played in the order in which they were spoken. -/
theorem voice_in_order (hfits : x.Fits) {encoder : ε} {controls : CaptureControls ℓ}
    (hr : Run (VoicePath.Step l x (.new l encoder controls) speaker listener)
      (fun v move => v.Fair speaker move ∧ v.InOrder speaker listener move) (.start server) v)
    (hencodes : ∀ e (pcm : VoiceFrame α), .frame pcm ∈ v.captured → ∃ payload, (x.encode e pcm).1 = .ok payload)
    (hlen : (v.said l x (.new l encoder controls)).length < 2 ^ 31) :
    (frames ((VoiceMixer.new f).heard o f speaker v.played)).Sublist
      ((v.said l x (.new l encoder controls)).map CapturedFrame.payload) := by
  let mic : Capture ε α ℓ := .new l encoder controls
  have hline : Thinned VoicePacket.Opens (v.line l x mic speaker).trail (v.line l x mic speaker).sent := by
    refine Pipeline.run_thinned (VoicePath.line l x mic speaker) (I := VoicePath.Sound speaker) ?_ ?_ hr ⟨?_, ?_⟩ .nil
    · rintro v move v' hsound ⟨hfair, -⟩ rfl
      exact hsound.next hfits hfair
    · rintro v move v' hsound ⟨hfair, horder⟩ rfl
      obtain ⟨e, hstep, horderly⟩ : ∃ e, Line.Step (v.line l x mic speaker) e
          ((v.next l x mic speaker listener move).line l x mic speaker) ∧ _ := v.line_next hfair
      exact ⟨e, horderly hsound horder, hstep⟩
    · intro datagram hdatagram
      cases hdatagram
    · intro datagram hdatagram
      cases hdatagram
  have hgrammar := (Capture.run_grammar (l := l) (x := x) (c := mic) rfl hencodes).2
  have hadvancing : VoiceMixer.Advancing none (arrivals speaker v.played) :=
    advancing_prefix (advancing_of_grammar hgrammar hline (fun _ h => by cases h) hlen)
  have hheard := VoiceMixer.heard_sublist (o := o) (f := f) (m := VoiceMixer.new f) (c := speaker)
    (fun s hs => by cases hs) (fun s hs => by cases hs) hadvancing
  have hcome := ((List.sublist_append_left _ _).trans hline.sublist).map VoicePacket.payload
  rw [VoicePath.line, List.map_map] at hcome
  exact hheard.trans hcome

end

/-! ## Four frames, of which one is lost -/

/-- An encoder that keeps the first sample of a frame. -/
def byteEncoder : OpusEncoder Unit Int (List UInt8) where
  encode _ pcm := (.ok [UInt8.ofInt (pcm.headD 0)], ())

theorem byteEncoder_fits : byteEncoder.Fits := by
  rintro e pcm payload hpayload
  obtain rfl := Except.ok.inj hpayload
  simp [maxOpusPacket]

def openMic : Capture Unit Int Int := .new firstSample () (.new firstSample .continuous)

/-- Two clients stand in a voice channel. -/
def parlour : Shared :=
  exampleServer [exampleRole 0 0 .defaultEveryone]
    [{ id := 5, parent := none, name := "five", topic := "", kind := .voice, maxUsers := none, order := 0,
       overwrites := [] }]
    [exampleClient 1 1 [] (some 5), exampleClient 2 2 [] (some 5)]

theorem parlour_hears : HearsVoice parlour 1 2 := by
  refine ⟨by decide, 5, ⟨_, _, rfl, rfl, rfl, rfl, rfl, rfl, ?_⟩, _, rfl, rfl, rfl⟩
  decide +kernel

theorem closed_head {way : List (List UInt8)}
    (h : (way[0]?.all fun datagram => !(VoicePath.upward 1 datagram).startsBurst) = true) :
    ∀ datagram ∈ way[0]?, ¬ (VoicePath.upward 1 datagram).Opens := by
  intro datagram hdatagram hopens
  rw [Option.mem_def.mp hdatagram] at h
  have hopens : (VoicePath.upward 1 datagram).startsBurst = true := hopens
  simp [hopens] at h

theorem parlour_talk : ∃ v : VoicePath Int,
    Run (VoicePath.Step firstSample byteEncoder openMic 1 2)
      (fun v move => v.Fair 1 move ∧ v.InOrder 1 2 move) (.start parlour) v ∧
    (∀ e (pcm : VoiceFrame Int), .frame pcm ∈ v.captured → ∃ payload, (byteEncoder.encode e pcm).1 = .ok payload) ∧
    (v.said firstSample byteEncoder openMic).map CapturedFrame.payload = [[1], [2], [3], [4]] ∧
    frames ((VoiceMixer.new wholeSamples).heard (silentOpus (List UInt8)) wholeSamples 1 v.played) = [[1], [3]] := by
  have hnot : ∀ packet : VoicePacket (List UInt8),
      (MixerOp.render samplesPerFrame : MixerOp (List UInt8) Int) ≠ .accept packet :=
    fun _ h => by cases h
  -- The second frame is lost on its way up; three renders play the first and the third, and conceal the second.
  refine ⟨_, .step (.play (.render samplesPerFrame)) (.step (.play (.render samplesPerFrame))
    (.step (.play (.render samplesPerFrame)) (.step (.accept 0) (.step (.accept 0) (.step (.accept 0)
    (.step (.relay 0) (.step (.relay 0) (.step (.loseUp 0) (.step (.relay 0)
    (.step (.capture (.frame (flatFrame 4))) (.step (.capture (.frame (flatFrame 3)))
    (.step (.capture (.frame (flatFrame 2))) (.step (.capture (.frame (flatFrame 1))) .refl
    ⟨trivial, trivial⟩ rfl) ⟨trivial, trivial⟩ rfl) ⟨trivial, trivial⟩ rfl) ⟨trivial, trivial⟩ rfl)
    ⟨trivial, rfl, fun _ _ _ => parlour_hears⟩ rfl) ⟨trivial, closed_head (by decide +kernel)⟩ rfl)
    ⟨trivial, rfl, fun _ hd hopens => absurd hopens (closed_head (by decide +kernel) _ hd)⟩ rfl)
    ⟨trivial, rfl, fun _ hd hopens => absurd hopens (closed_head (by decide +kernel) _ hd)⟩ rfl)
    ⟨trivial, rfl⟩ rfl) ⟨trivial, rfl⟩ rfl) ⟨trivial, rfl⟩ rfl) ⟨hnot, trivial⟩ rfl) ⟨hnot, trivial⟩ rfl)
    ⟨hnot, trivial⟩ rfl, fun _ _ _ => ⟨_, rfl⟩, ?_, ?_⟩
  · decide +kernel
  · decide +kernel

theorem parlour_is_authentic : ∃ v : VoicePath Int,
    (v.said firstSample byteEncoder openMic).map CapturedFrame.payload = [[1], [2], [3], [4]] ∧
    frames ((VoiceMixer.new wholeSamples).heard (silentOpus (List UInt8)) wholeSamples 1 v.played) = [[1], [3]] ∧
    (frames ((VoiceMixer.new wholeSamples).heard (silentOpus (List UInt8)) wholeSamples 1 v.played)).Subperm
      ((v.said firstSample byteEncoder openMic).map CapturedFrame.payload) := by
  obtain ⟨v, hr, -, hsaid, hheard⟩ := parlour_talk
  exact ⟨v, hsaid, hheard, voice_is_authentic (hr.mono fun _ _ h => h.1)⟩

theorem parlour_in_order : ∃ v : VoicePath Int,
    (v.said firstSample byteEncoder openMic).map CapturedFrame.payload = [[1], [2], [3], [4]] ∧
    (frames ((VoiceMixer.new wholeSamples).heard (silentOpus (List UInt8)) wholeSamples 1 v.played)).Sublist
      ((v.said firstSample byteEncoder openMic).map CapturedFrame.payload) := by
  obtain ⟨v, hr, hencodes, hsaid, -⟩ := parlour_talk
  have hlen : (v.said firstSample byteEncoder openMic).length < 2 ^ 31 := by
    have hfour := congrArg List.length hsaid
    rw [List.length_map] at hfour
    rw [hfour]
    decide
  exact ⟨v, hsaid, voice_in_order byteEncoder_fits hr hencodes hlen⟩

end PickleChat
