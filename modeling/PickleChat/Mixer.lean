import PickleChat.Jitter
import PickleChat.Lib.Assoc
import PickleChat.Voice

/-!
# The voice mixer

`pickle-audio/src/mixer.rs`: the stream of each speaker, what a packet does to
it and what a render takes from it. Payloads are never looked at, so their type
is left open. The Opus decoder and the arithmetic of samples come from other
crates and from the language.
-/

namespace PickleChat

open Keyed

def samplesPerFrame : Nat := 960

def defaultTargetFrames : Nat := 3

def defaultMaxFrames : Nat := 16

def idleFramesBeforeRelease : Nat := 100

/-- `CodecError` of the audio crate. -/
inductive VoiceCodecError where
  | opus (what : String)
  | wrongFrameSize (len : Nat)
  deriving DecidableEq

/-- `VoiceDecoder`: how one is made, and what it makes of a payload and of a lost one. -/
structure Opus (δ β α : Type) where
  newDecoder : Except VoiceCodecError δ
  decode : δ → β → Option (List α) × δ
  conceal : δ → Option (List α) × δ

/-- `f32`. -/
structure Samples (α : Type) where
  zero : α
  one : α
  add : α → α → α
  mul : α → α → α
  /-- `max(0.0)`. -/
  atLeastZero : α → α
  /-- `clamp(-1.0, 1.0)`. -/
  clamp : α → α

/-- `VoiceDownstream`, whatever its payload is. -/
structure VoicePacket (β : Type) where
  sender : ClientId
  seq : UInt32
  flags : UInt8
  payload : β
  deriving DecidableEq

section
variable {δ β α : Type}

def VoicePacket.startsBurst (packet : VoicePacket β) : Bool := packet.flags &&& flagBurstStart ≠ 0

/-- The `u32` of idle frames saturates, far above where the stream is released. -/
structure SenderStream (δ β α : Type) where
  jitter : JitterBuffer β
  decoder : δ
  gain : α
  muted : Bool
  speaking : Bool
  idleFrames : Nat

namespace SenderStream

def new (f : Samples α) (decoder : δ) : SenderStream δ β α :=
  { jitter := .new defaultTargetFrames defaultMaxFrames, decoder, gain := f.one, muted := false, speaking := false,
    idleFrames := 0 }

def accept (stream : SenderStream δ β α) (packet : VoicePacket β) : SenderStream δ β α :=
  let jitter := if packet.startsBurst then stream.jitter.reset else stream.jitter
  { stream with idleFrames := 0, jitter := jitter.push packet.seq packet.payload }

/-- What the decoder makes of what `pop` returned. -/
def decoded (o : Opus δ β α) (stream : SenderStream δ β α) : Option (List α) × δ :=
  match stream.jitter.pop.1 with
  | some (.frame payload) => o.decode stream.decoder payload
  | some .lost => o.conceal stream.decoder
  | none => (none, stream.decoder)

/-- The body of the loop of `render`, up to where the speaker contributes. -/
def render (o : Opus δ β α) (stream : SenderStream δ β α) : SenderStream δ β α :=
  let played := { stream with jitter := stream.jitter.pop.2, decoder := (stream.decoded o).2 }
  match (stream.decoded o).1 with
  | none => { played with speaking := false, idleFrames := stream.idleFrames + 1 }
  | some _ => { played with speaking := true, idleFrames := 0 }

/-- A stream that has been rendered, unless it has been idle for too long. -/
def kept (o : Opus δ β α) (stream : SenderStream δ β α) : Option (SenderStream δ β α) :=
  if idleFramesBeforeRelease < (stream.render o).idleFrames then none else some (stream.render o)

end SenderStream

structure VoiceMixer (δ β α : Type) where
  streams : Assoc ClientId (SenderStream δ β α)
  masterGain : α
  deafened : Bool

namespace VoiceMixer
variable (o : Opus δ β α) (f : Samples α)

def new : VoiceMixer δ β α := ⟨.empty, f.one, false⟩

def accept (m : VoiceMixer δ β α) (packet : VoicePacket β) : Except VoiceCodecError (VoiceMixer δ β α) :=
  match m.streams.get packet.sender with
  | some _ => .ok { m with streams := m.streams.modify packet.sender (·.accept packet) }
  | none => do
    let decoder ← o.newDecoder
    .ok { m with streams := m.streams.insert packet.sender ((SenderStream.new f decoder).accept packet) }

/-- The loop over the samples of a frame. -/
def mixIn : List α → List α → α → List α
  | slot :: out, sample :: pcm, gain => f.add slot (f.mul sample gain) :: mixIn out pcm gain
  | out, _, _ => out

/-- What the speakers contribute to the next frame, each with the gain it is scaled by. -/
def contributions (m : VoiceMixer δ β α) : List (ClientId × List α × α) :=
  m.streams.entries.filterMap fun e =>
    if e.2.muted || m.deafened then none
    else (e.2.decoded o).1.map fun pcm => (e.1, pcm, f.mul e.2.gain m.masterGain)

/-- The frame for an output of some length, with the number of contributors. -/
def render (m : VoiceMixer δ β α) (len : Nat) : (List α × Nat) × VoiceMixer δ β α :=
  let silence := List.replicate len f.zero
  if len ≠ samplesPerFrame then ((silence, 0), m)
  else
    let mixed := (m.contributions o f).foldl (fun out x => mixIn f out x.2.1 x.2.2) silence
    ((mixed.map f.clamp, (m.contributions o f).length),
      { m with streams := m.streams.filterMap fun _ stream => stream.kept o })

def setGain (m : VoiceMixer δ β α) (client : ClientId) (gain : α) : VoiceMixer δ β α :=
  { m with streams := m.streams.modify client fun stream => { stream with gain := f.atLeastZero gain } }

def setMuted (m : VoiceMixer δ β α) (client : ClientId) (muted : Bool) : VoiceMixer δ β α :=
  { m with streams := m.streams.modify client fun stream => { stream with muted } }

def setMasterGain (m : VoiceMixer δ β α) (gain : α) : VoiceMixer δ β α := { m with masterGain := f.atLeastZero gain }

def clearSpeakers (m : VoiceMixer δ β α) : VoiceMixer δ β α := { m with streams := .empty }

def setDeafened (m : VoiceMixer δ β α) (deafened : Bool) : VoiceMixer δ β α := { m with deafened }

def remove (m : VoiceMixer δ β α) (client : ClientId) : VoiceMixer δ β α :=
  { m with streams := m.streams.remove client }

def clear (m : VoiceMixer δ β α) : VoiceMixer δ β α := { m with streams := .empty }

end VoiceMixer

/-! ## Runs -/

inductive MixerOp (β α : Type) where
  | accept (packet : VoicePacket β)
  | render (len : Nat)
  | setGain (client : ClientId) (gain : α)
  | setMuted (client : ClientId) (muted : Bool)
  | setMasterGain (gain : α)
  | setDeafened (deafened : Bool)
  | clearSpeakers
  | remove (client : ClientId)
  | clear

namespace VoiceMixer
variable (o : Opus δ β α) (f : Samples α)

/-- The mixer afterwards; it stays as it was where no decoder can be made. -/
def exec (m : VoiceMixer δ β α) : MixerOp β α → VoiceMixer δ β α
  | .accept packet => (m.accept o f packet).toOption.getD m
  | .render len => (m.render o f len).2
  | .setGain client gain => m.setGain f client gain
  | .setMuted client muted => m.setMuted client muted
  | .setMasterGain gain => m.setMasterGain f gain
  | .setDeafened deafened => m.setDeafened deafened
  | .clearSpeakers => m.clearSpeakers
  | .remove client => m.remove client
  | .clear => m.clear

def run (m : VoiceMixer δ β α) (ops : List (MixerOp β α)) : VoiceMixer δ β α := ops.foldl (exec o f) m

/-- `P` holds of every step of a run and the mixer it is taken from. -/
def Along (P : VoiceMixer δ β α → MixerOp β α → Prop) (m : VoiceMixer δ β α) : List (MixerOp β α) → Prop
  | [] => True
  | op :: ops => P m op ∧ (m.exec o f op).Along P ops

end VoiceMixer

/-! ## One speaker -/

/-- The stream a packet finds, or the one it creates. -/
def SenderStream.found (o : Opus δ β α) (f : Samples α) (stream : Option (SenderStream δ β α)) :
    Option (SenderStream δ β α) :=
  stream.or (o.newDecoder.toOption.map (SenderStream.new f))

/-- What a step makes of one speaker's stream. -/
def MixerOp.onStream (o : Opus δ β α) (f : Samples α) (c : ClientId) (stream : Option (SenderStream δ β α)) :
    MixerOp β α → Option (SenderStream δ β α)
  | .accept packet => if packet.sender = c then (SenderStream.found o f stream).map (·.accept packet) else stream
  | .render len => if len = samplesPerFrame then stream.bind (·.kept o) else stream
  | .setGain client gain => if client = c then stream.map fun s => { s with gain := f.atLeastZero gain } else stream
  | .setMuted client muted => if client = c then stream.map fun s => { s with muted } else stream
  | .setMasterGain _ | .setDeafened _ => stream
  | .remove client => if client = c then none else stream
  | .clearSpeakers | .clear => none

namespace SenderStream
variable {o : Opus δ β α} {f : Samples α} {s s' : SenderStream δ β α}

@[simp] theorem render_jitter (o : Opus δ β α) (s : SenderStream δ β α) : (s.render o).jitter = s.jitter.pop.2 := by
  unfold render
  split <;> rfl

theorem mem_found {stream : Option (SenderStream δ β α)} (h : found o f stream = some s) :
    stream = some s ∨ stream = none ∧ ∃ decoder, o.newDecoder = .ok decoder ∧ s = new f decoder := by
  unfold found at h
  cases stream with
  | some s' => exact .inl h
  | none =>
    cases hd : o.newDecoder with
    | error e => simp [hd, Except.toOption] at h
    | ok decoder => exact .inr ⟨rfl, decoder, rfl, by simpa [hd, Except.toOption, eq_comm] using h⟩

theorem mem_kept (h : s.kept o = some s') : s' = s.render o := by
  unfold kept at h
  split at h
  · cases h
  · exact (Option.some.inj h).symm

end SenderStream

/-- The packet a step brings from one speaker. -/
def MixerOp.arrival (c : ClientId) : MixerOp β α → Option (VoicePacket β)
  | .accept packet => if packet.sender = c then some packet else none
  | _ => none

theorem MixerOp.arrival_accept {c : ClientId} {packet : VoicePacket β} (hc : packet.sender = c) :
    (MixerOp.accept packet : MixerOp β α).arrival c = some packet :=
  if_pos hc

/-- The packets a run brings from one speaker, in the order they come. -/
def arrivals (c : ClientId) (ops : List (MixerOp β α)) : List (VoicePacket β) := ops.filterMap (MixerOp.arrival c)

theorem arrivals_cons (c : ClientId) (op : MixerOp β α) (ops : List (MixerOp β α)) :
    arrivals c (op :: ops) = (op.arrival c).toList ++ arrivals c ops := by
  unfold arrivals
  rw [List.filterMap_cons]
  cases op.arrival c <;> rfl

/-- The step takes no speaker's stream away by force. -/
def MixerOp.Keeps (c : ClientId) : MixerOp β α → Prop
  | .clearSpeakers | .clear => False
  | .remove client => client ≠ c
  | _ => True

def JitterOutput.frame? : JitterOutput β → Option β
  | .frame payload => some payload
  | .lost => none

namespace VoiceMixer
variable (o : Opus δ β α) (f : Samples α)

theorem accept_stream (m : VoiceMixer δ β α) (c : ClientId) (packet : VoicePacket β) :
    ((m.accept o f packet).toOption.getD m).streams.get c = MixerOp.onStream o f c (m.streams.get c)
    (.accept packet) := by
  simp only [accept, MixerOp.onStream, SenderStream.found]
  by_cases hc : packet.sender = c
  · subst hc
    rw [if_pos rfl]
    cases hs : m.streams.get packet.sender with
    | some stream => simp [Except.toOption, Assoc.get_modify, hs]
    | none =>
      cases hd : o.newDecoder with
      | error e => simp [bind, Except.bind, Except.toOption, hs]
      | ok decoder => simp [bind, Except.bind, Except.toOption, Assoc.get_insert]
  · rw [if_neg hc]
    cases hs : m.streams.get packet.sender with
    | some stream => simp [Except.toOption, Assoc.get_modify, Ne.symm hc]
    | none =>
      cases hd : o.newDecoder with
      | error e => simp [bind, Except.bind, Except.toOption]
      | ok decoder => simp [bind, Except.bind, Except.toOption, Assoc.get_insert, Ne.symm hc]

/-- Speakers do not touch one another's streams. -/
theorem exec_stream (m : VoiceMixer δ β α) (c : ClientId) (op : MixerOp β α) :
    (m.exec o f op).streams.get c = op.onStream o f c (m.streams.get c) := by
  cases op with
  | accept packet => exact m.accept_stream o f c packet
  | render len =>
    simp only [exec, render, MixerOp.onStream]
    by_cases h : len = samplesPerFrame
    · simp [h, Assoc.get_filterMap]
    · simp [h]
  | setGain client gain => simp [exec, setGain, MixerOp.onStream, Assoc.get_modify, eq_comm]
  | setMuted client muted => simp [exec, setMuted, MixerOp.onStream, Assoc.get_modify, eq_comm]
  | setMasterGain gain => rfl
  | setDeafened deafened => rfl
  | clearSpeakers => rfl
  | remove client => simp [exec, remove, MixerOp.onStream, Assoc.get_remove, eq_comm]
  | clear => rfl

theorem accepted_stream (m : VoiceMixer δ β α) {c : ClientId} {packet : VoicePacket β} (hc : packet.sender = c) :
    (m.exec o f (.accept packet)).streams.get c =
      (SenderStream.found o f (m.streams.get c)).map (·.accept packet) := by
  rw [exec_stream, MixerOp.onStream, if_pos hc]

theorem rendered_stream (m : VoiceMixer δ β α) (c : ClientId) :
    (m.exec o f (.render samplesPerFrame)).streams.get c = (m.streams.get c).bind (·.kept o) := by
  rw [exec_stream, MixerOp.onStream, if_pos rfl]

/-- What a step takes from one speaker's jitter buffer for the decoder. -/
def popped (m : VoiceMixer δ β α) (c : ClientId) : MixerOp β α → Option (JitterOutput β)
  | .render len => if len = samplesPerFrame then (m.streams.get c).bind (·.jitter.pop.1) else none
  | _ => none

theorem popped_rendered (m : VoiceMixer δ β α) (c : ClientId) :
    m.popped c (.render samplesPerFrame) = (m.streams.get c).bind (·.jitter.pop.1) := by
  rw [popped, if_pos rfl]

/-- What a run plays of one speaker, in order. -/
def heard (m : VoiceMixer δ β α) (c : ClientId) : List (MixerOp β α) → List (JitterOutput β)
  | [] => []
  | op :: ops => (m.popped c op).toList ++ (m.exec o f op).heard c ops

theorem heard_append (m : VoiceMixer δ β α) (c : ClientId) (ops ops' : List (MixerOp β α)) :
    m.heard o f c (ops ++ ops') = m.heard o f c ops ++ (m.run o f ops).heard o f c ops' := by
  induction ops generalizing m with
  | nil => rfl
  | cons op ops ih =>
    rw [List.cons_append, heard, ih, heard, List.append_assoc]
    rfl

theorem run_append (m : VoiceMixer δ β α) (ops ops' : List (MixerOp β α)) :
    m.run o f (ops ++ ops') = (m.run o f ops).run o f ops' :=
  List.foldl_append

end VoiceMixer

/-! ## The kinds of steps -/

/-- The step neither brings nor plays anything of a speaker. -/
structure MixerOp.Idle (c : ClientId) (op : MixerOp β α) : Prop where
  arrival : op.arrival c = none
  popped : ∀ m : VoiceMixer δ β α, m.popped c op = none

/-- For one speaker a step is a packet, a render, the end of the stream, or nothing that touches what is held. -/
theorem MixerOp.kinds (o : Opus δ β α) (f : Samples α) (c : ClientId) (op : MixerOp β α) :
    (∃ packet, op = .accept packet ∧ packet.sender = c) ∨ op = .render samplesPerFrame ∨
      (op.Idle (δ := δ) c ∧ ¬ op.Keeps c ∧ ∀ stream, op.onStream o f c stream = none) ∨
      op.Idle (δ := δ) c ∧ ∃ g : SenderStream δ β α → SenderStream δ β α,
        (∀ s, (g s).jitter = s.jitter ∧ (g s).idleFrames = s.idleFrames) ∧
          ∀ stream, op.onStream o f c stream = stream.map g := by
  have same : ∀ op : MixerOp β α, op.Idle (δ := δ) c → (∀ stream, op.onStream o f c stream = stream) →
      op.Idle (δ := δ) c ∧ ∃ g : SenderStream δ β α → SenderStream δ β α,
        (∀ s, (g s).jitter = s.jitter ∧ (g s).idleFrames = s.idleFrames) ∧
          ∀ stream, op.onStream o f c stream = stream.map g :=
    fun op hidle h => ⟨hidle, id, fun _ => ⟨rfl, rfl⟩, fun stream => by rw [h, Option.map_id]; rfl⟩
  cases op with
  | accept packet =>
    by_cases hc : packet.sender = c
    · exact .inl ⟨packet, rfl, hc⟩
    · refine .inr (.inr (.inr (same _ ⟨by simp [arrival, hc], fun _ => rfl⟩ fun stream => ?_)))
      simp [onStream, hc]
  | render len =>
    by_cases hlen : len = samplesPerFrame
    · exact .inr (.inl (congrArg _ hlen))
    · refine .inr (.inr (.inr (same _ ⟨rfl, fun _ => by simp [VoiceMixer.popped, hlen]⟩ fun stream => ?_)))
      simp [onStream, hlen]
  | setGain client gain =>
    by_cases hc : client = c
    · refine .inr (.inr (.inr ⟨⟨rfl, fun _ => rfl⟩, fun s => { s with gain := f.atLeastZero gain }, fun _ => ⟨rfl, rfl⟩,
        fun stream => ?_⟩))
      simp [onStream, hc]
    · exact .inr (.inr (.inr (same _ ⟨rfl, fun _ => rfl⟩ fun stream => by simp [onStream, hc])))
  | setMuted client muted =>
    by_cases hc : client = c
    · refine .inr (.inr (.inr ⟨⟨rfl, fun _ => rfl⟩, fun s => { s with muted }, fun _ => ⟨rfl, rfl⟩, fun stream => ?_⟩))
      simp [onStream, hc]
    · exact .inr (.inr (.inr (same _ ⟨rfl, fun _ => rfl⟩ fun stream => by simp [onStream, hc])))
  | setMasterGain gain => exact .inr (.inr (.inr (same _ ⟨rfl, fun _ => rfl⟩ fun _ => rfl)))
  | setDeafened deafened => exact .inr (.inr (.inr (same _ ⟨rfl, fun _ => rfl⟩ fun _ => rfl)))
  | remove client =>
    by_cases hc : client = c
    · exact .inr (.inr (.inl ⟨⟨rfl, fun _ => rfl⟩, fun h => h hc, fun stream => by simp [onStream, hc]⟩))
    · exact .inr (.inr (.inr (same _ ⟨rfl, fun _ => rfl⟩ fun stream => by simp [onStream, hc])))
  | clearSpeakers => exact .inr (.inr (.inl ⟨⟨rfl, fun _ => rfl⟩, id, fun _ => rfl⟩))
  | clear => exact .inr (.inr (.inl ⟨⟨rfl, fun _ => rfl⟩, id, fun _ => rfl⟩))

/-- What holds of every jitter buffer a mixer makes, and is kept by all that is done to one. -/
structure JitterBuffer.Kept (P : JitterBuffer β → Prop) : Prop where
  new : P (.new defaultTargetFrames defaultMaxFrames)
  reset : ∀ b, P b → P b.reset
  push : ∀ b seq p, P b → P (b.push seq p)
  pop : ∀ b, P b → P b.pop.2

section
variable {P : JitterBuffer β → Prop} (hP : JitterBuffer.Kept P) {o : Opus δ β α} {f : Samples α}
  {stream : Option (SenderStream δ β α)} (h : ∀ s ∈ stream, P s.jitter)
include hP h

theorem jitter_found {s : SenderStream δ β α} (hs : SenderStream.found o f stream = some s) : P s.jitter := by
  rcases SenderStream.mem_found hs with hs | ⟨-, decoder, -, rfl⟩
  · exact h s hs
  · exact hP.new

theorem jitter_onStream (c : ClientId) (op : MixerOp β α) : ∀ s ∈ op.onStream o f c stream, P s.jitter := by
  intro s hs
  rcases op.kinds o f c with ⟨packet, rfl, hc⟩ | rfl | ⟨-, -, hnone⟩ | ⟨-, g, hg, hmap⟩
  · simp only [MixerOp.onStream, hc, if_true] at hs
    obtain ⟨s₀, hs₀, rfl⟩ := Option.map_eq_some_iff.mp hs
    have h₀ := jitter_found hP h hs₀
    simp only [SenderStream.accept]
    apply hP.push
    split
    · exact hP.reset _ h₀
    · exact h₀
  · simp only [MixerOp.onStream, if_true] at hs
    obtain ⟨s₀, hs₀, hs⟩ := Option.bind_eq_some_iff.mp hs
    rw [SenderStream.mem_kept hs, SenderStream.render_jitter]
    exact hP.pop _ (h s₀ hs₀)
  · rw [hnone] at hs
    cases hs
  · rw [hmap] at hs
    obtain ⟨s₀, hs₀, rfl⟩ := Option.map_eq_some_iff.mp hs
    rw [(hg s₀).1]
    exact h s₀ hs₀

end

theorem VoiceMixer.jitter_run {P : JitterBuffer β → Prop} (hP : JitterBuffer.Kept P) {o : Opus δ β α} {f : Samples α}
    {c : ClientId} {m : VoiceMixer δ β α} (h : ∀ s ∈ m.streams.get c, P s.jitter) (ops : List (MixerOp β α)) :
    ∀ s ∈ (m.run o f ops).streams.get c, P s.jitter := by
  induction ops generalizing m with
  | nil => exact h
  | cons op ops ih =>
    refine ih (m := m.exec o f op) ?_
    rw [exec_stream]
    exact jitter_onStream hP h c op

/-! A codec that finds silence in every payload, and whole numbers for samples. -/

def silentOpus (β : Type) : Opus Unit β Int where
  newDecoder := .ok ()
  decode _ _ := (some (List.replicate samplesPerFrame 0), ())
  conceal _ := (some (List.replicate samplesPerFrame 0), ())

def wholeSamples : Samples Int where
  zero := 0
  one := 1
  add := (· + ·)
  mul := (· * ·)
  atLeastZero := max 0
  clamp x := max (-1) (min 1 x)

end

end PickleChat
