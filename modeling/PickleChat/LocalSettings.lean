import PickleChat.Mixer

/-!
# How loud a speaker is, and whether at all

What is set for a speaker is kept in the speaker's stream. There is none before
the first packet, and none after a long silence, and a packet makes a new one.
-/

namespace PickleChat

open Keyed

variable {δ β α : Type} {o : Opus δ β α} {f : Samples α} {c : ClientId}

structure LocalSettings (α : Type) where
  muted : Bool
  gain : α
  deriving DecidableEq

def LocalSettings.fresh (f : Samples α) : LocalSettings α := ⟨false, f.one⟩

/-- What is wanted of a speaker after a step. Gains are never below zero. -/
def MixerOp.wanted (f : Samples α) (c : ClientId) (settings : LocalSettings α) : MixerOp β α → LocalSettings α
  | .setGain client gain => if client = c then { settings with gain := f.atLeastZero gain } else settings
  | .setMuted client muted => if client = c then { settings with muted } else settings
  | _ => settings

def wanted (f : Samples α) (c : ClientId) (ops : List (MixerOp β α)) : LocalSettings α :=
  ops.foldl (MixerOp.wanted f c) (.fresh f)

def SenderStream.settings (s : SenderStream δ β α) : LocalSettings α := ⟨s.muted, s.gain⟩

theorem SenderStream.render_settings (s : SenderStream δ β α) : (s.render o).settings = s.settings := by
  unfold render
  split <;> rfl

/-- A stream that is there takes what is set, and nothing else changes it. -/
theorem settings_onStream {settings : LocalSettings α} {stream : Option (SenderStream δ β α)}
    (h : ∀ s ∈ stream, s.settings = settings) (op : MixerOp β α)
    (hnew : ∀ packet decoder, op = .accept packet → packet.sender = c → stream = none → o.newDecoder = .ok decoder →
      settings = .fresh f) :
    ∀ s ∈ op.onStream o f c stream, s.settings = op.wanted f c settings := by
  intro s hs
  cases op with
  | accept packet =>
    simp only [MixerOp.onStream] at hs
    by_cases hc : packet.sender = c
    · rw [if_pos hc] at hs
      obtain ⟨s₀, hs₀, rfl⟩ := Option.map_eq_some_iff.mp hs
      rcases SenderStream.mem_found hs₀ with hs₀ | ⟨hnone, decoder, hdecoder, rfl⟩
      · exact h s₀ hs₀
      · exact (hnew packet decoder rfl hc hnone hdecoder).symm
    · rw [if_neg hc] at hs
      exact h s hs
  | render len =>
    simp only [MixerOp.onStream] at hs
    by_cases hlen : len = samplesPerFrame
    · rw [if_pos hlen] at hs
      obtain ⟨s₀, hs₀, hs⟩ := Option.bind_eq_some_iff.mp hs
      rw [SenderStream.mem_kept hs, SenderStream.render_settings]
      exact h s₀ hs₀
    · rw [if_neg hlen] at hs
      exact h s hs
  | setGain client gain =>
    simp only [MixerOp.onStream] at hs
    by_cases hc : client = c
    · rw [if_pos hc] at hs
      obtain ⟨s₀, hs₀, rfl⟩ := Option.map_eq_some_iff.mp hs
      simp only [MixerOp.wanted, if_pos hc, ← h s₀ hs₀]
      rfl
    · rw [if_neg hc] at hs
      simp only [MixerOp.wanted, if_neg hc, h s hs]
  | setMuted client muted =>
    simp only [MixerOp.onStream] at hs
    by_cases hc : client = c
    · rw [if_pos hc] at hs
      obtain ⟨s₀, hs₀, rfl⟩ := Option.map_eq_some_iff.mp hs
      simp only [MixerOp.wanted, if_pos hc, ← h s₀ hs₀]
      rfl
    · rw [if_neg hc] at hs
      simp only [MixerOp.wanted, if_neg hc, h s hs]
  | setMasterGain gain => exact h s hs
  | setDeafened deafened => exact h s hs
  | clearSpeakers => cases hs
  | remove client =>
    simp only [MixerOp.onStream] at hs
    by_cases hc : client = c
    · rw [if_pos hc] at hs
      cases hs
    · rw [if_neg hc] at hs
      exact h s hs
  | clear => cases hs

namespace VoiceMixer

/-- Whoever contributes to a frame has a stream, is not muted, and is scaled by the gain of that stream. -/
theorem mem_contributions {m : VoiceMixer δ β α} {x : ClientId × List α × α} (h : x ∈ m.contributions o f) :
    ∃ s, m.streams.get x.1 = some s ∧ s.muted = false ∧ m.deafened = false ∧ x.2.2 = f.mul s.gain m.masterGain := by
  obtain ⟨e, he, hx⟩ := List.mem_filterMap.mp h
  by_cases hsilent : (e.2.muted || m.deafened) = true
  · rw [if_pos hsilent] at hx
    cases hx
  · rw [if_neg hsilent] at hx
    obtain ⟨pcm, -, rfl⟩ := Option.map_eq_some_iff.mp hx
    obtain ⟨hmuted, hdeafened⟩ := Bool.or_eq_false_iff.mp (Bool.eq_false_iff.mpr hsilent)
    exact ⟨e.2, Assoc.get_of_mem he, hmuted, hdeafened, rfl⟩

/-- Whenever a packet makes a stream for the speaker, no other settings are wanted than those of a new stream. -/
def StartsFresh (o : Opus δ β α) (f : Samples α) (c : ClientId) (m : VoiceMixer δ β α) (settings : LocalSettings α) :
    List (MixerOp β α) → Prop
  | [] => True
  | op :: ops =>
    (∀ packet decoder, op = .accept packet → packet.sender = c → m.streams.get c = none →
        o.newDecoder = .ok decoder → settings = .fresh f) ∧
      StartsFresh o f c (m.exec o f op) (op.wanted f c settings) ops

theorem settings_run {m : VoiceMixer δ β α} {settings : LocalSettings α} {ops : List (MixerOp β α)}
    (h : ∀ s ∈ m.streams.get c, s.settings = settings) (hfresh : StartsFresh o f c m settings ops) :
    ∀ s ∈ (m.run o f ops).streams.get c, s.settings = ops.foldl (MixerOp.wanted f c) settings := by
  induction ops generalizing m settings with
  | nil => exact h
  | cons op ops ih =>
    refine ih (m := m.exec o f op) ?_ hfresh.2
    rw [exec_stream]
    exact settings_onStream h op hfresh.1

/-- What is set for a speaker lasts as long as no packet makes a stream without it. -/
theorem settings_last (o : Opus δ β α) (f : Samples α) (c : ClientId) (ops : List (MixerOp β α))
    (hfresh : StartsFresh o f c (new f) (.fresh f) ops) :
    ∀ x ∈ ((new f).run o f ops).contributions o f, x.1 = c →
      (wanted f c ops).muted = false ∧ x.2.2 = f.mul (wanted f c ops).gain ((new f).run o f ops).masterGain := by
  rintro x hx rfl
  obtain ⟨s, hs, hmuted, -, hgain⟩ := mem_contributions hx
  have hsettings : s.settings = wanted f x.1 ops := settings_run (fun s hs => by cases hs) hfresh s hs
  rw [← hsettings]
  exact ⟨hmuted, hgain⟩

theorem settings_last_gain : (wanted wholeSamples 7 [.accept ⟨7, 0, flagBurstStart, 10⟩, .setGain 7 5,
      .accept ⟨7, 1, 0, 11⟩, .accept ⟨7, 2, 0, 12⟩]).muted = false ∧
    5 = wholeSamples.mul (wanted wholeSamples 7 [.accept ⟨7, 0, flagBurstStart, 10⟩, .setGain 7 5,
      .accept ⟨7, 1, 0, 11⟩, .accept ⟨7, 2, 0, 12⟩]).gain
        ((new wholeSamples : VoiceMixer Unit Nat Int).run (silentOpus Nat) wholeSamples
          [.accept ⟨7, 0, flagBurstStart, 10⟩, .setGain 7 5, .accept ⟨7, 1, 0, 11⟩,
            .accept ⟨7, 2, 0, 12⟩]).masterGain := by
  refine settings_last (silentOpus Nat) wholeSamples 7 [.accept ⟨7, 0, flagBurstStart, 10⟩, .setGain 7 5,
    .accept ⟨7, 1, 0, 11⟩, .accept ⟨7, 2, 0, 12⟩] ⟨?_, ?_, ?_, ?_, trivial⟩
      (7, List.replicate samplesPerFrame 0, 5) (by decide +kernel) rfl
  · exact fun _ _ _ _ _ _ => rfl
  · nofun
  all_goals exact fun _ _ _ _ hnone => absurd hnone (by decide +kernel)

/-- Whoever is muted and silent for long is heard again. -/
theorem mute_forgotten : ¬ ∀ (c : ClientId) (ops : List (MixerOp Nat Int)), (∀ op ∈ ops, op.Keeps c) →
    ∀ x ∈ ((new wholeSamples : VoiceMixer Unit Nat Int).run (silentOpus Nat) wholeSamples ops).contributions
      (silentOpus Nat) wholeSamples, x.1 = c → (wanted wholeSamples c ops).muted = false := by
  intro h
  let packets : List (MixerOp Nat Int) :=
    [.accept ⟨7, 0, flagBurstStart, 10⟩, .accept ⟨7, 1, 0, 11⟩, .accept ⟨7, 2, flagBurstEnd, 12⟩]
  have hkeeps : ∀ op ∈ packets ++ .setMuted 7 true :: List.replicate 104 (.render samplesPerFrame) ++ packets,
      op.Keeps 7 := by
    intro op hop
    simp only [packets, List.mem_append, List.mem_cons, List.mem_replicate, List.not_mem_nil, or_false] at hop
    rcases hop with ((rfl | rfl | rfl) | rfl | ⟨-, rfl⟩) | (rfl | rfl | rfl) <;> trivial
  have hmuted := h 7 _ hkeeps (7, List.replicate samplesPerFrame 0, 1) (by decide +kernel) rfl
  revert hmuted
  decide +kernel

end VoiceMixer

end PickleChat
