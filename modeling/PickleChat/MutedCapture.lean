import PickleChat.Capture

/-!
# What is captured while muted

A frame captured while muted leaves no trace, unless a burst is open: the frame
that ends the burst is made of it.
-/

namespace PickleChat

/-- Two runs that differ in nothing but the frames captured while muted. -/
inductive Agree {α : Type} : Bool → List (CaptureOp α) → List (CaptureOp α) → Prop
  | nil (muted : Bool) : Agree muted [] []
  | frame {muted : Bool} {pcm pcm' : VoiceFrame α} {ops ops' : List (CaptureOp α)} (hpcm : muted = false → pcm = pcm')
      (h : Agree muted ops ops') : Agree muted (.frame pcm :: ops) (.frame pcm' :: ops')
  | setMuted {muted : Bool} (muted' : Bool) {ops ops' : List (CaptureOp α)} (h : Agree muted' ops ops') :
      Agree muted (.setMuted muted' :: ops) (.setMuted muted' :: ops')
  | setPushToTalkHeld {muted : Bool} (held : Bool) {ops ops' : List (CaptureOp α)} (h : Agree muted ops ops') :
      Agree muted (.setPushToTalkHeld held :: ops) (.setPushToTalkHeld held :: ops')
  | setGateMode {muted : Bool} (mode : GateMode) {ops ops' : List (CaptureOp α)} (h : Agree muted ops ops') :
      Agree muted (.setGateMode mode :: ops) (.setGateMode mode :: ops')

theorem Agree.refl {α : Type} (muted : Bool) (ops : List (CaptureOp α)) : Agree muted ops ops := by
  induction ops generalizing muted with
  | nil => exact .nil muted
  | cons op ops ih =>
    cases op with
    | frame pcm => exact .frame (fun _ => rfl) (ih muted)
    | setMuted muted' => exact .setMuted muted' (ih muted')
    | setPushToTalkHeld held => exact .setPushToTalkHeld held (ih muted)
    | setGateMode mode => exact .setGateMode mode (ih muted)

namespace Capture
variable {α β ε ℓ : Type} {l : Loudness α ℓ} {x : OpusEncoder ε α β} {c : Capture ε α ℓ}

/-- A frame that comes while muted finds no burst to end. -/
def Quiet (c : Capture ε α ℓ) : CaptureOp α → Prop
  | .frame _ => c.controls.muted = true → ¬ (c.transmitting = true ∧ c.gate.isOpen = true)
  | _ => True

/-- Every step of a run is quiet. -/
def QuietRun (l : Loudness α ℓ) (x : OpusEncoder ε α β) (c : Capture ε α ℓ) : List (CaptureOp α) → Prop
  | [] => True
  | op :: ops => c.Quiet op ∧ QuietRun l x (c.exec l x op).2 ops

/-- What is found of a muted frame is found without looking at it. -/
theorem classify_muted (hmuted : c.controls.muted = true) (frame frame' : List α) :
    c.classify l frame = c.classify l frame' := by
  simp only [classify, hmuted, if_true]

theorem process_quiet (hmuted : c.controls.muted = true) (hquiet : ¬ (c.transmitting = true ∧ c.gate.isOpen = true))
    (frame frame' : List α) : c.process l x frame = c.process l x frame' := by
  have hsilent : (c.classify l frame).1 = .silent := by
    unfold classify
    rw [if_pos hmuted]
    split
    · have hclosed : c.tuned.isOpen = false := Bool.eq_false_iff.mpr fun h => hquiet ⟨‹_›, h⟩
      simp [VoiceGate.close, hclosed]
    · rfl
  have hfound : c.classify l frame = (.silent, (c.classify l frame).2) := Prod.ext hsilent rfl
  have hfound' : c.classify l frame' = (.silent, (c.classify l frame).2) :=
    (classify_muted hmuted frame' frame).trans hfound
  rw [process_silent hfound, process_silent hfound']

theorem emitted_quiet {muted : Bool} {ops ops' : List (CaptureOp α)} (hagree : Agree muted ops ops')
    (hmuted : c.controls.muted = muted) (hquiet : QuietRun l x c ops) : c.emitted l x ops = c.emitted l x ops' := by
  induction hagree generalizing c with
  | nil muted => rfl
  | @frame muted pcm pcm' ops ops' hpcm h ih =>
    have hstep : c.exec l x (.frame pcm) = c.exec l x (.frame pcm') := by
      cases muted with
      | false => rw [hpcm rfl]
      | true => exact process_quiet hmuted (hquiet.1 hmuted) pcm.1 pcm'.1
    have hrest := ih (c := (c.exec l x (.frame pcm)).2) ((process_muted_kept l x c pcm).trans hmuted) hquiet.2
    simp only [emitted, ← hstep, hrest]
  | setMuted muted' h ih => exact ih rfl hquiet.2
  | setPushToTalkHeld held h ih => exact ih hmuted hquiet.2
  | setGateMode mode h ih => exact ih hmuted hquiet.2

/-- The end of a burst is made of what was captured while muted. -/
theorem process_ends {frame : VoiceFrame α} {payload : β} (hmuted : c.controls.muted = true)
    (htransmitting : c.transmitting = true) (hopen : c.gate.isOpen = true)
    (hpayload : (x.encode c.encoder.encoder frame).1 = .ok payload) :
    (c.process l x frame).1 = some ⟨c.encoder.seq, flagBurstEnd, payload⟩ := by
  have hends : (c.classify l frame).1 = .burstEnd := by
    have : c.tuned.isOpen = true := hopen
    simp [classify, hmuted, htransmitting, VoiceGate.close, this]
  exact (process_sent (Prod.ext hends rfl) (by decide) hpayload).1

def TellsApart (x : OpusEncoder ε α β) : Prop := ∀ e (pcm : VoiceFrame α), ∃ (pcm' : VoiceFrame α) (p p' : β),
  (x.encode e pcm).1 = .ok p ∧ (x.encode e pcm').1 = .ok p' ∧ p ≠ p'

theorem quiet_of_emitted (htells : TellsApart x) {ops : List (CaptureOp α)}
    (hsame : ∀ ops', Agree c.controls.muted ops ops' → c.emitted l x ops = c.emitted l x ops') :
    QuietRun l x c ops := by
  induction ops generalizing c with
  | nil => trivial
  | cons op ops ih =>
    have hrest : (∀ ops', Agree (c.exec l x op).2.controls.muted ops ops' →
        Agree c.controls.muted (op :: ops) (op :: ops')) →
        QuietRun l x (c.exec l x op).2 ops := by
      intro hagree
      exact ih fun ops' h => List.append_cancel_left (hsame (op :: ops') (hagree ops' h))
    cases op with
    | frame pcm =>
      refine ⟨fun hmuted hopen => ?_, hrest fun ops' h => .frame (fun _ => rfl) (process_muted_kept l x c pcm ▸ h)⟩
      obtain ⟨pcm', p, p', hp, hp', hne⟩ := htells c.encoder.encoder pcm
      have hemitted := hsame (.frame pcm' :: ops) (.frame (fun h => by rw [hmuted] at h; cases h) (Agree.refl _ ops))
      simp only [emitted, exec, process_ends hmuted hopen.1 hopen.2 hp,
        process_ends hmuted hopen.1 hopen.2 hp'] at hemitted
      exact hne (congrArg CapturedFrame.payload (List.cons.inj hemitted).1)
    | setMuted muted => exact ⟨trivial, hrest fun ops' h => .setMuted muted h⟩
    | setPushToTalkHeld held => exact ⟨trivial, hrest fun ops' h => .setPushToTalkHeld held h⟩
    | setGateMode mode => exact ⟨trivial, hrest fun ops' h => .setGateMode mode h⟩

/-- Nothing that is sent tells of the frames captured while muted, if no burst is open when they come, and otherwise
only if the encoder makes the same of all frames. -/
theorem muted_frames_private (l : Loudness α ℓ) (x : OpusEncoder ε α β) (c : Capture ε α ℓ)
    (ops : List (CaptureOp α)) :
    (QuietRun l x c ops → ∀ ops', Agree c.controls.muted ops ops' → c.emitted l x ops = c.emitted l x ops') ∧
      (TellsApart x → (∀ ops', Agree c.controls.muted ops ops' → c.emitted l x ops = c.emitted l x ops') →
        QuietRun l x c ops) :=
  ⟨fun hquiet _ hagree => emitted_quiet hagree rfl hquiet, fun htells hsame => quiet_of_emitted htells hsame⟩

theorem muted_frames_private_between : (new firstSample () (.new firstSample .continuous) :
    Capture Unit Int Int).emitted
      firstSample echoEncoder [.setMuted true, .frame (flatFrame 1), .setMuted false, .frame (flatFrame 2)] =
    (new firstSample () (.new firstSample .continuous) : Capture Unit Int Int).emitted firstSample echoEncoder
      [.setMuted true, .frame (flatFrame 9), .setMuted false, .frame (flatFrame 2)] := by
  refine (muted_frames_private firstSample echoEncoder (new firstSample () (.new firstSample .continuous))
    [.setMuted true, .frame (flatFrame 1), .setMuted false, .frame (flatFrame 2)]).1
    ⟨trivial, ?_, trivial, ?_, trivial⟩ _
      (.setMuted true (.frame nofun (.setMuted false (.frame (fun _ => rfl) (.nil false)))))
  · exact fun _ h => Bool.false_ne_true h.1
  · exact fun h => absurd h Bool.false_ne_true

/-- The frame that comes right after the user has muted is sent. -/
theorem mute_edge_sent : ¬ ∀ (c : Capture Unit Int Int) (ops ops' : List (CaptureOp Int)),
    Agree c.controls.muted ops ops' →
      c.emitted firstSample echoEncoder ops = c.emitted firstSample echoEncoder ops' := by
  intro h
  have hsame := h (new firstSample () (.new firstSample .continuous))
    [.frame (flatFrame 1), .setMuted true, .frame (flatFrame 2)]
    [.frame (flatFrame 1), .setMuted true, .frame (flatFrame 3)]
    (.frame (fun _ => rfl) (.setMuted true (.frame nofun (.nil true))))
  revert hsame
  decide +kernel

end Capture

end PickleChat
