import PickleChat.Bursts

/-!
# Capture

`pickle-audio/src/engine.rs`, `vad.rs` and the encoder of `codec.rs`: what of
the microphone goes on the wire. How loud a frame is and what Opus makes of it
come from outside. The scratch buffers, which only save allocations, are left
out.
-/

namespace PickleChat

/-! ## The gate -/

/-- `rms_dbfs`, and the levels it returns, which are `f32`. -/
structure Loudness (α ℓ : Type) where
  rmsDbfs : List α → ℓ
  /-- `>=`. -/
  atLeast : ℓ → ℓ → Bool
  /-- `min`. -/
  least : ℓ → ℓ → ℓ
  /-- `f32::NEG_INFINITY`. -/
  silence : ℓ
  dbfs : Int → ℓ

def frameMs : Nat := 20

def defaultOpenDbfs : Int := -40

def defaultCloseDbfs : Int := -50

def defaultHangoverMs : Nat := 300

inductive Activity where
  | silent
  | burstStart
  | speaking
  | burstEnd
  deriving DecidableEq

def Activity.shouldTransmit (a : Activity) : Bool := a ≠ .silent

def Activity.flags : Activity → UInt8
  | .burstStart => flagBurstStart
  | .burstEnd => flagBurstEnd
  | _ => 0

inductive GateMode where
  | voiceActivity
  | pushToTalk
  | continuous
  deriving DecidableEq

structure VoiceGate (ℓ : Type) where
  mode : GateMode
  openThreshold : ℓ
  closeThreshold : ℓ
  hangoverFrames : Nat
  hangoverRemaining : Nat
  isOpen : Bool
  lastDbfs : ℓ

section
variable {α β ε ℓ : Type}

namespace VoiceGate

def new (l : Loudness α ℓ) (mode : GateMode) (openDbfs closeDbfs : ℓ) (hangoverMs : Nat) : VoiceGate ℓ :=
  { mode
    openThreshold := openDbfs
    closeThreshold := l.least closeDbfs openDbfs
    hangoverFrames := (hangoverMs + frameMs - 1) / frameMs
    hangoverRemaining := 0
    isOpen := false
    lastDbfs := l.silence }

def default (l : Loudness α ℓ) : VoiceGate ℓ :=
  new l .voiceActivity (l.dbfs defaultOpenDbfs) (l.dbfs defaultCloseDbfs) defaultHangoverMs

/-- Whether the gate should be open for a frame of some level. -/
def wantOpen (l : Loudness α ℓ) (g : VoiceGate ℓ) (level : ℓ) (keyHeld : Bool) : Bool :=
  match g.mode with
  | .continuous => true
  | .pushToTalk => keyHeld
  | .voiceActivity => l.atLeast level (if g.isOpen then g.closeThreshold else g.openThreshold)

def update (l : Loudness α ℓ) (g : VoiceGate ℓ) (pcm : List α) (keyHeld : Bool) : Activity × VoiceGate ℓ :=
  let g := { g with lastDbfs := l.rmsDbfs pcm }
  if g.wantOpen l g.lastDbfs keyHeld then
    let g := { g with hangoverRemaining := g.hangoverFrames }
    if g.isOpen then (.speaking, g) else (.burstStart, { g with isOpen := true })
  else if g.isOpen then
    if 0 < g.hangoverRemaining then
      let g := { g with hangoverRemaining := g.hangoverRemaining - 1 }
      if g.hangoverRemaining = 0 then (.burstEnd, { g with isOpen := false }) else (.speaking, g)
    else (.burstEnd, { g with isOpen := false })
  else (.silent, g)

def close (g : VoiceGate ℓ) : Activity × VoiceGate ℓ :=
  if g.isOpen then (.burstEnd, { g with isOpen := false, hangoverRemaining := 0 }) else (.silent, g)

end VoiceGate

/-! ## The encoder -/

/-- What Opus makes of a frame, and of its own state. -/
structure OpusEncoder (ε α β : Type) where
  encode : ε → List α → Except String β × ε

structure VoiceEncoder (ε : Type) where
  encoder : ε
  seq : UInt32

namespace VoiceEncoder

def encode (x : OpusEncoder ε α β) (e : VoiceEncoder ε) (pcm : List α) : Except VoiceCodecError β × VoiceEncoder ε :=
  if pcm.length ≠ samplesPerFrame then (.error (.wrongFrameSize pcm.length), e)
  else
    let (written, encoder) := x.encode e.encoder pcm
    (written.mapError .opus, { e with encoder })

def nextSeq (e : VoiceEncoder ε) : UInt32 × VoiceEncoder ε := (e.seq, { e with seq := e.seq + 1 })

def resetSeq (e : VoiceEncoder ε) : VoiceEncoder ε := { e with seq := 0 }

end VoiceEncoder

/-! ## From samples to frames -/

structure CapturedFrame (β : Type) where
  seq : UInt32
  flags : UInt8
  payload : β
  deriving DecidableEq

/-- The gate mode as the atomic holds it. -/
def GateMode.encoded : GateMode → UInt8
  | .voiceActivity => 0
  | .pushToTalk => 1
  | .continuous => 2

structure CaptureControls (ℓ : Type) where
  muted : Bool
  pushToTalkHeld : Bool
  gateMode : UInt8
  levelDbfs : ℓ
  transmitting : Bool

namespace CaptureControls

/-- What `start` shares with the capture side. -/
def new (l : Loudness α ℓ) (mode : GateMode) : CaptureControls ℓ :=
  { muted := false, pushToTalkHeld := false, gateMode := mode.encoded, levelDbfs := l.silence, transmitting := false }

def mode (controls : CaptureControls ℓ) : GateMode :=
  if controls.gateMode = 1 then .pushToTalk else if controls.gateMode = 2 then .continuous else .voiceActivity

end CaptureControls

abbrev VoiceFrame (α : Type) := { pcm : List α // pcm.length = samplesPerFrame }

structure Capture (ε α ℓ : Type) where
  pending : List α
  gate : VoiceGate ℓ
  encoder : VoiceEncoder ε
  controls : CaptureControls ℓ
  transmitting : Bool

namespace Capture

def new (l : Loudness α ℓ) (encoder : ε) (controls : CaptureControls ℓ) : Capture ε α ℓ :=
  { pending := [], gate := .default l, encoder := ⟨encoder, 0⟩, controls, transmitting := false }

def tuned (c : Capture ε α ℓ) : VoiceGate ℓ := { c.gate with mode := c.controls.mode }

/-- What a frame is found to be, and the gate afterwards. -/
def classify (l : Loudness α ℓ) (c : Capture ε α ℓ) (frame : List α) : Activity × VoiceGate ℓ :=
  if c.controls.muted then
    if c.transmitting then c.tuned.close else (.silent, c.tuned)
  else c.tuned.update l frame c.controls.pushToTalkHeld

def process (l : Loudness α ℓ) (x : OpusEncoder ε α β) (c : Capture ε α ℓ) (frame : List α) :
    Option (CapturedFrame β) × Capture ε α ℓ :=
  let (activity, gate) := c.classify l frame
  let controls := { c.controls with levelDbfs := gate.lastDbfs, transmitting := activity.shouldTransmit }
  let c := { c with gate, controls }
  if !activity.shouldTransmit then (none, { c with transmitting := false })
  else
    let encoder := if activity = Activity.burstStart then c.encoder.resetSeq else c.encoder
    let c := { c with transmitting := activity ≠ Activity.burstEnd }
    match encoder.encode x frame with
    | (.ok payload, encoder) =>
      let (seq, encoder) := encoder.nextSeq
      (some ⟨seq, activity.flags, payload⟩, { c with encoder })
    | (.error _, encoder) => (none, { c with encoder })

@[simp] theorem process_pending (l : Loudness α ℓ) (x : OpusEncoder ε α β) (c : Capture ε α ℓ) (frame : List α) :
    (c.process l x frame).2.pending = c.pending := by
  simp only [process]
  split
  · rfl
  · split <;> rfl

@[simp] theorem process_muted_kept (l : Loudness α ℓ) (x : OpusEncoder ε α β) (c : Capture ε α ℓ) (frame : List α) :
    (c.process l x frame).2.controls.muted = c.controls.muted := by
  simp only [process]
  split
  · rfl
  · split <;> rfl

/-- The `while` loop of `push`. -/
def emit (l : Loudness α ℓ) (x : OpusEncoder ε α β) (c : Capture ε α ℓ) : List (CapturedFrame β) × Capture ε α ℓ :=
  if samplesPerFrame ≤ c.pending.length then
    let step := { c with pending := c.pending.drop samplesPerFrame }.process l x (c.pending.take samplesPerFrame)
    let rest := step.2.emit l x
    (step.1.toList ++ rest.1, rest.2)
  else ([], c)
termination_by c.pending.length
decreasing_by
  have hpos : 0 < samplesPerFrame := by decide
  rw [process_pending, List.length_drop]
  omega

def push (l : Loudness α ℓ) (x : OpusEncoder ε α β) (c : Capture ε α ℓ) (samples : List α) :
    List (CapturedFrame β) × Capture ε α ℓ :=
  { c with pending := c.pending ++ samples }.emit l x

end Capture

/-! ## Runs -/

inductive CaptureOp (α : Type) where
  | frame (pcm : VoiceFrame α)
  | setMuted (muted : Bool)
  | setPushToTalkHeld (held : Bool)
  | setGateMode (mode : GateMode)

namespace Capture
variable (l : Loudness α ℓ) (x : OpusEncoder ε α β)

def exec (c : Capture ε α ℓ) : CaptureOp α → Option (CapturedFrame β) × Capture ε α ℓ
  | .frame pcm => c.process l x pcm
  | .setMuted muted => (none, { c with controls := { c.controls with muted } })
  | .setPushToTalkHeld held => (none, { c with controls := { c.controls with pushToTalkHeld := held } })
  | .setGateMode mode => (none, { c with controls := { c.controls with gateMode := mode.encoded } })

def run (c : Capture ε α ℓ) (ops : List (CaptureOp α)) : Capture ε α ℓ := ops.foldl (fun c op => (c.exec l x op).2) c

def emitted (c : Capture ε α ℓ) : List (CaptureOp α) → List (CapturedFrame β)
  | [] => []
  | op :: ops => (c.exec l x op).1.toList ++ (c.exec l x op).2.emitted ops

theorem process_with_pending (c : Capture ε α ℓ) (pending frame : List α) :
    { c with pending }.process l x frame =
      ((c.process l x frame).1, { (c.process l x frame).2 with pending }) := by
  have hclassify : { c with pending }.classify l frame = c.classify l frame := rfl
  simp only [process, hclassify]
  split
  · rfl
  · split <;> rfl

/-- Samples come in pieces of any length, and go through `process` in frames. -/
theorem emit_run (c : Capture ε α ℓ) : ∃ (frames : List (VoiceFrame α)) (pending : List α),
    c.pending = (frames.map Subtype.val).flatten ++ pending ∧ pending.length < samplesPerFrame ∧
      c.emit l x =
        ({ c with pending }.emitted l x (frames.map .frame), { c with pending }.run l x (frames.map .frame)) := by
  induction c using emit.induct l x with
  | case1 c hlen step ih =>
    obtain ⟨frames, pending, hsplit, hshort, hemit⟩ := ih
    have hstep : step = { c with pending := c.pending.drop samplesPerFrame }.process l x
        (c.pending.take samplesPerFrame) :=
      rfl
    rw [hstep, process_pending] at hsplit
    refine ⟨⟨c.pending.take samplesPerFrame, List.length_take_of_le hlen⟩ :: frames, pending, ?_, hshort, ?_⟩
    · rw [List.map_cons, List.flatten_cons, List.append_assoc, ← hsplit, List.take_append_drop]
    · have hfirst : { c with pending }.process l x
          (c.pending.take samplesPerFrame) = (step.1, { step.2 with pending }) := by
        rw [hstep, process_with_pending l x c pending, process_with_pending l x c (c.pending.drop samplesPerFrame)]
      rw [emit, if_pos hlen, List.map_cons]
      simp only [emitted, run, List.foldl_cons, exec, hfirst]
      exact congrArg (fun r => (step.1.toList ++ r.1, r.2)) hemit
  | case2 c hlen =>
    refine ⟨[], c.pending, rfl, by omega, ?_⟩
    rw [emit, if_neg hlen]
    rfl

/-! ## The burst grammar -/

end Capture

/-- Frames that go on from a burst that is open at some number, or from none, and leave one open or not. -/
inductive BurstGrammar : Option UInt32 → List (CapturedFrame β) → Option UInt32 → Prop
  | done (next? : Option UInt32) : BurstGrammar next? [] next?
  | start (payload : β) {rest : List (CapturedFrame β)} {next? : Option UInt32} (h : BurstGrammar (some 1) rest next?) :
      BurstGrammar none (⟨0, flagBurstStart, payload⟩ :: rest) next?
  | talk (next : UInt32) (payload : β) {rest : List (CapturedFrame β)} {next? : Option UInt32}
      (h : BurstGrammar (some (next + 1)) rest next?) : BurstGrammar (some next) (⟨next, 0, payload⟩ :: rest) next?
  | stop (next : UInt32) (payload : β) {rest : List (CapturedFrame β)} {next? : Option UInt32}
      (h : BurstGrammar none rest next?) : BurstGrammar (some next) (⟨next, flagBurstEnd, payload⟩ :: rest) next?

/-- What a frame is found to be, and whether the gate is open before and after. -/
inductive Activity.Moves : Bool → Activity → Bool → Prop
  | silent : Moves false .silent false
  | burstStart : Moves false .burstStart true
  | speaking : Moves true .speaking true
  | burstEnd : Moves true .burstEnd false

theorem VoiceGate.update_moves (l : Loudness α ℓ) (g : VoiceGate ℓ) (pcm : List α) (keyHeld : Bool) :
    Activity.Moves g.isOpen (g.update l pcm keyHeld).1 (g.update l pcm keyHeld).2.isOpen := by
  simp only [update]
  cases hopen : g.isOpen with
  | false =>
    split
    · exact .burstStart
    · simp only [Bool.false_eq_true, if_false]
      exact .silent
  | true =>
    split
    · simp only [if_true]
      exact .speaking
    · simp only [if_true]
      split
      · split
        · exact .burstEnd
        · exact .speaking
      · exact .burstEnd

theorem VoiceGate.close_moves (g : VoiceGate ℓ) : Activity.Moves g.isOpen g.close.1 g.close.2.isOpen := by
  unfold close
  cases hopen : g.isOpen with
  | false =>
    simp only [Bool.false_eq_true, if_false, hopen]
    exact .silent
  | true => exact .burstEnd

namespace Capture
variable {l : Loudness α ℓ} {x : OpusEncoder ε α β} {c : Capture ε α ℓ}

theorem classify_moves (hsync : c.transmitting = c.gate.isOpen) (frame : List α) :
    Activity.Moves c.gate.isOpen (c.classify l frame).1 (c.classify l frame).2.isOpen := by
  unfold classify
  split
  · split
    · exact c.tuned.close_moves
    · have hclosed : c.tuned.isOpen = false := by
        rw [show c.tuned.isOpen = c.transmitting from hsync.symm]
        exact Bool.eq_false_iff.mpr ‹_›
      show Activity.Moves c.tuned.isOpen .silent c.tuned.isOpen
      rw [hclosed]
      exact .silent
  · exact VoiceGate.update_moves l c.tuned frame _

def openBurst (c : Capture ε α ℓ) : Option UInt32 := if c.transmitting then some c.encoder.seq else none

theorem encode_ok {e : VoiceEncoder ε} {frame : VoiceFrame α} {payload : β}
    (h : (x.encode e.encoder frame).1 = .ok payload) :
    e.encode x frame.1 = (.ok payload, { e with encoder := (x.encode e.encoder frame).2 }) := by
  simp only [VoiceEncoder.encode, if_neg (not_not.mpr frame.2), h]
  rfl

theorem process_silent {frame : List α} {gate : VoiceGate ℓ} (h : c.classify l frame = (.silent, gate)) :
    c.process l x frame = (none, { c with
      gate, controls := { c.controls with levelDbfs := gate.lastDbfs, transmitting := false }, transmitting :=
        false }) := by
  simp only [process, h]
  rfl

theorem process_sent {frame : VoiceFrame α} {activity : Activity} {gate : VoiceGate ℓ} {payload : β}
    (h : c.classify l frame = (activity, gate)) (hsends : activity ≠ .silent)
    (hpayload : (x.encode c.encoder.encoder frame).1 = .ok payload) :
    (c.process l x frame).1 =
        some ⟨if activity = .burstStart then 0 else c.encoder.seq, activity.flags, payload⟩ ∧
      (c.process l x frame).2.encoder.seq = (if activity = .burstStart then 0 else c.encoder.seq) + 1 ∧
      (c.process l x frame).2.transmitting = decide (activity ≠ .burstEnd) ∧ (c.process l x frame).2.gate = gate := by
  have hencoder : (if activity = .burstStart then c.encoder.resetSeq else c.encoder).encoder = c.encoder.encoder := by
    split <;> rfl
  have hseq : (if activity = .burstStart then c.encoder.resetSeq else c.encoder).seq =
      if activity = .burstStart then 0 else c.encoder.seq := by
    split <;> rfl
  have htransmit : activity.shouldTransmit = true := decide_eq_true hsends
  rw [← hencoder] at hpayload
  simp only [process, h, htransmit, encode_ok hpayload, ← hseq]
  exact ⟨rfl, rfl, rfl, rfl⟩

theorem process_grammar (hsync : c.transmitting = c.gate.isOpen) (frame : VoiceFrame α)
    (hencodes : ∀ e, ∃ payload, (x.encode e frame).1 = .ok payload) :
    (c.process l x frame).2.transmitting = (c.process l x frame).2.gate.isOpen ∧
      ∀ rest next?, BurstGrammar (c.process l x frame).2.openBurst rest next? →
        BurstGrammar c.openBurst ((c.process l x frame).1.toList ++ rest) next? := by
  have hmoves := classify_moves (l := l) hsync frame.1
  obtain ⟨payload, hpayload⟩ := hencodes c.encoder.encoder
  unfold openBurst
  rw [hsync]
  generalize hnext : c.classify l frame.1 = next at hmoves
  obtain ⟨activity, gate⟩ := next
  generalize hbefore : c.gate.isOpen = before at hmoves
  generalize hafter : gate.isOpen = after at hmoves
  cases hmoves with
  | silent =>
    rw [process_silent hnext]
    exact ⟨hafter.symm, fun rest next? h => h⟩
  | burstStart =>
    obtain ⟨hsent, hseq, htransmitting, hgate⟩ := process_sent hnext (by decide) hpayload
    rw [hsent, hseq, htransmitting, hgate]
    exact ⟨hafter.symm, fun rest next? h => .start payload h⟩
  | speaking =>
    obtain ⟨hsent, hseq, htransmitting, hgate⟩ := process_sent hnext (by decide) hpayload
    rw [hsent, hseq, htransmitting, hgate]
    exact ⟨hafter.symm, fun rest next? h => .talk _ payload h⟩
  | burstEnd =>
    obtain ⟨hsent, hseq, htransmitting, hgate⟩ := process_sent hnext (by decide) hpayload
    rw [hsent, hseq, htransmitting, hgate]
    exact ⟨hafter.symm, fun rest next? h => .stop _ payload h⟩

theorem run_grammar {ops : List (CaptureOp α)} (hsync : c.transmitting = c.gate.isOpen)
    (hencodes : ∀ e (pcm : VoiceFrame α), .frame pcm ∈ ops → ∃ payload, (x.encode e pcm).1 = .ok payload) :
    (c.run l x ops).transmitting = (c.run l x ops).gate.isOpen ∧
      BurstGrammar c.openBurst (c.emitted l x ops) (c.run l x ops).openBurst := by
  induction ops generalizing c with
  | nil => exact ⟨hsync, .done _⟩
  | cons op ops ih =>
    have hencodes' := fun e pcm hmem => hencodes e pcm (List.mem_cons_of_mem op hmem)
    cases op with
    | frame pcm =>
      obtain ⟨hsync', hgrammar⟩ := process_grammar (l := l) hsync pcm fun e => hencodes e pcm List.mem_cons_self
      obtain ⟨hlast, hrest⟩ := ih hsync' hencodes'
      exact ⟨hlast, hgrammar _ _ hrest⟩
    | setMuted muted => exact ih (c := { c with controls := { c.controls with muted } }) hsync hencodes'
    | setPushToTalkHeld held =>
      exact ih (c := { c with controls := { c.controls with pushToTalkHeld := held } }) hsync hencodes'
    | setGateMode mode =>
      exact ih (c := { c with controls := { c.controls with gateMode := mode.encoded } }) hsync hencodes'

/-- While it is muted the capture side sends nothing but the end of a burst that is open. -/
theorem process_muted (hmuted : c.controls.muted = true) (frame : List α) :
    ∀ sent ∈ (c.process l x frame).1,
      sent.flags = flagBurstEnd ∧ c.transmitting = true ∧ (c.process l x frame).2.transmitting = false := by
  have hsilent : ∀ gate, c.classify l frame = (.silent, gate) → ∀ sent ∈ (c.process l x frame).1, False := by
    intro gate hnext
    rw [process_silent hnext]
    nofun
  intro sent hsent
  cases htransmitting : c.transmitting with
  | false =>
    have hnext : c.classify l frame = (.silent, c.tuned) := by simp [classify, hmuted, htransmitting]
    exact (hsilent _ hnext sent hsent).elim
  | true =>
    cases hopen : c.tuned.isOpen with
    | false =>
      have hnext : c.classify l frame = (.silent, c.tuned) := by
        simp [classify, hmuted, htransmitting, VoiceGate.close, hopen]
      exact (hsilent _ hnext sent hsent).elim
    | true =>
      have hnext : (c.classify l frame).1 = .burstEnd := by
        simp [classify, hmuted, htransmitting, VoiceGate.close, hopen]
      have hsends : Activity.burstEnd.shouldTransmit = true := rfl
      simp only [process, hnext, hsends, Bool.not_true, Bool.false_eq_true, if_false] at hsent ⊢
      split at hsent
      · obtain rfl := Option.some.inj hsent
        exact ⟨rfl, trivial, rfl⟩
      · cases hsent

/-- What the capture side sends is one burst after another, whatever is captured and set in between. -/
theorem capture_grammar (l : Loudness α ℓ) (x : OpusEncoder ε α β) (encoder : ε) (controls : CaptureControls ℓ)
    (ops : List (CaptureOp α)) (hencodes : ∀ e (pcm : VoiceFrame α), .frame pcm ∈ ops →
      ∃ payload, (x.encode e pcm).1 = .ok payload) :
    let start : Capture ε α ℓ := new l encoder controls
    BurstGrammar none (start.emitted l x ops) (start.run l x ops).openBurst ∧
      (start.run l x ops).transmitting = (start.run l x ops).gate.isOpen ∧
        ((start.run l x ops).controls.muted = true → ∀ pcm : VoiceFrame α,
          ∀ sent ∈ ((start.run l x ops).process l x pcm).1, sent.flags = flagBurstEnd ∧
            (start.run l x ops).transmitting = true ∧
            ((start.run l x ops).process l x pcm).2.transmitting = false) := by
  intro start
  obtain ⟨hsync, hgrammar⟩ := run_grammar (l := l) (x := x) (c := start) rfl hencodes
  exact ⟨hgrammar, hsync, fun hmuted pcm => process_muted hmuted pcm⟩

end Capture

/-! A meter that reads the first sample, and an encoder that keeps nothing else. -/

def firstSample : Loudness Int Int where
  rmsDbfs pcm := pcm.headD 0
  atLeast level threshold := threshold ≤ level
  least := min
  silence := -1000
  dbfs n := n

def echoEncoder : OpusEncoder Unit Int Int where
  encode _ pcm := (.ok (pcm.headD 0), ())

def flatFrame (sample : Int) : VoiceFrame Int := ⟨List.replicate samplesPerFrame sample, List.length_replicate⟩

namespace Capture

theorem capture_grammar_mute : BurstGrammar none
    ((new firstSample () (.new firstSample .continuous) : Capture Unit Int Int).emitted firstSample echoEncoder
      [.frame (flatFrame 1), .frame (flatFrame 2), .setMuted true, .frame (flatFrame 3)]) none := by
  have hclosed : ((new firstSample () (.new firstSample .continuous) : Capture Unit Int Int).run firstSample echoEncoder
      [.frame (flatFrame 1), .frame (flatFrame 2), .setMuted true, .frame (flatFrame 3)]).openBurst = none := by
    decide +kernel
  obtain ⟨h, -⟩ := capture_grammar firstSample echoEncoder () (.new firstSample .continuous)
    [.frame (flatFrame 1), .frame (flatFrame 2), .setMuted true, .frame (flatFrame 3)] fun _ _ _ => ⟨_, rfl⟩
  rwa [hclosed] at h

end Capture

/-! ## What the mixer gets -/

def CapturedFrame.packet (c : ClientId) (frame : CapturedFrame β) : VoicePacket β :=
  ⟨c, frame.seq, frame.flags, frame.payload⟩

theorem talk_more (c : ClientId) (seq : UInt32) (p : β) {q : List β} (hq : q ≠ []) :
    talk c seq (p :: q) = ⟨c, seq, 0, p⟩ :: talk c (seq + 1) q := by
  cases q with
  | nil => exact absurd rfl hq
  | cons p' q => rfl

/-- Frames that leave no burst open are the rest of the one that was, and whole bursts of at least two frames. -/
theorem whole_bursts (c : ClientId) {next? last? : Option UInt32} {frames : List (CapturedFrame β)}
    (h : BurstGrammar next? frames last?) (hclose : last? = none) :
    ∃ (q : List β) (bursts : List (List β)), (∀ next ∈ next?, q ≠ []) ∧ (∀ b ∈ bursts, 2 ≤ b.length) ∧
      frames.map (·.packet c) =
        (next?.elim [] fun next => talk c next q) ++ (bursts.map (burst c 0)).flatten := by
  induction h with
  | done next? =>
    subst hclose
    exact ⟨[], [], nofun, nofun, rfl⟩
  | start payload h ih =>
    obtain ⟨q, bursts, hq, hlong, heq⟩ := ih hclose
    have hq := hq 1 rfl
    refine ⟨[], (payload :: q) :: bursts, nofun, List.forall_mem_cons.mpr ⟨?_, hlong⟩, ?_⟩
    · have := List.length_pos_iff.mpr hq
      rw [List.length_cons]
      omega
    · rw [List.map_cons, heq, List.map_cons, List.flatten_cons]
      cases q with
      | nil => exact absurd rfl hq
      | cons p q => rfl
  | talk next payload h ih =>
    obtain ⟨q, bursts, hq, hlong, heq⟩ := ih hclose
    refine ⟨payload :: q, bursts, fun _ _ => List.cons_ne_nil _ _, hlong, ?_⟩
    rw [List.map_cons, heq]
    simp only [Option.elim, talk_more c next payload (hq _ rfl)]
    rfl
  | stop next payload h ih =>
    obtain ⟨q, bursts, -, hlong, heq⟩ := ih hclose
    refine ⟨[payload], bursts, fun _ _ => List.cons_ne_nil _ _, hlong, ?_⟩
    rw [List.map_cons, heq]
    rfl

/-- Once no burst is open, all that was sent is bursts as the mixer takes them. -/
theorem sent_bursts (l : Loudness α ℓ) (x : OpusEncoder ε α β) (c : ClientId) (encoder : ε)
    (controls : CaptureControls ℓ) (ops : List (CaptureOp α))
    (hencodes : ∀ e (pcm : VoiceFrame α), .frame pcm ∈ ops → ∃ payload, (x.encode e pcm).1 = .ok payload)
    (hclosed : ((Capture.new l encoder controls).run l x ops).transmitting = false) :
    ∃ bursts : List (List β), (∀ b ∈ bursts, 2 ≤ b.length) ∧
      ((Capture.new l encoder controls).emitted l x ops).map (·.packet c) = (bursts.map (burst c 0)).flatten := by
  obtain ⟨-, hgrammar⟩ := Capture.run_grammar (l := l) (x := x) (c := Capture.new l encoder controls) rfl hencodes
  obtain ⟨q, bursts, -, hlong, heq⟩ := whole_bursts c hgrammar (by simp [Capture.openBurst, hclosed])
  exact ⟨bursts, hlong, heq⟩

end

end PickleChat
