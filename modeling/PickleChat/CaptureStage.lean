import PickleChat.Capture
import PickleChat.Lib.Blocks
import PickleChat.Resample

/-!
# The device side of capture

`CaptureStage` of `pickle-audio/src/engine.rs`: interleaved samples at the rate
of the device go through the downmix and the resampler to `Capture`. Samples
are exact. The buffers that only save allocations are given by their lengths.
-/

namespace PickleChat

def captureChunk : Nat := 256

def sampleRate : UInt32 := 48000

namespace Resampler

variable {r : Resampler}

theorem pull_pos (r : Resampler) (slots : Nat) :
    (r.pull slots).2 = { r with pos := r.pos + (r.pull slots).1.length * r.step } := by
  induction slots generalizing r with
  | zero => simp [pull]
  | succ slots ih =>
    unfold pull
    split
    · simp
    · simp only [ih, List.length_cons]
      congr 1
      push_cast
      ring

theorem pull_length_le (slots : Nat) : (r.pull slots).1.length ≤ slots := by
  induction slots generalizing r with
  | zero => exact Nat.le_refl 0
  | succ slots ih =>
    unfold pull
    split
    · exact Nat.zero_le _
    · exact Nat.succ_le_succ ih

theorem lt_of_pull_ne_nil {slots : Nat} (h : (r.pull slots).1 ≠ []) : r.pos + r.halfWidth < r.len := by
  cases slots with
  | zero => exact absurd rfl h
  | succ slots =>
    unfold pull at h
    split at h
    · exact absurd rfl h
    · next hlt => exact not_le.mp hlt

def pendingOutputs (r : Resampler) : Nat := ⌈(r.len - r.halfWidth - r.pos) / r.step⌉₊

theorem pendingOutputs_pull {slots : Nat} (h : (r.pull slots).1 ≠ []) :
    (r.pull slots).2.pendingOutputs < r.pendingOutputs := by
  have hlt := lt_of_pull_ne_nil h
  have hmade : (1 : ℚ) ≤ (r.pull slots).1.length := by exact_mod_cast List.length_pos_of_ne_nil h
  have hpos : 0 < (r.len - r.halfWidth - r.pos) / r.step := div_pos (by linarith) r.step_pos
  rw [pull_pos]
  unfold pendingOutputs
  have hless : ((r.len : ℚ) - r.halfWidth - (r.pos + (r.pull slots).1.length * r.step)) / r.step =
      (r.len - r.halfWidth - r.pos) / r.step - (r.pull slots).1.length := by
    have := r.step_pos.ne'
    field_simp
    ring
  have hceil := Nat.le_ceil ((r.len - r.halfWidth - r.pos) / r.step)
  have hceil_pos : 0 < ⌈(r.len - r.halfWidth - r.pos) / r.step⌉₊ := Nat.ceil_pos.mpr hpos
  change ⌈((r.len : ℚ) - r.halfWidth - (r.pos + (r.pull slots).1.length * r.step)) / r.step⌉₊ < _
  have hle : ⌈(r.len - r.halfWidth - r.pos) / r.step - (r.pull slots).1.length⌉₊ ≤
      ⌈(r.len - r.halfWidth - r.pos) / r.step⌉₊ - 1 := by
    rw [Nat.ceil_le, Nat.cast_sub hceil_pos]
    push_cast
    linarith
  rw [hless]
  omega

/-- The pulls into a buffer of some length, until one gives nothing. -/
def drain (slots : Nat) (r : Resampler) : List (List ℚ) × Resampler :=
  let made := r.pull slots
  if made.1 = [] then ([], made.2)
  else
    let rest := drain slots made.2
    (made.1 :: rest.1, rest.2)
termination_by r.pendingOutputs
decreasing_by exact pendingOutputs_pull ‹_›

/-- What a block of input is converted to. Input that is not accepted is left out. -/
def convert (slots : Nat) (r : Resampler) (input : List ℚ) : List (List ℚ) × Resampler :=
  if input = [] then ([], r)
  else
    let fed := r.feed input
    if fed.1 = 0 then ([], fed.2)
    else
      let drained := drain slots fed.2
      let rest := convert slots drained.2 (input.drop fed.1)
      (drained.1 ++ rest.1, rest.2)
termination_by input.length
decreasing_by
  rename_i hinput hfed
  have hpos : 0 < input.length := List.length_pos_of_ne_nil hinput
  have htaken : 0 < (r.feed input).1 := Nat.pos_of_ne_zero hfed
  rw [List.length_drop]
  omega

theorem mem_drain {slots : Nat} {slice : List ℚ} (h : slice ∈ (r.drain slots).1) : slice.length ≤ slots := by
  induction r using drain.induct slots with
  | case1 r made hdone =>
    rw [drain, if_pos hdone] at h
    cases h
  | case2 r made hmade ih =>
    rw [drain, if_neg hmade] at h
    rcases List.mem_cons.mp h with rfl | h
    · exact pull_length_le slots
    · exact ih h

theorem mem_convert {slots : Nat} {input slice : List ℚ} (h : slice ∈ (r.convert slots input).1) :
    slice.length ≤ slots := by
  induction r, input using convert.induct slots with
  | case1 r =>
    rw [convert, if_pos rfl] at h
    cases h
  | case2 r input hinput fed hfull =>
    rw [convert, if_neg hinput, if_pos hfull] at h
    cases h
  | case3 r input hinput fed htaken drained ih =>
    rw [convert, if_neg hinput, if_neg htaken] at h
    rcases List.mem_append.mp h with h | h
    · exact mem_drain h
    · exact ih h

end Resampler

/-! ## Slices of samples -/

namespace Capture
variable {α β ε ℓ : Type} (l : Loudness α ℓ) (x : OpusEncoder ε α β)

def pushAll (c : Capture ε α ℓ) : List (List α) → List (CapturedFrame β) × Capture ε α ℓ
  | [] => ([], c)
  | slice :: slices =>
    let sent := c.push l x slice
    let rest := sent.2.pushAll slices
    (sent.1 ++ rest.1, rest.2)

/-- The frames that `push` takes off the front of `pending` for `process`. -/
def framed (c : Capture ε α ℓ) (samples : List α) : List (VoiceFrame α) :=
  Blocks.blocks samplesPerFrame (c.pending ++ samples)

def framedAll (c : Capture ε α ℓ) : List (List α) → List (VoiceFrame α)
  | [] => []
  | slice :: slices => c.framed slice ++ (c.push l x slice).2.framedAll slices

/-- How many samples `pending` holds as each slice has been appended, which is when it holds the most. -/
def peaks (c : Capture ε α ℓ) : List (List α) → List Nat
  | [] => []
  | slice :: slices => (c.pending ++ slice).length :: (c.push l x slice).2.peaks slices

variable {l x}

/-- `push` gives the whole frames to `process`, in order, and keeps the rest. -/
theorem push_framed (c : Capture ε α ℓ) (samples : List α) : ∃ pending : List α,
    c.pending ++ samples = ((c.framed samples).map Subtype.val).flatten ++ pending ∧
      pending.length < samplesPerFrame ∧
        c.push l x samples = ({ c with pending }.emitted l x ((c.framed samples).map .frame),
          { c with pending }.run l x ((c.framed samples).map .frame)) := by
  obtain ⟨frames, pending, hsplit, hshort, hemit⟩ := emit_run l x { c with pending := c.pending ++ samples }
  have hframed : c.framed samples = frames := by
    unfold framed
    rw [show c.pending ++ samples = (frames.map Subtype.val).flatten ++ pending from hsplit,
      Blocks.blocks_append (by decide), Blocks.blocks_short hshort, List.append_nil]
  rw [hframed]
  exact ⟨pending, hsplit, hshort, hemit⟩

theorem run_pending (c : Capture ε α ℓ) (frames : List (VoiceFrame α)) :
    (c.run l x (frames.map .frame)).pending = c.pending := by
  induction frames generalizing c with
  | nil => rfl
  | cons frame frames ih => exact (ih _).trans (process_pending l x c frame.1)

theorem push_pending (c : Capture ε α ℓ) (samples : List α) :
    c.pending ++ samples = ((c.framed samples).map Subtype.val).flatten ++ (c.push l x samples).2.pending ∧
      (c.push l x samples).2.pending.length < samplesPerFrame := by
  obtain ⟨pending, hsplit, hshort, hpush⟩ := push_framed (l := l) (x := x) c samples
  rw [hpush, run_pending]
  exact ⟨hsplit, hshort⟩

theorem pushAll_pending {c : Capture ε α ℓ} (h : c.pending.length < samplesPerFrame) (slices : List (List α)) :
    (c.pushAll l x slices).2.pending.length < samplesPerFrame := by
  induction slices generalizing c with
  | nil => exact h
  | cons slice slices ih => exact ih (push_pending c slice).2

/-- However the samples are cut, the frames are the whole blocks of all of them. -/
theorem framedAll_eq {c : Capture ε α ℓ} (h : c.pending.length < samplesPerFrame) (slices : List (List α)) :
    c.framedAll l x slices = Blocks.blocks samplesPerFrame (c.pending ++ slices.flatten) ∧
      c.pending ++ slices.flatten =
        ((c.framedAll l x slices).map Subtype.val).flatten ++ (c.pushAll l x slices).2.pending := by
  induction slices generalizing c with
  | nil => simpa [framedAll, pushAll] using (Blocks.blocks_short h).symm
  | cons slice slices ih =>
    obtain ⟨hsplit, hshort⟩ := push_pending (l := l) (x := x) c slice
    obtain ⟨hframes, hrest⟩ := ih hshort
    rw [framedAll, hframes, List.flatten_cons, ← List.append_assoc, hsplit, List.append_assoc,
      Blocks.blocks_append (by decide), List.map_append, List.flatten_append, List.append_assoc, ← hframes]
    exact ⟨rfl, congrArg _ hrest⟩

theorem mem_peaks {c : Capture ε α ℓ} (h : c.pending.length < samplesPerFrame) {slices : List (List α)}
    {longest peak : Nat} (hslices : ∀ slice ∈ slices, slice.length ≤ longest) (hpeak : peak ∈ c.peaks l x slices) :
    peak < samplesPerFrame + longest := by
  induction slices generalizing c with
  | nil => cases hpeak
  | cons slice slices ih =>
    rcases List.mem_cons.mp hpeak with rfl | hpeak
    · have := hslices slice (by simp)
      rw [List.length_append]
      omega
    · exact ih (push_pending c slice).2 (fun s hs => hslices s (by simp [hs])) hpeak

end Capture

/-! ## The stage -/

structure CaptureStage (ε ℓ : Type) where
  capture : Capture ε ℚ ℓ
  /-- The capacity `pending` is made with. -/
  capacity : Nat
  /-- `none` when the device already runs at 48 kHz. -/
  resampler : Option Resampler
  /-- The length of the buffer that the resampler is pulled into. -/
  converted : Nat

structure Callback (τ ℓ : Type) where
  controls : CaptureControls ℓ
  data : List τ

def downmix {τ : Type} (toF32 : τ → ℚ) (frame : List τ) : ℚ := (frame.map toF32).sum / frame.length

def fillMono {τ : Type} (toF32 : τ → ℚ) (channels : Nat) (block : List τ) : List ℚ :=
  (Blocks.chunks channels block).map (downmix toF32)

namespace CaptureStage
variable {ε ℓ τ β : Type}

def new (l : Loudness ℚ ℓ) (kernel : List ℚ) (deviceRate : UInt32) (encoder : ε) (controls : CaptureControls ℓ) :
    CaptureStage ε ℓ :=
  let resampler := if deviceRate ≠ sampleRate then Resampler.new kernel deviceRate sampleRate captureChunk else none
  let converted := match resampler with
    | some r => r.maxOutputFor captureChunk
    | none => 0
  let maxPush := max converted captureChunk
  { capture := .new l encoder controls, capacity := samplesPerFrame + maxPush, resampler, converted }

/-- What `Capture` is given for a block, slice by slice, with the resampler afterwards. -/
def sliceBlock (converted : Nat) (resampler : Option Resampler) (mono : List ℚ) : List (List ℚ) × Option Resampler :=
  match resampler with
  | none => ([mono], none)
  | some r =>
    let sliced := r.convert converted mono
    (sliced.1, some sliced.2)

def sliceBlocks (converted : Nat) : Option Resampler → List (List ℚ) → List (List ℚ) × Option Resampler
  | resampler, [] => ([], resampler)
  | resampler, mono :: monos =>
    let sliced := sliceBlock converted resampler mono
    let rest := sliceBlocks converted sliced.2 monos
    (sliced.1 ++ rest.1, rest.2)

/-- What `Capture` is given for a callback: the two loops of `push`, but for what `Capture` does with it. -/
def slices (toF32 : τ → ℚ) (channels : Nat) (stage : CaptureStage ε ℓ) (data : List τ) :
    List (List ℚ) × Option Resampler :=
  if channels = 0 then ([], stage.resampler)
  else
    sliceBlocks stage.converted stage.resampler
      ((Blocks.chunks (captureChunk * channels) data).map (fillMono toF32 channels))

variable (l : Loudness ℚ ℓ) (x : OpusEncoder ε ℚ β) (toF32 : τ → ℚ) (channels : Nat)

def push (stage : CaptureStage ε ℓ) (data : List τ) : List (CapturedFrame β) × CaptureStage ε ℓ :=
  let sliced := stage.slices toF32 channels data
  let sent := stage.capture.pushAll l x sliced.1
  (sent.1, { stage with capture := sent.2, resampler := sliced.2 })

/-- The controls are atomics, which the user may have changed since the last callback. -/
def withControls (stage : CaptureStage ε ℓ) (controls : CaptureControls ℓ) : CaptureStage ε ℓ :=
  { stage with capture := { stage.capture with controls } }

def callback (stage : CaptureStage ε ℓ) (cb : Callback τ ℓ) : CaptureStage ε ℓ :=
  ((stage.withControls cb.controls).push l x toF32 channels cb.data).2

def run (stage : CaptureStage ε ℓ) (callbacks : List (Callback τ ℓ)) : CaptureStage ε ℓ :=
  callbacks.foldl (callback l x toF32 channels) stage

/-- The frames that `process` is given over a run. -/
def framed (stage : CaptureStage ε ℓ) : List (Callback τ ℓ) → List (VoiceFrame ℚ)
  | [] => []
  | cb :: callbacks =>
    (stage.withControls cb.controls).capture.framedAll l x (stage.slices toF32 channels cb.data).1 ++
      (stage.callback l x toF32 channels cb).framed callbacks

/-- The most that `pending` holds, each time it is appended to. -/
def peaks (stage : CaptureStage ε ℓ) : List (Callback τ ℓ) → List Nat
  | [] => []
  | cb :: callbacks =>
    (stage.withControls cb.controls).capture.peaks l x (stage.slices toF32 channels cb.data).1 ++
      (stage.callback l x toF32 channels cb).peaks callbacks

/-! ## Framing -/

variable {l x toF32 channels} {stage : CaptureStage ε ℓ} {resampler : Option Resampler} {converted : Nat}

theorem mem_sliceBlock {mono slice : List ℚ} (hmono : mono.length ≤ captureChunk)
    (h : slice ∈ (sliceBlock converted resampler mono).1) : slice.length ≤ max converted captureChunk := by
  cases resampler with
  | none =>
    rw [show slice = mono from List.mem_singleton.mp h]
    exact le_trans hmono (le_max_right _ _)
  | some r => exact le_trans (Resampler.mem_convert h) (le_max_left _ _)

theorem mem_sliceBlocks {monos : List (List ℚ)} {slice : List ℚ} (hmonos : ∀ mono ∈ monos, mono.length ≤ captureChunk)
    (h : slice ∈ (sliceBlocks converted resampler monos).1) : slice.length ≤ max converted captureChunk := by
  induction monos generalizing resampler with
  | nil => cases h
  | cons mono monos ih =>
    rcases List.mem_append.mp h with h | h
    · exact mem_sliceBlock (hmonos mono (by simp)) h
    · exact ih (fun m hm => hmonos m (by simp [hm])) h

theorem fillMono_length (hchannels : channels ≠ 0) {data block : List τ}
    (h : block ∈ Blocks.chunks (captureChunk * channels) data) :
    (fillMono toF32 channels block).length ≤ captureChunk ∧ fillMono toF32 channels block ≠ [] := by
  have hchunk : captureChunk ≠ 0 := by decide
  obtain ⟨hlength, hne⟩ := Blocks.mem_chunks (Nat.mul_ne_zero hchunk hchannels) h
  unfold fillMono
  rw [List.length_map]
  refine ⟨Blocks.length_chunks_le hchannels hchunk hlength, fun hnil => ?_⟩
  rw [List.map_eq_nil_iff, Blocks.chunks_cons hchannels hne] at hnil
  cases hnil

theorem mem_slices {data : List τ} {slice : List ℚ} (h : slice ∈ (stage.slices toF32 channels data).1) :
    slice.length ≤ max stage.converted captureChunk := by
  unfold slices at h
  split at h
  · cases h
  · next hchannels =>
    refine mem_sliceBlocks (fun mono hmono => ?_) h
    obtain ⟨block, hblock, rfl⟩ := List.mem_map.mp hmono
    exact (fillMono_length hchannels hblock).1

structure Fits (stage : CaptureStage ε ℓ) : Prop where
  capacity : stage.capacity = samplesPerFrame + max stage.converted captureChunk
  pending : stage.capture.pending.length < samplesPerFrame

theorem fits_new {kernel : List ℚ} {deviceRate : UInt32} {encoder : ε} {controls : CaptureControls ℓ} :
    (new l kernel deviceRate encoder controls).Fits :=
  ⟨rfl, show 0 < samplesPerFrame by decide⟩

theorem Fits.callback (h : stage.Fits) (cb : Callback τ ℓ) : (stage.callback l x toF32 channels cb).Fits :=
  ⟨h.capacity, Capture.pushAll_pending (c := (stage.withControls cb.controls).capture) h.pending _⟩

theorem Fits.run (h : stage.Fits) (callbacks : List (Callback τ ℓ)) :
    (stage.run l x toF32 channels callbacks).Fits := by
  induction callbacks generalizing stage with
  | nil => exact h
  | cons cb callbacks ih => exact ih (h.callback cb)

theorem Fits.peaks (h : stage.Fits) {callbacks : List (Callback τ ℓ)} {peak : Nat}
    (hpeak : peak ∈ stage.peaks l x toF32 channels callbacks) : peak ≤ stage.capacity := by
  induction callbacks generalizing stage with
  | nil => cases hpeak
  | cons cb callbacks ih =>
    rcases List.mem_append.mp hpeak with hpeak | hpeak
    · have hlt := Capture.mem_peaks (c := (stage.withControls cb.controls).capture) h.pending
        (fun slice hslice => mem_slices hslice) hpeak
      rw [h.capacity]
      exact Nat.le_of_lt hlt
    · have hnext : (stage.callback l x toF32 channels cb).Fits := h.callback cb
      have hle := ih hnext hpeak
      exact hle

theorem sliceBlocks_native (monos : List (List ℚ)) : sliceBlocks converted none monos = (monos, none) := by
  induction monos with
  | nil => rfl
  | cons mono monos ih =>
    unfold sliceBlocks sliceBlock
    simp only [ih, List.singleton_append]

theorem slices_native (hnative : stage.resampler = none) (hchannels : channels ≠ 0) (data : List τ) :
    (stage.slices toF32 channels data).1.flatten = (Blocks.chunks channels data).map (downmix toF32) ∧
      (stage.slices toF32 channels data).2 = none := by
  unfold slices
  rw [if_neg hchannels, hnative, sliceBlocks_native, ← Blocks.chunks_chunks hchannels (show captureChunk ≠ 0 by decide),
    List.map_flatMap, List.flatMap_def]
  exact ⟨rfl, rfl⟩

/-- At 48 kHz the frames are the whole blocks of what is pending and the downmix of all that comes. -/
theorem framed_native (h : stage.Fits) (hnative : stage.resampler = none) (hchannels : channels ≠ 0)
    (callbacks : List (Callback τ ℓ)) (hwhole : ∀ cb ∈ callbacks, channels ∣ cb.data.length) :
    stage.framed l x toF32 channels callbacks = Blocks.blocks samplesPerFrame
      (stage.capture.pending ++
        (Blocks.chunks channels (callbacks.flatMap Callback.data)).map (downmix toF32)) := by
  induction callbacks generalizing stage with
  | nil => simpa [framed] using (Blocks.blocks_short h.pending).symm
  | cons cb callbacks ih =>
    obtain ⟨hslices, hnone⟩ : (stage.slices toF32 channels cb.data).1.flatten =
        (Blocks.chunks channels cb.data).map (downmix toF32) ∧ (stage.slices toF32 channels cb.data).2 = none :=
      slices_native hnative hchannels cb.data
    obtain ⟨-, hsplit⟩ := Capture.framedAll_eq (l := l) (x := x) (c := (stage.withControls cb.controls).capture)
      h.pending (stage.slices toF32 channels cb.data).1
    have hfits : (stage.callback l x toF32 channels cb).Fits := h.callback cb
    have hrest := ih hfits hnone fun cb hcb => hwhole cb (by simp [hcb])
    rw [framed, hrest, List.flatMap_cons, Blocks.chunks_append hchannels (hwhole cb (by simp)), List.map_append,
      ← List.append_assoc, ← hslices]
    rw [show stage.capture.pending = (stage.withControls cb.controls).capture.pending from rfl, hsplit,
      List.append_assoc, Blocks.blocks_append (by decide)]
    rfl

/-- `pending` never holds a whole frame between callbacks and never outgrows its capacity; what `framed` names is what
`push` gives to `process`, and at 48 kHz it is the blocks of the downmix of all the input, however that was cut into
callbacks. -/
theorem capture_framing (l : Loudness ℚ ℓ) (x : OpusEncoder ε ℚ β) (kernel : List ℚ) (deviceRate : UInt32) (encoder : ε)
    (controls : CaptureControls ℓ) (toF32 : τ → ℚ) (channels : Nat) (callbacks : List (Callback τ ℓ)) :
    (∀ n, ((new l kernel deviceRate encoder controls).run l x toF32 channels
        (callbacks.take n)).capture.pending.length ≤ 959) ∧
      (∀ peak ∈ (new l kernel deviceRate encoder controls).peaks l x toF32 channels callbacks,
        peak ≤ (new l kernel deviceRate encoder controls).capacity) ∧
      (∀ (c : Capture ε ℚ ℓ) (samples : List ℚ), ∃ pending : List ℚ,
        c.push l x samples = ({ c with pending }.emitted l x ((c.framed samples).map .frame),
          { c with pending }.run l x ((c.framed samples).map .frame))) ∧
      (deviceRate = sampleRate → 1 ≤ channels → (∀ cb ∈ callbacks, channels ∣ cb.data.length) →
        (new l kernel deviceRate encoder controls).framed l x toF32 channels callbacks =
          Blocks.blocks samplesPerFrame
            ((Blocks.chunks channels (callbacks.flatMap Callback.data)).map (downmix toF32))) := by
  refine ⟨fun n => Nat.le_of_lt_succ (fits_new.run _).pending, fun peak => fits_new.peaks, fun c samples => ?_, ?_⟩
  · obtain ⟨pending, -, -, hpush⟩ := Capture.push_framed (l := l) (x := x) c samples
    exact ⟨pending, hpush⟩
  rintro rfl hchannels hwhole
  have hnative : (new l kernel sampleRate encoder controls).resampler = none := by
    unfold new
    simp only [ne_eq, not_true_eq_false, if_false]
  exact framed_native fits_new hnative (Nat.ne_of_gt hchannels) callbacks hwhole

end CaptureStage

end PickleChat
