import PickleChat.CaptureStage

/-!
# No sample is dropped for want of room

`Playback::refill` of `pickle-audio/src/engine.rs`, and what both sides of the
device rely on: a resampler that has nothing more to give takes as much as it
was made for. So `Capture` is given all that the samples of the device are
converted to, and the device plays all that the frames of the mixer are.
-/

namespace PickleChat

def maxRefillRounds : Nat := 8

namespace Resampler

/-- The loop that feeds a rendered frame. Input that is not accepted is left out. -/
def feedAll (r : Resampler) (input : List ℚ) : Resampler :=
  if input = [] then r
  else
    let fed := r.feed input
    if fed.1 = 0 then fed.2 else feedAll fed.2 (input.drop fed.1)
termination_by input.length
decreasing_by
  rename_i hinput hfed
  have hpos : 0 < input.length := List.length_pos_of_ne_nil hinput
  have htaken : 0 < (r.feed input).1 := Nat.pos_of_ne_zero hfed
  rw [List.length_drop]
  omega

end Resampler

/-- `Playback`, between the mixer and the device. -/
structure DevicePlayback (μ : Type) where
  mixer : μ
  /-- `none` when the device already runs at 48 kHz. -/
  resampler : Option Resampler
  ready : List ℚ
  filled : Nat
  position : Nat

namespace DevicePlayback
variable {μ : Type}

def new (kernel : List ℚ) (deviceRate : UInt32) (mixer : μ) : DevicePlayback μ :=
  let resampler := if deviceRate ≠ sampleRate then Resampler.new kernel sampleRate deviceRate samplesPerFrame else none
  let ready := match resampler with
    | some r => List.replicate (r.maxOutputFor samplesPerFrame) 0
    | none => List.replicate samplesPerFrame 0
  { mixer, resampler, ready, filled := 0, position := 0 }

variable (render : μ → VoiceFrame ℚ × μ)

/-- The loop of `refill`: it returns with what a pull gave, or its rounds are over. -/
def refillRounds : Nat → Resampler → DevicePlayback μ → Except (DevicePlayback μ) (DevicePlayback μ)
  | 0, r, p => .error { p with resampler := some r }
  | rounds + 1, r, p =>
    let made := r.pull p.ready.length
    if made.1 ≠ [] then
      .ok { p with resampler := some made.2, ready := made.1 ++ p.ready.drop made.1.length, filled := made.1.length }
    else
      let rendered := render p.mixer
      refillRounds rounds (made.2.feedAll rendered.1) { p with mixer := rendered.2 }

def refill (p : DevicePlayback μ) : DevicePlayback μ :=
  match p.resampler with
  | none =>
    let rendered := render p.mixer
    { p with mixer := rendered.2, ready := rendered.1, filled := p.ready.length }
  | some r =>
    match refillRounds render maxRefillRounds r p with
    | .ok p => p
    -- Silence.
    | .error p => { p with ready := List.replicate p.ready.length 0, filled := p.ready.length }

def nextSample (p : DevicePlayback μ) : ℚ × DevicePlayback μ :=
  let p := if p.filled ≤ p.position then { p.refill render with position := 0 } else p
  match p.ready[p.position]? with
  | some sample => (sample, { p with position := p.position + 1 })
  | none => (0, p)

def run (p : DevicePlayback μ) : Nat → DevicePlayback μ
  | 0 => p
  | n + 1 => ((p.run n).nextSample render).2

def played (p : DevicePlayback μ) : Nat → List ℚ
  | 0 => []
  | n + 1 => p.played n ++ [((p.run render n).nextSample render).1]

end DevicePlayback

/-! ## Room for what comes -/

namespace Resampler
variable {r : Resampler} {fed : List ℚ} {k dropped slots maxFeed : Nat} {kernel : List ℚ} {inRate outRate : UInt32}

/-- Nothing more to give. -/
theorem not_ready_outputs : ¬ r.Ready fed (r.outputs fed) := fun h => Nat.lt_irrefl _ (ready_iff.mp h)

theorem pull_dry (h : r.Reaches fed k dropped) (hdry : ¬ r.Ready fed k) (slots : Nat) :
    (r.after fed k dropped).pull slots = ([], r.after fed k dropped) := by
  cases slots with
  | zero => rfl
  | succ slots =>
    rw [pull, if_pos]
    exact (len_le_iff h).mpr hdry

/-- A pull that finds an output ready gives it, and the last of what it gives was ready too. -/
theorem pull_ready (h : r.Reaches fed k dropped) (hslots : 0 < slots) (hready : r.Ready fed k) :
    ∃ made < slots, (r.after fed k dropped).pull slots =
        ((List.range' k (made + 1)).map (r.offline (fed.getD · 0)), r.after fed (k + made + 1) dropped) ∧
      r.Reaches fed (k + made + 1) dropped ∧ r.Ready fed (k + made) := by
  obtain ⟨made, hmade, hpull, hreaches, hall, hend⟩ := pull_after h slots
  cases made with
  | zero => exact absurd hready (hend hslots)
  | succ made => exact ⟨made, by omega, hpull, hreaches, hall made (Nat.lt_succ_self made)⟩

/-- A drained resampler has given all that is ready. -/
theorem drain_after (hslots : 0 < slots) {r' : Resampler} :
    ∀ {k : Nat}, r' = r.after fed k dropped → r.Reaches fed k dropped → k ≤ r.outputs fed →
      (drain slots r').1.flatten = (List.range' k (r.outputs fed - k)).map (r.offline (fed.getD · 0)) ∧
        (drain slots r').2 = r.after fed (r.outputs fed) dropped ∧ r.Reaches fed (r.outputs fed) dropped := by
  induction r' using drain.induct slots with
  | case1 r' made =>
    rename_i hdone
    rintro k rfl h hk
    have hend : r.outputs fed = k := by
      by_contra hne
      obtain ⟨n, -, hpull, -⟩ := pull_ready h hslots (ready_iff.mpr (by omega))
      rw [show made = _ from hpull] at hdone
      simp at hdone
    have hsame := pull_dry h (hend ▸ not_ready_outputs) slots
    rw [drain, if_pos hdone, hend, Nat.sub_self]
    exact ⟨rfl, congrArg Prod.snd hsame, h⟩
  | case2 r' made hmade =>
    rename_i ih
    rintro k rfl h hk
    have hready : r.Ready fed k := by
      by_contra hdry
      exact hmade (congrArg Prod.fst (pull_dry h hdry slots))
    obtain ⟨n, -, hpull, hreaches, hlast⟩ := pull_ready h hslots hready
    have hn := ready_iff.mp hlast
    obtain ⟨hflat, hrest⟩ := ih (congrArg Prod.snd hpull) hreaches (by omega)
    rw [drain, if_neg hmade]
    refine ⟨?_, hrest⟩
    rw [List.flatten_cons, hflat, show made.1 = _ from congrArg Prod.fst hpull, ← List.map_append]
    have hcount : r.outputs fed - k = n + 1 + (r.outputs fed - (k + n + 1)) := by omega
    rw [hcount]
    exact congrArg (List.map _) List.range'_append_1

theorem feedAll_dry (hnew : new kernel inRate outRate maxFeed = some r) (h : r.Reaches fed k dropped)
    (hdry : ¬ r.Ready fed k) {input : List ℚ} (hinput : input.length ≤ maxFeed) :
    ∃ dropped', (r.after fed k dropped).feedAll input = r.after (fed ++ input) k dropped' ∧
      r.Reaches (fed ++ input) k dropped' := by
  by_cases hnil : input = []
  · subst hnil
    rw [feedAll, if_pos rfl, List.append_nil]
    exact ⟨dropped, rfl, h⟩
  · obtain ⟨dropped', hfeed, hreaches⟩ := feed_of_dry hnew h hdry hinput
    have hlength : input.length ≠ 0 := mt List.length_eq_zero_iff.mp hnil
    refine ⟨dropped', ?_, hreaches⟩
    rw [feedAll, if_neg hnil, hfeed]
    simp only [if_neg hlength, List.drop_length]
    rw [feedAll, if_pos rfl]

/-- A drained resampler turns a block into all the outputs that it adds. -/
theorem convert_after (hnew : new kernel inRate outRate maxFeed = some r)
    (h : r.Reaches fed (r.outputs fed) dropped) (hslots : 0 < slots) {input : List ℚ} (hinput : input.length ≤ maxFeed) :
    ∃ dropped', r.conversion (fed ++ input) =
        r.conversion fed ++ ((r.after fed (r.outputs fed) dropped).convert slots input).1.flatten ∧
      ((r.after fed (r.outputs fed) dropped).convert slots input).2 =
        r.after (fed ++ input) (r.outputs (fed ++ input)) dropped' ∧
      r.Reaches (fed ++ input) (r.outputs (fed ++ input)) dropped' := by
  by_cases hnil : input = []
  · subst hnil
    rw [convert, if_pos rfl, List.append_nil, List.flatten_nil, List.append_nil]
    exact ⟨dropped, rfl, rfl, h⟩
  · obtain ⟨dropped', hfeed, hreaches⟩ := feed_of_dry hnew h not_ready_outputs hinput
    have hlength : input.length ≠ 0 := mt List.length_eq_zero_iff.mp hnil
    obtain ⟨hflat, hdrained, hreaches'⟩ := drain_after hslots rfl hreaches (r.outputs_append fed input)
    refine ⟨dropped', ?_, ?_, hreaches'⟩
    · rw [convert, if_neg hnil, hfeed]
      simp only [if_neg hlength, List.drop_length]
      rw [convert, if_pos rfl, List.append_nil, hflat]
      exact conversion_append fed input
    · rw [convert, if_neg hnil, hfeed]
      simp only [if_neg hlength, List.drop_length]
      rw [convert, if_pos rfl]
      exact hdrained

end Resampler

/-- What samples become at the rate of a resampler, or without one. -/
def conversionBy : Option Resampler → List ℚ → List ℚ
  | some r, input => r.conversion input
  | none, input => input

/-! ## Capture -/

def downmixed {τ : Type} (toF32 : τ → ℚ) (channels : Nat) (data : List τ) : List ℚ :=
  (Blocks.chunks channels data).map (downmix toF32)

namespace CaptureStage
variable {ε ℓ τ β : Type} {l : Loudness ℚ ℓ} {x : OpusEncoder ε ℚ β} {toF32 : τ → ℚ} {channels : Nat}
variable {stage : CaptureStage ε ℓ} {converted : Nat} {device resampler : Option Resampler} {fed : List ℚ}

/-- The device's resampler, if it needs one, has given all that the samples so far are converted to. -/
inductive Drained (converted : Nat) : Option Resampler → List ℚ → Option Resampler → Prop
  | native {fed : List ℚ} : Drained converted none fed none
  | resampled {kernel : List ℚ} {inRate outRate : UInt32} {r : Resampler} {fed : List ℚ} {dropped : Nat} :
      Resampler.new kernel inRate outRate captureChunk = some r → 0 < converted →
      r.Reaches fed (r.outputs fed) dropped →
      Drained converted (some r) fed (some (r.after fed (r.outputs fed) dropped))

theorem Drained.sliceBlock (h : Drained converted device fed resampler) {mono : List ℚ}
    (hmono : mono.length ≤ captureChunk) :
    Drained converted device (fed ++ mono) (sliceBlock converted resampler mono).2 ∧
      conversionBy device (fed ++ mono) =
        conversionBy device fed ++ (CaptureStage.sliceBlock converted resampler mono).1.flatten := by
  cases h with
  | native => exact ⟨.native, by simp [CaptureStage.sliceBlock, conversionBy]⟩
  | resampled hnew hpos hreaches =>
    obtain ⟨dropped', hconversion, hafter, hreaches'⟩ := Resampler.convert_after hnew hreaches hpos hmono
    refine ⟨?_, hconversion⟩
    unfold CaptureStage.sliceBlock
    simp only [hafter]
    exact .resampled hnew hpos hreaches'

theorem Drained.sliceBlocks (h : Drained converted device fed resampler) {monos : List (List ℚ)}
    (hmonos : ∀ mono ∈ monos, mono.length ≤ captureChunk) :
    Drained converted device (fed ++ monos.flatten) (sliceBlocks converted resampler monos).2 ∧
      conversionBy device (fed ++ monos.flatten) =
        conversionBy device fed ++ (CaptureStage.sliceBlocks converted resampler monos).1.flatten := by
  induction monos generalizing fed resampler with
  | nil => simpa [CaptureStage.sliceBlocks] using h
  | cons mono monos ih =>
    obtain ⟨hdrained, hslices⟩ := h.sliceBlock (hmonos mono (by simp))
    obtain ⟨hdrained', hslices'⟩ := ih hdrained fun m hm => hmonos m (by simp [hm])
    rw [List.flatten_cons, ← List.append_assoc]
    refine ⟨hdrained', ?_⟩
    rw [hslices', hslices, CaptureStage.sliceBlocks, List.flatten_append, List.append_assoc]

theorem Drained.slices (h : Drained stage.converted device fed stage.resampler) (data : List τ) :
    Drained stage.converted device (fed ++ downmixed toF32 channels data) (stage.slices toF32 channels data).2 ∧
      conversionBy device (fed ++ downmixed toF32 channels data) =
        conversionBy device fed ++ (stage.slices toF32 channels data).1.flatten := by
  unfold CaptureStage.slices downmixed
  split
  · next hzero =>
    rw [hzero, Blocks.chunks, if_pos (.inl rfl)]
    simpa using h
  · next hchannels =>
    have hflat : ((Blocks.chunks (captureChunk * channels) data).map (fillMono toF32 channels)).flatten =
        (Blocks.chunks channels data).map (downmix toF32) := by
      rw [← Blocks.chunks_chunks hchannels (show captureChunk ≠ 0 by decide), List.map_flatMap, List.flatMap_def]
      rfl
    rw [← hflat]
    refine h.sliceBlocks fun mono hmono => ?_
    obtain ⟨block, hblock, rfl⟩ := List.mem_map.mp hmono
    exact (fillMono_length hchannels hblock).1

theorem Drained.callback (h : Drained stage.converted device fed stage.resampler) (cb : Callback τ ℓ) :
    Drained stage.converted device (fed ++ downmixed toF32 channels cb.data)
      (stage.callback l x toF32 channels cb).resampler := by
  have hset : Drained (stage.withControls cb.controls).converted device fed
      (stage.withControls cb.controls).resampler := h
  exact (hset.slices cb.data).1

theorem Drained.run (h : Drained stage.converted device fed stage.resampler) (callbacks : List (Callback τ ℓ)) :
    Drained (stage.run l x toF32 channels callbacks).converted device
      (fed ++ callbacks.flatMap fun cb => downmixed toF32 channels cb.data)
      (stage.run l x toF32 channels callbacks).resampler := by
  induction callbacks generalizing stage fed with
  | nil => simpa [CaptureStage.run] using h
  | cons cb callbacks ih =>
    have hnext : Drained (stage.callback l x toF32 channels cb).converted device
        (fed ++ downmixed toF32 channels cb.data) (stage.callback l x toF32 channels cb).resampler := h.callback cb
    rw [List.flatMap_cons, ← List.append_assoc]
    exact ih hnext

theorem new_drained {kernel : List ℚ} {deviceRate : UInt32} {encoder : ε} {controls : CaptureControls ℓ} :
    Drained (new l kernel deviceRate encoder controls).converted (new l kernel deviceRate encoder controls).resampler []
      (new l kernel deviceRate encoder controls).resampler := by
  unfold new
  by_cases hnative : deviceRate ≠ sampleRate
  · simp only [if_pos hnative]
    cases hnew : Resampler.new kernel deviceRate sampleRate captureChunk with
    | none => exact .native
    | some r =>
      obtain ⟨dropped, hholds, hreaches⟩ := (Resampling.aligned_start hnew).holds
      have hafter : r = r.after [] (r.outputs []) dropped := by
        rw [r.outputs_nil]
        exact hholds
      have hdrained : Drained (r.maxOutputFor captureChunk) (some r) [] (some (r.after [] (r.outputs []) dropped)) :=
        .resampled hnew (Nat.succ_pos _) (by rw [r.outputs_nil]; exact hreaches)
      rwa [← hafter] at hdrained
  · simp only [if_neg hnative]
    exact .native

/-- After any callbacks, `push` gives `Capture` what its samples add to the conversion of all that came before. -/
theorem push_converts (l : Loudness ℚ ℓ) (x : OpusEncoder ε ℚ β) (kernel : List ℚ) (deviceRate : UInt32) (encoder : ε)
    (controls : CaptureControls ℓ) (toF32 : τ → ℚ) (channels : Nat) (callbacks : List (Callback τ ℓ))
    (cb : Callback τ ℓ) :
    let fresh := new l kernel deviceRate encoder controls
    let stage := (fresh.run l x toF32 channels callbacks).withControls cb.controls
    let before := callbacks.flatMap fun cb => downmixed toF32 channels cb.data
    ∃ slices : List (List ℚ),
      conversionBy fresh.resampler (before ++ downmixed toF32 channels cb.data) =
          conversionBy fresh.resampler before ++ slices.flatten ∧
        (stage.push l x toF32 channels cb.data).1 = (stage.capture.pushAll l x slices).1 ∧
          (stage.push l x toF32 channels cb.data).2.capture = (stage.capture.pushAll l x slices).2 := by
  intro fresh stage before
  have hfresh : Drained fresh.converted fresh.resampler [] fresh.resampler := new_drained
  have hstage : Drained stage.converted fresh.resampler before stage.resampler :=
    hfresh.run (l := l) (x := x) callbacks
  exact ⟨_, (hstage.slices cb.data).2, rfl, rfl⟩

end CaptureStage

/-! ## Playback -/

namespace Resampler
variable {r : Resampler} {maxFeed : Nat} {kernel : List ℚ} {inRate outRate : UInt32}

theorem new_step (hnew : new kernel inRate outRate maxFeed = some r) :
    r.step = inRate.toNat / outRate.toNat ∧ r.halfWidth = halfZeros / bandwidth r.step := by
  unfold new at hnew
  split at hnew
  · cases hnew
  · cases hnew
    exact ⟨rfl, rfl⟩

/-- Up to six input samples per output sample, the kernel is shorter than a frame. -/
theorem halfWidth_lt (hnew : new kernel inRate outRate maxFeed = some r) (hstep : r.step ≤ 6) : r.halfWidth < 960 := by
  have hpos := r.step_pos
  have hmin : (1 / 6 : ℚ) ≤ min 1 (1 / r.step) :=
    le_min (by norm_num) (one_div_le_one_div_of_le hpos hstep)
  have hbandwidth : (3 / 20 : ℚ) ≤ bandwidth r.step := by
    unfold bandwidth cutoff
    linarith
  rw [(new_step hnew).2, div_lt_iff₀ (bandwidth_pos hpos)]
  unfold halfZeros
  linarith

end Resampler

def soundBy : Option Resampler → (Nat → ℚ) → Nat → ℚ
  | some r, samples => r.offline samples
  | none, samples => samples

namespace DevicePlayback
variable {μ : Type} (render : μ → VoiceFrame ℚ × μ)

def mixed (mixer : μ) : Nat → μ
  | 0 => mixer
  | m + 1 => (render (mixed mixer m)).2

def rendered (mixer : μ) : Nat → List ℚ
  | 0 => []
  | m + 1 => rendered mixer m ++ (render (mixed render mixer m)).1.1

/-- All that it renders, frame after frame without end. -/
def stream (mixer : μ) (n : Nat) : ℚ :=
  (render (mixed render mixer (n / samplesPerFrame))).1.1.getD (n % samplesPerFrame) 0

variable {render} {r : Resampler} {p : DevicePlayback μ} {mixer : μ} {kernel : List ℚ} {deviceRate : UInt32}

theorem rendered_length (m : Nat) : (rendered render mixer m).length = m * samplesPerFrame := by
  induction m with
  | zero => simp [rendered]
  | succ m ih => rw [rendered, List.length_append, ih, (render (mixed render mixer m)).1.2, Nat.succ_mul]

theorem rendered_getD {m n : Nat} (h : n < (rendered render mixer m).length) :
    (rendered render mixer m).getD n 0 = stream render mixer n := by
  induction m with
  | zero => cases h
  | succ m ih =>
    rw [rendered, List.getD_eq_getElem?_getD]
    by_cases hn : n < (rendered render mixer m).length
    · rw [List.getElem?_append_left hn, ← List.getD_eq_getElem?_getD]
      exact ih hn
    · rw [List.getElem?_append_right (Nat.le_of_not_lt hn), ← List.getD_eq_getElem?_getD]
      rw [rendered_length] at h hn ⊢
      have hframe : n / samplesPerFrame = m := by
        rw [Nat.succ_mul] at h
        exact Nat.div_eq_of_lt_le (by omega) (by rw [Nat.succ_mul]; omega)
      have hplace : n % samplesPerFrame = n - m * samplesPerFrame := by
        rw [Nat.mod_def, hframe, Nat.mul_comm]
      rw [stream, hframe, hplace]

/-- What a refill leaves: some of the sound at the front of `ready`, from a place on. -/
structure Full (sound : Nat → ℚ) (k : Nat) (p : DevicePlayback μ) : Prop where
  filled : 0 < p.filled
  ready : ∀ i < p.filled, p.ready[i]? = some (sound (k + i))

variable (render) in
/-- The device plays one sample of the sound after the other, if every refill finds them. -/
theorem played_eq {sound : Nat → ℚ} {I : Nat → DevicePlayback μ → Prop}
    (hposition : ∀ k p position, I k p → I k { p with position })
    (hrefill : ∀ k p, I k p → Full sound k (p.refill render) ∧ I (k + (p.refill render).filled) (p.refill render))
    (h : I 0 p) (hfilled : p.filled = 0) (hplace : p.position = 0) (n : Nat) :
    p.played render n = (List.range n).map sound ∧ ∃ k, I k (p.run render n) ∧
      (p.run render n).position ≤ (p.run render n).filled ∧
        n + (p.run render n).filled = k + (p.run render n).position ∧
          ∀ i, (p.run render n).position + i < (p.run render n).filled →
            (p.run render n).ready[(p.run render n).position + i]? = some (sound (n + i)) := by
  induction n with
  | zero =>
    refine ⟨rfl, 0, h, ?_, ?_, fun i hi => ?_⟩
    · rw [run, hplace]
      exact Nat.zero_le _
    · rw [run, hplace, hfilled]
    · rw [run, hfilled] at hi
      exact absurd hi (Nat.not_lt_zero _)
  | succ n ih =>
    obtain ⟨hplayed, k, hI, hle, hcount, hready⟩ := ih
    -- Before the sample is taken, `ready` holds it.
    obtain ⟨q, hq, k', hI', hlt, hcount', hready'⟩ : ∃ q, q = (if (p.run render n).filled ≤ (p.run render n).position
        then { (p.run render n).refill render with position := 0 } else p.run render n) ∧ ∃ k', I k' q ∧
        q.position < q.filled ∧ n + q.filled = k' + q.position ∧
          ∀ i, q.position + i < q.filled → q.ready[q.position + i]? = some (sound (n + i)) := by
      refine ⟨_, rfl, ?_⟩
      split
      · obtain ⟨hfull, hnext⟩ := hrefill k _ hI
        have hread : n = k := by omega
        refine ⟨_, hposition _ _ 0 hnext, hfull.filled, by dsimp only; omega, fun i hi => ?_⟩
        dsimp only at hi ⊢
        rw [Nat.zero_add] at hi ⊢
        rw [show n + i = k + i by omega]
        exact hfull.ready i hi
      · exact ⟨k, hI, by omega, hcount, hready⟩
    have hsample : q.ready[q.position]? = some (sound n) := hready' 0 hlt
    have hnext : (p.run render n).nextSample render = (sound n, { q with position := q.position + 1 }) := by
      unfold nextSample
      rw [← hq]
      simp only [hsample]
    refine ⟨?_, k', ?_, ?_, ?_, ?_⟩
    · rw [played, hplayed, hnext, List.range_succ, List.map_append]
      rfl
    · rw [run, hnext]
      exact hposition _ _ _ hI'
    · rw [run, hnext]
      exact hlt
    · rw [run, hnext]
      dsimp only
      omega
    · rw [run, hnext]
      intro i hi
      dsimp only at hi ⊢
      have hplus : q.position + 1 + i = q.position + (i + 1) := by omega
      rw [hplus] at hi ⊢
      rw [hready' (i + 1) hi]
      congr 2
      omega

/-! ### With a resampler -/

/-- All rendered frames are in the resampler, and its next output needs less than one more. -/
structure Supplied (render : μ → VoiceFrame ℚ × μ) (r : Resampler) (mixer : μ) (k : Nat) (p : DevicePlayback μ) :
    Prop where
  slots : 0 < p.ready.length
  holds : ∃ m dropped, p.mixer = mixed render mixer m ∧
    p.resampler = some (r.after (rendered render mixer m) k dropped) ∧ r.Reaches (rendered render mixer m) k dropped ∧
      k * r.step + r.halfWidth < (rendered render mixer m).length + 960

theorem refillRounds_ready {m k dropped : Nat} (hmixer : p.mixer = mixed render mixer m)
    (hreaches : r.Reaches (rendered render mixer m) k dropped) (hslots : 0 < p.ready.length) (hstep : r.step ≤ 6)
    (hready : r.Ready (rendered render mixer m) k) :
    ∃ q, (∀ rounds, refillRounds render (rounds + 1) (r.after (rendered render mixer m) k dropped) p = .ok q) ∧
      Full (r.offline (stream render mixer)) k q ∧ Supplied render r mixer (k + q.filled) q := by
  obtain ⟨made, hmade, hpull, hreaches', hlast⟩ := Resampler.pull_ready hreaches hslots hready
  refine ⟨{ p with
    resampler := some (r.after (rendered render mixer m) (k + made + 1) dropped)
    ready := (List.range' k (made + 1)).map (r.offline ((rendered render mixer m).getD · 0)) ++ p.ready.drop (made + 1)
    filled := made + 1 }, fun rounds => ?_, ⟨Nat.succ_pos made, fun i hi => ?_⟩, ?_, m, dropped, hmixer, rfl,
    hreaches', ?_⟩
  · rw [refillRounds, hpull]
    simp
  · have hi' : i < made + 1 := hi
    have hmem : r.Ready (rendered render mixer m) (k + i) := hlast.of_le (by omega)
    have hsame := Resampler.offline_congr hmem (y := stream render mixer) fun n hn => rendered_getD hn
    simp only
    rw [List.getElem?_append_left (by simpa using hi'), List.getElem?_map, List.getElem?_range' hi', Option.map_some,
      ← hsame]
    simp
  · simp only [List.length_append, List.length_map, List.length_range', List.length_drop]
    omega
  · unfold Resampler.Ready at hlast
    push_cast at hlast ⊢
    linarith

/-- With nothing ready, one more frame is accepted whole and makes something ready. -/
theorem refillRounds_dry (hnew : Resampler.new kernel sampleRate deviceRate samplesPerFrame = some r) {m k dropped : Nat}
    (hmixer : p.mixer = mixed render mixer m) (hreaches : r.Reaches (rendered render mixer m) k dropped)
    (hdry : ¬ r.Ready (rendered render mixer m) k)
    (hshort : k * r.step + r.halfWidth < (rendered render mixer m).length + 960) :
    ∃ dropped', (∀ rounds, refillRounds render (rounds + 1) (r.after (rendered render mixer m) k dropped) p =
        refillRounds render rounds (r.after (rendered render mixer (m + 1)) k dropped')
          { p with mixer := mixed render mixer (m + 1) }) ∧
      r.Reaches (rendered render mixer (m + 1)) k dropped' ∧ r.Ready (rendered render mixer (m + 1)) k := by
  have hframe : (render p.mixer).1.1.length = samplesPerFrame := (render p.mixer).1.2
  obtain ⟨dropped', hfeed, hreaches'⟩ := Resampler.feedAll_dry hnew hreaches hdry (le_of_eq hframe)
  have hmore : rendered render mixer (m + 1) = rendered render mixer m ++ (render p.mixer).1.1 := by
    rw [rendered, hmixer]
  rw [hmore]
  refine ⟨dropped', fun rounds => ?_, hreaches', ?_⟩
  · rw [refillRounds, Resampler.pull_dry hreaches hdry]
    simp only [ne_eq, not_true_eq_false, if_false, hfeed]
    rw [mixed, ← hmixer]
  · unfold Resampler.Ready
    rw [List.length_append, hframe, Nat.cast_add]
    exact hshort

/-- Two rounds are enough. -/
theorem Supplied.rounds {k : Nat} (hnew : Resampler.new kernel sampleRate deviceRate samplesPerFrame = some r)
    (hstep : r.step ≤ 6) (h : Supplied render r mixer k p) :
    ∃ r' q, p.resampler = some r' ∧ (∀ rounds, refillRounds render (rounds + 2) r' p = .ok q) ∧
      Full (r.offline (stream render mixer)) k q ∧ Supplied render r mixer (k + q.filled) q := by
  obtain ⟨m, dropped, hmixer, hresampler, hreaches, hshort⟩ := h.holds
  refine ⟨r.after (rendered render mixer m) k dropped, ?_⟩
  by_cases hready : r.Ready (rendered render mixer m) k
  · obtain ⟨q, hq, hfull, hsupplied⟩ := refillRounds_ready hmixer hreaches h.slots hstep hready
    exact ⟨q, hresampler, fun rounds => hq (rounds + 1), hfull, hsupplied⟩
  · obtain ⟨dropped', hround, hreaches', hready'⟩ := refillRounds_dry hnew hmixer hreaches hready hshort
    obtain ⟨q, hq, hfull, hsupplied⟩ := refillRounds_ready (p := { p with mixer := mixed render mixer (m + 1) }) rfl
      hreaches' h.slots hstep hready'
    exact ⟨q, hresampler, fun rounds => (hround (rounds + 1)).trans (hq rounds), hfull, hsupplied⟩

theorem Supplied.refill {k : Nat} (hnew : Resampler.new kernel sampleRate deviceRate samplesPerFrame = some r)
    (hstep : r.step ≤ 6) (h : Supplied render r mixer k p) :
    Full (r.offline (stream render mixer)) k (p.refill render) ∧
      Supplied render r mixer (k + (p.refill render).filled) (p.refill render) := by
  obtain ⟨r', q, hresampler, hrounds, hfull, hsupplied⟩ := h.rounds hnew hstep
  have hq : p.refill render = q := by
    unfold DevicePlayback.refill
    simp only [hresampler]
    rw [show refillRounds render maxRefillRounds r' p = .ok q from hrounds 6]
  rw [hq]
  exact ⟨hfull, hsupplied⟩

theorem new_supplied (hnew : Resampler.new kernel sampleRate deviceRate samplesPerFrame = some r)
    (hdevice : deviceRate ≠ sampleRate) (hstep : r.step ≤ 6) :
    Supplied render r mixer 0 (DevicePlayback.new kernel deviceRate mixer) := by
  unfold DevicePlayback.new
  simp only [if_pos hdevice, hnew]
  obtain ⟨dropped, hholds, hreaches⟩ := (Resampling.aligned_start hnew).holds
  refine ⟨?_, 0, dropped, rfl, congrArg some hholds, hreaches, ?_⟩
  · rw [List.length_replicate]
    exact Nat.succ_pos _
  · have := Resampler.halfWidth_lt hnew hstep
    simpa [rendered] using this

/-! ### Without one -/

/-- At 48 kHz the frames of the mixer are handed out as they are. -/
structure Native (render : μ → VoiceFrame ℚ × μ) (mixer : μ) (k : Nat) (p : DevicePlayback μ) : Prop where
  resampler : p.resampler = none
  slots : p.ready.length = samplesPerFrame
  mixed : ∃ m, p.mixer = mixed render mixer m ∧ k = m * samplesPerFrame

theorem Native.refill {k : Nat} (h : Native render mixer k p) :
    Full (stream render mixer) k (p.refill render) ∧
      Native render mixer (k + (p.refill render).filled) (p.refill render) := by
  obtain ⟨m, hmixer, rfl⟩ := h.mixed
  have hframe := (render p.mixer).1.2
  have hrefill : p.refill render =
      { p with mixer := (render p.mixer).2, ready := (render p.mixer).1.1, filled := samplesPerFrame } := by
    unfold DevicePlayback.refill
    simp only [h.resampler, h.slots]
  rw [hrefill]
  refine ⟨⟨show 0 < samplesPerFrame by decide, fun i hi => ?_⟩, h.resampler, hframe, m + 1, ?_, ?_⟩
  · have hi' : i < samplesPerFrame := hi
    have hlt : m * samplesPerFrame + i < (rendered render mixer (m + 1)).length := by
      rw [rendered_length, Nat.succ_mul]
      omega
    rw [← rendered_getD hlt, rendered, List.getD_eq_getElem?_getD,
      List.getElem?_append_right (by rw [rendered_length]; omega), rendered_length, Nat.add_sub_cancel_left, ← hmixer]
    simp only
    rw [List.getElem?_eq_getElem (by rw [hframe]; exact hi')]
    rfl
  · rw [DevicePlayback.mixed, ← hmixer]
  · exact (Nat.succ_mul m samplesPerFrame).symm

/-- From a device rate of 8 kHz on, the device plays all that the mixer renders, and every refill has
something within two rounds. -/
theorem played_stream (hrate : 8000 ≤ deviceRate) (n : Nat) :
    (new kernel deviceRate mixer).played render n =
        (List.range n).map (soundBy (new kernel deviceRate mixer).resampler (stream render mixer)) ∧
      0 < (((new kernel deviceRate mixer).run render n).refill render).filled ∧
        ∀ r ∈ ((new kernel deviceRate mixer).run render n).resampler,
          ∃ q, refillRounds render 2 r ((new kernel deviceRate mixer).run render n) = .ok q := by
  by_cases hdevice : deviceRate = sampleRate
  · have hnone : (new kernel deviceRate mixer).resampler = none := by
      unfold new
      simp only [hdevice, ne_eq, not_true_eq_false, if_false]
    have hnative : Native render mixer 0 (new kernel deviceRate mixer) := by
      refine ⟨hnone, ?_, 0, rfl, (Nat.zero_mul _).symm⟩
      unfold new
      simp only [hdevice, ne_eq, not_true_eq_false, if_false, List.length_replicate]
    obtain ⟨hplayed, k, hkept, -⟩ := played_eq render (I := Native render mixer)
      (fun _ _ _ h => ⟨h.resampler, h.slots, h.mixed⟩) (fun _ _ h => h.refill) hnative rfl rfl n
    rw [hnone]
    refine ⟨hplayed, hkept.refill.1.filled, fun r hr => ?_⟩
    rw [hkept.resampler] at hr
    cases hr
  · have hle : 8000 ≤ deviceRate.toNat := UInt32.le_iff_toNat_le.mp hrate
    obtain ⟨r, hnew⟩ : ∃ r, Resampler.new kernel sampleRate deviceRate samplesPerFrame = some r := by
      refine Option.ne_none_iff_exists'.mp (mt Resampler.new_eq_none.mp ?_)
      rintro (hzero | rfl | hzero)
      · exact absurd hzero (by decide)
      · exact absurd hle (by decide)
      · exact absurd hzero (by decide)
    have hstep : r.step ≤ 6 := by
      have hcast : (8000 : ℚ) ≤ deviceRate.toNat := by exact_mod_cast hle
      have hrate48 : ((sampleRate.toNat : Nat) : ℚ) = 48000 := rfl
      rw [(Resampler.new_step hnew).1, hrate48, div_le_iff₀ (by linarith)]
      linarith
    have hsome : (new kernel deviceRate mixer).resampler = some r := by
      unfold new
      simp only [if_pos hdevice, hnew]
    obtain ⟨hplayed, k, hkept, -⟩ := played_eq render (I := Supplied render r mixer)
      (fun _ _ _ h => ⟨h.slots, h.holds⟩) (fun _ _ h => h.refill hnew hstep) (new_supplied hnew hdevice hstep) rfl rfl n
    rw [hsome]
    refine ⟨hplayed, (hkept.refill hnew hstep).1.filled, fun r' hr' => ?_⟩
    obtain ⟨r'', q, hresampler, hrounds, -⟩ := hkept.rounds hnew hstep
    rw [hresampler] at hr'
    cases hr'
    exact ⟨q, hrounds 0⟩

end DevicePlayback

namespace Resampling
variable {r : Resampler} {s : Resampling}

theorem run_spaces (s : Resampling) (n : Nat) :
    (s.run (List.replicate n .space)).fed = s.fed ∧ (s.run (List.replicate n .space)).out = s.out := by
  induction n generalizing s with
  | zero => exact ⟨rfl, rfl⟩
  | succ n ih => exact ih (s.exec .space)

/-- After a pull that was not filled there is room for a whole `maxFeed`, however often that is asked. -/
theorem Aligned.space_of_short {kernel : List ℚ} {inRate outRate : UInt32} {maxFeed slots : Nat}
    (hnew : Resampler.new kernel inRate outRate maxFeed = some r) (h : s.Aligned r)
    (hshort : (s.resampler.pull slots).1.length < slots) (n : Nat) :
    maxFeed ≤ ((s.exec (.pull slots)).run (List.replicate n .space)).resampler.space.1 := by
  obtain ⟨⟨haligned, -, -⟩, hend⟩ := h.pull slots
  have hdry : ¬ r.Ready s.fed (s.exec (.pull slots)).out.length := hend (by
    have hout : (s.exec (.pull slots)).out = s.out ++ (s.resampler.pull slots).1 := rfl
    rw [hout, List.length_append]
    omega)
  obtain ⟨hfed, hout⟩ := run_spaces (s.exec (.pull slots)) n
  obtain ⟨dropped, hholds, hreaches⟩ := (haligned.run (List.replicate n .space)).holds
  rw [hfed, hout] at hreaches hholds
  rw [hholds]
  exact Resampler.space_of_dry hnew hreaches hdry

end Resampling

/-- A resampler whose last pull was not filled accepts a whole `maxFeed`. So each callback gives `Capture` all that its
samples add to the conversion of everything captured so far, at any device rate; and from 8 kHz on the device plays the
conversion of everything the mixer renders, with no refill that comes to nothing or needs more than two rounds. -/
theorem drained_accepts {ε ℓ τ β μ : Type} (kernel : List ℚ) :
    (∀ (inRate outRate : UInt32) (maxFeed : Nat) (r : Resampler), Resampler.new kernel inRate outRate maxFeed = some r →
      ∀ (ops : List ResampleOp) (slots : Nat),
        (((Resampling.start r).run ops).resampler.pull slots).1.length < slots →
          ∀ n, maxFeed ≤
            ((((Resampling.start r).run ops).exec (.pull slots)).run (List.replicate n .space)).resampler.space.1) ∧
      (∀ (l : Loudness ℚ ℓ) (x : OpusEncoder ε ℚ β) (deviceRate : UInt32) (encoder : ε) (controls : CaptureControls ℓ)
        (toF32 : τ → ℚ) (channels : Nat) (callbacks : List (Callback τ ℓ)) (cb : Callback τ ℓ),
        let fresh := CaptureStage.new l kernel deviceRate encoder controls
        let stage := (fresh.run l x toF32 channels callbacks).withControls cb.controls
        let before := callbacks.flatMap fun cb => downmixed toF32 channels cb.data
        ∃ slices : List (List ℚ),
          conversionBy fresh.resampler (before ++ downmixed toF32 channels cb.data) =
              conversionBy fresh.resampler before ++ slices.flatten ∧
            (stage.push l x toF32 channels cb.data).1 = (stage.capture.pushAll l x slices).1 ∧
              (stage.push l x toF32 channels cb.data).2.capture = (stage.capture.pushAll l x slices).2) ∧
        ∀ (render : μ → VoiceFrame ℚ × μ) (deviceRate : UInt32) (mixer : μ) (n : Nat), 8000 ≤ deviceRate →
          let fresh := DevicePlayback.new kernel deviceRate mixer
          fresh.played render n =
              (List.range n).map (soundBy fresh.resampler (DevicePlayback.stream render mixer)) ∧
            0 < ((fresh.run render n).refill render).filled ∧
              ∀ r ∈ (fresh.run render n).resampler,
                ∃ q, DevicePlayback.refillRounds render 2 r (fresh.run render n) = .ok q := by
  refine ⟨fun inRate outRate maxFeed r hnew ops slots hshort n => ?_,
    fun l x => CaptureStage.push_converts l x kernel,
    fun render deviceRate mixer n hrate => DevicePlayback.played_stream hrate n⟩
  exact ((Resampling.aligned_start hnew).run ops).space_of_short hnew hshort n

end PickleChat
