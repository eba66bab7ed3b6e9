import PickleChat.Lib.Window

/-!
# Resampling

`pickle-audio/src/resample.rs`, in exact arithmetic. The kernel's table is a
parameter. Of the buffer only the live part is kept, with the capacity of the
whole.
-/

namespace PickleChat

def halfZeros : ℚ := 32

def density : ℚ := 512

def cutoff : ℚ := 9 / 10

structure Resampler where
  kernel : List ℚ
  fc : ℚ
  halfWidth : ℚ
  step : ℚ
  capacity : Nat
  /-- The first `len` samples of the buffer. -/
  buf : List ℚ
  /-- Where the next output sample falls, in input samples from the first of `buf`. -/
  pos : ℚ
  step_pos : 0 < step
  halfWidth_nonneg : 0 ≤ halfWidth

namespace Resampler

def len (r : Resampler) : Nat := r.buf.length

/-- The kernel at `tau` input samples from its centre. -/
def tap (r : Resampler) (tau : ℚ) : ℚ :=
  let index := tau * r.fc * density
  let whole := ⌊index⌋₊
  if r.kernel.length ≤ whole + 1 then 0
  else
    let low := r.kernel.getD whole 0
    low + (r.kernel.getD (whole + 1) 0 - low) * (index - whole)

/-- The kernel over the buffer, centred at `t` input samples. -/
def sampleAt (r : Resampler) (t : ℚ) : ℚ :=
  let first := ⌈t - r.halfWidth⌉₊
  let last := min ⌊t + r.halfWidth⌋₊ (r.len - 1)
  (∑ n ∈ Finset.Icc first last, r.buf.getD n 0 * r.tap |t - n|) * r.fc

/-- Drop input the kernel can no longer reach. -/
def compact (r : Resampler) : Resampler :=
  let stale := r.pos - r.halfWidth
  if stale < 1 then r
  else
    let drop := min ⌊stale⌋₊ r.len
    { r with buf := r.buf.drop drop, pos := r.pos - drop }

def space (r : Resampler) : Nat × Resampler := (r.compact.capacity - r.compact.len, r.compact)

/-- The number of samples that were accepted comes with the resampler afterwards. -/
def feed (r : Resampler) (input : List ℚ) : Nat × Resampler :=
  let r := r.compact
  let taken := min input.length (r.capacity - r.len)
  (taken, { r with buf := r.buf ++ input.take taken })

/-- The samples that are written into a buffer of some length. -/
def pull (r : Resampler) : Nat → List ℚ × Resampler
  | 0 => ([], r)
  | slots + 1 =>
    if r.len ≤ r.pos + r.halfWidth then ([], r)
    else
      let rest := { r with pos := r.pos + r.step }.pull slots
      (r.sampleAt r.pos :: rest.1, rest.2)

def maxOutputFor (r : Resampler) (inputLen : Nat) : Nat := ⌈(inputLen : ℚ) / r.step⌉₊ + 2

theorem ratio_pos {inRate outRate : UInt32} (hin : inRate ≠ 0) (hout : outRate ≠ 0) :
    0 < (inRate.toNat : ℚ) / outRate.toNat := by
  have hpos : ∀ {n : UInt32}, n ≠ 0 → 0 < (n.toNat : ℚ) := by
    intro n hn
    exact_mod_cast Nat.pos_of_ne_zero fun h => hn (UInt32.toNat_inj.mp h)
  exact div_pos (hpos hin) (hpos hout)

def bandwidth (step : ℚ) : ℚ := cutoff * min 1 (1 / step)

theorem bandwidth_pos {step : ℚ} (h : 0 < step) : 0 < bandwidth step := by
  have hmin : 0 < min 1 (1 / step) := lt_min one_pos (one_div_pos.mpr h)
  have hcutoff : 0 < cutoff := by norm_num [cutoff]
  exact mul_pos hcutoff hmin

def new (kernel : List ℚ) (inRate outRate : UInt32) (maxFeed : Nat) : Option Resampler :=
  if h : inRate = 0 ∨ outRate = 0 ∨ maxFeed = 0 then none
  else
    let step : ℚ := inRate.toNat / outRate.toNat
    let fc := bandwidth step
    let halfWidth := halfZeros / fc
    have hstep : 0 < step := ratio_pos (fun hin => h (.inl hin)) fun hout => h (.inr (.inl hout))
    some
      { kernel, fc, halfWidth, step
        capacity := maxFeed + 2 * ⌈halfWidth⌉₊ + ⌈step⌉₊ + 8
        buf := []
        pos := 0
        step_pos := hstep
        halfWidth_nonneg := div_nonneg (by norm_num [halfZeros]) (bandwidth_pos hstep).le }

theorem new_eq_none {kernel : List ℚ} {inRate outRate : UInt32} {maxFeed : Nat} :
    new kernel inRate outRate maxFeed = none ↔ inRate = 0 ∨ outRate = 0 ∨ maxFeed = 0 := by
  unfold new
  split
  · next h => exact iff_of_true rfl h
  · next h => exact iff_of_false (fun hnone => by cases hnone) h

/-! ## A stream -/

/-- The `k`-th output over a whole input. -/
def offline (r : Resampler) (x : Nat → ℚ) (k : Nat) : ℚ :=
  r.fc * ∑ n ∈ Window.near (k * r.step) r.halfWidth, x n * r.tap |k * r.step - n|

/-- A resampler that has accepted some input, of which the first `dropped`
samples are gone, and has given `k` outputs. -/
def after (r : Resampler) (fed : List ℚ) (k dropped : Nat) : Resampler :=
  { r with buf := fed.drop dropped, pos := k * r.step - dropped }

/-- All that the kernel reaches for the `k`-th output has come. -/
def Ready (r : Resampler) (fed : List ℚ) (k : Nat) : Prop := k * r.step + r.halfWidth < fed.length

/-- Nothing that the kernel can still reach is gone. -/
structure Reaches (r : Resampler) (fed : List ℚ) (k dropped : Nat) : Prop where
  length : dropped ≤ fed.length
  stale : dropped = 0 ∨ (dropped : ℚ) ≤ k * r.step - r.halfWidth

variable {r : Resampler} {fed : List ℚ} {k dropped slots : Nat}

theorem after_len (h : dropped ≤ fed.length) : ((r.after fed k dropped).len : ℚ) = fed.length - dropped := by
  have hlen : (r.after fed k dropped).len = fed.length - dropped := List.length_drop
  rw [hlen, Nat.cast_sub h]

theorem Reaches.pos_nonneg (h : r.Reaches fed k dropped) : 0 ≤ (r.after fed k dropped).pos := by
  have hstep : 0 ≤ (k : ℚ) * r.step := mul_nonneg (Nat.cast_nonneg k) r.step_pos.le
  have hpos : (r.after fed k dropped).pos = k * r.step - dropped := rfl
  rw [hpos]
  rcases h.stale with rfl | hstale
  · simpa using hstep
  · have := r.halfWidth_nonneg
    linarith

theorem Reaches.succ (h : r.Reaches fed k dropped) : r.Reaches fed (k + 1) dropped := by
  refine ⟨h.length, h.stale.imp_right fun hstale => ?_⟩
  have := r.step_pos
  push_cast
  linarith

theorem Reaches.append (h : r.Reaches fed k dropped) (input : List ℚ) : r.Reaches (fed ++ input) k dropped := by
  refine ⟨?_, h.stale⟩
  rw [List.length_append]
  exact Nat.le_add_right_of_le h.length

/-- Compaction drops more of the same input, and nothing the kernel reaches. -/
theorem compact_after (h : r.Reaches fed k dropped) :
    ∃ dropped', (r.after fed k dropped).compact = r.after fed k dropped' ∧ r.Reaches fed k dropped' := by
  by_cases hfresh : (r.after fed k dropped).pos - r.halfWidth < 1
  · exact ⟨dropped, by unfold compact; exact if_pos hfresh, h⟩
  · have hlen : (r.after fed k dropped).len = fed.length - dropped := List.length_drop
    refine ⟨dropped + min ⌊(r.after fed k dropped).pos - r.halfWidth⌋₊ (r.after fed k dropped).len, ?_, ?_, .inr ?_⟩
    · unfold compact
      simp only
      rw [if_neg (by exact hfresh)]
      simp only [after, List.drop_drop]
      congr 1
      push_cast
      ring
    · rw [hlen]
      have := h.length
      omega
    · have hfloor := Nat.floor_le (show 0 ≤ (r.after fed k dropped).pos - r.halfWidth by linarith)
      have hmin : ((min ⌊(r.after fed k dropped).pos - r.halfWidth⌋₊ (r.after fed k dropped).len : Nat) : ℚ) ≤
          ⌊(r.after fed k dropped).pos - r.halfWidth⌋₊ := by exact_mod_cast Nat.min_le_left _ _
      have hpos : (r.after fed k dropped).pos = k * r.step - dropped := rfl
      rw [hpos] at hfloor hmin ⊢
      push_cast at hmin ⊢
      linarith

theorem getD_drop (l : List ℚ) (dropped n : Nat) : (l.drop dropped).getD n 0 = l.getD (n + dropped) 0 := by
  rw [List.getD_eq_getElem?_getD, List.getElem?_drop, List.getD_eq_getElem?_getD, Nat.add_comm]

/-- What is left of the input gives the output that the whole input gives. -/
theorem sampleAt_after (h : r.Reaches fed k dropped) (hready : r.Ready fed k) :
    (r.after fed k dropped).sampleAt (r.after fed k dropped).pos = r.offline (fed.getD · 0) k := by
  have hpos : (r.after fed k dropped).pos = k * r.step - dropped := rfl
  have hright : 0 ≤ (k : ℚ) * r.step - dropped + r.halfWidth := by
    have hnonneg := h.pos_nonneg
    rw [hpos] at hnonneg
    have := r.halfWidth_nonneg
    linarith
  have hlast : min ⌊(k : ℚ) * r.step - dropped + r.halfWidth⌋₊ ((r.after fed k dropped).len - 1) =
      ⌊(k : ℚ) * r.step - dropped + r.halfWidth⌋₊ := by
    have hlt : ⌊(k : ℚ) * r.step - dropped + r.halfWidth⌋₊ < (r.after fed k dropped).len := by
      rw [Nat.floor_lt hright, after_len h.length]
      unfold Ready at hready
      linarith
    omega
  have hsum := Window.sum_near (fun n => fed.getD n 0 * r.tap |(k : ℚ) * r.step - n|) hright h.stale
  unfold sampleAt offline
  rw [hpos, show (r.after fed k dropped).halfWidth = r.halfWidth from rfl, hlast, ← hsum, mul_comm]
  refine congrArg (r.fc * ·) (Finset.sum_congr rfl fun n _ => ?_)
  rw [show (r.after fed k dropped).buf = fed.drop dropped from rfl, getD_drop]
  have htau : (k : ℚ) * r.step - dropped - n = k * r.step - ((n + dropped : Nat) : ℚ) := by
    push_cast
    ring
  rw [htau]
  rfl

theorem feed_after (h : r.Reaches fed k dropped) (input : List ℚ) :
    ∃ dropped', (((r.after fed k dropped).feed input).2 =
        r.after (fed ++ input.take ((r.after fed k dropped).feed input).1) k dropped') ∧
      r.Reaches (fed ++ input.take ((r.after fed k dropped).feed input).1) k dropped' := by
  obtain ⟨dropped', hcompact, hreaches⟩ := compact_after h
  refine ⟨dropped', ?_, hreaches.append _⟩
  unfold feed
  simp only [hcompact]
  unfold after
  rw [List.drop_append_of_le_length hreaches.length]

theorem len_le_iff (h : r.Reaches fed k dropped) :
    ((r.after fed k dropped).len : ℚ) ≤ (r.after fed k dropped).pos + (r.after fed k dropped).halfWidth ↔
      ¬ r.Ready fed k := by
  have hpos : (r.after fed k dropped).pos = k * r.step - dropped := rfl
  have hhalf : (r.after fed k dropped).halfWidth = r.halfWidth := rfl
  rw [after_len h.length, hpos, hhalf, Ready, not_lt]
  constructor <;> intro hle <;> linarith

/-- A pull gives the next outputs that are ready, as many as there are slots. -/
theorem pull_after (h : r.Reaches fed k dropped) (slots : Nat) :
    ∃ made ≤ slots, (r.after fed k dropped).pull slots =
        ((List.range' k made).map (r.offline (fed.getD · 0)), r.after fed (k + made) dropped) ∧
      r.Reaches fed (k + made) dropped ∧ (∀ j < made, r.Ready fed (k + j)) ∧
        (made < slots → ¬ r.Ready fed (k + made)) := by
  induction slots generalizing k with
  | zero => exact ⟨0, Nat.le_refl 0, rfl, h, fun j hj => absurd hj (Nat.not_lt_zero j), fun hj => absurd hj (by omega)⟩
  | succ slots ih =>
    unfold pull
    by_cases hready : r.Ready fed k
    · rw [if_neg fun hle => (len_le_iff h).mp hle hready]
      have hnext : { r.after fed k dropped with pos := (r.after fed k dropped).pos + (r.after fed k dropped).step } =
          r.after fed (k + 1) dropped := by
        have hpos : (k : ℚ) * r.step - dropped + r.step = ((k + 1 : Nat) : ℚ) * r.step - dropped := by
          push_cast
          ring
        unfold after
        rw [← hpos]
      obtain ⟨made, hmade, hpull, hreaches, hall, hend⟩ := ih h.succ
      have hcount : k + 1 + made = k + (made + 1) := by omega
      rw [hcount] at hpull hreaches hend
      refine ⟨made + 1, by omega, ?_, hreaches, ?_, fun hlt => hend (by omega)⟩
      · simp only [hnext, hpull, sampleAt_after h hready, List.range'_succ, List.map_cons]
      · intro j hj
        cases j with
        | zero => exact hready
        | succ j =>
          have := hall j (by omega)
          rwa [Nat.add_assoc, Nat.add_comm 1 j] at this
    · rw [if_pos ((len_le_iff h).mpr hready)]
      exact ⟨0, Nat.zero_le _, rfl, h, fun j hj => absurd hj (Nat.not_lt_zero j), fun _ => hready⟩

/-- An output that is ready depends on the input so far only. -/
theorem offline_congr {x y : Nat → ℚ} (hready : r.Ready fed k) (h : ∀ n < fed.length, x n = y n) :
    r.offline x k = r.offline y k := by
  unfold offline
  refine congrArg (r.fc * ·) (Finset.sum_congr rfl fun n hn => ?_)
  rw [h n (Window.near_lt hready hn)]

theorem Ready.append (h : r.Ready fed k) (input : List ℚ) : r.Ready (fed ++ input) k := by
  unfold Ready at h ⊢
  rw [List.length_append, Nat.cast_add]
  have : (0 : ℚ) ≤ input.length := Nat.cast_nonneg _
  linarith

theorem Ready.of_le {j : Nat} (h : r.Ready fed k) (hj : j ≤ k) : r.Ready fed j := by
  unfold Ready at h ⊢
  have hle : (j : ℚ) * r.step ≤ k * r.step := mul_le_mul_of_nonneg_right (by exact_mod_cast hj) r.step_pos.le
  linarith

/-! ## All that an input gives -/

def outputs (r : Resampler) (input : List ℚ) : Nat := ⌈(input.length - r.halfWidth) / r.step⌉₊

def conversion (r : Resampler) (input : List ℚ) : List ℚ :=
  (List.range (r.outputs input)).map (r.offline (input.getD · 0))

theorem ready_iff : r.Ready fed k ↔ k < r.outputs fed := by
  unfold Ready outputs
  rw [Nat.lt_ceil, lt_div_iff₀ r.step_pos]
  constructor <;> intro h <;> linarith

theorem outputs_append (fed more : List ℚ) : r.outputs fed ≤ r.outputs (fed ++ more) := by
  refine Nat.ceil_mono (div_le_div_of_nonneg_right ?_ r.step_pos.le)
  rw [List.length_append, Nat.cast_add]
  have : (0 : ℚ) ≤ more.length := Nat.cast_nonneg _
  linarith

/-- More input only adds outputs. -/
theorem conversion_append (fed more : List ℚ) :
    r.conversion (fed ++ more) = r.conversion fed ++
      (List.range' (r.outputs fed) (r.outputs (fed ++ more) - r.outputs fed)).map
        (r.offline ((fed ++ more).getD · 0)) := by
  have hsame : r.conversion fed = (List.range (r.outputs fed)).map (r.offline ((fed ++ more).getD · 0)) := by
    refine List.map_congr_left fun k hk => offline_congr (ready_iff.mpr (List.mem_range.mp hk)) fun n hn => ?_
    simp only [List.getD_eq_getElem?_getD, List.getElem?_append_left hn]
  obtain ⟨more', hmore⟩ := Nat.exists_eq_add_of_le (r.outputs_append fed more)
  rw [hsame, conversion, hmore, List.range_add, List.map_append, Nat.add_sub_cancel_left, List.range'_eq_map_range]

theorem not_ready_nil : ¬ r.Ready [] 0 := by
  have := r.halfWidth_nonneg
  simp only [Ready, List.length_nil, Nat.cast_zero, zero_mul, zero_add]
  exact not_lt.mpr this

@[simp] theorem outputs_nil : r.outputs [] = 0 := by
  have h := mt ready_iff.mpr r.not_ready_nil
  omega

/-! ## Room -/

theorem new_capacity {kernel : List ℚ} {inRate outRate : UInt32} {maxFeed : Nat}
    (h : new kernel inRate outRate maxFeed = some r) : maxFeed + 2 * ⌈r.halfWidth⌉₊ + 8 ≤ r.capacity := by
  unfold new at h
  split at h
  · cases h
  · cases h
    simp only
    omega

theorem len_compact (r : Resampler) : r.compact.len =
    if r.pos - r.halfWidth < 1 then r.len else r.len - min ⌊r.pos - r.halfWidth⌋₊ r.len := by
  unfold compact
  by_cases hfresh : r.pos - r.halfWidth < 1
  · simp only [if_pos hfresh]
  · simp only [if_neg hfresh]
    exact List.length_drop

/-- With no output ready, what is left of the input after compaction is no longer than the kernel. -/
theorem compact_len (h : r.Reaches fed k dropped) (hdry : ¬ r.Ready fed k) :
    (r.after fed k dropped).compact.len ≤ 2 * ⌈r.halfWidth⌉₊ + 1 := by
  have hlen := (len_le_iff h).mpr hdry
  have hhalf : (r.after fed k dropped).halfWidth = r.halfWidth := rfl
  have hceil := Nat.le_ceil r.halfWidth
  rw [hhalf] at hlen
  suffices hshort : ((r.after fed k dropped).compact.len : ℚ) < ((2 * ⌈r.halfWidth⌉₊ + 2 : Nat) : ℚ) by
    have : (r.after fed k dropped).compact.len < 2 * ⌈r.halfWidth⌉₊ + 2 := by exact_mod_cast hshort
    omega
  push_cast
  rw [len_compact, hhalf]
  by_cases hfresh : (r.after fed k dropped).pos - r.halfWidth < 1
  · rw [if_pos hfresh]
    linarith
  · rw [if_neg hfresh]
    by_cases hall : ⌊(r.after fed k dropped).pos - r.halfWidth⌋₊ ≤ (r.after fed k dropped).len
    · have hfloor := Nat.lt_floor_add_one ((r.after fed k dropped).pos - r.halfWidth)
      rw [Nat.min_eq_left hall, Nat.cast_sub hall]
      linarith
    · rw [Nat.min_eq_right (by omega), Nat.sub_self]
      have := r.halfWidth_nonneg
      push_cast
      linarith

theorem space_of_dry {kernel : List ℚ} {inRate outRate : UInt32} {maxFeed : Nat}
    (hnew : new kernel inRate outRate maxFeed = some r) (h : r.Reaches fed k dropped) (hdry : ¬ r.Ready fed k) :
    maxFeed ≤ (r.after fed k dropped).space.1 := by
  obtain ⟨dropped', hcompact, -⟩ := compact_after h
  have hlen := compact_len h hdry
  have hcapacity := new_capacity hnew
  have hsame : (r.after fed k dropped).compact.capacity = r.capacity := by
    rw [hcompact]
    rfl
  unfold space
  rw [hsame]
  omega

theorem feed_of_dry {kernel : List ℚ} {inRate outRate : UInt32} {maxFeed : Nat}
    (hnew : new kernel inRate outRate maxFeed = some r) (h : r.Reaches fed k dropped) (hdry : ¬ r.Ready fed k)
    {input : List ℚ} (hinput : input.length ≤ maxFeed) :
    ∃ dropped', (r.after fed k dropped).feed input = (input.length, r.after (fed ++ input) k dropped') ∧
      r.Reaches (fed ++ input) k dropped' := by
  have hspace := space_of_dry hnew h hdry
  have htaken : ((r.after fed k dropped).feed input).1 = input.length := by
    unfold space at hspace
    unfold feed
    simp only at hspace ⊢
    omega
  obtain ⟨dropped', hfeed, hreaches⟩ := feed_after h input
  rw [htaken, List.take_length] at hfeed hreaches
  exact ⟨dropped', Prod.ext htaken hfeed, hreaches⟩

end Resampler

/-! ## Runs -/

/-- A resampler, the samples it has accepted and the samples it has given. -/
structure Resampling where
  resampler : Resampler
  fed : List ℚ
  out : List ℚ

inductive ResampleOp where
  | feed (input : List ℚ)
  | pull (slots : Nat)
  | space

namespace Resampling

def exec (s : Resampling) : ResampleOp → Resampling
  | .feed input =>
    { s with resampler := (s.resampler.feed input).2, fed := s.fed ++ input.take (s.resampler.feed input).1 }
  | .pull slots => { s with resampler := (s.resampler.pull slots).2, out := s.out ++ (s.resampler.pull slots).1 }
  | .space => { s with resampler := s.resampler.space.2 }

def start (r : Resampler) : Resampling := ⟨r, [], []⟩

def run (s : Resampling) (ops : List ResampleOp) : Resampling := ops.foldl exec s

/-- The resampler holds what is left of the input, and has given what the whole input gives. -/
structure Aligned (r : Resampler) (s : Resampling) : Prop where
  holds : ∃ dropped, s.resampler = r.after s.fed s.out.length dropped ∧ r.Reaches s.fed s.out.length dropped
  gave : s.out = (List.range s.out.length).map (r.offline (s.fed.getD · 0))
  ready : ∀ k < s.out.length, r.Ready s.fed k

variable {r : Resampler} {s : Resampling}

theorem Aligned.feed (h : s.Aligned r) (input : List ℚ) : (s.exec (.feed input)).Aligned r := by
  obtain ⟨dropped, hholds, hreaches⟩ := h.holds
  obtain ⟨dropped', hfeed, hreaches'⟩ := Resampler.feed_after hreaches input
  rw [← hholds] at hfeed hreaches'
  refine ⟨⟨dropped', hfeed, hreaches'⟩, ?_, fun k hk => (h.ready k hk).append _⟩
  refine h.gave.trans (List.map_congr_left fun k hk => ?_)
  refine Resampler.offline_congr (h.ready k (List.mem_range.mp hk)) fun n hn => ?_
  simp only [exec, List.getD_eq_getElem?_getD, List.getElem?_append_left hn]

theorem Aligned.pull (h : s.Aligned r) (slots : Nat) :
    ((s.exec (.pull slots)).Aligned r ∧ s.out.length ≤ (s.exec (.pull slots)).out.length ∧
      (s.exec (.pull slots)).out.length ≤ s.out.length + slots) ∧
        ((s.exec (.pull slots)).out.length < s.out.length + slots →
          ¬ r.Ready s.fed (s.exec (.pull slots)).out.length) := by
  obtain ⟨dropped, hholds, hreaches⟩ := h.holds
  obtain ⟨made, hmade, hpull, hreaches', hall, hend⟩ := Resampler.pull_after hreaches slots
  rw [← hholds] at hpull
  have hout : (s.exec (.pull slots)).out =
      s.out ++ (List.range' s.out.length made).map (r.offline (s.fed.getD · 0)) := by
    rw [exec, hpull]
  have hlen : (s.exec (.pull slots)).out.length = s.out.length + made := by
    rw [hout, List.length_append, List.length_map, List.length_range']
  rw [hlen]
  refine ⟨⟨⟨⟨dropped, ?_, ?_⟩, ?_, fun k hk => ?_⟩, by omega, by omega⟩, fun hlt => hend (by omega)⟩
  · rw [hlen, exec, hpull]
  · rw [hlen]
    exact hreaches'
  · have hfed : (s.exec (.pull slots)).fed = s.fed := rfl
    rw [hlen, hout, hfed, List.range_add, List.map_append, ← h.gave, List.range'_eq_map_range]
  · rw [hlen] at hk
    by_cases hold : k < s.out.length
    · exact h.ready k hold
    · have hnew := hall (k - s.out.length) (by omega)
      rwa [Nat.add_sub_cancel' (by omega)] at hnew

theorem Aligned.space (h : s.Aligned r) : (s.exec .space).Aligned r := by
  obtain ⟨dropped, hholds, hreaches⟩ := h.holds
  obtain ⟨dropped', hcompact, hreaches'⟩ := Resampler.compact_after hreaches
  refine ⟨⟨dropped', ?_, hreaches'⟩, h.gave, h.ready⟩
  rw [exec, Resampler.space, hholds]
  exact hcompact

theorem Aligned.exec (h : s.Aligned r) (op : ResampleOp) : (s.exec op).Aligned r := by
  cases op with
  | feed input => exact h.feed input
  | pull slots => exact (h.pull slots).1.1
  | space => exact h.space

theorem Aligned.run (h : s.Aligned r) (ops : List ResampleOp) : (s.run ops).Aligned r := by
  induction ops generalizing s with
  | nil => exact h
  | cons op ops ih => exact ih (h.exec op)

theorem aligned_start {kernel : List ℚ} {inRate outRate : UInt32} {maxFeed : Nat}
    (h : Resampler.new kernel inRate outRate maxFeed = some r) : (start r).Aligned r := by
  refine ⟨⟨0, ?_, ⟨Nat.le_refl 0, .inl rfl⟩⟩, rfl, fun k hk => absurd hk (Nat.not_lt_zero k)⟩
  unfold Resampler.new at h
  split at h
  · cases h
  · cases h
    have hpos : (0 : ℚ) = (0 : Nat) * ((inRate.toNat : ℚ) / outRate.toNat) - (0 : Nat) := by norm_num
    simp only [start, Resampler.after, List.length_nil, List.drop_nil, ← hpos]

/-- What came out is what the whole input gives, whatever it goes on with. -/
theorem Aligned.out_eq (h : s.Aligned r) {x : Nat → ℚ} (hx : ∀ n < s.fed.length, s.fed.getD n 0 = x n) :
    s.out = (List.range s.out.length).map (r.offline x) := by
  refine h.gave.trans (List.map_congr_left fun k hk => ?_)
  exact Resampler.offline_congr (h.ready k (List.mem_range.mp hk)) hx

/-- A pull gives the outputs that are ready, as far as there are slots for them. -/
theorem Aligned.pulled_iff (h : s.Aligned r) (slots k : Nat) :
    k < (s.exec (.pull slots)).out.length ↔ k < s.out.length ∨ (k < s.out.length + slots ∧ r.Ready s.fed k) := by
  obtain ⟨⟨haligned, hle, hslots⟩, hend⟩ := h.pull slots
  constructor
  · intro hk
    exact .inr ⟨by omega, haligned.ready k hk⟩
  · rintro (hk | ⟨hk, hready⟩)
    · omega
    · by_contra hnot
      exact hend (by omega) (hready.of_le (by omega))

/-- The outputs of a run are those of the offline convolution, each pull gives those that are ready, and two runs over
one input give the same outputs. -/
theorem run_offline (kernel : List ℚ) (inRate outRate : UInt32) (maxFeed : Nat) (r : Resampler)
    (hnew : Resampler.new kernel inRate outRate maxFeed = some r) (ops : List ResampleOp) :
    (∀ x : Nat → ℚ, (∀ n < ((start r).run ops).fed.length, ((start r).run ops).fed.getD n 0 = x n) →
        ((start r).run ops).out = (List.range ((start r).run ops).out.length).map (r.offline x)) ∧
      (∀ slots k, k < (((start r).run ops).exec (.pull slots)).out.length ↔
        k < ((start r).run ops).out.length ∨
          (k < ((start r).run ops).out.length + slots ∧ r.Ready ((start r).run ops).fed k)) ∧
        ∀ ops', ((start r).run ops).fed <+: ((start r).run ops').fed →
          ((start r).run ops).out.length ≤ ((start r).run ops').out.length →
            ((start r).run ops).out <+: ((start r).run ops').out := by
  have haligned := (aligned_start hnew).run ops
  refine ⟨fun x => haligned.out_eq, haligned.pulled_iff, fun ops' hfed hout => ?_⟩
  have haligned' := (aligned_start hnew).run ops'
  have hsame : ∀ n < ((start r).run ops).fed.length,
      ((start r).run ops).fed.getD n 0 = ((start r).run ops').fed.getD n 0 := by
    obtain ⟨more, hmore⟩ := hfed
    intro n hn
    rw [← hmore]
    simp only [List.getD_eq_getElem?_getD, List.getElem?_append_left hn]
  obtain ⟨more, hmore⟩ := Nat.exists_eq_add_of_le hout
  rw [haligned.out_eq hsame, haligned'.gave, hmore, List.range_add, List.map_append]
  exact List.prefix_append _ _

/-- Some ones at half the rate, fed at once and in two pieces. -/
theorem run_offline_ones : ∃ r, Resampler.new [1, 0] 2 1 100 = some r ∧
    ((start r).run [.feed (List.replicate 100 1), .pull 5]).out = (List.range 5).map (r.offline fun _ => 1) ∧
    (((start r).run [.feed (List.replicate 100 1), .pull 5]).exec (.pull 20)).out.length = 15 ∧
    ((start r).run [.feed (List.replicate 100 1), .pull 5]).out <+:
      ((start r).run [.feed (List.replicate 60 1), .pull 3, .feed (List.replicate 40 1), .pull 20]).out := by
  obtain ⟨r, hr⟩ := Option.ne_none_iff_exists'.mp (mt Resampler.new_eq_none.mp (by decide) :
    Resampler.new [1, 0] 2 1 100 ≠ none)
  have hrun := run_offline _ _ _ _ r hr
  have eval : ∀ {α : Type} {f : Resampler → α} {a : α}, (Resampler.new [1, 0] 2 1 100).map f = some a → f r = a := by
    intro α f a h
    rw [hr] at h
    exact Option.some.inj h
  have hwidth : r.step = 2 ∧ r.halfWidth = 640 / 9 :=
    ⟨eval (f := fun r => r.step) (by decide +kernel), eval (f := fun r => r.halfWidth) (by decide +kernel)⟩
  have hfed : ((start r).run [.feed (List.replicate 100 1), .pull 5]).fed = List.replicate 100 1 :=
    eval (f := fun r => ((start r).run [.feed (List.replicate 100 1), .pull 5]).fed) (by decide +kernel)
  have hfed' : ((start r).run [.feed (List.replicate 60 1), .pull 3, .feed (List.replicate 40 1), .pull 20]).fed =
      List.replicate 100 1 :=
    eval (f := fun r => ((start r).run [.feed (List.replicate 60 1), .pull 3, .feed (List.replicate 40 1),
      .pull 20]).fed) (by decide +kernel)
  have hlen : ((start r).run [.feed (List.replicate 100 1), .pull 5]).out.length = 5 :=
    eval (f := fun r => ((start r).run [.feed (List.replicate 100 1), .pull 5]).out.length) (by decide +kernel)
  have hlen' : ((start r).run [.feed (List.replicate 60 1), .pull 3, .feed (List.replicate 40 1),
      .pull 20]).out.length = 15 :=
    eval (f := fun r => ((start r).run [.feed (List.replicate 60 1), .pull 3, .feed (List.replicate 40 1),
      .pull 20]).out.length) (by decide +kernel)
  refine ⟨r, hr, ?_, ?_, ?_⟩
  · have hout := (hrun [.feed (List.replicate 100 1), .pull 5]).1 (fun _ => 1) fun n hn => by
      rw [hfed, List.length_replicate] at hn
      rw [hfed, List.getD_eq_getElem?_getD, List.getElem?_replicate_of_lt hn, Option.getD_some]
    rwa [hlen] at hout
  · -- The fifteenth output is the last that a hundred samples make ready.
    have hiff := fun k => (hrun [.feed (List.replicate 100 1), .pull 5]).2.1 20 k
    simp only [hlen, hfed, Resampler.Ready, hwidth, List.length_replicate] at hiff
    have hlast := (hiff 14).mpr (.inr ⟨by decide, by norm_num⟩)
    have hno : ¬ 15 < (((start r).run [.feed (List.replicate 100 1), .pull 5]).exec (.pull 20)).out.length := by
      intro hlt
      rcases (hiff 15).mp hlt with h | ⟨-, h⟩
      · exact absurd h (by decide)
      · norm_num at h
    omega
  · refine (hrun _).2.2 _ ?_ ?_
    · rw [hfed, hfed']
    · rw [hlen, hlen']
      decide

end Resampling

end PickleChat
