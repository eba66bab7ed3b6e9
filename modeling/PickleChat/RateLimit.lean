import PickleChat.Lib.Bucket
import PickleChat.Session

/-!
# How often a client may ask

`RateLimiter` and `control_loop` of `pickle-server/src/session.rs`. Times are
seconds, exact; each frame comes with the time at which it is read.
-/

namespace PickleChat

def controlRateLimit : UInt32 := 30

structure RateLimiter where
  capacity : ℚ
  tokens : ℚ
  perSecond : ℚ
  last : ℚ

namespace RateLimiter

def new (perSecond : UInt32) (now : ℚ) : RateLimiter :=
  { capacity := perSecond.toNat, tokens := perSecond.toNat, perSecond := perSecond.toNat, last := now }

def allow (limiter : RateLimiter) (now : ℚ) : Bool × RateLimiter :=
  let elapsed := now - limiter.last
  let tokens := min (limiter.tokens + elapsed * limiter.perSecond) limiter.capacity
  if 1 ≤ tokens then (true, { limiter with tokens := tokens - 1, last := now })
  else (false, { limiter with tokens, last := now })

def run (limiter : RateLimiter) (times : List ℚ) : RateLimiter := times.foldl (fun l now => (l.allow now).2) limiter

def verdicts (limiter : RateLimiter) : List ℚ → List Bool
  | [] => []
  | now :: times => (limiter.allow now).1 :: (limiter.allow now).2.verdicts times

def allowed (limiter : RateLimiter) (times : List ℚ) : List ℚ :=
  ((times.zip (limiter.verdicts times)).filter Prod.snd).map Prod.fst

def bucket (limiter : RateLimiter) : Bucket ℚ :=
  { capacity := limiter.capacity, level := limiter.tokens, rate := limiter.perSecond, last := limiter.last }

theorem allow_bucket (limiter : RateLimiter) (now : ℚ) :
    limiter.bucket.take now = ((limiter.allow now).1, (limiter.allow now).2.bucket) := by
  have hfilled : limiter.bucket.filled now =
      min (limiter.tokens + (now - limiter.last) * limiter.perSecond) limiter.capacity := rfl
  unfold Bucket.take allow
  simp only [hfilled]
  by_cases h : 1 ≤ min (limiter.tokens + (now - limiter.last) * limiter.perSecond) limiter.capacity
  · rw [if_pos h, if_pos h]
    rfl
  · rw [if_neg h, if_neg h]
    rfl

theorem run_bucket (limiter : RateLimiter) (times : List ℚ) :
    (limiter.run times).bucket = limiter.bucket.drawn times := by
  induction times generalizing limiter with
  | nil => rfl
  | cons now times ih =>
    have hstep : (limiter.bucket.take now).2 = (limiter.allow now).2.bucket := congrArg Prod.snd (allow_bucket ..)
    unfold Bucket.drawn
    rw [List.foldl_cons, hstep]
    exact ih _

theorem allowed_bucket (limiter : RateLimiter) (times : List ℚ) :
    limiter.allowed times = limiter.bucket.taken times := by
  induction times generalizing limiter with
  | nil => rfl
  | cons now times ih =>
    rw [Bucket.taken, allow_bucket, ← ih]
    unfold allowed
    rw [verdicts, List.zip_cons_cons]
    cases (limiter.allow now).1 with
    | true => simp
    | false => simp

theorem new_sound (perSecond : UInt32) (now : ℚ) : (new perSecond now).bucket.Sound :=
  ⟨Nat.cast_nonneg _, Nat.cast_nonneg _, le_refl _⟩

/-- The tokens stay between none and the rate, a stretch of time lets through no more than the rate and what flows in,
and whoever keeps the rate is never refused. -/
theorem allow_bounded (perSecond : UInt32) (hrate : 1 ≤ perSecond) (created : ℚ) (times : List ℚ)
    (hs : (created :: times).Pairwise (· ≤ ·)) :
    (0 ≤ ((new perSecond created).run times).tokens ∧ ((new perSecond created).run times).tokens ≤ perSecond.toNat) ∧
      (∀ since length : ℚ, 0 ≤ length →
        ((((new perSecond created).allowed times).filter fun t => since ≤ t ∧ t ≤ since + length).length : ℚ) ≤
          perSecond.toNat + perSecond.toNat * length) ∧
        ((times.IsChain fun s t => 1 / (perSecond.toNat : ℚ) ≤ t - s) →
          (new perSecond created).allowed times = times) := by
  have hsound := new_sound perSecond created
  have hone : (1 : ℚ) ≤ perSecond.toNat := by
    have : 1 ≤ perSecond.toNat := hrate
    exact_mod_cast this
  refine ⟨?_, fun since length hlength => ?_, fun hspaced => ?_⟩
  · have hafter := hsound.drawn hs
    rw [← run_bucket] at hafter
    have hcapacity : ((new perSecond created).run times).capacity = perSecond.toNat := by
      have hkept := congrArg Bucket.capacity (run_bucket (new perSecond created) times)
      exact hkept.trans (Bucket.drawn_capacity ..)
    exact ⟨hafter.level, hcapacity ▸ hafter.capacity⟩
  · have hbound := Bucket.taken_between hsound hs (le_add_of_nonneg_right hlength : since ≤ since + length)
    rw [← allowed_bucket] at hbound
    refine hbound.trans (le_of_eq ?_)
    simp only [bucket, new]
    ring
  · rw [allowed_bucket]
    refine Bucket.taken_spaced hsound hone (fun t ht => ?_) (hspaced.imp fun s t hgap => ?_)
    · -- it starts full
      have hnow : created ≤ t := (List.pairwise_cons.mp hs).1 t (List.mem_of_mem_head? ht)
      have hflow : 0 ≤ (t - created) * (perSecond.toNat : ℚ) := mul_nonneg (sub_nonneg.mpr hnow) (Nat.cast_nonneg _)
      exact hone.trans (le_add_of_nonneg_right hflow)
    · exact (div_le_iff₀ (lt_of_lt_of_le zero_lt_one hone)).mp hgap

theorem allow_bounded_burst :
    (0 ≤ ((new 2 0).run [1, 1, 1]).tokens ∧ ((new 2 0).run [1, 1, 1]).tokens ≤ (2 : UInt32).toNat) ∧
      (2 : ℚ) ≤ (2 : UInt32).toNat + (2 : UInt32).toNat * 1 := by
  have h := allow_bounded 2 (by decide) 0 [1, 1, 1] (by decide)
  exact ⟨h.1, (h.2.1 1 1 (by decide)).trans' (by decide +kernel)⟩

end RateLimiter

/-! ## The loop over a client's frames -/

def answer (client : ClientId) (ok : Bool) (frame : ClientControl) : Handler :=
  if !ok then fun s => (s.send client (.error .rateLimited "too many control messages"), .done)
  else handleControl client frame

def controlLoop (client : ClientId) (limiter : RateLimiter) : List (ℚ × ClientControl) → List Handler
  | [] => []
  | (now, frame) :: frames =>
    let (ok, limiter) := limiter.allow now
    answer client ok frame :: controlLoop client limiter frames

/-- Frame by frame, the handler that runs is chosen by the limiter's verdict. -/
theorem controlLoop_eq (client : ClientId) (limiter : RateLimiter) (frames : List (ℚ × ClientControl)) :
    controlLoop client limiter frames =
      List.zipWith (fun ok f => answer client ok f.2) (limiter.verdicts (frames.map Prod.fst)) frames := by
  induction frames generalizing limiter with
  | nil => rfl
  | cons f frames ih => exact congrArg (answer client (limiter.allow f.1).1 f.2 :: ·) (ih _)

/-- In no stretch of time are more of a client's frames handled than the limit and what flows in. -/
theorem controlLoop_bounded (created : ℚ) (frames : List (ℚ × ClientControl))
    (hs : (created :: frames.map Prod.fst).Pairwise (· ≤ ·)) (since length : ℚ) (hlength : 0 ≤ length) :
    (((frames.zip ((RateLimiter.new controlRateLimit created).verdicts (frames.map Prod.fst))).filter fun f =>
      f.2 ∧ since ≤ f.1.1 ∧ f.1.1 ≤ since + length).length : ℚ) ≤ 30 + 30 * length := by
  have hbound := (RateLimiter.allow_bounded controlRateLimit (by decide) created _ hs).2.1 since length hlength
  have hthirty : (controlRateLimit.toNat : ℚ) = 30 := by decide +kernel
  rw [hthirty] at hbound
  refine le_trans (le_of_eq ?_) hbound
  have hzip : (frames.map Prod.fst).zip ((RateLimiter.new controlRateLimit created).verdicts (frames.map Prod.fst)) =
      (frames.zip ((RateLimiter.new controlRateLimit created).verdicts (frames.map Prod.fst))).map
        (Prod.map Prod.fst id) :=
    List.zip_map_left ..
  unfold RateLimiter.allowed
  rw [hzip]
  simp [List.filter_map, Function.comp_def, Bool.and_comm]

end PickleChat
