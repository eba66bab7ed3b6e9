import PickleChat.Lib.Scan
import PickleChat.Vault

/-!
# Mining

`pow.rs`: the search for a counter of a higher security level. What the loop
holds after `n` hashes depends on `n` alone, and so does whether it stops there.
-/

namespace PickleChat

def progressInterval : UInt64 := 65536

structure MineProgress where
  counter : UInt64
  bestLevel : UInt32
  hashes : UInt64
  deriving DecidableEq

structure MineReport where
  counter : UInt64
  level : UInt32
  hashes : UInt64
  cancelled : Bool
  deriving DecidableEq

/-- The variables of the loop, and what the callback has been told, the last sample first. -/
structure Search where
  bestCounter : UInt64
  bestLevel : UInt32
  hashes : UInt64
  counter : UInt64
  told : List MineProgress
  deriving DecidableEq

namespace Search

def tell (s : Search) : Search := { s with told := ⟨s.counter, s.bestLevel, s.hashes⟩ :: s.told }

def report (s : Search) (cancelled : Bool) : MineReport := ⟨s.bestCounter, s.bestLevel, s.hashes, cancelled⟩

end Search

section
variable (level : UInt64 → UInt32) (start : UInt64) (target : UInt32) (progress : List MineProgress → Bool)

def Search.init : Search := ⟨start, level start, 0, start, []⟩

def Search.next (s : Search) : Search :=
  let counter := s.counter + 1
  let s := { s with counter, hashes := s.hashes + 1 }
  if s.bestLevel < level counter then { s with bestCounter := counter, bestLevel := level counter } else s

/-- The loop of `mine`. The callback may answer by all it has been told; `none`
is the overflow of `hashes`, or a search that has not stopped yet. -/
def mineLoop : Nat → Search → Option MineReport
  | 0, _ => none
  | fuel + 1, s =>
    if s.bestLevel < target then
      if s.hashes.toNat + 1 = UInt64.size then none else
      let s := s.next level
      if s.hashes % progressInterval = 0 then
        let s := s.tell
        if progress s.told then mineLoop fuel s else some (s.report true)
      else mineLoop fuel s
    else some (s.report false)

def mine (fuel : Nat) : Option MineReport := mineLoop level target progress fuel (.init level start)

/-! ## What is searched -/

def levels (n : Nat) : UInt32 := level (start + UInt64.ofNat n)

/-- What the callback has been told after its `m`-th sample. -/
def samples : Nat → List MineProgress
  | 0 => []
  | m + 1 =>
    let n := 65536 * (m + 1)
    ⟨start + UInt64.ofNat n, levels level start (Scan.best (levels level start) n), UInt64.ofNat n⟩ :: samples m

def CancelsAfter (n : Nat) : Prop := 0 < n ∧ n % 65536 = 0 ∧ progress (samples level start (n / 65536)) = false

def ReachedBy (n : Nat) : Prop := target ≤ levels level start (Scan.best (levels level start) n)

def StopsAfter (n : Nat) : Prop :=
  (CancelsAfter level start progress n ∨ ReachedBy level start target n) ∧
    ∀ i < n, ¬ CancelsAfter level start progress i ∧ ¬ ReachedBy level start target i

instance (n : Nat) : Decidable (CancelsAfter level start progress n) := inferInstanceAs (Decidable (_ ∧ _))

/-- The loop's variables after `n` hashes and `m` samples. -/
def Search.after (n m : Nat) : Search :=
  let best := Scan.best (levels level start) n
  ⟨start + UInt64.ofNat best, levels level start best, UInt64.ofNat n, start + UInt64.ofNat n, samples level start m⟩

end

section
variable {level : UInt64 → UInt32} {start : UInt64} {target : UInt32} {progress : List MineProgress → Bool}
variable {n m fuel : Nat} {report : MineReport}

theorem after_zero : Search.after level start 0 0 = .init level start := by
  have hstart : start + UInt64.ofNat 0 = start := UInt64.add_zero start
  unfold Search.after Search.init
  simp only [Scan.best, levels, hstart]
  rfl

theorem add_ofNat_succ (n : Nat) : start + UInt64.ofNat (n + 1) = start + UInt64.ofNat n + 1 := by
  rw [UInt64.ofNat_add, UInt64.add_assoc]
  rfl

theorem next_after : (Search.after level start n m).next level = Search.after level start (n + 1) m := by
  have hcounter : start + UInt64.ofNat (n + 1) = start + UInt64.ofNat n + 1 := add_ofNat_succ n
  have hhashes : UInt64.ofNat n + 1 = UInt64.ofNat (n + 1) := (UInt64.ofNat_add n 1).symm
  have hlevel : levels level start (n + 1) = level (start + UInt64.ofNat n + 1) := by rw [levels, hcounter]
  unfold Search.next Search.after
  by_cases hbest : levels level start (Scan.best (levels level start) n) < levels level start (n + 1)
  · rw [Scan.best_succ_of_lt hbest]
    rw [hlevel] at hbest
    simp only [hbest, if_true, hlevel, hcounter, hhashes]
  · rw [Scan.best_succ_of_not_lt hbest]
    rw [hlevel] at hbest
    simp only [hbest, if_false, hcounter, hhashes]

theorem tell_after (hn : n = 65536 * (m + 1)) :
    (Search.after level start n m).tell = Search.after level start n (m + 1) := by
  subst hn
  rfl

theorem interval_dvd (hn : n < UInt64.size) : UInt64.ofNat n % progressInterval = 0 ↔ n % 65536 = 0 := by
  have hinterval : progressInterval.toNat = 65536 := rfl
  rw [← UInt64.toNat_inj, UInt64.toNat_mod, UInt64.toNat_ofNat_of_lt' hn, hinterval]
  rfl

/-- One turn of the loop. -/
theorem mineLoop_after (hn : n + 1 < UInt64.size) (hreached : ¬ ReachedBy level start target n) :
    mineLoop level target progress (fuel + 1) (.after level start n (n / 65536)) =
      if CancelsAfter level start progress (n + 1) then
        some ((Search.after level start (n + 1) ((n + 1) / 65536)).report true)
      else mineLoop level target progress fuel (.after level start (n + 1) ((n + 1) / 65536)) := by
  have hbelow : (Search.after level start n (n / 65536)).bestLevel < target := Std.not_le.mp hreached
  have hhashes : (Search.after level start n (n / 65536)).hashes.toNat = n := UInt64.toNat_ofNat_of_lt' (by omega)
  have hnext : (Search.after level start (n + 1) (n / 65536)).hashes % progressInterval = 0 ↔ (n + 1) % 65536 = 0 :=
    interval_dvd hn
  rw [mineLoop, if_pos hbelow, hhashes, if_neg (by omega), next_after]
  simp only [hnext]
  by_cases hmod : (n + 1) % 65536 = 0
  · have hsamples : n / 65536 + 1 = (n + 1) / 65536 := by omega
    have htold : (Search.after level start (n + 1) ((n + 1) / 65536)).told = samples level start ((n + 1) / 65536) :=
      rfl
    rw [if_pos hmod, tell_after (by omega), hsamples, htold]
    by_cases hgo : progress (samples level start ((n + 1) / 65536)) = true
    · have hgoes : ¬ CancelsAfter level start progress (n + 1) := by
        rintro ⟨-, -, hstop⟩
        rw [hgo] at hstop
        cases hstop
      rw [if_pos hgo, if_neg hgoes]
    · rw [if_neg hgo, if_pos ⟨by omega, hmod, by simpa using hgo⟩]
  · have hsamples : n / 65536 = (n + 1) / 65536 := by omega
    rw [if_neg hmod, if_neg fun hcancel => hmod hcancel.2.1, hsamples]

theorem mineLoop_reached (h : ReachedBy level start target n) :
    mineLoop level target progress (fuel + 1) (.after level start n m) =
      some ((Search.after level start n m).report false) := by
  have hlevel : ¬ (Search.after level start n m).bestLevel < target := Std.not_lt.mpr h
  rw [mineLoop, if_neg hlevel]

theorem mineLoop_overflow (hn : n + 1 = UInt64.size) (hreached : ¬ ReachedBy level start target n) :
    mineLoop level target progress (fuel + 1) (.after level start n m) = none := by
  have hbelow : (Search.after level start n m).bestLevel < target := Std.not_le.mp hreached
  have hhashes : (Search.after level start n m).hashes.toNat = n := UInt64.toNat_ofNat_of_lt' (by omega)
  rw [mineLoop, if_pos hbelow, hhashes, if_pos hn]

def stopped (level : UInt64 → UInt32) (start : UInt64) (progress : List MineProgress → Bool) (n : Nat) : MineReport :=
  (Search.after level start n (n / 65536)).report (CancelsAfter level start progress n)

theorem mineLoop_eq (hn : n < UInt64.size) (hcancel : ¬ CancelsAfter level start progress n)
    (hbefore : ∀ i < n, ¬ CancelsAfter level start progress i ∧ ¬ ReachedBy level start target i)
    (h : mineLoop level target progress fuel (.after level start n (n / 65536)) = some report) :
    ∃ stop, stop < UInt64.size ∧ StopsAfter level start target progress stop ∧
      report = stopped level start progress stop := by
  induction fuel generalizing n with
  | zero => cases h
  | succ fuel ih =>
    by_cases hreached : ReachedBy level start target n
    · rw [mineLoop_reached hreached] at h
      cases h
      exact ⟨n, hn, ⟨.inr hreached, hbefore⟩, by rw [stopped, decide_eq_false hcancel]⟩
    · have hgoes : ∀ i < n + 1, ¬ CancelsAfter level start progress i ∧ ¬ ReachedBy level start target i := by
        intro i hi
        rcases Nat.lt_or_eq_of_le (Nat.le_of_lt_succ hi) with hi | rfl
        · exact hbefore i hi
        · exact ⟨hcancel, hreached⟩
      by_cases hlast : n + 1 = UInt64.size
      · rw [mineLoop_overflow hlast hreached] at h
        cases h
      · rw [mineLoop_after (by omega) hreached] at h
        by_cases hnow : CancelsAfter level start progress (n + 1)
        · rw [if_pos hnow] at h
          cases h
          exact ⟨n + 1, by omega, ⟨.inl hnow, hgoes⟩, by rw [stopped, decide_eq_true hnow]⟩
        · rw [if_neg hnow] at h
          exact ih (by omega) hnow hgoes h

/-- A search that returns has stopped where the target or the callback stops it. -/
theorem mine_eq (h : mine level start target progress fuel = some report) :
    ∃ stop, stop < UInt64.size ∧ StopsAfter level start target progress stop ∧
      report = stopped level start progress stop := by
  rw [mine, ← after_zero] at h
  refine mineLoop_eq (n := 0) (by decide) (fun hcancel => ?_) (fun i hi => absurd hi (Nat.not_lt_zero i)) h
  exact absurd hcancel.1 (Nat.lt_irrefl 0)

theorem mineLoop_stops {stop : Nat} (hstop : StopsAfter level start target progress stop)
    (hsize : stop < UInt64.size) (hn : n ≤ stop) (hfuel : stop < n + fuel)
    (hcancel : ¬ CancelsAfter level start progress n) :
    mineLoop level target progress fuel (.after level start n (n / 65536)) =
      some (stopped level start progress stop) := by
  induction fuel generalizing n with
  | zero => omega
  | succ fuel ih =>
    by_cases hreached : ReachedBy level start target n
    · have hnow : stop = n := by
        by_contra hne
        exact (hstop.2 n (by omega)).2 hreached
      rw [mineLoop_reached hreached, hnow, stopped, decide_eq_false hcancel]
    · have hlater : n < stop := by
        refine Nat.lt_of_le_of_ne hn fun hnow => ?_
        rcases hstop.1 with hc | hr
        · exact hcancel (hnow ▸ hc)
        · exact hreached (hnow ▸ hr)
      rw [mineLoop_after (by omega) hreached]
      by_cases hnow : CancelsAfter level start progress (n + 1)
      · have hend : stop = n + 1 := by
          by_contra hne
          exact (hstop.2 (n + 1) (by omega)).1 hnow
        rw [if_pos hnow, hend, stopped, decide_eq_true hnow]
      · rw [if_neg hnow]
        exact ih (by omega) (by omega) hnow

/-- A search that the target or the callback stops returns. -/
theorem mine_stops {stop : Nat} (hstop : StopsAfter level start target progress stop) (hsize : stop < UInt64.size)
    (hfuel : stop < fuel) : mine level start target progress fuel = some (stopped level start progress stop) := by
  rw [mine, ← after_zero]
  refine mineLoop_stops (n := 0) hstop hsize (Nat.zero_le _) (by omega) fun hcancel => ?_
  exact absurd hcancel.1 (Nat.lt_irrefl 0)

/-! ## What is found -/

/-- The best of the counters that were scanned. -/
structure MineReport.Finds (level : UInt64 → UInt32) (start : UInt64) (target : UInt32) (report : MineReport) :
    Prop where
  level_eq : report.level = level report.counter
  max : ∀ i ≤ report.hashes.toNat, level (start + UInt64.ofNat i) ≤ report.level
  first : ∃ b ≤ report.hashes.toNat, report.counter = start + UInt64.ofNat b ∧
    ∀ i < b, level (start + UInt64.ofNat i) < report.level
  below : ∀ i < report.hashes.toNat, level (start + UInt64.ofNat i) < target
  reached : report.cancelled = false → target ≤ report.level

theorem stopped_hashes (hn : n < UInt64.size) : (stopped level start progress n).hashes.toNat = n :=
  UInt64.toNat_ofNat_of_lt' hn

theorem below_target (h : StopsAfter level start target progress n) {i : Nat} (hi : i < n) :
    levels level start i < target :=
  Std.lt_of_le_of_lt (Scan.le_best (Nat.le_refl i)) (Std.not_le.mp (h.2 i hi).2)

theorem stopped_finds (hn : n < UInt64.size) (h : StopsAfter level start target progress n) :
    (stopped level start progress n).Finds level start target := by
  have hhashes : (stopped level start progress n).hashes.toNat = n := stopped_hashes hn
  refine ⟨rfl, ?_, ?_, ?_, fun hgoes => ?_⟩
  · rw [hhashes]
    exact fun i hi => Scan.le_best (f := levels level start) hi
  · rw [hhashes]
    exact ⟨Scan.best (levels level start) n, Scan.best_le, rfl, fun i hi => Scan.lt_best (f := levels level start) hi⟩
  · rw [hhashes]
    exact fun i hi => below_target h hi
  · have hcancel : ¬ CancelsAfter level start progress n := of_decide_eq_false hgoes
    exact h.1.resolve_left hcancel

theorem mine_finds (h : mine level start target progress fuel = some report) : report.Finds level start target := by
  obtain ⟨n, hn, hstop, rfl⟩ := mine_eq h
  exact stopped_finds hn hstop

end

section
variable (c : Crates) (levelOf : VerifyingKey → UInt64 → UInt32)

/-- `security_level` of an identity, with the level any function of key and counter. -/
def SecretIdentity.securityLevel (identity : SecretIdentity) : UInt32 :=
  levelOf (c.verifyingKey identity.secret) identity.counter

/-- `Identity::mine`: the report, and the identity with what was found. -/
def SecretIdentity.mine (fuel : Nat) (identity : SecretIdentity) (target : UInt32)
    (progress : List MineProgress → Bool) : Option (MineReport × SecretIdentity) :=
  (PickleChat.mine (levelOf (c.verifyingKey identity.secret)) identity.counter target progress fuel).map fun report =>
    (report, if identity.securityLevel c levelOf < report.level then { identity with counter := report.counter }
      else identity)

end

section
variable {c : Crates} {levelOf : VerifyingKey → UInt64 → UInt32} {fuel : Nat} {identity identity' : SecretIdentity}
variable {target : UInt32} {progress : List MineProgress → Bool} {report : MineReport}

/-- An identity mines from its counter, and comes to have the counter that is reported. -/
theorem SecretIdentity.mine_eq (h : identity.mine c levelOf fuel target progress = some (report, identity')) :
    PickleChat.mine (levelOf (c.verifyingKey identity.secret)) identity.counter target progress fuel = some report ∧
      identity' = { identity with counter := report.counter } := by
  obtain ⟨_, hmine, h⟩ := Option.map_eq_some_iff.mp h
  cases h
  refine ⟨hmine, ?_⟩
  by_cases hbetter : identity.securityLevel c levelOf < report.level
  · rw [if_pos hbetter]
  · obtain ⟨b, hb, hcounter, hfirst⟩ := (mine_finds hmine).first
    have hzero : b = 0 := by
      by_contra hne
      have hstart := hfirst 0 (Nat.pos_of_ne_zero hne)
      exact hbetter (by simpa [SecretIdentity.securityLevel] using hstart)
    have hsame : report.counter = identity.counter := by
      rw [hcounter, hzero]
      exact UInt64.add_zero _
    rw [if_neg hbetter, hsame]

theorem SecretIdentity.mine_keeps (h : identity.mine c levelOf fuel target progress = some (report, identity')) :
    identity'.secret = identity.secret ∧ identity.securityLevel c levelOf ≤ identity'.securityLevel c levelOf := by
  obtain ⟨hmine, rfl⟩ := SecretIdentity.mine_eq h
  refine ⟨rfl, ?_⟩
  have hfinds := mine_finds hmine
  have hstart := hfinds.max 0 (Nat.zero_le _)
  rw [hfinds.level_eq] at hstart
  simpa [SecretIdentity.securityLevel] using hstart

/-- A search that stops has found the first of the best counters it scanned, and an identity that mines keeps its
fingerprint and loses no level. -/
theorem mine_exact :
    (∀ (level : UInt64 → UInt32) (start : UInt64) (target : UInt32) (progress : List MineProgress → Bool) (fuel : Nat)
        (report : MineReport), mine level start target progress fuel = some report → report.Finds level start target) ∧
      ∀ (c : Crates) (levelOf : VerifyingKey → UInt64 → UInt32) (fuel : Nat) (identity : SecretIdentity)
        (target : UInt32) (progress : List MineProgress → Bool) (report : MineReport) (identity' : SecretIdentity),
        identity.mine c levelOf fuel target progress = some (report, identity') →
          identity.securityLevel c levelOf ≤ identity'.securityLevel c levelOf ∧
            identity'.fingerprint c = identity.fingerprint c := by
  refine ⟨fun _ _ _ _ _ _ => mine_finds, fun c _ _ identity _ _ _ identity' h => ?_⟩
  obtain ⟨hsecret, hlevel⟩ := SecretIdentity.mine_keeps h
  exact ⟨hlevel, by rw [SecretIdentity.fingerprint, SecretIdentity.fingerprint, hsecret]⟩

/-- Levels one to five from a counter on: the third is reached at the second counter after the start. -/
theorem mine_exact_third :
    mine (fun n => n.toUInt32 - 6) 7 3 (fun _ => true) 5 = some ⟨9, 3, 2, false⟩ ∧
      (⟨9, 3, 2, false⟩ : MineReport).Finds (fun n => n.toUInt32 - 6) 7 3 := by
  have hrun : mine (fun n => n.toUInt32 - 6) 7 3 (fun _ => true) 5 = some ⟨9, 3, 2, false⟩ := by decide +kernel
  exact ⟨hrun, mine_exact.1 _ _ _ _ _ _ hrun⟩

end

end PickleChat
