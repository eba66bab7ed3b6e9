import PickleChat.Mining

/-!
# Mining again

A call resumes from the best counter that was found, not from the last that was
tried. What it hashes is new exactly if the two were the same.
-/

namespace PickleChat

structure MineCall where
  target : UInt32
  progress : List MineProgress → Bool

/-- A call of `Identity::mine` that returned: the identity before it, and its report. -/
structure Visit where
  identity : SecretIdentity
  call : MineCall
  report : MineReport

namespace Visit

def start (v : Visit) : UInt64 := v.identity.counter

/-- The counters the loop of a call hashed, one for each of its hashes. -/
def Hashed (v : Visit) (counter : UInt64) : Prop :=
  ∃ i, 1 ≤ i ∧ i ≤ v.report.hashes.toNat ∧ counter = v.start + UInt64.ofNat i

def total (visits : List Visit) : Nat := (visits.map fun v => v.report.hashes.toNat).sum

section
variable (c : Crates) (levelOf : VerifyingKey → UInt64 → UInt32)

def level (v : Visit) : UInt64 → UInt32 := levelOf (c.verifyingKey v.identity.secret)

def Searches (v : Visit) : Prop := v.identity.securityLevel c levelOf < v.call.target

/-- If the callback stops the call, it does so at a counter above all that were scanned before it. -/
def KeepsUp (v : Visit) : Prop :=
  ∀ n, StopsAfter (v.level c levelOf) v.start v.call.target v.call.progress n →
    CancelsAfter (v.level c levelOf) v.start v.call.progress n →
      ∀ i < n, levels (v.level c levelOf) v.start i < levels (v.level c levelOf) v.start n

end

end Visit

/-- Calls of `Identity::mine` on one identity, one after the other. -/
def SecretIdentity.mineAll (c : Crates) (levelOf : VerifyingKey → UInt64 → UInt32) (fuel : Nat) :
    SecretIdentity → List MineCall → Option (List Visit)
  | _, [] => some []
  | identity, call :: calls => do
    let (report, identity') ← identity.mine c levelOf fuel call.target call.progress
    let visits ← identity'.mineAll c levelOf fuel calls
    some (⟨identity, call, report⟩ :: visits)

section
variable {c : Crates} {levelOf : VerifyingKey → UInt64 → UInt32} {fuel : Nat} {identity : SecretIdentity}
variable {level : UInt64 → UInt32} {start : UInt64} {target : UInt32} {progress : List MineProgress → Bool}
variable {calls : List MineCall} {visits : List Visit} {v w : Visit}

/-! ## One call -/

theorem stopsAfter_unique {n n' : Nat} (h : StopsAfter level start target progress n)
    (h' : StopsAfter level start target progress n') : n = n' := by
  have hstops : ∀ {i j : Nat}, StopsAfter level start target progress i → StopsAfter level start target progress j →
      ¬ i < j := by
    intro i j hi hj hlt
    obtain ⟨hcancel, hreached⟩ := hj.2 i hlt
    exact hi.1.elim hcancel hreached
  exact Nat.le_antisymm (Nat.not_lt.mp (hstops h' h)) (Nat.not_lt.mp (hstops h h'))

def Visit.Stopped (c : Crates) (levelOf : VerifyingKey → UInt64 → UInt32) (v : Visit) : Prop :=
  StopsAfter (v.level c levelOf) v.start v.call.target v.call.progress v.report.hashes.toNat ∧
    v.report.counter = v.start + UInt64.ofNat (Scan.best (levels (v.level c levelOf) v.start) v.report.hashes.toNat)

theorem mine_stopped {call : MineCall} {report : MineReport} {identity' : SecretIdentity}
    (h : identity.mine c levelOf fuel call.target call.progress = some (report, identity')) :
    (⟨identity, call, report⟩ : Visit).Stopped c levelOf ∧ identity' = { identity with counter := report.counter } := by
  obtain ⟨hmine, hkept⟩ := SecretIdentity.mine_eq h
  obtain ⟨n, hn, hstop, rfl⟩ := mine_eq hmine
  refine ⟨?_, hkept⟩
  unfold Visit.Stopped
  rw [stopped_hashes hn]
  exact ⟨hstop, rfl⟩

theorem Visit.Stopped.searches_iff (h : v.Stopped c levelOf) : v.Searches c levelOf ↔ 0 < v.report.hashes.toNat := by
  have hlevel : levels (v.level c levelOf) v.start 0 = v.identity.securityLevel c levelOf := by
    unfold levels Visit.level Visit.start
    exact congrArg _ (UInt64.add_zero _)
  constructor
  · intro hsearches
    by_contra hzero
    have hnone : v.report.hashes.toNat = 0 := Nat.eq_zero_of_not_pos hzero
    rcases h.1.1 with hcancel | hreached
    · exact hzero hcancel.1
    · rw [hnone, ReachedBy, Scan.best, hlevel] at hreached
      exact Std.not_lt.mpr hreached hsearches
  · intro hpos
    have hbelow := below_target h.1 hpos
    rwa [hlevel] at hbelow

/-- A call keeps up exactly if the last counter it tried is the one it found. -/
theorem Visit.Stopped.keepsUp_iff (h : v.Stopped c levelOf) :
    v.KeepsUp c levelOf ↔
      Scan.best (levels (v.level c levelOf) v.start) v.report.hashes.toNat = v.report.hashes.toNat := by
  rw [Scan.best_eq_self]
  constructor
  · intro hkeeps
    by_cases hcancel : CancelsAfter (v.level c levelOf) v.start v.call.progress v.report.hashes.toNat
    · exact hkeeps _ h.1 hcancel
    · exact Scan.best_eq_self.mp (Scan.best_eq_of_reached (fun i hi => below_target h.1 hi)
        (h.1.1.resolve_left hcancel))
  · intro hbest n hstop _
    rw [stopsAfter_unique hstop h.1]
    exact hbest

/-! ## A sequence of calls -/

theorem add_ofNat_inj {i j : Nat} (hi : i < UInt64.size) (hj : j < UInt64.size) :
    start + UInt64.ofNat i = start + UInt64.ofNat j ↔ i = j := by
  rw [UInt64.add_right_inj, ← UInt64.toNat_inj, UInt64.toNat_ofNat_of_lt' hi, UInt64.toNat_ofNat_of_lt' hj]

/-- Two calls, the later one from `o` counters after the start of the earlier one. -/
theorem hashed_apart_iff {o : Nat} (hstart : w.start = v.start + UInt64.ofNat o)
    (hv : v.report.hashes.toNat < UInt64.size) (hw : o + w.report.hashes.toNat < UInt64.size)
    (hpos : 0 < w.report.hashes.toNat) :
    (∀ n, v.Hashed n → ¬ w.Hashed n) ↔ v.report.hashes.toNat ≤ o := by
  have hsum : ∀ j, w.start + UInt64.ofNat j = v.start + UInt64.ofNat (o + j) := by
    intro j
    rw [hstart, UInt64.add_assoc, UInt64.ofNat_add]
  constructor
  · intro hapart
    by_contra hlt
    refine hapart (v.start + UInt64.ofNat (o + 1)) ⟨o + 1, by omega, by omega, rfl⟩ ⟨1, by omega, hpos, ?_⟩
    rw [hsum]
  · rintro hle n ⟨i, hi, hile, rfl⟩ ⟨j, hj, hjle, hsame⟩
    rw [hsum, add_ofNat_inj (by omega) (by omega)] at hsame
    omega

theorem total_cons : Visit.total (v :: visits) = v.report.hashes.toNat + Visit.total visits := by
  simp [Visit.total]

theorem mineAll_cons {call : MineCall} (h : identity.mineAll c levelOf fuel (call :: calls) = some visits) :
    ∃ v rest, visits = v :: rest ∧ v.identity = identity ∧ v.Stopped c levelOf ∧
      SecretIdentity.mineAll c levelOf fuel { identity with counter := v.report.counter } calls = some rest := by
  obtain ⟨⟨report, identity'⟩, hmine, h⟩ := Option.bind_eq_some_iff.mp h
  obtain ⟨rest, hrest, h⟩ := Option.bind_eq_some_iff.mp h
  cases h
  obtain ⟨hstopped, rfl⟩ := mine_stopped hmine
  exact ⟨_, rest, rfl, rfl, hstopped, hrest⟩

theorem mineAll_of_cons {call : MineCall} {report : MineReport} {identity' : SecretIdentity}
    (h : identity.mine c levelOf fuel call.target call.progress = some (report, identity'))
    (hrest : identity'.mineAll c levelOf fuel calls = some visits) :
    identity.mineAll c levelOf fuel (call :: calls) = some (⟨identity, call, report⟩ :: visits) := by
  simp only [SecretIdentity.mineAll, h, hrest, Option.bind_eq_bind, Option.bind_some]

/-- Every call starts a number of counters after the first, that number being no more than what was hashed before it. -/
theorem mineAll_offset (h : identity.mineAll c levelOf fuel calls = some visits) (hw : w ∈ visits) :
    w.Stopped c levelOf ∧
      ∃ o, w.start = identity.counter + UInt64.ofNat o ∧ o + w.report.hashes.toNat ≤ Visit.total visits := by
  induction calls generalizing identity visits with
  | nil =>
    cases h
    exact absurd hw (by simp)
  | cons call calls ih =>
    obtain ⟨v, rest, rfl, rfl, hstopped, hrest⟩ := mineAll_cons h
    rw [total_cons]
    rcases List.mem_cons.mp hw with rfl | hw
    · exact ⟨hstopped, 0, (UInt64.add_zero _).symm, by omega⟩
    · obtain ⟨hwstopped, o, ho, hle⟩ := ih hrest hw
      have hbest := Scan.best_le (f := levels (v.level c levelOf) v.start) (n := v.report.hashes.toNat)
      refine ⟨hwstopped, Scan.best (levels (v.level c levelOf) v.start) v.report.hashes.toNat + o, ?_, by omega⟩
      rw [ho, hstopped.2, UInt64.ofNat_add, ← UInt64.add_assoc]
      rfl

/-- The first call to hash anything starts where the calls start. -/
theorem mineAll_first (h : identity.mineAll c levelOf fuel calls = some visits)
    (hsome : ∃ w ∈ visits, w.Searches c levelOf) :
    ∃ w ∈ visits, w.Searches c levelOf ∧ w.start = identity.counter := by
  induction calls generalizing identity visits with
  | nil =>
    cases h
    obtain ⟨w, hw, -⟩ := hsome
    exact absurd hw (by simp)
  | cons call calls ih =>
    obtain ⟨v, rest, rfl, rfl, hstopped, hrest⟩ := mineAll_cons h
    by_cases hsearches : v.Searches c levelOf
    · exact ⟨v, by simp, hsearches, rfl⟩
    · have hnone : v.report.hashes.toNat = 0 := by
        by_contra hne
        exact hsearches (hstopped.searches_iff.mpr (Nat.pos_of_ne_zero hne))
      have hsame : v.report.counter = v.identity.counter := by
        rw [hstopped.2, hnone]
        exact UInt64.add_zero _
      obtain ⟨w, hw, hws⟩ := hsome
      have hlater : w ∈ rest := by
        rcases List.mem_cons.mp hw with rfl | hw
        · exact absurd hws hsearches
        · exact hw
      obtain ⟨u, hu, hus, hstart⟩ := ih hrest ⟨w, hlater, hws⟩
      exact ⟨u, by simp [hu], hus, hstart.trans hsame⟩

/-- What a call that kept up hashed is hashed by no later one. -/
theorem apart_of_keepsUp {call : MineCall} (h : identity.mineAll c levelOf fuel (call :: calls) = some (v :: visits))
    (htotal : Visit.total (v :: visits) < UInt64.size) (hw : w ∈ visits)
    (hkeeps : w.Searches c levelOf → v.KeepsUp c levelOf) : ∀ n, v.Hashed n → ¬ w.Hashed n := by
  obtain ⟨_, _, heq, rfl, hstopped, hrest⟩ := mineAll_cons h
  cases heq
  obtain ⟨hwstopped, o, ho, hle⟩ := mineAll_offset hrest hw
  rw [total_cons] at htotal
  by_cases hpos : 0 < w.report.hashes.toNat
  · have hbest := hstopped.keepsUp_iff.mp (hkeeps (hwstopped.searches_iff.mpr hpos))
    have hstart : w.start = v.start + UInt64.ofNat (v.report.hashes.toNat + o) := by
      rw [ho, hstopped.2, hbest, UInt64.ofNat_add, ← UInt64.add_assoc]
    exact (hashed_apart_iff hstart (by omega) (by omega) hpos).mpr (by omega)
  · rintro n - ⟨j, hj, hjle, -⟩
    omega

/-- Where no later call hashes again what a call hashed, it kept up, if any of them hashes at all. -/
theorem keepsUp_of_apart {call : MineCall} (h : identity.mineAll c levelOf fuel (call :: calls) = some (v :: visits))
    (htotal : Visit.total (v :: visits) < UInt64.size) (hapart : ∀ w ∈ visits, ∀ n, v.Hashed n → ¬ w.Hashed n)
    (hw : w ∈ visits) (hsearches : w.Searches c levelOf) : v.KeepsUp c levelOf := by
  obtain ⟨_, _, heq, rfl, hstopped, hrest⟩ := mineAll_cons h
  cases heq
  obtain ⟨u, hu, hus, hstart⟩ := mineAll_first hrest ⟨w, hw, hsearches⟩
  obtain ⟨hustopped, o, ho, hle⟩ := mineAll_offset hrest hu
  rw [total_cons] at htotal
  have hbest := Scan.best_le (f := levels (v.level c levelOf) v.start) (n := v.report.hashes.toNat)
  have hapart := (hashed_apart_iff (hstart.trans hstopped.2) (by omega) (by omega)
    (hustopped.searches_iff.mp hus)).mp (hapart u hu)
  exact hstopped.keepsUp_iff.mpr (Nat.le_antisymm hbest hapart)

/-- No counter is hashed by two calls exactly if every call the callback stops, and that another comes after which
hashes anything, is stopped at a new best. -/
theorem mineAll_extends_iff (c : Crates) (levelOf : VerifyingKey → UInt64 → UInt32) (fuel : Nat)
    (identity : SecretIdentity) (calls : List MineCall) (visits : List Visit)
    (h : identity.mineAll c levelOf fuel calls = some visits) (htotal : Visit.total visits < UInt64.size) :
    (visits.Pairwise fun v w => ∀ n, v.Hashed n → ¬ w.Hashed n) ↔
      visits.Pairwise fun v w => w.Searches c levelOf → v.KeepsUp c levelOf := by
  induction calls generalizing identity visits with
  | nil =>
    cases h
    exact iff_of_true .nil .nil
  | cons call calls ih =>
    obtain ⟨v, rest, rfl, -, -, hrest⟩ := mineAll_cons h
    have hlater : Visit.total rest < UInt64.size := by
      rw [total_cons] at htotal
      omega
    rw [List.pairwise_cons, List.pairwise_cons, ih _ rest hrest hlater]
    refine and_congr_left fun _ => ⟨fun hapart w hw => ?_, fun hkeeps w hw => ?_⟩
    · exact keepsUp_of_apart h htotal hapart hw
    · exact apart_of_keepsUp h htotal hw (hkeeps w hw)

theorem keepsUp_of_uncancelled (h : ∀ told, v.call.progress told = true) : v.KeepsUp c levelOf := by
  rintro n - ⟨-, -, hstop⟩
  rw [h] at hstop
  cases hstop

/-- A search that finds nothing better leaves the identity as it was. -/
theorem SecretIdentity.mine_unimproved {report : MineReport}
    (h : PickleChat.mine (levelOf (c.verifyingKey identity.secret)) identity.counter target progress fuel = some report)
    (hlevel : report.level ≤ identity.securityLevel c levelOf) :
    identity.mine c levelOf fuel target progress = some (report, identity) := by
  rw [SecretIdentity.mine, h, Option.map_some, if_neg (Std.not_lt.mpr hlevel)]

def freshIdentity : SecretIdentity := ⟨Vector.replicate 32 0, 0⟩

/-- Levels as high as the counters: a search to level one, and one to level three. -/
theorem mineAll_extends_rising : ∃ visits : List Visit,
    freshIdentity.mineAll Vault.zeroCrates (fun _ n => n.toUInt32) 5 [⟨1, fun _ => true⟩, ⟨3, fun _ => true⟩] =
        some visits ∧
      (visits.map fun v => (v.start, v.report)) = [(0, ⟨1, 1, 1, false⟩), (1, ⟨3, 3, 2, false⟩)] ∧
        visits.Pairwise fun v w => ∀ n, v.Hashed n → ¬ w.Hashed n := by
  have hrun : freshIdentity.mineAll Vault.zeroCrates (fun _ n => n.toUInt32) 5
      [⟨1, fun _ => true⟩, ⟨3, fun _ => true⟩] = some [⟨freshIdentity, ⟨1, fun _ => true⟩, ⟨1, 1, 1, false⟩⟩,
        ⟨{ freshIdentity with counter := 1 }, ⟨3, fun _ => true⟩, ⟨3, 3, 2, false⟩⟩] := rfl
  refine ⟨_, hrun, rfl, (mineAll_extends_iff _ _ _ _ _ _ hrun (by decide +kernel)).mpr ?_⟩
  exact .cons (fun _ _ _ => keepsUp_of_uncancelled fun _ => rfl) (List.pairwise_singleton _ _)

/-- Where no level is above zero, a callback that stops the search does so after its first sample. -/
theorem stopsAfter_first : StopsAfter (fun _ => 0) 0 1 (fun _ => false) 65536 := by
  refine ⟨.inl ⟨by decide, by decide, rfl⟩, fun i hi => ⟨?_, fun hreached => ?_⟩⟩
  · rintro ⟨hpos, hmod, -⟩
    omega
  · have hzero : (1 : UInt32) ≤ 0 := hreached
    exact absurd hzero (by decide)

/-- A search that is cancelled having found nothing starts again from where it began. -/
theorem cancelled_search_is_redone :
    ¬ ∀ (c : Crates) (levelOf : VerifyingKey → UInt64 → UInt32) (fuel : Nat) (identity : SecretIdentity)
      (calls : List MineCall) (visits : List Visit), identity.mineAll c levelOf fuel calls = some visits →
        Visit.total visits < UInt64.size → visits.Pairwise fun v w => ∀ n, v.Hashed n → ¬ w.Hashed n := by
  intro h
  have hrun : mine (fun _ => 0) 0 1 (fun _ => false) 65537 = some (stopped (fun _ => 0) 0 (fun _ => false) 65536) :=
    mine_stops stopsAfter_first (by decide) (by decide)
  have hagain : freshIdentity.mine Vault.zeroCrates (fun _ _ => 0) 65537 1 (fun _ => false) =
      some (stopped (fun _ => 0) 0 (fun _ => false) 65536, freshIdentity) :=
    SecretIdentity.mine_unimproved hrun (Std.le_refl _)
  have hall : freshIdentity.mineAll Vault.zeroCrates (fun _ _ => 0) 65537 [⟨1, fun _ => false⟩, ⟨1, fun _ => false⟩] =
      some [⟨freshIdentity, ⟨1, fun _ => false⟩, stopped (fun _ => 0) 0 (fun _ => false) 65536⟩,
        ⟨freshIdentity, ⟨1, fun _ => false⟩, stopped (fun _ => 0) 0 (fun _ => false) 65536⟩] :=
    mineAll_of_cons hagain (mineAll_of_cons hagain rfl)
  have hhashes : (stopped (fun _ => 0) 0 (fun _ => false) 65536).hashes.toNat = 65536 := stopped_hashes (by decide)
  have htotal : 65536 + (65536 + 0) < UInt64.size := by decide
  have hapart := h _ _ _ _ _ _ hall (by simpa [Visit.total, hhashes] using htotal)
  have hone : (⟨freshIdentity, ⟨1, fun _ => false⟩, stopped (fun _ => 0) 0 (fun _ => false) 65536⟩ : Visit).Hashed 1 :=
    ⟨1, Nat.le_refl 1, by rw [hhashes]; decide, rfl⟩
  exact (List.pairwise_cons.mp hapart).1 _ (by simp) 1 hone hone

end

end PickleChat
