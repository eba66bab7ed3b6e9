import PickleChat.Lib.Run
import PickleChat.Mining

/-!
# Mining on a copy

`mine_identity` mines a copy of the active identity on a thread of its own and
writes the counter it found into the vault, which may have changed since.
-/

namespace PickleChat

/-- A thread of `mine_identity`, with the fingerprint it will look for and its copy of the identity. -/
inductive Miner where
  | searching (fingerprint : String) (identity : SecretIdentity) (target : UInt32)
  | found (fingerprint : String) (identity : SecretIdentity)
  deriving DecidableEq

def Miner.fingerprint : Miner → String
  | .searching fingerprint _ _ => fingerprint
  | .found fingerprint _ => fingerprint

def Miner.identity : Miner → SecretIdentity
  | .searching _ identity _ => identity
  | .found _ identity => identity

structure MiningState where
  vault : Vault
  miners : List Miner
  deriving DecidableEq

inductive MiningStep where
  | mine (target : UInt32)
  | search (miner fuel : Nat)
  | writeBack (miner : Nat)
  | call (op : VaultOp)

/-- Only `mine_identity` sets counters. -/
def VaultOp.setsCounter : VaultOp → Bool
  | .setCounter _ _ => true
  | _ => false

section
variable (c : Crates) (levelOf : VerifyingKey → UInt64 → UInt32)

/-- `none` is a step that cannot be taken, or a panic. -/
def MiningStep.exec (s : MiningState) : MiningStep → Option MiningState
  | .mine target =>
    if 40 < target then some s else
    (s.vault.activeEntry c).map fun active =>
      { s with miners := s.miners ++ [.searching (active.name c) active.identity target] }
  | .search miner fuel =>
    match s.miners[miner]? with
    | some (.searching fingerprint identity target) =>
      -- The callback only shows the progress and never cancels.
      (identity.mine c levelOf fuel target fun _ => true).map fun r =>
        { s with miners := s.miners.set miner (.found fingerprint r.2) }
    | _ => none
  | .writeBack miner =>
    match s.miners[miner]? with
    | some (.found fingerprint identity) =>
      some
        { s with
          vault := orUnchanged s.vault (s.vault.setCounter c fingerprint identity.counter)
          miners := s.miners.eraseIdx miner }
    | _ => none
  | .call op => if op.setsCounter then none else (op.exec c s.vault).map fun vault => { s with vault }

def VaultEntry.level (entry : VaultEntry) : UInt32 := entry.identity.securityLevel c levelOf

/-- No identity in both vaults has lost a level. -/
def KeepsLevels (v v' : Vault) : Prop :=
  ∀ name entry entry', v.get c name = some entry → v'.get c name = some entry' →
    entry'.identity.secret = entry.identity.secret → entry.level c levelOf ≤ entry'.level c levelOf

/-- A run so far, with every state before, latest first. -/
structure MiningTrace where
  now : MiningState
  past : List MiningState
  deriving DecidableEq

def MiningTrace.exec (t : MiningTrace) (l : MiningStep) : Option MiningTrace :=
  (l.exec c levelOf t.now).map fun now => ⟨now, t.now :: t.past⟩

def Idle (s : MiningState) (fingerprint : String) : Prop := ∀ m ∈ s.miners, m.fingerprint ≠ fingerprint

/-- A key is mined by one thread at a time, and one that comes back after it was removed has no lower level than it
had, and no thread left that mines it. -/
def Apart (t : MiningTrace) : MiningStep → Prop
  | .mine target => target ≤ 40 → Idle t.now t.now.vault.active
  | .call (.add identity _ _) =>
    t.now.vault.get c (identity.fingerprint c).toText = none →
      Idle t.now (identity.fingerprint c).toText ∧
        ∀ s ∈ t.past, ∀ entry ∈ s.vault.get c (identity.fingerprint c).toText,
          entry.identity.secret = identity.secret → entry.level c levelOf ≤ identity.securityLevel c levelOf
  | _ => True

instance (s : MiningState) (fingerprint : String) : Decidable (Idle s fingerprint) :=
  inferInstanceAs (Decidable (∀ m ∈ s.miners, m.fingerprint ≠ fingerprint))

instance (t : MiningTrace) : (l : MiningStep) → Decidable (Apart c levelOf t l)
  | .mine target => inferInstanceAs (Decidable (target ≤ 40 → Idle t.now t.now.vault.active))
  | .call (.add identity _ _) => inferInstanceAs (Decidable (
      t.now.vault.get c (identity.fingerprint c).toText = none →
        Idle t.now (identity.fingerprint c).toText ∧
          ∀ s ∈ t.past, ∀ entry ∈ s.vault.get c (identity.fingerprint c).toText,
            entry.identity.secret = identity.secret → entry.level c levelOf ≤ identity.securityLevel c levelOf))
  | .search _ _ | .writeBack _ | .call (.setActive _) | .call (.setCounter _ _) | .call (.setNickname _ _)
  | .call (.setLabel _ _) | .call (.remove _) | .call (.setPassphrase ..) | .call (.removePassphrase ..)
  | .call (.save ..) => inferInstanceAs (Decidable True)

def Vault.keys (v : Vault) : List (Vector UInt8 32 × Fingerprint) :=
  v.entries.map fun e => (e.identity.secret, e.identity.fingerprint c)

/-- Only `add` puts a key into the vault, and only `remove` takes one out. -/
inductive KeysStep (l : MiningStep) (keys : List (Vector UInt8 32 × Fingerprint)) :
    List (Vector UInt8 32 × Fingerprint) → Prop
  | same : KeysStep l keys keys
  | added (identity : SecretIdentity) (nickname label : String) (h : l = .call (.add identity nickname label)) :
      KeysStep l keys (keys ++ [(identity.secret, identity.fingerprint c)])
  | removed (fingerprint : String) (h : l = .call (.remove fingerprint)) :
      KeysStep l keys (keys.filter fun key => key.2.toText ≠ fingerprint)

end

section
variable {c : Crates} {levelOf : VerifyingKey → UInt64 → UInt32} {s s' : MiningState} {t t' : MiningTrace}
variable {l : MiningStep} {v v' : Vault} {name : String} {entry entry' : VaultEntry}

/-! ## What the vault's operations do to an entry -/

theorem get_entryMut {fingerprint : String} {f : VaultEntry → VaultEntry} (hf : ∀ e, (f e).name c = e.name c) :
    (orUnchanged v (v.entryMut c fingerprint f)).get c name =
      if name = fingerprint then (v.get c name).map f else v.get c name := by
  unfold Vault.entryMut
  by_cases hg : v.get c fingerprint = none
  · rw [if_pos hg, orUnchanged]
    split
    · next heq => rw [heq, hg, Option.map_none]
    · rfl
  · rw [if_neg hg]
    exact Keyed.get_modifyFirst (fun e he => (hf e).trans he) name v.entries

theorem get_setCounter {fingerprint : String} {counter : UInt64} :
    (orUnchanged v (v.setCounter c fingerprint counter)).get c name =
      if name = fingerprint then
        (v.get c name).map fun e => { e with identity := { e.identity with counter := counter } }
      else v.get c name :=
  get_entryMut fun _ => rfl

theorem get_add (identity : SecretIdentity) (nickname label : String) :
    (v.add c identity nickname label).2.get c name =
      (v.get c name).or
        (if (identity.fingerprint c).toText = name then some ⟨identity, nickname, label⟩ else none) := by
  unfold Vault.add
  by_cases hg : v.get c (identity.fingerprint c).toText = none
  · rw [if_pos hg]
    change Keyed.get (VaultEntry.name c) name (v.entries ++ _) = _
    rw [Keyed.get_append, Keyed.get_cons]
    rfl
  · rw [if_neg hg]
    split
    · next heq =>
      obtain ⟨entry, hentry⟩ := Option.ne_none_iff_exists'.mp (heq ▸ hg)
      rw [hentry, Option.some_or]
    · exact Option.or_none.symm

theorem get_setActive (fingerprint : String) :
    (orUnchanged v (v.setActive c fingerprint)).get c name = v.get c name := by
  unfold Vault.setActive
  by_cases hg : v.get c fingerprint = none
  · rw [if_pos hg, orUnchanged]
  · rw [if_neg hg]
    rfl

theorem entries_remove {fingerprint : String} {r : Except VaultError Vault} (h : v.remove c fingerprint = some r) :
    (orUnchanged v r).entries = v.entries ∨
      (orUnchanged v r).entries = Keyed.erase (VaultEntry.name c) fingerprint v.entries := by
  unfold Vault.remove at h
  split at h
  · cases h
    exact .inl rfl
  split at h
  · cases h
    exact .inl rfl
  split at h
  · simp only at h
    split at h
    · cases h
    · next first rest heq =>
      cases h
      exact .inr rfl
  · cases h
    exact .inr rfl

theorem get_remove {fingerprint : String} {r : Except VaultError Vault} (h : v.remove c fingerprint = some r)
    (hget : (orUnchanged v r).get c name = some entry) : v.get c name = some entry := by
  unfold Vault.get at hget ⊢
  rcases entries_remove h with hsame | herased
  · rwa [hsame] at hget
  · rw [herased, Keyed.get_erase] at hget
    split at hget
    · cases hget
    · exact hget

theorem entries_rewriteVerified {protection : Protection} {nonce : Vector UInt8 24}
    {written renamed : Except VaultError Unit} {reopened : Except VaultError Vault} :
    (orUnchanged v (v.rewriteVerified c protection nonce written reopened renamed)).entries = v.entries := by
  cases hr : v.rewriteVerified c protection nonce written reopened renamed with
  | error e => rfl
  | ok v' =>
    obtain rfl := Vault.rewriteVerified_ok hr
    rfl

theorem entries_setPassphrase {passphrase : String} {salt : Vector UInt8 16} {nonce : Vector UInt8 24}
    {written renamed : Except VaultError Unit} {reopened : Except VaultError Vault} :
    (orUnchanged v (v.setPassphrase c passphrase salt nonce written reopened renamed)).entries = v.entries := by
  unfold Vault.setPassphrase
  cases hk : (VaultKey.fresh c passphrase salt).mapError (VaultError.locked v.path) with
  | error e => rfl
  | ok key => exact entries_rewriteVerified

/-- An entry has its identity from before, or it is a new one. -/
theorem exec_entry {op : VaultOp} (hop : op.setsCounter = false) (h : op.exec c v = some v')
    (hget' : v'.get c name = some entry') :
    (∃ entry, v.get c name = some entry ∧ entry'.identity = entry.identity) ∨
      ∃ identity nickname label, op = .add identity nickname label ∧ (identity.fingerprint c).toText = name ∧
        v.get c name = none ∧ entry'.identity = identity := by
  have hsame : v'.get c name = v.get c name → ∃ entry, v.get c name = some entry ∧ entry'.identity = entry.identity :=
    fun heq => ⟨entry', heq ▸ hget', rfl⟩
  have hentries : v'.entries = v.entries → ∃ entry, v.get c name = some entry ∧ entry'.identity = entry.identity :=
    fun heq => hsame (by unfold Vault.get; rw [heq])
  have hedited : ∀ (fingerprint : String) (f : VaultEntry → VaultEntry), (∀ e, (f e).identity = e.identity) →
      orUnchanged v (v.entryMut c fingerprint f) = v' →
        ∃ entry, v.get c name = some entry ∧ entry'.identity = entry.identity := by
    rintro fingerprint f hf rfl
    rw [get_entryMut fun e => by unfold VaultEntry.name; rw [hf]] at hget'
    split at hget'
    · obtain ⟨entry, hget, rfl⟩ := Option.map_eq_some_iff.mp hget'
      exact ⟨entry, hget, hf entry⟩
    · exact ⟨entry', hget', rfl⟩
  cases op with
  | add identity nickname label =>
    cases h
    rw [get_add, Option.or_eq_some_iff] at hget'
    rcases hget' with hget | ⟨hnone, hnew⟩
    · exact .inl ⟨entry', hget, rfl⟩
    · split at hnew
      · next hname =>
        cases hnew
        exact .inr ⟨identity, nickname, label, rfl, hname, hnone, rfl⟩
      · cases hnew
  | setActive fingerprint =>
    cases h
    exact .inl (hsame (get_setActive fingerprint))
  | setCounter fingerprint counter => cases hop
  | setNickname fingerprint nickname =>
    exact .inl (hedited fingerprint (fun e => { e with nickname }) (fun _ => rfl) (Option.some.inj h))
  | setLabel fingerprint label =>
    exact .inl (hedited fingerprint (fun e => { e with label }) (fun _ => rfl) (Option.some.inj h))
  | remove fingerprint =>
    obtain ⟨r, hr, rfl⟩ := Option.map_eq_some_iff.mp h
    exact .inl ⟨entry', get_remove hr hget', rfl⟩
  | setPassphrase passphrase salt nonce written reopened renamed =>
    cases h
    exact .inl (hentries entries_setPassphrase)
  | removePassphrase nonce written reopened renamed =>
    cases h
    exact .inl (hentries entries_rewriteVerified)
  | save nonce written renamed =>
    cases h
    exact .inl (hsame rfl)

/-! ## What a step does to the keys -/

theorem keys_entryMut {fingerprint : String} {f : VaultEntry → VaultEntry}
    (hf : ∀ e, (f e).identity.secret = e.identity.secret) :
    (orUnchanged v (v.entryMut c fingerprint f)).keys c = v.keys c := by
  unfold Vault.entryMut
  by_cases hg : v.get c fingerprint = none
  · rw [if_pos hg]
    rfl
  · rw [if_neg hg]
    refine Keyed.map_modifyFirst (fun e _ => ?_) v.entries
    unfold SecretIdentity.fingerprint
    rw [hf e]

theorem exec_keys {op : VaultOp} (h : op.exec c v = some v') : KeysStep c (.call op) (v.keys c) (v'.keys c) := by
  have hentries : v'.entries = v.entries → KeysStep c (.call op) (v.keys c) (v'.keys c) := by
    intro heq
    have hsame : v'.keys c = v.keys c := by
      unfold Vault.keys
      rw [heq]
    rw [hsame]
    exact .same
  have hedited : ∀ (fingerprint : String) (f : VaultEntry → VaultEntry),
      (∀ e, (f e).identity.secret = e.identity.secret) → orUnchanged v (v.entryMut c fingerprint f) = v' →
        KeysStep c (.call op) (v.keys c) (v'.keys c) := by
    rintro fingerprint f hf rfl
    rw [keys_entryMut hf]
    exact .same
  cases op with
  | add identity nickname label =>
    cases h
    by_cases hg : v.get c (identity.fingerprint c).toText = none
    · have hkeys : (v.add c identity nickname label).2.keys c =
          v.keys c ++ [(identity.secret, identity.fingerprint c)] := by
        unfold Vault.add Vault.keys
        rw [if_pos hg, List.map_append]
        rfl
      rw [hkeys]
      exact .added identity nickname label rfl
    · refine hentries ?_
      unfold Vault.add
      rw [if_neg hg]
  | setActive fingerprint =>
    cases h
    refine hentries ?_
    unfold Vault.setActive
    split <;> rfl
  | setCounter fingerprint counter =>
    exact hedited fingerprint (fun e => { e with identity := ⟨e.identity.secret, counter⟩ }) (fun _ => rfl)
      (Option.some.inj h)
  | setNickname fingerprint nickname =>
    exact hedited fingerprint (fun e => { e with nickname }) (fun _ => rfl) (Option.some.inj h)
  | setLabel fingerprint label =>
    exact hedited fingerprint (fun e => { e with label }) (fun _ => rfl) (Option.some.inj h)
  | remove fingerprint =>
    obtain ⟨r, hr, rfl⟩ := Option.map_eq_some_iff.mp h
    rcases entries_remove hr with hsame | herased
    · exact hentries hsame
    · have hkeys : (orUnchanged v r).keys c = (v.keys c).filter fun key => key.2.toText ≠ fingerprint := by
        unfold Vault.keys
        rw [herased, List.filter_map]
        rfl
      rw [hkeys]
      exact .removed fingerprint rfl
  | setPassphrase passphrase salt nonce written reopened renamed =>
    cases h
    exact hentries entries_setPassphrase
  | removePassphrase nonce written reopened renamed =>
    cases h
    exact hentries entries_rewriteVerified
  | save nonce written renamed =>
    cases h
    exact hentries rfl

/-- What a step does to the vault and to the miners. -/
inductive MiningEffect (c : Crates) (levelOf : VerifyingKey → UInt64 → UInt32) (s : MiningState) :
    MiningStep → MiningState → Prop
  | refused (target : UInt32) (hlimit : 40 < target) : MiningEffect c levelOf s (.mine target) s
  | started (target : UInt32) (active : VaultEntry) (hlimit : ¬40 < target)
      (hactive : s.vault.activeEntry c = some active) :
      MiningEffect c levelOf s (.mine target)
        ⟨s.vault, s.miners ++ [.searching (active.name c) active.identity target]⟩
  | searched (miner fuel : Nat) (fingerprint : String) (identity identity' : SecretIdentity) (target : UInt32)
      (report : MineReport) (hminer : s.miners[miner]? = some (.searching fingerprint identity target))
      (hmine : identity.mine c levelOf fuel target (fun _ => true) = some (report, identity')) :
      MiningEffect c levelOf s (.search miner fuel) ⟨s.vault, s.miners.set miner (.found fingerprint identity')⟩
  | written (miner : Nat) (fingerprint : String) (identity : SecretIdentity)
      (hminer : s.miners[miner]? = some (.found fingerprint identity)) :
      MiningEffect c levelOf s (.writeBack miner)
        ⟨orUnchanged s.vault (s.vault.setCounter c fingerprint identity.counter), s.miners.eraseIdx miner⟩
  | called (op : VaultOp) (vault : Vault) (hop : op.setsCounter = false) (hvault : op.exec c s.vault = some vault) :
      MiningEffect c levelOf s (.call op) ⟨vault, s.miners⟩

theorem MiningStep.effect (h : l.exec c levelOf s = some s') : MiningEffect c levelOf s l s' := by
  cases l with
  | mine target =>
    unfold MiningStep.exec at h
    simp only at h
    split at h
    · next hlimit =>
      cases h
      exact .refused target hlimit
    · next hlimit =>
      obtain ⟨active, hactive, rfl⟩ := Option.map_eq_some_iff.mp h
      exact .started target active hlimit hactive
  | search miner fuel =>
    unfold MiningStep.exec at h
    simp only at h
    split at h
    · next fingerprint identity target hminer =>
      obtain ⟨r, hmine, rfl⟩ := Option.map_eq_some_iff.mp h
      exact .searched miner fuel fingerprint identity r.2 target r.1 hminer hmine
    · cases h
  | writeBack miner =>
    unfold MiningStep.exec at h
    simp only at h
    split at h
    · next fingerprint identity hminer =>
      cases h
      exact .written miner fingerprint identity hminer
    · cases h
  | call op =>
    unfold MiningStep.exec at h
    simp only at h
    split at h
    · cases h
    · next hop =>
      obtain ⟨vault, hvault, rfl⟩ := Option.map_eq_some_iff.mp h
      exact .called op vault (Bool.eq_false_iff.mpr hop) hvault

theorem MiningStep.keys (h : l.exec c levelOf s = some s') : KeysStep c l (s.vault.keys c) (s'.vault.keys c) := by
  cases MiningStep.effect h with
  | refused => exact .same
  | started => exact .same
  | searched => exact .same
  | written =>
    change KeysStep c _ _ ((orUnchanged s.vault (s.vault.setCounter c _ _)).keys c)
    unfold Vault.setCounter
    rw [keys_entryMut fun _ => by rfl]
    exact .same
  | called op vault _ hvault => exact exec_keys hvault

/-- A key stays in the vault, under its fingerprint, until it is removed. -/
theorem key_kept {key : Vector UInt8 32 × Fingerprint} (hkey : key ∈ s.vault.keys c)
    (h : Async.Run (fun s l s' => MiningStep.exec c levelOf s l = some s')
      (fun _ l => l ≠ .call (.remove key.2.toText)) s s') :
    key ∈ s'.vault.keys c := by
  refine h.invariant (fun s => key ∈ s.vault.keys c) hkey fun s l s' hkey hl hexec => ?_
  have hstep := MiningStep.keys hexec
  generalize s'.vault.keys c = keys at hstep ⊢
  cases hstep with
  | same => exact hkey
  | added => exact List.mem_append_left _ hkey
  | removed fingerprint hremove =>
    refine List.mem_filter.mpr ⟨hkey, decide_eq_true fun heq => hl ?_⟩
    rw [hremove, heq]

/-! ## Levels over a run -/

/-- What no run loses whose miners keep apart. -/
structure Mined (c : Crates) (levelOf : VerifyingKey → UInt64 → UInt32) (t : MiningTrace) : Prop where
  alone : (t.now.miners.map Miner.fingerprint).Nodup
  /-- A copy is of the key it goes by, and of no lower level than the vault has for it. -/
  copies : ∀ m ∈ t.now.miners, ∀ entry, t.now.vault.get c m.fingerprint = some entry →
    m.identity.secret = entry.identity.secret ∧ entry.level c levelOf ≤ m.identity.securityLevel c levelOf
  kept : ∀ s ∈ t.past, KeepsLevels c levelOf s.vault t.now.vault

/-- What the entries after a step are, against those before. -/
def LevelsRise (c : Crates) (levelOf : VerifyingKey → UInt64 → UInt32) (s : MiningState) (l : MiningStep) (v' : Vault) :
    Prop :=
  ∀ name entry', v'.get c name = some entry' →
    (∃ entry, s.vault.get c name = some entry ∧ entry'.identity.secret = entry.identity.secret ∧
        entry.level c levelOf ≤ entry'.level c levelOf) ∨
      ∃ identity nickname label, l = .call (.add identity nickname label) ∧ (identity.fingerprint c).toText = name ∧
        s.vault.get c name = none ∧ entry'.identity = identity

theorem LevelsRise.same : LevelsRise c levelOf s l s.vault :=
  fun _ entry' hget => .inl ⟨entry', hget, rfl, Std.le_refl _⟩

theorem level_eq (h : entry'.identity = entry.identity) : entry'.level c levelOf = entry.level c levelOf := by
  unfold VaultEntry.level
  rw [h]

theorem exec_rises {op : VaultOp} {vault : Vault} (hop : op.setsCounter = false)
    (hvault : op.exec c s.vault = some vault) : LevelsRise c levelOf s (.call op) vault := by
  intro name entry' hget'
  rcases exec_entry hop hvault hget' with ⟨entry, hget, hsame⟩ | ⟨identity, nickname, label, rfl, hnew⟩
  · exact .inl ⟨entry, hget, congrArg SecretIdentity.secret hsame, Std.le_of_eq (level_eq hsame).symm⟩
  · exact .inr ⟨identity, nickname, label, rfl, hnew⟩

theorem KeepsLevels.step (hkept : ∀ z ∈ t.past, KeepsLevels c levelOf z.vault t.now.vault)
    (hok : Apart c levelOf t l) (hrises : LevelsRise c levelOf t.now l v') :
    ∀ z ∈ t.now :: t.past, KeepsLevels c levelOf z.vault v' := by
  intro z hz name entry entry' hget hget' hsecret
  rcases hrises name entry' hget' with
    ⟨between, hbetween, hsame, hle⟩ | ⟨identity, nickname, label, rfl, rfl, hnone, hnew⟩
  · rcases List.mem_cons.mp hz with rfl | hz
    · rw [hget] at hbetween
      cases hbetween
      exact hle
    · exact Std.le_trans (hkept z hz name entry between hget hbetween (hsame.symm.trans hsecret)) hle
  · rcases List.mem_cons.mp hz with rfl | hz
    · rw [hget] at hnone
      cases hnone
    · unfold VaultEntry.level
      rw [hnew]
      rw [hnew] at hsecret
      exact (hok hnone).2 z hz entry hget hsecret.symm

/-- Threads and vault agree after a step at which only entries changed. -/
theorem Mined.copies_called (h : Mined c levelOf t) (hok : Apart c levelOf t l) {op : VaultOp} {vault : Vault}
    (hop : op.setsCounter = false) (hvault : op.exec c t.now.vault = some vault) (hl : l = .call op) :
    ∀ m ∈ t.now.miners, ∀ entry, vault.get c m.fingerprint = some entry →
      m.identity.secret = entry.identity.secret ∧ entry.level c levelOf ≤ m.identity.securityLevel c levelOf := by
  intro m hm entry' hget'
  rcases exec_entry hop hvault hget' with ⟨entry, hget, hsame⟩ | ⟨identity, nickname, label, rfl, hname, hnone, -⟩
  · obtain ⟨hsecret, hle⟩ := h.copies m hm entry hget
    rw [level_eq hsame, hsame]
    exact ⟨hsecret, hle⟩
  · subst hl
    rw [← hname] at hnone
    exact absurd hname.symm ((hok hnone).1 m hm)

/-- The other threads mine other keys than one that writes back. -/
theorem Mined.others (h : Mined c levelOf t) {miner : Nat} {m m' : Miner} (hm : t.now.miners[miner]? = some m)
    (hm' : m' ∈ t.now.miners.eraseIdx miner) : m' ∈ t.now.miners ∧ m'.fingerprint ≠ m.fingerprint := by
  obtain ⟨i, hne, hi⟩ := List.mem_eraseIdx_iff_getElem?.mp hm'
  refine ⟨List.mem_of_getElem? hi, fun heq => hne ?_⟩
  have hlt : i < (t.now.miners.map Miner.fingerprint).length := by
    rw [List.length_map]
    exact (List.getElem?_eq_some_iff.mp hi).1
  refine (List.getElem?_inj hlt h.alone).mp ?_
  rw [List.getElem?_map, List.getElem?_map, hi, hm, Option.map_some, Option.map_some, heq]

theorem Mined.step (h : Mined c levelOf t) (hok : Apart c levelOf t l) (hexec : t.exec c levelOf l = some t') :
    Mined c levelOf t' := by
  obtain ⟨now, hnow, rfl⟩ := Option.map_eq_some_iff.mp hexec
  cases MiningStep.effect hnow with
  | refused target hlimit => exact ⟨h.alone, h.copies, KeepsLevels.step h.kept hok .same⟩
  | started target active hlimit hactive =>
    have hname : active.name c = t.now.vault.active := Keyed.get_key hactive
    have hidle := hok (UInt32.not_lt.mp hlimit)
    refine ⟨?_, ?_, KeepsLevels.step h.kept hok .same⟩
    · rw [List.map_append, List.nodup_append]
      refine ⟨h.alone, List.nodup_singleton _, ?_⟩
      rintro fingerprint hmem _ hnew rfl
      obtain ⟨m, hm, rfl⟩ := List.mem_map.mp hmem
      rw [List.map_singleton, List.mem_singleton] at hnew
      exact hidle m hm (hnew.trans hname)
    · intro m hm entry hget
      rcases List.mem_append.mp hm with hm | hm
      · exact h.copies m hm entry hget
      · obtain rfl := List.mem_singleton.mp hm
        change t.now.vault.get c (active.name c) = some entry at hget
        rw [hname] at hget
        obtain rfl := Option.some.inj (hactive.symm.trans hget)
        exact ⟨rfl, Std.le_refl _⟩
  | searched miner fuel fingerprint identity identity' target report hminer hmine =>
    obtain ⟨hsecret, hlevel⟩ := SecretIdentity.mine_keeps hmine
    refine ⟨?_, ?_, KeepsLevels.step h.kept hok .same⟩
    · obtain ⟨hlt, hsame⟩ := List.getElem?_eq_some_iff.mp
        (show (t.now.miners.map Miner.fingerprint)[miner]? = some fingerprint by
          rw [List.getElem?_map, hminer]
          rfl)
      have hset : (t.now.miners.map Miner.fingerprint).set miner fingerprint =
          t.now.miners.map Miner.fingerprint := by
        rw [← hsame, List.set_getElem_self hlt]
      rw [List.map_set]
      exact hset.symm.subst (motive := List.Nodup) h.alone
    · intro m hm entry hget
      rcases List.mem_or_eq_of_mem_set hm with hm | rfl
      · exact h.copies m hm entry hget
      · obtain ⟨hcopy, hle⟩ := h.copies _ (List.mem_of_getElem? hminer) entry hget
        exact ⟨hsecret.trans hcopy, Std.le_trans hle hlevel⟩
  | written miner fingerprint identity hminer =>
    refine ⟨(List.Sublist.map _ (List.eraseIdx_sublist _ _)).nodup h.alone, ?_, KeepsLevels.step h.kept hok ?_⟩
    · intro m hm entry hget
      obtain ⟨hm, hne⟩ := h.others hminer hm
      rw [get_setCounter] at hget
      exact h.copies m hm entry ((if_neg hne).symm.trans hget)
    · intro name entry' hget'
      rw [get_setCounter] at hget'
      split at hget'
      · next hname =>
        obtain ⟨entry, hget, rfl⟩ := Option.map_eq_some_iff.mp hget'
        obtain ⟨hcopy, hle⟩ := h.copies _ (List.mem_of_getElem? hminer) entry (hname ▸ hget)
        refine .inl ⟨entry, hget, rfl, Std.le_trans hle ?_⟩
        unfold SecretIdentity.securityLevel VaultEntry.level
        rw [hcopy]
        exact Std.le_refl _
      · exact .inl ⟨entry', hget', rfl, Std.le_refl _⟩
  | called op vault hop hvault =>
    exact ⟨h.alone, h.copies_called hok hop hvault rfl, KeepsLevels.step h.kept hok (exec_rises hop hvault)⟩

/-- A key stays in the vault under its fingerprint until it is removed, and no key loses a level over a run whose miners
keep apart. -/
theorem mining_keeps_levels (c : Crates) (levelOf : VerifyingKey → UInt64 → UInt32) :
    (∀ s l s', MiningStep.exec c levelOf s l = some s' → KeysStep c l (s.vault.keys c) (s'.vault.keys c)) ∧
      (∀ s s' key, key ∈ s.vault.keys c →
        Async.Run (fun s l s' => MiningStep.exec c levelOf s l = some s')
            (fun _ l => l ≠ .call (.remove key.2.toText)) s s' →
          key ∈ s'.vault.keys c) ∧
      ∀ v t, Async.Run (fun t l t' => MiningTrace.exec c levelOf t l = some t') (Apart c levelOf) ⟨⟨v, []⟩, []⟩ t →
        ∀ s ∈ t.past, KeepsLevels c levelOf s.vault t.now.vault := by
  refine ⟨fun s l s' => MiningStep.keys, fun s s' key => key_kept, fun v t hrun => ?_⟩
  have hstart : Mined c levelOf ⟨⟨v, []⟩, []⟩ :=
    ⟨List.nodup_nil, fun m hm => (List.not_mem_nil hm).elim, fun s hs => (List.not_mem_nil hs).elim⟩
  exact (hrun.invariant (Mined c levelOf) hstart fun t l t' h hok hexec => h.step hok hexec).kept

end

def minedVault (counter : UInt64) : Vault :=
  ⟨"identities.json", [{ Vault.annEntry with identity := { Vault.annEntry.identity with counter := counter } }],
    Vault.annEntry.name Vault.zeroCrates, .none⟩

/-- Two miners with different targets, on levels as high as the counters: the higher one writes back first. -/
theorem slower_miner_lowers_level :
    ¬ ∀ (c : Crates) (levelOf : VerifyingKey → UInt64 → UInt32) (v : Vault) (t : MiningTrace),
      Async.Run (fun t l t' => MiningTrace.exec c levelOf t l = some t') (fun _ _ => True) ⟨⟨v, []⟩, []⟩ t →
        ∀ s ∈ t.past, KeepsLevels c levelOf s.vault t.now.vault := by
  intro h
  have hrun : (Async.replay (MiningTrace.exec Vault.zeroCrates fun _ n => n.toUInt32) ⟨⟨minedVault 0, []⟩, []⟩
      [.mine 1, .mine 3, .search 0 9, .search 1 9, .writeBack 1, .writeBack 0]).map
        (fun t => (t.now.vault, t.past.head?.map MiningState.vault)) = some (minedVault 1, some (minedVault 3)) := by
    decide +kernel
  obtain ⟨t, ht, hvaults⟩ := Option.map_eq_some_iff.mp hrun
  obtain ⟨hnow, hpast⟩ := Prod.mk.inj hvaults
  obtain ⟨s, hs, hvault⟩ := Option.map_eq_some_iff.mp hpast
  have hkeeps := h _ _ _ t (Async.Run.of_replay _ _ ht) s (List.mem_of_mem_head? hs)
  rw [hvault, hnow] at hkeeps
  have hlevel := hkeeps (Vault.annEntry.name Vault.zeroCrates) _ _ rfl rfl rfl
  exact absurd (show (3 : UInt32) ≤ 1 from hlevel) (by decide)

/-- A second key, with what ed25519 and SHA-256 make of it. -/
def bobIdentity (counter : UInt64) : SecretIdentity :=
  ⟨⟨#[157, 97, 177, 157, 239, 253, 90, 96, 186, 132, 74, 244, 146, 236, 44, 196, 68, 73, 197, 105, 123, 50, 105, 25,
    112, 59, 172, 3, 28, 174, 127, 96], rfl⟩, counter⟩

def bobKey : VerifyingKey :=
  ⟨#[215, 90, 152, 1, 130, 177, 10, 183, 213, 75, 254, 211, 201, 100, 7, 58, 14, 225, 114, 243, 218, 166, 35, 37, 175,
    2, 26, 104, 247, 7, 81, 26], rfl⟩

def pairCrates : Crates :=
  { Vault.zeroCrates with
    verifyingKey := fun secret =>
      if secret = (bobIdentity 0).secret then bobKey else Vault.zeroCrates.verifyingKey secret
    sha256 := fun bytes =>
      if bytes = bobKey.toList then
        ⟨#[33, 254, 49, 223, 161, 84, 162, 97, 98, 107, 248, 84, 4, 111, 210, 39, 27, 123, 237, 75, 106, 190, 69, 170,
          88, 135, 126, 244, 127, 151, 33, 185], rfl⟩
      else Vault.zeroCrates.sha256 bytes }

/-- Both keys are mined at once, Bob's twice in turn, and Ann's is removed and put back with a better counter. -/
def miningTurns : List MiningStep :=
  let ann := Vault.annEntry.name pairCrates
  let bob := ((bobIdentity 0).fingerprint pairCrates).toText
  [.call (.add (bobIdentity 1) "bob" ""), .mine 3, .call (.setActive bob), .mine 2, .search 1 9, .search 0 9,
    .writeBack 1, .writeBack 0, .mine 5, .call (.remove ann), .search 0 9,
    .call (.add { Vault.annEntry.identity with counter := 4 } "ann" ""), .writeBack 0]

def minedInTurns : Option MiningTrace :=
  Async.replay (MiningTrace.exec pairCrates fun _ n => n.toUInt32) ⟨⟨minedVault 0, []⟩, []⟩ miningTurns

theorem mining_keeps_levels_turns :
    minedInTurns.map (fun t => t.now.vault.entries.map fun e => e.identity.counter) = some [5, 4] ∧
      ∀ t ∈ minedInTurns, ∀ s ∈ t.past, KeepsLevels pairCrates (fun _ n => n.toUInt32) s.vault t.now.vault := by
  have hchecked : Async.replay (fun t l => if Apart pairCrates (fun _ n => n.toUInt32) t l then
      MiningTrace.exec pairCrates (fun _ n => n.toUInt32) t l else none) ⟨⟨minedVault 0, []⟩, []⟩ miningTurns =
        minedInTurns := by
    decide +kernel
  refine ⟨by decide +kernel, fun t ht => ?_⟩
  refine (mining_keeps_levels pairCrates fun _ n => n.toUInt32).2.2 (minedVault 0) t ?_
  refine Async.Run.of_checked _ (fun t l => decide (Apart pairCrates (fun _ n => n.toUInt32) t l))
    (fun t l => of_decide_eq_true) miningTurns ?_
  simp only [decide_eq_true_eq]
  exact hchecked.trans ht

end PickleChat
