import PickleChat.Lib.Keyed
import PickleChat.Lib.Run
import PickleChat.Sealed

/-!
# The identity vault

`pickle-identity/src/vault.rs`: the document and its two protections, what may
be done to an open vault, and what holds of it from then on. Files are seen
through the outcomes of reading, writing and renaming them here, and as files
in the modules that follow.
-/

namespace PickleChat

theorem ok_of_bind {ε α β : Type} {x : Except ε α} {f : α → Except ε β} {b : β} (h : x >>= f = .ok b) :
    ∃ a, x = .ok a ∧ f a = .ok b := by
  cases x with
  | error e => cases h
  | ok a => exact ⟨a, rfl, h⟩

def vaultVersion : UInt32 := 2

inductive KeystoreError where
  | io (path : String)
  | malformed (path : String)
  | unsupportedVersion (path : String) (found expected : UInt32)
  | badKey (path : String)
  | permissionsTooOpen (path : String) (mode : UInt32)
  deriving DecidableEq

inductive VaultError where
  | io (path : String)
  | malformed (path : String)
  | unsupportedVersion (path : String) (found expected : UInt32)
  | badKey (path : String)
  | permissionsTooOpen (path : String) (mode : UInt32)
  | notFound (fingerprint : String)
  | wouldEmpty
  | migration («from» : String) (source : KeystoreError)
  | passphraseRequired (path : String)
  | locked (path : String) (source : SealError)
  | verificationFailed (path : String)
  deriving DecidableEq

/-- An identity with its secret; its public key and fingerprint follow from that. -/
structure SecretIdentity where
  secret : Vector UInt8 32
  counter : UInt64
  deriving DecidableEq

structure VaultEntry where
  identity : SecretIdentity
  nickname : String
  label : String
  deriving DecidableEq

structure StoredEntry where
  secretKey : String
  counter : UInt64
  nickname : String
  label : String
  deriving DecidableEq

structure StoredVault where
  version : UInt32
  active : String
  identities : List StoredEntry
  deriving DecidableEq

inductive Protection where
  | none
  | passphrase (key : VaultKey)
  deriving DecidableEq

structure Vault where
  path : String
  entries : List VaultEntry
  active : String
  protection : Protection
  deriving DecidableEq

namespace StoredEntry

def toJson (e : StoredEntry) : Json :=
  .obj [("secret_key", .str e.secretKey), ("counter", .num e.counter.toNat), ("nickname", .str e.nickname),
    ("label", .str e.label)]

def ofJson (j : Json) : Option StoredEntry := do
  let members ← j.fields ["secret_key", "counter", "nickname", "label"]
  let secretKey ← (Json.required "secret_key" members).bind Json.asString
  let counter ← (Json.required "counter" members).bind Json.asU64
  let nickname ← (Json.required "nickname" members).bind Json.asString
  let label ← (Json.defaulted "label" (.str "") members).bind Json.asString
  return ⟨secretKey, counter, nickname, label⟩

@[simp] theorem ofJson_toJson (e : StoredEntry) : ofJson e.toJson = some e := by
  simp [ofJson, toJson, Json.fields, Json.required, Json.defaulted]

end StoredEntry

namespace StoredVault

def toJson (v : StoredVault) : Json :=
  .obj [("version", .num v.version.toNat), ("active", .str v.active),
    ("identities", .arr (v.identities.map StoredEntry.toJson))]

def ofJson (j : Json) : Option StoredVault := do
  let members ← j.fields ["version", "active", "identities"]
  let version ← (Json.required "version" members).bind Json.asU32
  let active ← (Json.required "active" members).bind Json.asString
  let identities ← (Json.required "identities" members).bind (Json.asList StoredEntry.ofJson)
  return ⟨version, active, identities⟩

@[simp] theorem ofJson_toJson (v : StoredVault) : ofJson v.toJson = some v := by
  have h : Json.asList StoredEntry.ofJson (.arr (v.identities.map StoredEntry.toJson)) = some v.identities :=
    Json.asList_map StoredEntry.ofJson_toJson v.identities
  simp [ofJson, toJson, Json.fields, Json.required, h]

end StoredVault

/-- `VersionProbe`. -/
def probeVersion (j : Json) : Option UInt32 := do
  let members ← j.fields ["version"]
  (Json.required "version" members).bind Json.asU32

/-- The text in a file, where it is text. -/
def readToString (bytes : List UInt8) : Option String := String.fromUTF8? ⟨bytes.toArray⟩

section
variable (c : Crates)

def SecretIdentity.fingerprint (identity : SecretIdentity) : Fingerprint :=
  Fingerprint.of c.sha256 (c.verifyingKey identity.secret)

/-- What an entry goes by: its fingerprint, as text. -/
def VaultEntry.name (entry : VaultEntry) : String := (entry.identity.fingerprint c).toText

namespace Vault

/-- Decrypt a sealed vault file into the same document a plaintext one holds. -/
def «unseal» (path raw : String) (passphrase : Option String) : Except VaultError (StoredVault × Protection) :=
  match (c.parseJson raw).bind SealedVault.ofJson with
  | none => .error (.malformed path)
  | some sealed =>
    match passphrase with
    | none => .error (.passphraseRequired path)
    | some passphrase => do
      let key ← (VaultKey.derive c passphrase sealed.kdf).mapError (.locked path)
      let plaintext ← (key.open c sealed).mapError (.locked path)
      match ((readToString plaintext).bind c.parseJson).bind StoredVault.ofJson with
      | none => .error (.malformed path)
      | some stored =>
        if stored.version ≠ vaultVersion then .error (.unsupportedVersion path stored.version vaultVersion)
        else .ok (stored, .passphrase key)

/-- The first half of `parse`: from the version to the document. -/
def readDocument (path raw : String) (passphrase : Option String) : Except VaultError (StoredVault × Protection) :=
  match (c.parseJson raw).bind probeVersion with
  | none => .error (.malformed path)
  | some version =>
    if version = vaultVersion then
      match (c.parseJson raw).bind StoredVault.ofJson with
      | none => .error (.malformed path)
      | some stored => .ok (stored, .none)
    else if version = sealedVersion then «unseal» c path raw passphrase
    else .error (.unsupportedVersion path version vaultVersion)

def readEntry (path : String) (entry : StoredEntry) : Except VaultError VaultEntry :=
  match c.base64Decode entry.secretKey with
  | none => .error (.badKey path)
  | some bytes =>
    if h : bytes.toArray.size = 32 then .ok ⟨⟨⟨bytes.toArray, h⟩, entry.counter⟩, entry.nickname, entry.label⟩
    else .error (.badKey path)

def parse (path raw : String) (passphrase : Option String) : Except VaultError Vault := do
  let (stored, protection) ← readDocument c path raw passphrase
  let entries ← stored.identities.mapM (readEntry c path)
  match entries with
  | [] => .error (.malformed path)
  | first :: _ =>
    let active := if entries.any (fun e => e.name c = stored.active) then stored.active else first.name c
    .ok ⟨path, entries, active, protection⟩

def get (v : Vault) (fingerprint : String) : Option VaultEntry := Keyed.get (VaultEntry.name c) fingerprint v.entries

/-- The active entry; `none` is where `active` and `active_mut` panic. -/
def activeEntry (v : Vault) : Option VaultEntry := v.get c v.active

def add (v : Vault) (identity : SecretIdentity) (nickname label : String) : String × Vault :=
  let fingerprint := (identity.fingerprint c).toText
  if v.get c fingerprint = none then (fingerprint, { v with entries := v.entries ++ [⟨identity, nickname, label⟩] })
  else (fingerprint, v)

/-- `entry_mut`, with what is done to the entry it finds. -/
def entryMut (v : Vault) (fingerprint : String) (f : VaultEntry → VaultEntry) : Except VaultError Vault :=
  if v.get c fingerprint = none then .error (.notFound fingerprint)
  else .ok { v with entries := Keyed.modifyFirst (VaultEntry.name c) fingerprint f v.entries }

def setCounter (v : Vault) (fingerprint : String) (counter : UInt64) : Except VaultError Vault :=
  v.entryMut c fingerprint fun e => { e with identity := ⟨e.identity.secret, counter⟩ }

def setNickname (v : Vault) (fingerprint nickname : String) : Except VaultError Vault :=
  v.entryMut c fingerprint fun e => { e with nickname }

def setLabel (v : Vault) (fingerprint label : String) : Except VaultError Vault :=
  v.entryMut c fingerprint fun e => { e with label }

def setActive (v : Vault) (fingerprint : String) : Except VaultError Vault :=
  if v.get c fingerprint = none then .error (.notFound fingerprint) else .ok { v with active := fingerprint }

/-- Remove an identity; `none` is where indexing the entries panics. -/
def remove (v : Vault) (fingerprint : String) : Option (Except VaultError Vault) :=
  if v.get c fingerprint = none then some (.error (.notFound fingerprint))
  else if v.entries.length = 1 then some (.error .wouldEmpty)
  else
    let entries := Keyed.erase (VaultEntry.name c) fingerprint v.entries
    if v.active = fingerprint then
      match entries with
      | [] => none
      | first :: _ => some (.ok { v with entries, active := first.name c })
    else some (.ok { v with entries })

def stored (v : Vault) : StoredVault :=
  { version := vaultVersion
    active := v.active
    identities := v.entries.map fun e =>
      ⟨c.base64Encode e.identity.secret.toList, e.identity.counter, e.nickname, e.label⟩ }

/-- The exact text of the file, encrypted or not. -/
def encode (v : Vault) (protection : Protection) (nonce : Vector UInt8 24) : Except VaultError String :=
  let body := c.printJson (v.stored c).toJson
  match protection with
  | .none => .ok (body ++ "\n")
  | .passphrase key => do
    let sealed ← (key.seal c nonce (asBytes body)).mapError (.locked v.path)
    .ok (c.printJson sealed.toJson ++ "\n")

/-- `save`, given what came of writing the file and of renaming it. -/
def save (v : Vault) (nonce : Vector UInt8 24) (written renamed : Except VaultError Unit) : Except VaultError Unit := do
  let _ ← v.encode c v.protection nonce
  written
  renamed

/-- Every key, witness, name and the selection are the same. -/
def holdsTheSameIdentitiesAs (v other : Vault) : Bool :=
  v.active = other.active && v.entries.length = other.entries.length &&
    (v.entries.zip other.entries).all fun (a, b) =>
      a.identity.secret = b.identity.secret && a.identity.counter = b.identity.counter && a.nickname = b.nickname &&
        a.label = b.label

/-- `rewrite_verified`, given what came of writing the staging file, of opening it and of renaming it. -/
def rewriteVerified (v : Vault) (protection : Protection) (nonce : Vector UInt8 24) (written : Except VaultError Unit)
    (reopened : Except VaultError Vault) (renamed : Except VaultError Unit) : Except VaultError Vault := do
  let _ ← v.encode c protection nonce
  written
  let reopened ← reopened
  if reopened.holdsTheSameIdentitiesAs v then
    renamed
    .ok { v with protection }
  else .error (.verificationFailed v.path)

def setPassphrase (v : Vault) (passphrase : String) (salt : Vector UInt8 16) (nonce : Vector UInt8 24)
    (written : Except VaultError Unit) (reopened : Except VaultError Vault) (renamed : Except VaultError Unit) :
    Except VaultError Vault := do
  let key ← (VaultKey.fresh c passphrase salt).mapError (.locked v.path)
  v.rewriteVerified c (.passphrase key) nonce written reopened renamed

def removePassphrase (v : Vault) (nonce : Vector UInt8 24) (written : Except VaultError Unit)
    (reopened : Except VaultError Vault) (renamed : Except VaultError Unit) : Except VaultError Vault :=
  v.rewriteVerified c .none nonce written reopened renamed

end Vault

/-! ## What holds of an open vault -/

/-- What may be asked of an open vault, with the outcomes of what touches files. -/
inductive VaultOp where
  | add (identity : SecretIdentity) (nickname label : String)
  | setActive (fingerprint : String)
  | setCounter (fingerprint : String) (counter : UInt64)
  | setNickname (fingerprint nickname : String)
  | setLabel (fingerprint label : String)
  | remove (fingerprint : String)
  | setPassphrase (passphrase : String) (salt : Vector UInt8 16) (nonce : Vector UInt8 24)
      (written : Except VaultError Unit) (reopened : Except VaultError Vault) (renamed : Except VaultError Unit)
  | removePassphrase (nonce : Vector UInt8 24) (written : Except VaultError Unit) (reopened : Except VaultError Vault)
      (renamed : Except VaultError Unit)
  | save (nonce : Vector UInt8 24) (written renamed : Except VaultError Unit)

/-- The vault after a call that may have failed. -/
def orUnchanged (v : Vault) : Except VaultError Vault → Vault
  | .ok v' => v'
  | .error _ => v

/-- The vault afterwards; `none` is a panic. -/
def VaultOp.exec (v : Vault) : VaultOp → Option Vault
  | .add identity nickname label => some (v.add c identity nickname label).2
  | .setActive fingerprint => some (orUnchanged v (v.setActive c fingerprint))
  | .setCounter fingerprint counter => some (orUnchanged v (v.setCounter c fingerprint counter))
  | .setNickname fingerprint nickname => some (orUnchanged v (v.setNickname c fingerprint nickname))
  | .setLabel fingerprint label => some (orUnchanged v (v.setLabel c fingerprint label))
  | .remove fingerprint => (v.remove c fingerprint).map (orUnchanged v)
  | .setPassphrase passphrase salt nonce written reopened renamed =>
    some (orUnchanged v (v.setPassphrase c passphrase salt nonce written reopened renamed))
  | .removePassphrase nonce written reopened renamed =>
    some (orUnchanged v (v.removePassphrase c nonce written reopened renamed))
  | .save _ _ _ => some v

namespace Vault

def names (v : Vault) : List String := v.entries.map (VaultEntry.name c)

/-- The representation invariant. -/
structure Valid (v : Vault) : Prop where
  nonempty : v.entries ≠ []
  distinct : (v.names c).Nodup
  selected : v.active ∈ v.names c

variable {c} {v : Vault}

theorem get_eq_none {fingerprint : String} : v.get c fingerprint = none ↔ fingerprint ∉ v.names c := by
  unfold get names
  rw [Keyed.get_eq_none]
  simp

theorem Valid.activeEntry (h : v.Valid c) : (v.activeEntry c).isSome := by
  rw [Option.isSome_iff_ne_none]
  exact fun hn => get_eq_none.mp hn h.selected

theorem Valid.of_names {v' : Vault} (h : v.Valid c) (hn : v'.names c = v.names c) (ha : v'.active = v.active) :
    v'.Valid c := by
  refine ⟨fun he => ?_, hn ▸ h.distinct, by rw [hn, ha]; exact h.selected⟩
  have : v.names c = [] := by rw [← hn, names, he, List.map_nil]
  exact h.nonempty (List.map_eq_nil_iff.mp this)

theorem Valid.add (h : v.Valid c) (identity : SecretIdentity) (nickname label : String) :
    (v.add c identity nickname label).2.Valid c := by
  unfold Vault.add
  by_cases hg : v.get c (identity.fingerprint c).toText = none
  · rw [if_pos hg]
    have hnew := get_eq_none.mp hg
    refine ⟨by simp, ?_, ?_⟩
    · simp only [names, List.map_append, List.map_cons, List.map_nil]
      apply List.nodup_append.mpr
      refine ⟨h.distinct, List.nodup_singleton _, fun x hx y hy => ?_⟩
      obtain rfl := List.mem_singleton.mp hy
      rintro rfl
      exact hnew hx
    · simp only [names, List.map_append]
      exact List.mem_append_left _ h.selected
  · rw [if_neg hg]
    exact h

theorem Valid.setActive (h : v.Valid c) (fingerprint : String) :
    (orUnchanged v (v.setActive c fingerprint)).Valid c := by
  unfold Vault.setActive
  by_cases hg : v.get c fingerprint = none
  · rw [if_pos hg]
    exact h
  · rw [if_neg hg]
    exact ⟨h.nonempty, h.distinct, not_not.mp (mt get_eq_none.mpr hg)⟩

theorem Valid.entryMut (h : v.Valid c) (fingerprint : String) {f : VaultEntry → VaultEntry}
    (hf : ∀ e, (f e).name c = e.name c) : (orUnchanged v (v.entryMut c fingerprint f)).Valid c := by
  unfold Vault.entryMut
  by_cases hg : v.get c fingerprint = none
  · rw [if_pos hg]
    exact h
  · rw [if_neg hg]
    exact h.of_names (Keyed.map_key_modifyFirst (fun e he => (hf e).trans he) v.entries) rfl

/-- With distinct names, what is left after removing one of several entries is not empty. -/
theorem Valid.erase_ne_nil (h : v.Valid c) (fingerprint : String) (hlen : v.entries.length ≠ 1) :
    Keyed.erase (VaultEntry.name c) fingerprint v.entries ≠ [] := by
  intro hnil
  have hall : ∀ e ∈ v.entries, e.name c = fingerprint := by
    intro e he
    by_contra hne
    have : e ∈ Keyed.erase (VaultEntry.name c) fingerprint v.entries := Keyed.mem_erase.mpr ⟨he, hne⟩
    rw [hnil] at this
    cases this
  have hd := h.distinct
  have hne := h.nonempty
  unfold names at hd
  cases he : v.entries with
  | nil => exact hne he
  | cons a l =>
    cases hl : l with
    | nil => exact hlen (by rw [he, hl]; rfl)
    | cons b l' =>
      rw [he, hl] at hd hall
      have hab : a.name c = b.name c := (hall a (by simp)).trans (hall b (by simp)).symm
      simp [hab] at hd

theorem Valid.remove (h : v.Valid c) (fingerprint : String) :
    ∃ r, v.remove c fingerprint = some r ∧ (orUnchanged v r).Valid c := by
  unfold Vault.remove
  by_cases hg : v.get c fingerprint = none
  · exact ⟨_, if_pos hg, h⟩
  · rw [if_neg hg]
    by_cases hlen : v.entries.length = 1
    · exact ⟨_, if_pos hlen, h⟩
    · rw [if_neg hlen]
      have hne := h.erase_ne_nil fingerprint hlen
      have hsub : List.Sublist ((Keyed.erase (VaultEntry.name c) fingerprint v.entries).map (VaultEntry.name c))
          (v.names c) :=
        List.filter_sublist.map _
      by_cases ha : v.active = fingerprint
      · simp only [if_pos ha]
        cases he : Keyed.erase (VaultEntry.name c) fingerprint v.entries with
        | nil => exact absurd he hne
        | cons first rest => exact ⟨_, rfl, by simp [orUnchanged], he ▸ h.distinct.sublist hsub,
            by simp [orUnchanged, names]⟩
      · simp only [if_neg ha]
        refine ⟨_, rfl, hne, h.distinct.sublist hsub, ?_⟩
        obtain ⟨e, he, hname⟩ := List.mem_map.mp h.selected
        exact List.mem_map.mpr ⟨e, Keyed.mem_erase.mpr ⟨he, fun hc => ha (hname.symm.trans hc)⟩, hname⟩

theorem rewriteVerified_ok {v' : Vault} {protection : Protection} {nonce : Vector UInt8 24}
    {written renamed : Except VaultError Unit} {reopened : Except VaultError Vault}
    (h : v.rewriteVerified c protection nonce written reopened renamed = .ok v') : v' = { v with protection } := by
  obtain ⟨text, -, h⟩ := ok_of_bind h
  obtain ⟨-, -, h⟩ := ok_of_bind h
  obtain ⟨r, -, h⟩ := ok_of_bind h
  by_cases hsame : r.holdsTheSameIdentitiesAs v
  · rw [if_pos hsame] at h
    obtain ⟨-, -, h⟩ := ok_of_bind h
    exact (Except.ok.inj h).symm
  · rw [if_neg hsame] at h
    cases h

theorem Valid.rewriteVerified (h : v.Valid c) (protection : Protection) (nonce : Vector UInt8 24)
    (written renamed : Except VaultError Unit) (reopened : Except VaultError Vault) :
    (orUnchanged v (v.rewriteVerified c protection nonce written reopened renamed)).Valid c := by
  cases hr : v.rewriteVerified c protection nonce written reopened renamed with
  | error e => exact h
  | ok v' =>
    obtain rfl := rewriteVerified_ok hr
    exact ⟨h.nonempty, h.distinct, h.selected⟩

theorem Valid.exec (h : v.Valid c) (op : VaultOp) : ∃ v', op.exec c v = some v' ∧ v'.Valid c := by
  cases op with
  | add identity nickname label => exact ⟨_, rfl, h.add identity nickname label⟩
  | setActive fingerprint => exact ⟨_, rfl, h.setActive fingerprint⟩
  | setCounter fingerprint counter => exact ⟨_, rfl, h.entryMut fingerprint fun _ => rfl⟩
  | setNickname fingerprint nickname => exact ⟨_, rfl, h.entryMut fingerprint fun _ => rfl⟩
  | setLabel fingerprint label => exact ⟨_, rfl, h.entryMut fingerprint fun _ => rfl⟩
  | remove fingerprint =>
    obtain ⟨r, hr, hv⟩ := h.remove fingerprint
    exact ⟨_, by simp [VaultOp.exec, hr], hv⟩
  | setPassphrase passphrase salt nonce written reopened renamed =>
    refine ⟨_, rfl, ?_⟩
    unfold setPassphrase
    cases hk : (VaultKey.fresh c passphrase salt).mapError (VaultError.locked v.path) with
    | error e => exact h
    | ok key => exact h.rewriteVerified (.passphrase key) nonce written renamed reopened
  | removePassphrase nonce written reopened renamed =>
    exact ⟨_, rfl, h.rewriteVerified .none nonce written renamed reopened⟩
  | save nonce written renamed => exact ⟨_, rfl, h⟩

/-! ## From the file -/

/-- The name of the key an entry of the document holds, where it holds one. -/
def keyName (c : Crates) (entry : StoredEntry) : Option String :=
  (c.base64Decode entry.secretKey).bind fun bytes =>
    if h : bytes.toArray.size = 32 then some (Fingerprint.of c.sha256 (c.verifyingKey ⟨bytes.toArray, h⟩)).toText
      else none

def DistinctKeys (c : Crates) (stored : StoredVault) : Prop := (stored.identities.map (keyName c)).Nodup

theorem readEntry_name {path : String} {stored : StoredEntry} {entry : VaultEntry}
    (h : readEntry c path stored = .ok entry) : some (entry.name c) = keyName c stored := by
  unfold readEntry at h
  unfold keyName
  cases hd : c.base64Decode stored.secretKey with
  | none =>
    simp only [hd] at h
    cases h
  | some bytes =>
    by_cases hlen : bytes.toArray.size = 32
    · simp only [hd, dif_pos hlen] at h
      obtain rfl := Except.ok.inj h
      simp only [Option.bind_some, dif_pos hlen]
      rfl
    · simp only [hd, dif_neg hlen] at h
      cases h

theorem readEntries_names {path : String} {stored : List StoredEntry} {entries : List VaultEntry}
    (h : stored.mapM (readEntry c path) = .ok entries) :
    (entries.map (VaultEntry.name c)).map some = stored.map (keyName c) := by
  induction stored generalizing entries with
  | nil =>
    obtain rfl := Except.ok.inj h
    rfl
  | cons e stored ih =>
    rw [List.mapM_cons] at h
    obtain ⟨entry, he, h⟩ := ok_of_bind h
    obtain ⟨rest, hr, h⟩ := ok_of_bind h
    obtain rfl := Except.ok.inj h
    simp only [List.map_cons, ih hr, readEntry_name he]

/-- What `parse` accepts is valid where the document has no key twice. -/
theorem parse_valid_iff {path raw : String} {passphrase : Option String} {stored : StoredVault}
    {protection : Protection}
    (hdoc : readDocument c path raw passphrase = .ok (stored, protection)) (h : parse c path raw passphrase = .ok v) :
    v.Valid c ↔ DistinctKeys c stored := by
  obtain ⟨document, hdoc', h⟩ := ok_of_bind h
  obtain rfl := Except.ok.inj (hdoc.symm.trans hdoc')
  obtain ⟨entries, hentries, h⟩ := ok_of_bind h
  have hnames := readEntries_names hentries
  have hdistinct : (entries.map (VaultEntry.name c)).Nodup ↔ DistinctKeys c stored := by
    unfold DistinctKeys
    rw [← hnames, List.nodup_map_iff (Option.some_injective _)]
  cases entries with
  | nil => cases h
  | cons first rest =>
    obtain rfl := Except.ok.inj h
    refine ⟨fun hv => hdistinct.mp hv.distinct, fun hd => ⟨by simp, hdistinct.mpr hd, ?_⟩⟩
    by_cases ha : (first :: rest).any fun e => e.name c = stored.active
    · obtain ⟨e, he, hname⟩ := List.any_eq_true.mp ha
      simp only [if_pos ha]
      exact List.mem_map.mpr ⟨e, he, of_decide_eq_true hname⟩
    · simp only [if_neg ha]
      exact List.mem_map_of_mem (by simp)

/-- The invariant, and what never panics by it. -/
structure Sound (c : Crates) (v : Vault) : Prop where
  valid : v.Valid c
  active : (v.activeEntry c).isSome
  remove : ∀ fingerprint, (v.remove c fingerprint).isSome

theorem Valid.sound (h : v.Valid c) : Sound c v := by
  refine ⟨h, h.activeEntry, fun fingerprint => ?_⟩
  obtain ⟨r, hr, -⟩ := h.remove fingerprint
  simp [hr]

/-- An accepted file opens to a vault that stays sound, whatever is done to it, exactly where no key is in it twice. -/
theorem vault_sound_iff (c : Crates) (path raw : String) (passphrase : Option String) (v : Vault) (stored : StoredVault)
    (protection : Protection) (hdoc : readDocument c path raw passphrase = .ok (stored, protection))
    (h : parse c path raw passphrase = .ok v) :
    (∀ v', Async.Run (fun v op v' => VaultOp.exec c v op = some v') (fun _ _ => True) v v' → Sound c v') ↔
      DistinctKeys c stored := by
  constructor
  · intro hrun
    exact (parse_valid_iff hdoc h).mp (hrun v .refl).valid
  · intro hd v' hrun
    apply Valid.sound
    refine hrun.invariant (fun v => v.Valid c) ((parse_valid_iff hdoc h).mpr hd) fun v op v' hv _ hs => ?_
    obtain ⟨w, hw, hvalid⟩ := hv.exec op
    exact Option.some.inj (hs.symm.trans hw) ▸ hvalid

def zeroKey : String := "AAAAAAAAAAAAAAAAAAAAAAAAAAAAAAAAAAAAAAAAAAA="

def zeroEntry : Json := .obj [("secret_key", .str zeroKey), ("counter", .num 0), ("nickname", .str "ann"),
    ("label", .str "")]

def oneKeyFile : String :=
  "\x7b\"version\":2,\"active\":\"\",\"identities\":[\x7b\"secret_key\":\"AAAAAAAAAAAAAAAAAAAAAAAAAAAAAAAAAAAAAAAAAAA=\",\"counter\":0,\"nickname\":\"ann\",\"label\":\"\"\x7d]\x7d"

def sameKeyTwiceFile : String :=
  "\x7b\"version\":2,\"active\":\"\",\"identities\":[\x7b\"secret_key\":\"AAAAAAAAAAAAAAAAAAAAAAAAAAAAAAAAAAAAAAAAAAA=\",\"counter\":0,\"nickname\":\"ann\",\"label\":\"\"\x7d,\x7b\"secret_key\":\"AAAAAAAAAAAAAAAAAAAAAAAAAAAAAAAAAAAAAAAAAAA=\",\"counter\":0,\"nickname\":\"ann\",\"label\":\"\"\x7d]\x7d"

/-- The other crates on the two files above and the key in them. -/
def zeroCrates : Crates where
  parseJson raw :=
    if raw = oneKeyFile then some (.obj [("version", .num 2), ("active", .str ""), ("identities", .arr [zeroEntry])])
    else if raw = sameKeyTwiceFile then
      some (.obj [("version", .num 2), ("active", .str ""), ("identities", .arr [zeroEntry, zeroEntry])])
    else none
  printJson _ := oneKeyFile
  base64Encode _ := zeroKey
  base64Decode s := if s = zeroKey then some (List.replicate 32 0) else none
  argon2 _ _ _ _ _ := .error "not used"
  encrypt _ _ _ _ := none
  decrypt _ _ _ _ := none
  verifyingKey _ := ⟨#[59, 106, 39, 188, 206, 182, 164, 45, 98, 163, 168, 208, 42, 111, 13, 115, 101, 50, 21, 119, 29,
    226, 67,
    166, 58, 192, 72, 161, 139, 89, 218, 41], rfl⟩
  sha256 _ := ⟨#[19, 158, 57, 64, 230, 75, 84, 145, 114, 32, 136, 217, 160, 215, 65, 98, 143, 200, 38, 224, 148, 117,
    211, 65,
    167, 128, 172, 222, 60, 75, 128, 112], rfl⟩

def annEntry : VaultEntry := ⟨⟨⟨#[0, 0, 0, 0, 0, 0, 0, 0, 0, 0, 0, 0, 0, 0, 0, 0, 0, 0, 0, 0, 0, 0, 0, 0, 0, 0, 0, 0, 0,
    0, 0, 0], rfl⟩, 0⟩, "ann", ""⟩

theorem vault_sound_one_key :
    (∀ v', Async.Run (fun v op v' => VaultOp.exec zeroCrates v op = some v') (fun _ _ => True)
      ⟨"identities.json", [annEntry], annEntry.name zeroCrates, .none⟩ v' → Sound zeroCrates v') ↔
      DistinctKeys zeroCrates ⟨2, "", [⟨zeroKey, 0, "ann", ""⟩]⟩ := by
  apply vault_sound_iff zeroCrates "identities.json" oneKeyFile none
    ⟨"identities.json", [annEntry], annEntry.name zeroCrates, .none⟩ ⟨2, "", [⟨zeroKey, 0, "ann", ""⟩]⟩ .none
  · decide +kernel
  · decide +kernel

/-- A file may hold one key twice; removing that key then leaves nothing to select. -/
theorem same_key_twice_panics : ¬ ∀ (c : Crates) (path raw : String) (passphrase : Option String) (v : Vault),
    parse c path raw passphrase = .ok v →
      ∀ v', Async.Run (fun v op v' => VaultOp.exec c v op = some v') (fun _ _ => True) v v' → Sound c v' := by
  intro h
  have hsound := h zeroCrates "identities.json" sameKeyTwiceFile none
    ⟨"identities.json", [annEntry, annEntry], annEntry.name zeroCrates, .none⟩ (by decide +kernel) _ .refl
  have hpanics : remove zeroCrates ⟨"identities.json", [annEntry, annEntry], annEntry.name zeroCrates, .none⟩
      (annEntry.name zeroCrates) = none := by decide +kernel
  have hremove := hsound.remove (annEntry.name zeroCrates)
  rw [hpanics] at hremove
  cases hremove

end Vault

end

end PickleChat
