import PickleChat.Vault
import Mathlib.Data.Countable.Basic
import Mathlib.Logic.Equiv.List
import Mathlib.Data.Fintype.EquivFin

/-!
# Saving and reopening a vault

What a save writes opens to the same vault, with the passphrase and no other,
and nothing made from it by a change does.
-/

namespace PickleChat

/-- One use of the cipher. -/
structure Sealing where
  key : SymmetricKey
  nonce : Vector UInt8 24
  associated : List UInt8
  plaintext : List UInt8
  ciphertext : List UInt8
  deriving DecidableEq

/-- What the vault relies on, given all that has ever been sealed: documents and base64 are read back,
and the cipher opens what was sealed, under the key, nonce and associated data it was sealed with. -/
structure Crates.Lawful (c : Crates) (history : List Sealing) : Prop where
  stored : ∀ v : StoredVault, c.parseJson (c.printJson v.toJson) = some v.toJson
  storedLine : ∀ v : StoredVault, c.parseJson (c.printJson v.toJson ++ "\n") = some v.toJson
  sealedLine : ∀ s : SealedVault, c.parseJson (c.printJson s.toJson ++ "\n") = some s.toJson
  base64 : ∀ bytes s, c.base64Decode s = some bytes ↔ s = c.base64Encode bytes
  decrypts : ∀ key nonce associated plaintext ciphertext,
    c.decrypt key nonce associated ciphertext = some plaintext ↔
      ⟨key, nonce, associated, plaintext, ciphertext⟩ ∈ history
  committed : ∀ e ∈ history, ∀ e' ∈ history, e.ciphertext = e'.ciphertext → e = e'

/-- `open_with_passphrase` on the bytes of a file. -/
def Vault.openWithPassphrase (c : Crates) (path : String) (bytes : List UInt8) (passphrase : Option String) :
    Except VaultError Vault :=
  match readToString bytes with
  | none => .error (.io path)
  | some raw => parse c path raw passphrase

theorem readToString_asBytes (s : String) : readToString (asBytes s) = some s := by
  have hb : (⟨(asBytes s).toArray⟩ : ByteArray) = s.toByteArray := rfl
  unfold readToString
  rw [hb, String.fromUTF8?, dif_pos s.isValidUTF8]
  rfl

theorem openWithPassphrase_asBytes (c : Crates) (path text : String) (passphrase : Option String) :
    Vault.openWithPassphrase c path (asBytes text) passphrase = Vault.parse c path text passphrase := by
  simp only [Vault.openWithPassphrase, readToString_asBytes]

theorem probeVersion_stored (v : StoredVault) : probeVersion v.toJson = some v.version := by
  simp [probeVersion, StoredVault.toJson, Json.fields, Json.required]

theorem probeVersion_sealed (s : SealedVault) : probeVersion s.toJson = some s.version := by
  simp [probeVersion, SealedVault.toJson, Json.fields, Json.required]

theorem ofJson_sealed (s : SealedVault) : StoredVault.ofJson s.toJson = none := by
  simp [StoredVault.ofJson, SealedVault.toJson, Json.fields, Json.required]

namespace Vault
variable {c : Crates} {history : List Sealing}

theorem ok_of_mapError {ε ε' α : Type} {f : ε → ε'} {x : Except ε α} {a : α} (h : x.mapError f = .ok a) :
    x = .ok a := by
  cases x with
  | error e => cases h
  | ok b => exact congrArg Except.ok (Except.ok.inj h)

/-! ## The document -/

theorem readEntries_stored (laws : c.Lawful history) (path : String) (entries : List VaultEntry) :
    (entries.map fun e => (⟨c.base64Encode e.identity.secret.toList, e.identity.counter, e.nickname, e.label⟩ :
      StoredEntry)).mapM
      (readEntry c path) = .ok entries := by
  induction entries with
  | nil => rfl
  | cons e entries ih =>
    have hread : readEntry c path ⟨c.base64Encode e.identity.secret.toList, e.identity.counter, e.nickname,
        e.label⟩ = .ok e := by
      have hd := (laws.base64 e.identity.secret.toList _).mpr rfl
      have hlen : e.identity.secret.toList.toArray.size = 32 := by simp
      simp only [readEntry, hd, dif_pos hlen]
      rfl
    rw [List.map_cons, List.mapM_cons, hread, ih]
    rfl

theorem parse_stored (laws : c.Lawful history) {v : Vault} (hne : v.entries ≠ []) (hactive : v.active ∈ v.names c)
    {raw : String} {passphrase : Option String} (protection : Protection)
    (hdoc : readDocument c v.path raw passphrase = .ok (v.stored c, protection)) :
    parse c v.path raw passphrase = .ok { v with protection } := by
  have hentries : (v.stored c).identities.mapM (readEntry c v.path) = .ok v.entries :=
      readEntries_stored laws v.path v.entries
  have hany : v.entries.any fun e => e.name c = v.active := by
    obtain ⟨e, he, hname⟩ := List.mem_map.mp hactive
    exact List.any_eq_true.mpr ⟨e, he, decide_eq_true hname⟩
  unfold parse
  simp only [hdoc, bind, Except.bind]
  rw [hentries]
  cases he : v.entries with
  | nil => exact absurd he hne
  | cons first rest =>
    rw [he] at hany
    have hstored : (v.stored c).active = v.active := rfl
    simp only [hstored, if_pos hany]

/-! ## The envelope -/

def envelope (c : Crates) (key : VaultKey) (nonce : Vector UInt8 24) (ciphertext : List UInt8) : SealedVault :=
  ⟨sealedVersion, key.header, xchacha20Poly1305, c.base64Encode nonce.toList, c.base64Encode ciphertext⟩

theorem readNonce_iff (laws : c.Lawful history) {s : String} {nonce : Vector UInt8 24} :
    VaultKey.readNonce c s = some nonce ↔ s = c.base64Encode nonce.toList := by
  unfold VaultKey.readNonce
  constructor
  · intro h
    obtain ⟨bytes, hd, h⟩ := Option.bind_eq_some_iff.mp h
    by_cases hlen : bytes.toArray.size = 24
    · rw [dif_pos hlen] at h
      obtain rfl := Option.some.inj h
      exact (laws.base64 bytes s).mp hd
    · rw [dif_neg hlen] at h
      cases h
  · intro h
    have hd := (laws.base64 nonce.toList s).mpr h
    have hlen : nonce.toList.toArray.size = 24 := by simp
    simp only [hd, Option.bind_some, dif_pos hlen]
    rfl

theorem open_envelope (laws : c.Lawful history) {key : VaultKey} {nonce : Vector UInt8 24}
    {plaintext ciphertext : List UInt8}
    (h : ⟨key.key, nonce, associatedData sealedVersion key.header xchacha20Poly1305, plaintext, ciphertext⟩ ∈ history) :
    key.open c (envelope c key nonce ciphertext) = .ok plaintext := by
  have hnonce := (readNonce_iff laws (s := c.base64Encode nonce.toList)).mpr rfl
  have hciphertext := (laws.base64 ciphertext _).mpr rfl
  have hdecrypt := (laws.decrypts _ _ _ _ _).mpr h
  simp only [VaultKey.open, envelope, hnonce, hciphertext, hdecrypt, ne_eq, not_true_eq_false, if_false]

def sealedText (c : Crates) (s : SealedVault) : String := c.printJson s.toJson ++ "\n"

/-- What was needed to open a sealed file: a passphrase, and a sealing with all that is in the file. -/
structure Opened (c : Crates) (history : List Sealing) (s : SealedVault) (passphrase : Option String)
    (protection : Protection)
    (key : VaultKey) (e : Sealing) : Prop where
  derived : ∃ p, passphrase = some p ∧ VaultKey.derive c p s.kdf = .ok key
  protection_eq : protection = .passphrase key
  version : s.version = sealedVersion
  cipher : s.cipher = xchacha20Poly1305
  was_sealed : e ∈ history
  key_eq : e.key = key.key
  nonce : s.nonce = c.base64Encode e.nonce.toList
  ciphertext : s.ciphertext = c.base64Encode e.ciphertext
  associated : e.associated = associatedData s.version s.kdf s.cipher

theorem readDocument_sealed (laws : c.Lawful history) {s : SealedVault} {path : String} {passphrase : Option String}
    {stored : StoredVault} {protection : Protection}
    (h : readDocument c path (sealedText c s) passphrase = .ok (stored, protection)) :
    ∃ key e, Opened c history s passphrase protection key e := by
  unfold readDocument at h
  simp only [sealedText, laws.sealedLine, Option.bind_some, probeVersion_sealed, ofJson_sealed] at h
  by_cases hplain : s.version = vaultVersion
  · rw [if_pos hplain] at h
    cases h
  · rw [if_neg hplain] at h
    by_cases hsealed : s.version = sealedVersion
    · rw [if_pos hsealed] at h
      unfold «unseal» at h
      simp only [laws.sealedLine, Option.bind_some, SealedVault.ofJson_toJson] at h
      cases passphrase with
      | none => cases h
      | some p =>
        obtain ⟨key, hkey, h⟩ := ok_of_bind h
        obtain ⟨plaintext, hplaintext, h⟩ := ok_of_bind h
        have hderive := ok_of_mapError hkey
        obtain ⟨hcipher, nonce, ciphertext, hnonce, hciphertext, hdecrypt⟩ :=
            VaultKey.open_ok (c := c) (ok_of_mapError hplaintext)
        refine ⟨key, ⟨key.key, nonce, _, plaintext, ciphertext⟩, ⟨p, rfl, hderive⟩, ?_, hsealed, hcipher,
          (laws.decrypts _ _ _ _ _).mp hdecrypt, rfl, (readNonce_iff laws).mp hnonce, (laws.base64 _ _).mp hciphertext,
          rfl⟩
        split at h
        · cases h
        · split at h
          · cases h
          · cases h
            rfl
    · rw [if_neg hsealed] at h
      cases h

theorem parse_sealed (laws : c.Lawful history) {s : SealedVault} {path : String} {passphrase : Option String}
    {v : Vault}
    (h : parse c path (sealedText c s) passphrase = .ok v) :
    ∃ key e, Opened c history s passphrase v.protection key e := by
  obtain ⟨⟨stored, protection⟩, hdoc, h⟩ := ok_of_bind h
  obtain ⟨entries, -, h⟩ := ok_of_bind h
  obtain ⟨key, e, ho⟩ := readDocument_sealed laws hdoc
  cases entries with
  | nil => cases h
  | cons first rest =>
    cases h
    exact ⟨key, e, ho⟩

/-- A file opens only to the key that sealed it, with every field as it was sealed. -/
theorem Opened.eq_envelope (laws : c.Lawful history) {s : SealedVault} {passphrase : Option String}
    {protection : Protection}
    {key key₀ : VaultKey} {e e₀ : Sealing} (h : Opened c history s passphrase protection key e) (h₀ : e₀ ∈ history)
    (hkey₀ : e₀.key = key₀.key) (hassociated₀ :
      e₀.associated = associatedData sealedVersion key₀.header xchacha20Poly1305)
    (halgorithm : key₀.header.algorithm = argon2id) (hciphertext : s.ciphertext = c.base64Encode e₀.ciphertext) :
    key = key₀ ∧ s = envelope c key₀ e₀.nonce e₀.ciphertext := by
  have hbytes : e.ciphertext = e₀.ciphertext := by
    have hd := (laws.base64 e.ciphertext s.ciphertext).mpr h.ciphertext
    rw [(laws.base64 e₀.ciphertext s.ciphertext).mpr hciphertext] at hd
    exact (Option.some.inj hd).symm
  obtain rfl := laws.committed e h.was_sealed e₀ h₀ hbytes
  obtain ⟨p, -, hderive⟩ := h.derived
  obtain ⟨hheader, halg⟩ := VaultKey.derive_ok (c := c) hderive
  have haad := h.associated.symm.trans hassociated₀
  rw [h.cipher] at haad
  obtain ⟨hversion, hkdf⟩ := associatedData_inj (halg.trans halgorithm.symm) haad
  have hkey : key = key₀ := by
    cases key
    cases key₀
    simp only [VaultKey.mk.injEq]
    exact ⟨h.key_eq.symm.trans hkey₀, hheader.trans hkdf⟩
  refine ⟨hkey, ?_⟩
  cases s
  simp only [envelope, SealedVault.mk.injEq]
  exact ⟨hversion, hkdf, h.cipher, h.nonce, hciphertext⟩

/-! ## Saving and opening -/

/-- The passphrase opens what is protected so: any, or none, where nothing is. -/
def Unlocks (c : Crates) (passphrase : Option String) : Protection → Prop
  | .none => True
  | .passphrase key => ∃ p, passphrase = some p ∧ VaultKey.derive c p key.header = .ok key

/-- What a save under this nonce seals is among all that has been sealed. -/
def Recorded (c : Crates) (history : List Sealing) (v : Vault) (nonce : Vector UInt8 24) : Prop :=
  ∀ key ciphertext, v.protection = .passphrase key →
    c.encrypt key.key nonce (associatedData sealedVersion key.header xchacha20Poly1305)
      (asBytes (c.printJson (v.stored c).toJson)) = some ciphertext →
    ⟨key.key, nonce, associatedData sealedVersion key.header xchacha20Poly1305,
      asBytes (c.printJson (v.stored c).toJson), ciphertext⟩ ∈ history

def needsPassphrase (c : Crates) (text : String) : Bool := (c.parseJson text).bind probeVersion = some sealedVersion

theorem encode_sealed {v : Vault} {key : VaultKey} {nonce : Vector UInt8 24} {text : String}
    (h : v.encode c (.passphrase key) nonce = .ok text) : ∃ ciphertext,
      c.encrypt key.key nonce (associatedData sealedVersion key.header xchacha20Poly1305)
        (asBytes (c.printJson (v.stored c).toJson)) = some ciphertext ∧
      text = sealedText c (envelope c key nonce ciphertext) := by
  obtain ⟨sealed, hseal, h⟩ := ok_of_bind h
  obtain ⟨ciphertext, hencrypt, rfl⟩ := VaultKey.seal_ok (c := c) (ok_of_mapError hseal)
  exact ⟨ciphertext, hencrypt, (Except.ok.inj h).symm⟩

theorem encode_of_encrypt {v : Vault} {key : VaultKey} {nonce : Vector UInt8 24} {ciphertext : List UInt8}
    (h : c.encrypt key.key nonce (associatedData sealedVersion key.header xchacha20Poly1305)
      (asBytes (c.printJson (v.stored c).toJson)) = some ciphertext) :
    v.encode c (.passphrase key) nonce = .ok (sealedText c (envelope c key nonce ciphertext)) := by
  have hseal : key.seal c nonce (asBytes (c.printJson (v.stored c).toJson)) =
      .ok (envelope c key nonce ciphertext) := by
    unfold VaultKey.seal
    rw [h]
    rfl
  unfold encode
  simp only [hseal]
  rfl

theorem needsPassphrase_encode (laws : c.Lawful history) {v : Vault} {nonce : Vector UInt8 24} {text : String}
    (h : v.encode c v.protection nonce = .ok text) :
    needsPassphrase c text = true ↔ ∃ key, v.protection = .passphrase key := by
  unfold needsPassphrase
  cases hp : v.protection with
  | none =>
    rw [hp] at h
    obtain rfl := Except.ok.inj h
    rw [laws.storedLine, Option.bind_some, probeVersion_stored]
    simp [stored, vaultVersion, sealedVersion]
  | passphrase key =>
    rw [hp] at h
    obtain ⟨ciphertext, -, rfl⟩ := encode_sealed h
    rw [sealedText, laws.sealedLine, Option.bind_some, probeVersion_sealed]
    simp [envelope]

theorem parse_encode (laws : c.Lawful history) {v : Vault} (hne : v.entries ≠ []) (hactive : v.active ∈ v.names c)
    {nonce : Vector UInt8 24} (hrecorded : Recorded c history v nonce) {text : String}
    (h : v.encode c v.protection nonce = .ok text) {passphrase : Option String}
    (hu : Unlocks c passphrase v.protection) :
    parse c v.path text passphrase = .ok v := by
  apply parse_stored laws hne hactive v.protection
  unfold readDocument
  cases hp : v.protection with
  | none =>
    rw [hp] at h
    obtain rfl := Except.ok.inj h
    simp only [laws.storedLine, Option.bind_some, probeVersion_stored, StoredVault.ofJson_toJson]
    rfl
  | passphrase key =>
    rw [hp] at h hu
    obtain ⟨ciphertext, hencrypt, rfl⟩ := encode_sealed h
    obtain ⟨p, rfl, hderive⟩ := hu
    have hopen := open_envelope laws (hrecorded key ciphertext hp hencrypt)
    have hsealed : (envelope c key nonce ciphertext).version = sealedVersion := rfl
    have hkdf : (envelope c key nonce ciphertext).kdf = key.header := rfl
    have hne : ¬ sealedVersion = vaultVersion := by decide
    simp only [sealedText, laws.sealedLine, Option.bind_some, probeVersion_sealed, hsealed, if_neg hne, if_true,
      «unseal»,
      SealedVault.ofJson_toJson, hkdf, hderive, hopen, Except.mapError, bind, Except.bind, readToString_asBytes,
      laws.stored, StoredVault.ofJson_toJson]
    rfl

/-- What `save` writes opens to the vault that was saved, with its passphrase if it has one and with nothing
else; no changed file opens; and a reopened vault is saved under the same kind of protection. -/
theorem save_open_roundtrip (c : Crates) (history : List Sealing) (laws : c.Lawful history) (v : Vault)
    (hne : v.entries ≠ []) (hactive : v.active ∈ v.names c)
    (hkey : ∀ key, v.protection = .passphrase key → ∃ p, VaultKey.derive c p key.header = .ok key)
    (nonce : Vector UInt8 24) (hrecorded : Recorded c history v nonce) (text : String)
    (h : v.encode c v.protection nonce = .ok text) :
    (∀ passphrase, Unlocks c passphrase v.protection →
      openWithPassphrase c v.path (asBytes text) passphrase = .ok v) ∧
    (∀ key, v.protection = .passphrase key →
      (∀ v', openWithPassphrase c v.path (asBytes text) none ≠ .ok v') ∧
      (∀ p, (∀ key', VaultKey.derive c p key.header = .ok key' → key'.key ≠ key.key) →
        ∀ v', openWithPassphrase c v.path (asBytes text) (some p) ≠ .ok v') ∧
      ∃ s, text = sealedText c s ∧ ∀ s', s' ≠ s →
        (s'.ciphertext = s.ciphertext ∨ ∀ e ∈ history, s'.ciphertext ≠ c.base64Encode e.ciphertext) →
          ∀ passphrase v', openWithPassphrase c v.path (asBytes (sealedText c s')) passphrase ≠ .ok v') ∧
    (∀ passphrase v' nonce' text', openWithPassphrase c v.path (asBytes text) passphrase = .ok v' →
      v'.encode c v'.protection nonce' = .ok text' → needsPassphrase c text' = needsPassphrase c text) := by
  simp only [openWithPassphrase_asBytes]
  refine ⟨fun passphrase hu => parse_encode laws hne hactive hrecorded h hu, fun key hp => ?_,
    fun passphrase v' nonce' text' ho h' => ?_⟩
  · rw [hp] at h
    obtain ⟨ciphertext, hencrypt, rfl⟩ := encode_sealed h
    have hmem := hrecorded key ciphertext hp hencrypt
    obtain ⟨p₀, hderive₀⟩ := hkey key hp
    have halgorithm := (VaultKey.derive_ok (c := c) hderive₀).2
    refine ⟨fun v' ho => ?_, fun p hwrong v' ho => ?_, envelope c key nonce ciphertext, rfl,
      fun s' hs' hct passphrase v' ho => ?_⟩
    · obtain ⟨key', e, hopened⟩ := parse_sealed laws ho
      obtain ⟨p, hnone, -⟩ := hopened.derived
      cases hnone
    · obtain ⟨key', e, hopened⟩ := parse_sealed laws ho
      obtain ⟨p', hsome, hderive⟩ := hopened.derived
      obtain rfl := Option.some.inj hsome
      obtain ⟨rfl, -⟩ := hopened.eq_envelope laws hmem rfl rfl halgorithm rfl
      exact hwrong key' hderive rfl
    · obtain ⟨key', e, hopened⟩ := parse_sealed laws ho
      rcases hct with hsame | hother
      · exact hs' (hopened.eq_envelope laws hmem rfl rfl halgorithm hsame).2
      · exact hother e hopened.was_sealed hopened.ciphertext
  · rw [Bool.eq_iff_iff, needsPassphrase_encode laws h', needsPassphrase_encode laws h]
    cases hp : v.protection with
    | none =>
      have hu : Unlocks c passphrase v.protection := by rw [hp]; trivial
      rw [parse_encode laws hne hactive hrecorded h hu] at ho
      obtain rfl := Except.ok.inj ho
      rw [hp]
    | passphrase key =>
      rw [hp] at h
      obtain ⟨ciphertext, -, rfl⟩ := encode_sealed h
      obtain ⟨key', e, hopened⟩ := parse_sealed laws ho
      exact ⟨fun _ => ⟨key, rfl⟩, fun _ => ⟨key', hopened.protection_eq⟩⟩

end Vault

/-! ## One sealed file

A vault with one key, its passphrase "pass", the file it is saved to under a
nonce of zeros, and the other crates on all of these. Elsewhere they are any
codes that can be read back. -/

/-- The text of a document of some version. -/
def braced (version : Char) (fields : String) : String :=
  String.ofList (['\x7b', '\n', ' ', ' ', '"', 'v', 'e', 'r', 's', 'i', 'o', 'n', '"', ':', ' '] ++
    version :: (fields.toList ++ ['\x7d']))

def annName : String := "copd-sqhg-jnkj-c4ra-rdm2-bv2b-mkh4-qjxa-sr25-gqnh-qcwn-4pcl-qbya"

def annFields : String :=
  ",\n  \"active\": \"" ++ annName ++ "\",\n  \"identities\": [\n    \x7b\n" ++
    "      \"secret_key\": \"AAAAAAAAAAAAAAAAAAAAAAAAAAAAAAAAAAAAAAAAAAA=\",\n      \"counter\": 0,\n" ++
    "      \"nickname\": \"ann\",\n      \"label\": \"\"\n    \x7d\n  ]\n"

def annText : String := braced '2' annFields

def annKey : VaultKey where
  key := ⟨#[
    248, 79, 238, 144, 130, 67, 13, 89, 163, 104, 76, 12, 196, 192, 59, 14, 90, 212, 138, 155, 36, 19, 113,
    195, 136, 15, 172, 187, 74, 13, 3, 188], rfl⟩
  header := ⟨"argon2id", 19, 8, 1, 1, "AAAAAAAAAAAAAAAAAAAAAA=="⟩

def annCiphertext : List UInt8 := [
    164, 185, 155, 21, 190, 175, 119, 44, 72, 238, 70, 59, 128, 62, 16, 123, 81, 244, 89, 161, 64, 70, 45, 172,
    172, 45, 206, 160, 167, 226, 71, 131, 206, 129, 217, 141, 78, 15, 86, 203, 72, 196, 140, 234, 166, 225, 0,
    48, 61, 77, 99, 102, 186, 107, 241, 40, 94, 82, 240, 171, 245, 5, 239, 208, 15, 119, 71, 240, 192, 45, 224,
    216, 187, 181, 146, 217, 105, 234, 127, 239, 227, 64, 66, 191, 3, 147, 156, 71, 134, 232, 186, 227, 21, 67,
    100, 95, 198, 39, 62, 225, 54, 190, 180, 69, 29, 80, 27, 236, 86, 161, 63, 242, 142, 149, 206, 158, 240,
    227, 248, 239, 244, 11, 77, 98, 126, 87, 84, 216, 67, 204, 94, 40, 13, 23, 221, 47, 40, 223, 130, 125, 205,
    111, 90, 9, 39, 120, 252, 156, 98, 120, 151, 177, 7, 234, 242, 111, 63, 20, 124, 136, 127, 223, 206, 76,
    123, 119, 142, 186, 29, 73, 24, 151, 31, 186, 216, 62, 118, 24, 161, 125, 247, 241, 96, 10, 91, 116, 35,
    84, 11, 98, 197, 83, 176, 146, 7, 70, 237, 250, 129, 192, 197, 137, 25, 113, 92, 62, 180, 243, 7, 215, 193,
    140, 101, 123, 35, 90, 165, 213, 212, 198, 208, 254, 237, 20, 154, 226, 169, 21, 242, 11, 168, 212, 253,
    244, 238, 147, 5, 210, 251, 104, 128, 74, 35, 243, 182, 26, 177, 233, 33, 149, 139, 144, 2, 205, 149, 208,
    228, 133, 177, 53, 133, 141, 98, 0, 202, 114, 73, 136, 115, 226, 12, 83, 8, 11, 212, 158, 150, 135, 25, 194]

def annCiphertextText : String :=
  "p" ++ ("LmbFb6vdyxI7kY7gD4Qe1H0WaFARi2srC3OoKfiR4POgdmNTg9Wy0jEjOqm4QAwPU1jZrpr8SheUvCr9QXv0A93R/DALeDYu7WS2Wnqf" ++
    "+/jQEK/A5OcR4bouuMVQ2Rfxic+4Ta+tEUdUBvsVqE/8o6Vzp7w4/jv9AtNYn5XVNhDzF4oDRfdLyjfgn3Nb1oJJ3j8nGJ4l7EH6vJvP" ++
    "xR8iH/fzkx7d466HUkYlx+62D52GKF99/FgClt0I1QLYsVTsJIHRu36gcDFiRlxXD608wfXwYxleyNapdXUxtD+7RSa4qkV8guo1P307" ++
    "pMF0vtogEoj87YasekhlYuQAs2V0OSFsTWFjWIAynJJiHPiDFMIC9SelocZwg==")

def annSealed : SealedVault :=
  ⟨3, annKey.header, "xchacha20poly1305", "AAAAAAAAAAAAAAAAAAAAAAAAAAAAAAAA", annCiphertextText⟩

def annSealedFields : String :=
  ",\n  \"kdf\": \x7b\n    \"algorithm\": \"argon2id\",\n    \"version\": 19,\n    \"memory_kib\": 8,\n" ++
    "    \"iterations\": 1,\n    \"parallelism\": 1,\n    \"salt\": \"AAAAAAAAAAAAAAAAAAAAAA==\"\n  \x7d,\n" ++
    "  \"cipher\": \"xchacha20poly1305\",\n  \"nonce\": \"AAAAAAAAAAAAAAAAAAAAAAAAAAAAAAAA\",\n" ++
    "  \"ciphertext\": \"" ++ annCiphertextText ++ "\"\n"

def annSealedText : String := braced '3' annSealedFields

def zeroNonce : Vector UInt8 24 := .replicate 24 0

def annSealing : Sealing :=
  ⟨annKey.key, zeroNonce, associatedData sealedVersion annKey.header xchacha20Poly1305, asBytes annText, annCiphertext⟩

def annStored : StoredVault :=
  ⟨2, annName, [⟨Vault.zeroKey, 0, "ann", ""⟩]⟩

def annVault : Vault :=
  ⟨"identities.json", [Vault.annEntry], annName, .passphrase annKey⟩

section
open Function

theorem injective_update {α β : Type} [DecidableEq α] {f : α → β} (hf : Injective f) {a : α} {b : β}
    (hb : ∀ x, f x ≠ b) :
    Injective (update f a b) := by
  intro x y h
  by_cases hx : x = a
  · by_cases hy : y = a
    · exact hx.trans hy.symm
    · rw [hx, update_self, update_of_ne hy] at h
      exact absurd h.symm (hb y)
  · by_cases hy : y = a
    · rw [hy, update_self, update_of_ne hx] at h
      exact absurd h (hb x)
    · rw [update_of_ne hx, update_of_ne hy] at h
      exact hf h

/-- What holds of all values of a function still does after one is replaced by another it holds of. -/
theorem update_all {α β : Type} [DecidableEq α] {f : α → β} {a : α} {b : β} (P : β → Prop) (hb : P b)
    (hf : ∀ x, P (f x))
    (x : α) : P (update f a b x) := by
  by_cases hx : x = a
  · rw [hx, update_self]
    exact hb
  · rw [update_of_ne hx]
    exact hf x

theorem update_ne {α β : Type} [DecidableEq α] {f : α → β} {a : α} {b b' : β} (hb : b ≠ b') (hf : ∀ x, f x ≠ b') :
    ∀ x, update f a b x ≠ b' :=
  update_all (· ≠ b') hb hf

/-- A text that no file and no base64 is. -/
def spareText (l : List Char) : String := String.ofList ('#' :: l)

theorem spareText_injective : Injective spareText := by
  intro l l' h
  exact (List.cons.inj (String.ofList_injective h)).2

theorem spareText_ne {s : String} (h : s.toList.head? ≠ some '#') (l : List Char) : spareText l ≠ s := by
  rintro rfl
  simp [spareText] at h

def spareBase64 (bytes : List UInt8) : String := spareText (bytes.map fun b => Char.ofNat b.toNat)

theorem spareBase64_injective : Injective spareBase64 := by
  apply spareText_injective.comp
  apply List.map_injective_iff.mpr
  intro a b h
  have hnat : ∀ b : UInt8, (Char.ofNat b.toNat).toNat = b.toNat := by
    intro b
    have hb : b.toNat.isValidChar := Or.inl (by have := b.toNat_lt; omega)
    rw [Char.ofNat, dif_pos hb]
    rfl
  exact UInt8.toNat_inj.mp ((hnat a).symm.trans ((congrArg Char.toNat h).trans (hnat b)))

def sampleBase64 : List UInt8 → String :=
  update (update (update (update spareBase64 annCiphertext annCiphertextText)
    (List.replicate 24 0) "AAAAAAAAAAAAAAAAAAAAAAAAAAAAAAAA") (List.replicate 16 0) "AAAAAAAAAAAAAAAAAAAAAA==")
    (List.replicate 32 0) Vault.zeroKey

theorem ne_of_head {s t : String} (h : s.toList.head? ≠ t.toList.head?) : s ≠ t := fun e => h (e ▸ rfl)

theorem annCiphertextText_head : annCiphertextText.toList.head? = some 'p' := by
  rw [annCiphertextText, String.toList_append]
  rfl

theorem braced_head (version : Char) (fields : String) : (braced version fields).toList.head? ≠ some '#' := by
  rw [braced, String.toList_ofList]
  simp

theorem braced_last (version : Char) (fields : String) : (braced version fields).toList.getLast? ≠ some '\n' := by
  rw [braced, String.toList_ofList, ← List.cons_append, ← List.append_assoc, List.getLast?_concat]
  simp

theorem braced_ne {version version' : Char} (h : version ≠ version') (fields fields' : String) :
    braced version fields ≠ braced version' fields' := by
  intro he
  have hl := List.append_cancel_left (String.ofList_injective he)
  exact h (List.cons.inj hl).1

theorem sampleBase64_injective : Injective sampleBase64 := by
  have h₀ : ∀ s : String, s.toList.head? ≠ some '#' → ∀ x, spareBase64 x ≠ s := fun s hs x => spareText_ne hs _
  have h₁ : ∀ s : String, s.toList.head? = some 'A' →
      ∀ x, update spareBase64 annCiphertext annCiphertextText x ≠ s := by
    intro s hs
    apply update_ne (ne_of_head _) (h₀ s _)
    · rw [annCiphertextText_head, hs]
      decide
    · rw [hs]
      decide
  apply injective_update
  · apply injective_update
    · apply injective_update
      · apply injective_update spareBase64_injective
        apply h₀
        rw [annCiphertextText_head]
        decide
      · exact h₁ _ rfl
    · exact update_ne (by decide) (h₁ _ rfl)
  · exact update_ne (by decide) (update_ne (by decide) (h₁ _ rfl))

abbrev Document := StoredVault ⊕ SealedVault

def Document.toJson : Document → Json := Sum.elim StoredVault.toJson SealedVault.toJson

def Document.ofJson (j : Json) : Option Document :=
  ((StoredVault.ofJson j).map Sum.inl).or ((SealedVault.ofJson j).map Sum.inr)

theorem Document.ofJson_toJson (d : Document) : Document.ofJson d.toJson = some d := by
  cases d with
  | inl v => simp [Document.ofJson, Document.toJson]
  | inr s => simp [Document.ofJson, Document.toJson, ofJson_sealed]

instance countable_string : Countable String := by
  have hchar : Countable Char := Injective.countable (f := Char.toNat) fun a b h => Char.ext (UInt32.toNat_inj.mp h)
  exact Injective.countable (f := String.toList) fun _ _ h => String.toList_injective h

instance countable_document : Countable Document := by
  have hentry : Countable StoredEntry :=
    Injective.countable (f := fun e : StoredEntry =>
      (e.secretKey, e.counter.toNat, e.nickname, e.label)) fun a b h => by
      cases a; cases b; simp_all [UInt64.toNat_inj]
  have hstored : Countable StoredVault :=
    Injective.countable (f := fun v : StoredVault => (v.version.toNat, v.active, v.identities)) fun a b h => by
      cases a; cases b; simp_all [UInt32.toNat_inj]
  have hkdf : Countable KdfHeader :=
    Injective.countable (f := fun k : KdfHeader => (k.algorithm, k.version.toNat, k.memoryKib.toNat, k.iterations.toNat,
      k.parallelism.toNat, k.salt)) fun a b h => by
      cases a; cases b; simp_all [UInt32.toNat_inj]
  have hsealed : Countable SealedVault :=
    Injective.countable (f := fun s : SealedVault =>
      (s.version.toNat, s.kdf, s.cipher, s.nonce, s.ciphertext)) fun a b h => by
      cases a; cases b; simp_all [UInt32.toNat_inj]
  infer_instance

noncomputable def spareDocument (d : Document) : String :=
  spareText (List.replicate ((Countable.exists_injective_nat Document).choose d) 'a')

theorem spareDocument_injective : Injective spareDocument := by
  intro d d' h
  have hlen := congrArg List.length (spareText_injective h)
  simp only [List.length_replicate] at hlen
  exact (Countable.exists_injective_nat Document).choose_spec hlen

open Classical in
noncomputable def samplePrint : Document → String :=
  update (update spareDocument (.inl annStored) annText) (.inr annSealed) annSealedText

theorem samplePrint_injective : Injective samplePrint := by
  have h₀ : ∀ s : String, s.toList.head? ≠ some '#' → ∀ d, spareDocument d ≠ s := fun s hs d => spareText_ne hs _
  apply injective_update
  · apply injective_update spareDocument_injective
    apply h₀
    exact braced_head '2' annFields
  · apply update_ne
    · exact braced_ne (by decide) annFields annSealedFields
    · apply h₀
      exact braced_head '3' annSealedFields

theorem samplePrint_ne_line (d d' : Document) : samplePrint d ≠ samplePrint d' ++ "\n" := by
  have hspare : ∀ d, (spareDocument d).toList.getLast? ≠ some '\n' := by
    intro d hl
    have hmem := List.mem_of_getLast? hl
    simp [spareDocument, spareText, List.mem_replicate] at hmem
  have hlast : ∀ d, (samplePrint d).toList.getLast? ≠ some '\n' :=
    update_all (fun s : String => s.toList.getLast? ≠ some '\n') (braced_last '3' annSealedFields)
      (update_all (fun s : String => s.toList.getLast? ≠ some '\n') (braced_last '2' annFields) hspare)
  intro h
  apply hlast d
  rw [h, String.toList_append]
  exact List.getLast?_concat

noncomputable def sampleParse (text : String) : Option Json :=
  ((partialInv samplePrint text).or (partialInv (fun d => samplePrint d ++ "\n") text)).map Document.toJson

theorem sampleParse_print (d : Document) : sampleParse (samplePrint d) = some d.toJson := by
  have hd : partialInv samplePrint (samplePrint d) = some d := (samplePrint_injective.isPartialInv d _).mpr rfl
  simp [sampleParse, hd]

theorem sampleParse_line (d : Document) : sampleParse (samplePrint d ++ "\n") = some d.toJson := by
  have hline : Injective fun d => samplePrint d ++ "\n" := by
    intro d d' h
    have hl := congrArg String.toList h
    rw [String.toList_append, String.toList_append] at hl
    exact samplePrint_injective (String.toList_injective (List.append_cancel_right hl))
  have hd : partialInv (fun d => samplePrint d ++ "\n") (samplePrint d ++ "\n") = some d :=
      (hline.isPartialInv d _).mpr rfl
  have hn : partialInv samplePrint (samplePrint d ++ "\n") = none := by
    apply Option.eq_none_iff_forall_ne_some.mpr
    intro d' h
    exact samplePrint_ne_line d' d ((samplePrint_injective.isPartialInv d' _).mp h)
  simp [sampleParse, hd, hn]

/-- A cipher that has been used once. -/
def openOnly (e : Sealing) (key : SymmetricKey) (nonce : Vector UInt8 24) (associated ciphertext : List UInt8) :
    Option (List UInt8) :=
  if (key, nonce, associated, ciphertext) = (e.key, e.nonce, e.associated, e.ciphertext) then some e.plaintext else none

theorem openOnly_iff (e : Sealing) (key : SymmetricKey) (nonce : Vector UInt8 24)
    (associated plaintext ciphertext : List UInt8) :
    openOnly e key nonce associated ciphertext = some plaintext ↔
      ⟨key, nonce, associated, plaintext, ciphertext⟩ = e := by
  cases e
  simp only [openOnly, Prod.mk.injEq, Sealing.mk.injEq, Option.ite_none_right_eq_some, Option.some.injEq]
  constructor
  · rintro ⟨⟨rfl, rfl, rfl, rfl⟩, rfl⟩
    exact ⟨rfl, rfl, rfl, rfl, rfl⟩
  · rintro ⟨rfl, rfl, rfl, rfl, rfl⟩
    exact ⟨⟨rfl, rfl, rfl, rfl⟩, rfl⟩

def sealOnly (e : Sealing) (key : SymmetricKey) (nonce : Vector UInt8 24) (associated plaintext : List UInt8) :
    Option (List UInt8) :=
  if (key, nonce, associated, plaintext) = (e.key, e.nonce, e.associated, e.plaintext) then some e.ciphertext else none

theorem sealOnly_mk (key : SymmetricKey) (nonce : Vector UInt8 24) (associated plaintext ciphertext : List UInt8) :
    sealOnly ⟨key, nonce, associated, plaintext, ciphertext⟩ key nonce associated plaintext = some ciphertext :=
      if_pos rfl

/-- A key derivation that has been used once, at 8 KiB, one pass and one lane. -/
def deriveOnly (passphrase salt : List UInt8) (key : SymmetricKey) (memoryKib iterations parallelism : UInt32)
    (passphrase' salt' : List UInt8) : Except String SymmetricKey :=
  if (memoryKib, iterations, parallelism, passphrase', salt') = (8, 1, 1, passphrase, salt) then .ok key
    else .error "not tried"

theorem deriveOnly_self (passphrase salt : List UInt8) (key : SymmetricKey) :
    deriveOnly passphrase salt key 8 1 1 passphrase salt = .ok key := if_pos rfl

noncomputable def sampleCrates : Crates where
  parseJson := sampleParse
  printJson j := ((Document.ofJson j).map samplePrint).getD "null"
  base64Encode := sampleBase64
  base64Decode := partialInv sampleBase64
  argon2 := deriveOnly (asBytes "pass") (List.replicate 16 0) annKey.key
  encrypt := sealOnly annSealing
  decrypt := openOnly annSealing
  verifyingKey := Vault.zeroCrates.verifyingKey
  sha256 := Vault.zeroCrates.sha256

theorem sampleCrates_lawful : sampleCrates.Lawful [annSealing] where
  stored v := by
    have hp : sampleCrates.printJson v.toJson = samplePrint (.inl v) := by
      simp [sampleCrates, Document.ofJson]
    rw [hp]
    exact sampleParse_print (.inl v)
  storedLine v := by
    have hp : sampleCrates.printJson v.toJson = samplePrint (.inl v) := by
      simp [sampleCrates, Document.ofJson]
    rw [hp]
    exact sampleParse_line (.inl v)
  sealedLine s := by
    have hp : sampleCrates.printJson s.toJson = samplePrint (.inr s) := by
      simp [sampleCrates, Document.ofJson, ofJson_sealed]
    rw [hp]
    exact sampleParse_line (.inr s)
  base64 bytes s := (sampleBase64_injective.isPartialInv bytes s).trans eq_comm
  decrypts key nonce associated plaintext ciphertext := by
    rw [List.mem_singleton]
    exact openOnly_iff annSealing key nonce associated plaintext ciphertext
  committed e he e' he' _ := (List.mem_singleton.mp he).trans (List.mem_singleton.mp he').symm

end

theorem ann_stored : annVault.stored sampleCrates = annStored := by
  have hkey : sampleBase64 (List.replicate 32 0) = Vault.zeroKey := Function.update_self _ _ _
  have hsecret : Vault.annEntry.identity.secret.toList = List.replicate 32 0 := rfl
  simp only [Vault.stored, annVault, List.map_cons, List.map_nil, hsecret, sampleCrates, hkey]
  rfl

theorem ann_printed : sampleCrates.printJson annStored.toJson = annText := by
  have hd : Document.ofJson annStored.toJson = some (.inl annStored) := Document.ofJson_toJson (.inl annStored)
  simp only [sampleCrates, hd, Option.map_some, Option.getD_some, samplePrint]
  rw [Function.update_of_ne Sum.inl_ne_inr, Function.update_self]

theorem annSealed_printed : sampleCrates.printJson annSealed.toJson = annSealedText := by
  have hd : Document.ofJson annSealed.toJson = some (.inr annSealed) := Document.ofJson_toJson (.inr annSealed)
  simp only [sampleCrates, hd, Option.map_some, Option.getD_some, samplePrint]
  rw [Function.update_self]

theorem ann_derived : VaultKey.derive sampleCrates "pass" annKey.header = .ok annKey := by
  have hsalt : sampleCrates.base64Decode annKey.header.salt = some (List.replicate 16 0) := by
    apply (sampleCrates_lawful.base64 _ _).mpr
    have hne : List.replicate 16 (0 : UInt8) ≠ List.replicate 32 0 := by decide
    simp only [sampleCrates, sampleBase64]
    rw [Function.update_of_ne hne, Function.update_self]
    rfl
  have hkey : sampleCrates.argon2 8 1 1 (asBytes "pass") (List.replicate 16 0) = .ok annKey.key :=
    deriveOnly_self (asBytes "pass") (List.replicate 16 0) annKey.key
  have hheader : annKey.header.memoryKib = 8 ∧ annKey.header.iterations = 1 ∧ annKey.header.parallelism = 1 :=
      ⟨rfl, rfl, rfl⟩
  unfold VaultKey.derive
  rw [if_neg (by decide), if_neg (by decide), if_neg (by decide), hsalt]
  simp only [List.length_replicate]
  rw [if_neg (by decide), hheader.1, hheader.2.1, hheader.2.2, hkey]

theorem ann_encrypted : sampleCrates.encrypt annKey.key zeroNonce
    (associatedData sealedVersion annKey.header xchacha20Poly1305) (asBytes annText) = some annCiphertext := by
  have hcipher : sampleCrates.encrypt = sealOnly annSealing := rfl
  rw [hcipher, annSealing]
  exact sealOnly_mk _ _ _ _ _

theorem ann_encoded : annVault.encode sampleCrates annVault.protection zeroNonce = .ok (annSealedText ++ "\n") := by
  have hencrypt := ann_encrypted
  have hnonce : sampleCrates.base64Encode zeroNonce.toList = annSealed.nonce := by
    have hne : zeroNonce.toList ≠ List.replicate 32 0 := by decide
    have hne' : zeroNonce.toList ≠ List.replicate 16 0 := by decide
    simp only [sampleCrates, sampleBase64]
    rw [Function.update_of_ne hne, Function.update_of_ne hne']
    exact Function.update_self _ _ _
  have hciphertext : sampleCrates.base64Encode annCiphertext = annSealed.ciphertext := by
    have hlong : 32 < annCiphertext.length := by decide +kernel
    have hlen : ∀ n ≤ 32, annCiphertext ≠ List.replicate n 0 := by
      intro n hn he
      have hlength : annCiphertext.length = n := by rw [he, List.length_replicate]
      omega
    simp only [sampleCrates, sampleBase64]
    rw [Function.update_of_ne (hlen 32 (by decide)), Function.update_of_ne (hlen 16 (by decide)),
      Function.update_of_ne (hlen 24 (by decide))]
    exact Function.update_self _ _ _
  have henvelope : Vault.envelope sampleCrates annKey zeroNonce annCiphertext = annSealed := by
    rw [Vault.envelope, hnonce, hciphertext, annSealed]
    rfl
  have hprotection : annVault.protection = .passphrase annKey := rfl
  rw [← ann_printed, ← ann_stored] at hencrypt
  rw [hprotection, Vault.encode_of_encrypt hencrypt, henvelope, Vault.sealedText, annSealed_printed]

theorem ann_recorded : Vault.Recorded sampleCrates [annSealing] annVault zeroNonce := by
  intro key ciphertext hp hencrypt
  have hprotection : annVault.protection = .passphrase annKey := rfl
  obtain rfl := Protection.passphrase.inj (hprotection.symm.trans hp)
  rw [ann_stored, ann_printed] at hencrypt ⊢
  obtain rfl := Option.some.inj (ann_encrypted.symm.trans hencrypt)
  exact List.mem_singleton.mpr rfl

theorem save_open_roundtrip_ann :
    Vault.openWithPassphrase sampleCrates "identities.json" (asBytes (annSealedText ++ "\n"))
      (some "pass") = .ok annVault := by
  have hactive : annVault.active ∈ annVault.names sampleCrates := by
    have hname : Vault.annEntry.name Vault.zeroCrates = annStored.active := by decide +kernel
    have hcrates : sampleCrates.sha256 = Vault.zeroCrates.sha256 ∧
        sampleCrates.verifyingKey = Vault.zeroCrates.verifyingKey :=
      ⟨rfl, rfl⟩
    simp only [Vault.names, annVault, List.map_cons, List.map_nil, List.mem_singleton, VaultEntry.name,
      SecretIdentity.fingerprint, hcrates]
    exact hname.symm
  have hkey : ∀ key, annVault.protection = .passphrase key →
      ∃ p, VaultKey.derive sampleCrates p key.header = .ok key := by
    intro key hp
    have hprotection : annVault.protection = .passphrase annKey := rfl
    obtain rfl := Protection.passphrase.inj (hprotection.symm.trans hp)
    exact ⟨"pass", ann_derived⟩
  exact (Vault.save_open_roundtrip sampleCrates [annSealing] sampleCrates_lawful annVault
    (by simp [annVault]) hactive hkey
    zeroNonce ann_recorded _ ann_encoded).1 (some "pass") ⟨"pass", rfl, ann_derived⟩

end PickleChat
