import PickleChat.Lib.Json
import PickleChat.Lib.Stream
import PickleChat.Signatures

/-!
# Sealed vaults

`pickle-identity/src/sealed.rs`: a key derived from a passphrase, the cipher
under it, and the header that is authenticated with what it seals. The key
derivation, the cipher, base64, Ed25519 and the text of JSON documents come
from other crates.
-/

namespace PickleChat

open Stream (u32Le fromLe_u32Le)

abbrev SymmetricKey := Vector UInt8 32

structure Crates where
  parseJson : String → Option Json
  printJson : Json → String
  base64Encode : List UInt8 → String
  base64Decode : String → Option (List UInt8)
  /-- Argon2id over a passphrase and a salt, at a memory cost, passes and lanes, or why it refuses them. -/
  argon2 : UInt32 → UInt32 → UInt32 → List UInt8 → List UInt8 → Except String SymmetricKey
  /-- XChaCha20-Poly1305: key, nonce, associated data, plaintext. -/
  encrypt : SymmetricKey → Vector UInt8 24 → List UInt8 → List UInt8 → Option (List UInt8)
  decrypt : SymmetricKey → Vector UInt8 24 → List UInt8 → List UInt8 → Option (List UInt8)
  verifyingKey : Vector UInt8 32 → VerifyingKey
  sha256 : List UInt8 → Vector UInt8 32

def sealedVersion : UInt32 := 3

def argon2id : String := "argon2id"

def xchacha20Poly1305 : String := "xchacha20poly1305"

def aadContext : List UInt8 := asciiBytes "pickle-vault-seal-v1"

def maxMemoryKib : UInt32 := 1024 * 1024

def defaultMemoryKib : UInt32 := 19 * 1024

def defaultIterations : UInt32 := 2

def defaultParallelism : UInt32 := 1

/-- `Version::V0x13`. -/
def argon2Version : UInt32 := 19

def minSaltLen : Nat := 8

inductive SealError where
  | unauthentic
  | unsupportedKdf (name : String)
  | unsupportedCipher (name : String)
  | badParams (why : String)
  | badEncoding
  deriving DecidableEq

structure KdfHeader where
  algorithm : String
  version : UInt32
  memoryKib : UInt32
  iterations : UInt32
  parallelism : UInt32
  salt : String
  deriving DecidableEq

structure SealedVault where
  version : UInt32
  kdf : KdfHeader
  cipher : String
  nonce : String
  ciphertext : String
  deriving DecidableEq

namespace KdfHeader

def toJson (kdf : KdfHeader) : Json :=
  .obj [("algorithm", .str kdf.algorithm), ("version", .num kdf.version.toNat),
    ("memory_kib", .num kdf.memoryKib.toNat),
    ("iterations", .num kdf.iterations.toNat), ("parallelism", .num kdf.parallelism.toNat), ("salt", .str kdf.salt)]

def ofJson (j : Json) : Option KdfHeader := do
  let members ← j.fields ["algorithm", "version", "memory_kib", "iterations", "parallelism", "salt"]
  let algorithm ← (Json.required "algorithm" members).bind Json.asString
  let version ← (Json.required "version" members).bind Json.asU32
  let memoryKib ← (Json.required "memory_kib" members).bind Json.asU32
  let iterations ← (Json.required "iterations" members).bind Json.asU32
  let parallelism ← (Json.required "parallelism" members).bind Json.asU32
  let salt ← (Json.required "salt" members).bind Json.asString
  return ⟨algorithm, version, memoryKib, iterations, parallelism, salt⟩

@[simp] theorem ofJson_toJson (kdf : KdfHeader) : ofJson kdf.toJson = some kdf := by
  simp [ofJson, toJson, Json.fields, Json.required]

end KdfHeader

namespace SealedVault

def toJson (s : SealedVault) : Json :=
  .obj [("version", .num s.version.toNat), ("kdf", s.kdf.toJson), ("cipher", .str s.cipher), ("nonce", .str s.nonce),
    ("ciphertext", .str s.ciphertext)]

def ofJson (j : Json) : Option SealedVault := do
  let members ← j.fields ["version", "kdf", "cipher", "nonce", "ciphertext"]
  let version ← (Json.required "version" members).bind Json.asU32
  let kdf ← (Json.required "kdf" members).bind KdfHeader.ofJson
  let cipher ← (Json.required "cipher" members).bind Json.asString
  let nonce ← (Json.required "nonce" members).bind Json.asString
  let ciphertext ← (Json.required "ciphertext" members).bind Json.asString
  return ⟨version, kdf, cipher, nonce, ciphertext⟩

@[simp] theorem ofJson_toJson (s : SealedVault) : ofJson s.toJson = some s := by
  simp [ofJson, toJson, Json.fields, Json.required]

end SealedVault

def pushStr (buf : List UInt8) (value : String) : List UInt8 :=
  buf ++ u64Le (asBytes value).length.toUInt64 ++ asBytes value

/-- The bytes the cipher authenticates but does not encrypt. -/
def associatedData (version : UInt32) (kdf : KdfHeader) (cipher : String) : List UInt8 :=
  let buf := aadContext ++ u32Le version
  let buf := pushStr buf kdf.algorithm
  let buf := buf ++ u32Le kdf.version ++ u32Le kdf.memoryKib ++ u32Le kdf.iterations ++ u32Le kdf.parallelism
  let buf := pushStr buf kdf.salt
  pushStr buf cipher

theorem split_field {a a' b b' : List UInt8} (h : a ++ b = a' ++ b') (hlen : a.length = a'.length) : a = a' ∧ b = b' :=
  List.append_inj h hlen

theorem u32Le_inj {m n : UInt32} (h : u32Le m = u32Le n) : m = n := by
  rw [← fromLe_u32Le m, h, fromLe_u32Le]

/-- Under one algorithm and one cipher, the version and the header can be read back. -/
theorem associatedData_inj {version version' : UInt32} {kdf kdf' : KdfHeader} {cipher : String}
    (halgorithm : kdf.algorithm = kdf'.algorithm)
    (h : associatedData version kdf cipher = associatedData version' kdf' cipher) : version = version' ∧
    kdf = kdf' := by
  simp only [associatedData, pushStr, List.append_assoc, halgorithm] at h
  obtain ⟨-, h⟩ := split_field h rfl
  obtain ⟨hversion, h⟩ := split_field h rfl
  obtain ⟨-, h⟩ := split_field h rfl
  obtain ⟨-, h⟩ := split_field h rfl
  obtain ⟨hkdfVersion, h⟩ := split_field h rfl
  obtain ⟨hmemory, h⟩ := split_field h rfl
  obtain ⟨hiterations, h⟩ := split_field h rfl
  obtain ⟨hparallelism, h⟩ := split_field h rfl
  obtain ⟨-, h⟩ := split_field h rfl
  have hsalt := asBytes_inj (List.append_cancel_right h)
  refine ⟨u32Le_inj hversion, ?_⟩
  cases kdf
  cases kdf'
  simp only [KdfHeader.mk.injEq]
  exact ⟨halgorithm, u32Le_inj hkdfVersion, u32Le_inj hmemory, u32Le_inj hiterations, u32Le_inj hparallelism, hsalt⟩

structure VaultKey where
  key : SymmetricKey
  header : KdfHeader
  deriving DecidableEq

namespace VaultKey
variable (c : Crates)

/-- Re-derive using the parameters a file recorded. -/
def derive (passphrase : String) (header : KdfHeader) : Except SealError VaultKey :=
  if header.algorithm ≠ argon2id then .error (.unsupportedKdf header.algorithm)
  else if header.version ≠ argon2Version then .error (.badParams s!"argon2 version {header.version}")
  else if header.memoryKib > maxMemoryKib then
    .error (.badParams s!"{header.memoryKib} KiB of memory is beyond the {maxMemoryKib} KiB this build will allocate")
  else
    match c.base64Decode header.salt with
    | none => .error .badEncoding
    | some salt =>
      if salt.length < minSaltLen then .error (.badParams s!"a {salt.length}-byte salt is too short")
      else
        match c.argon2 header.memoryKib header.iterations header.parallelism (asBytes passphrase) salt with
        | .error e => .error (.badParams e)
        | .ok key => .ok ⟨key, header⟩

/-- Derive from a passphrase with a salt drawn for it and this build's parameters. -/
def fresh (passphrase : String) (salt : Vector UInt8 16) : Except SealError VaultKey :=
  derive c passphrase
    ⟨argon2id, argon2Version, defaultMemoryKib, defaultIterations, defaultParallelism, c.base64Encode salt.toList⟩

/-- Encrypt a vault document under a nonce drawn for it. -/
def «seal» (key : VaultKey) (nonce : Vector UInt8 24) (plaintext : List UInt8) : Except SealError SealedVault :=
  match c.encrypt key.key nonce (associatedData sealedVersion key.header xchacha20Poly1305) plaintext with
  | none => .error .unauthentic
  | some ciphertext =>
    .ok ⟨sealedVersion, key.header, xchacha20Poly1305, c.base64Encode nonce.toList, c.base64Encode ciphertext⟩

def readNonce (nonce : String) : Option (Vector UInt8 24) :=
  (c.base64Decode nonce).bind fun bytes => if h : bytes.toArray.size = 24 then some ⟨bytes.toArray, h⟩ else none

def «open» (key : VaultKey) (sealed : SealedVault) : Except SealError (List UInt8) :=
  if sealed.cipher ≠ xchacha20Poly1305 then .error (.unsupportedCipher sealed.cipher)
  else
    match readNonce c sealed.nonce with
    | none => .error .badEncoding
    | some nonce =>
      match c.base64Decode sealed.ciphertext with
      | none => .error .badEncoding
      | some ciphertext =>
        match c.decrypt key.key nonce (associatedData sealed.version sealed.kdf sealed.cipher) ciphertext with
        | none => .error .unauthentic
        | some plaintext => .ok plaintext

theorem derive_ok {passphrase : String} {header : KdfHeader} {key : VaultKey}
    (h : derive c passphrase header = .ok key) :
    key.header = header ∧ header.algorithm = argon2id := by
  unfold derive at h
  split at h
  · cases h
  · rename_i halgorithm
    split at h
    · cases h
    · split at h
      · cases h
      · split at h
        · cases h
        · split at h
          · cases h
          · split at h
            · cases h
            · cases h
              exact ⟨rfl, not_not.mp halgorithm⟩

theorem open_ok {key : VaultKey} {sealed : SealedVault} {plaintext : List UInt8}
    (h : key.open c sealed = .ok plaintext) :
    sealed.cipher = xchacha20Poly1305 ∧ ∃ nonce ciphertext, readNonce c sealed.nonce = some nonce ∧
      c.base64Decode sealed.ciphertext = some ciphertext ∧
      c.decrypt key.key nonce (associatedData sealed.version sealed.kdf sealed.cipher) ciphertext = some plaintext := by
  unfold VaultKey.open at h
  split at h
  · cases h
  · rename_i hcipher
    split at h
    · cases h
    · rename_i nonce hnonce
      split at h
      · cases h
      · rename_i ciphertext hciphertext
        split at h
        · cases h
        · rename_i hdecrypt
          cases h
          exact ⟨not_not.mp hcipher, nonce, ciphertext, hnonce, hciphertext, hdecrypt⟩

theorem seal_ok {key : VaultKey} {nonce : Vector UInt8 24} {plaintext : List UInt8} {sealed : SealedVault}
    (h : key.seal c nonce plaintext = .ok sealed) : ∃ ciphertext,
      c.encrypt key.key nonce (associatedData sealedVersion key.header xchacha20Poly1305) plaintext = some ciphertext ∧
      sealed = ⟨sealedVersion, key.header, xchacha20Poly1305, c.base64Encode nonce.toList,
        c.base64Encode ciphertext⟩ := by
  unfold VaultKey.seal at h
  split at h
  · cases h
  · rename_i ciphertext hencrypt
    cases h
    exact ⟨ciphertext, hencrypt, rfl⟩

end VaultKey

end PickleChat
