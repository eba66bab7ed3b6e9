import PickleChat.Lib.Files
import PickleChat.Vault

/-!
# Key files

`pickle-identity/src/keystore.rs`, on a disk: how a file of keys is read and
written, and where it is written before it takes its name.
-/

namespace PickleChat

open Files

/-! ## Paths -/

/-- A path from its last character on, without the slashes and dots at its end that name nothing. -/
def trimTail : List Char → List Char
  | '/' :: rest => trimTail rest
  | '.' :: '/' :: rest => trimTail rest
  | rest => rest

def fileName (path : String) : Option String :=
  let name := String.ofList ((trimTail path.toList.reverse).takeWhile (· ≠ '/')).reverse
  if name ∈ ["", ".", ".."] then none else some name

/-- `Path::file_stem` of a file name: all before the last dot, unless nothing else is. -/
def fileStem (name : String) : String :=
  match name.toList.reverse.dropWhile (· ≠ '.') with
  | '.' :: before :: rest => String.ofList (before :: rest).reverse
  | _ => name

def withExtension (path extension : String) : String :=
  match fileName path with
  | none => path
  | some name =>
    let parent := String.ofList ((trimTail path.toList.reverse).dropWhile (· ≠ '/')).reverse
    parent ++ fileStem name ++ "." ++ extension

example : withExtension "data/me.v1.json" "tmp" = "data/me.v1.tmp" ∧ withExtension ".key" "tmp" = ".key.tmp" ∧
    withExtension "data/.." "tmp" = "data/.." := by
  decide +kernel

def tmpSuffix : String := "tmp"

/-! ## Reading and writing -/

/-- `check_permissions`, of a file that is there. -/
def checkPermissions (path : String) (file : File) (fault : Option ReadFault) : Except KeystoreError Unit :=
  if fault = some .metadata then .error (.io path)
  else
    let mode := file.mode &&& 0o777
    if mode &&& 0o077 ≠ 0 then .error (.permissionsTooOpen path mode) else .ok ()

theorem checkPermissions_owned {path : String} {file : File} (h : file.Owned) :
    checkPermissions path file none = .ok () := by
  have hmode : file.mode &&& 0o777 &&& 0o077 = 0 := by
    rw [UInt32.and_assoc]
    exact h
  simp [checkPermissions, hmode]

theorem owned_of_checkPermissions {path : String} {file : File} {fault : Option ReadFault}
    (h : checkPermissions path file fault = .ok ()) : file.Owned := by
  unfold checkPermissions at h
  split at h
  · cases h
  · by_cases hmode : file.mode &&& 0o777 &&& 0o077 = 0
    · rw [UInt32.and_assoc] at hmode
      exact hmode
    · simp [hmode] at h

/-- Whether a file under this path can be opened: a path that ends in a directory names none. -/
def writeFault (path : String) (fault : Option WriteFault) : Option WriteFault :=
  if fileName path = none then some .opening else fault

/-- `create_private`, and what is written to the file it opens. -/
def writePrivate (umask : UInt32) (d : Disk String) (path : String) (bytes : List UInt8) (fault : Option WriteFault) :
    Bool × Disk String :=
  ((writeFault path fault).isNone, d.overwrite umask 0o600 path bytes (writeFault path fault))

/-! ## The keystore -/

def keystoreVersion : UInt32 := 1

structure LoadedIdentity where
  identity : SecretIdentity
  nickname : String
  deriving DecidableEq

structure StoredIdentity where
  version : UInt32
  secretKey : String
  counter : UInt64
  nickname : String
  deriving DecidableEq

namespace StoredIdentity

def toJson (stored : StoredIdentity) : Json :=
  .obj [("version", .num stored.version.toNat), ("secret_key", .str stored.secretKey),
    ("counter", .num stored.counter.toNat), ("nickname", .str stored.nickname)]

def ofJson (j : Json) : Option StoredIdentity := do
  let members ← j.fields ["version", "secret_key", "counter", "nickname"]
  let version ← (Json.required "version" members).bind Json.asU32
  let secretKey ← (Json.required "secret_key" members).bind Json.asString
  let counter ← (Json.required "counter" members).bind Json.asU64
  let nickname ← (Json.required "nickname" members).bind Json.asString
  return ⟨version, secretKey, counter, nickname⟩

@[simp] theorem ofJson_toJson (stored : StoredIdentity) : ofJson stored.toJson = some stored := by
  simp [ofJson, toJson, Json.fields, Json.required]

end StoredIdentity

namespace Keystore

/-- `load`, from where the text has been read and the mode checked. -/
def parse (c : Crates) (path raw : String) : Except KeystoreError LoadedIdentity :=
  match (c.parseJson raw).bind StoredIdentity.ofJson with
  | none => .error (.malformed path)
  | some stored =>
    if stored.version ≠ keystoreVersion then .error (.unsupportedVersion path stored.version keystoreVersion)
    else
      match c.base64Decode stored.secretKey with
      | none => .error (.badKey path)
      | some bytes =>
        if h : bytes.toArray.size = 32 then .ok ⟨⟨⟨bytes.toArray, h⟩, stored.counter⟩, stored.nickname⟩
        else .error (.badKey path)

def load (c : Crates) (d : Disk String) (path : String) (fault : Option ReadFault) :
    Except KeystoreError LoadedIdentity :=
  match d path with
  | none => .error (.io path)
  | some file =>
    match if fault = some .reading then none else readToString file.bytes with
    | none => .error (.io path)
    | some raw => do
      checkPermissions path file fault
      parse c path raw

/-- The text of the file, with its last line break. -/
def encode (c : Crates) (identity : SecretIdentity) (nickname : String) : String :=
  let stored : StoredIdentity :=
    { version := keystoreVersion
      secretKey := c.base64Encode identity.secret.toList
      counter := identity.counter
      nickname }
  c.printJson stored.toJson ++ "\n"

def save (c : Crates) (umask : UInt32) (d : Disk String) (path : String) (identity : SecretIdentity) (nickname : String)
    (written : Option WriteFault) (renamed : Bool) : Except KeystoreError Unit × Disk String :=
  let tmp := withExtension path tmpSuffix
  let (done, d) := writePrivate umask d tmp (asBytes (encode c identity nickname)) written
  if !done then (.error (.io path), d)
  else if !renamed then (.error (.io path), d)
  else (.ok (), d.rename tmp path)

theorem parse_permissions (c : Crates) (path raw path' : String) (mode : UInt32) :
    parse c path raw ≠ .error (.permissionsTooOpen path' mode) := by
  unfold parse
  repeat' split
  all_goals simp

end Keystore

end PickleChat
