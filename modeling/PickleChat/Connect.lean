import PickleChat.Session
import PickleChat.Signatures

/-!
# Connecting

The client's side of the handshake: it pins the identities of servers, checks
the greeting against the certificate of the connection and signs both. What the
transport does is left out, and so is writing the pins to disk, whose failure
is ignored.
-/

namespace PickleChat

structure TrustedServer where
  fingerprint : Fingerprint
  name : String
  firstSeenUnixMs : UInt64
  lastSeenUnixMs : UInt64
  deriving DecidableEq

inductive TrustDecision where
  | firstContact (fingerprint : Fingerprint)
  | recognised
  | changed (expected actual : Fingerprint)
  deriving DecidableEq

structure TrustStore where
  servers : List (String × TrustedServer)
  deriving DecidableEq

namespace TrustStore

def get (store : TrustStore) (address : String) : Option TrustedServer :=
  (Keyed.get Prod.fst address store.servers).map Prod.snd

def check (store : TrustStore) (address : String) (fingerprint : Fingerprint) : TrustDecision :=
  match store.get address with
  | none => .firstContact fingerprint
  | some known => if known.fingerprint = fingerprint then .recognised else .changed known.fingerprint fingerprint

def trust (store : TrustStore) (now : UInt64) (address : String) (fingerprint : Fingerprint) (name : String) :
    TrustStore :=
  let entry := (store.get address).getD ⟨fingerprint, name, now, now⟩
  ⟨Keyed.put Prod.fst (address, { entry with fingerprint, name, lastSeenUnixMs := now }) store.servers⟩

def forget (store : TrustStore) (address : String) : TrustStore := ⟨Keyed.erase Prod.fst address store.servers⟩

end TrustStore

inductive TrustPolicy where
  | onFirstUse
  | strict
  | insecure
  deriving DecidableEq

inductive RejectionReason where
  | protocolMismatch (serverVersion : UInt16)
  | securityLevelTooLow (required provided : UInt32)
  | badSignature
  | passwordRequired
  | badPassword
  | banned (reason : String)
  | serverFull
  | nicknameRejected (reason : String)
  deriving DecidableEq

def AuthFailure.reason : AuthFailure → RejectionReason
  | .protocolMismatch serverVersion => .protocolMismatch serverVersion
  | .securityLevelTooLow required provided => .securityLevelTooLow required provided
  | .badSignature => .badSignature
  | .passwordRequired => .passwordRequired
  | .badPassword => .badPassword
  | .banned reason _ => .banned reason
  | .serverFull => .serverFull
  | .nicknameRejected reason => .nicknameRejected reason

inductive ConnectError where
  | unexpectedGreeting (what : String)
  | protocolMismatch (ours theirs : UInt16)
  | noPeerCertificate
  | forgedGreeting (fingerprint : Fingerprint)
  | identityChanged (address : String) (expected actual : Fingerprint)
  | notTrusted (address : String) (fingerprint : Fingerprint)
  | rejected (reason : RejectionReason)
  deriving DecidableEq

def applyTrustPolicy (store : TrustStore) (now : UInt64) (policy : TrustPolicy) (address legacyKey : String)
    (fingerprint : Fingerprint) (serverName : String) : Except ConnectError TrustStore :=
  if policy = .insecure then .ok store else
  match store.check address fingerprint with
  | .recognised => .ok store
  | .firstContact fingerprint =>
    -- Pins used to be filed under the resolved address.
    if legacyKey ≠ address ∧ store.check legacyKey fingerprint = .recognised then
      .ok ((store.trust now address fingerprint serverName).forget legacyKey)
    else if policy = .strict then .error (.notTrusted address fingerprint)
    else .ok (store.trust now address fingerprint serverName)
  | .changed expected actual => .error (.identityChanged address expected actual)

/-! ## The frames of the handshake -/

structure ServerHello where
  protocolVersion : UInt16
  serverName : String
  serverIdentity : WireIdentity
  nonce : Nonce
  minSecurityLevel : UInt32
  requiresPassword : Bool
  signature : Signature
  deriving DecidableEq

/-- `ClientAuth` as it travels. -/
structure WireAuth where
  protocolVersion : UInt16
  identity : WireIdentity
  nickname : String
  password : Option String
  clientVersion : String
  signature : Signature
  deriving DecidableEq

/-- What a client may read: the greeting, or any other frame. -/
inductive Inbound where
  | hello (hello : ServerHello)
  | control (m : ServerControl)
  deriving DecidableEq

def Inbound.describe : Inbound → String
  | .hello _ => "Hello"
  | .control (.authOk _) => "AuthOk"
  | .control (.authFailed _) => "AuthFailed"
  | .control (.error _ _) => "Error"
  | .control _ => "an unexpected message"

structure ConnectOptions where
  address : String
  nickname : String
  password : Option String
  trust : TrustPolicy
  serverKey : Option String
  deriving DecidableEq

structure SessionInfo where
  clientId : ClientId
  serverName : String
  serverIdentity : WireIdentity
  channels : List Channel
  users : List UserInfo
  roles : List Role
  defaultChannel : Option ChannelId
  limits : ServerLimits
  deriving DecidableEq

def clientVersion : String := "0.1.0"

section
variable (sha256 : List UInt8 → Vector UInt8 32)

/-- The certificates the transport hands over, each as its DER bytes. -/
def peerCertificateHash (certificates : List (List UInt8)) : Except ConnectError CertHash :=
  match certificates with
  | [] => .error .noPeerCertificate
  | endEntity :: _ => .ok (sha256 endEntity)

/-- `connect` from the greeting to the reply: the checks, the pin and the signature. -/
def answerGreeting (options : ConnectOptions) (identity : Identity) (trustStore : TrustStore) (now : UInt64)
    (certificates : List (List UInt8)) (greeting : Inbound) :
    Except ConnectError (ServerHello × WireAuth × TrustStore) := do
  let certHash ← peerCertificateHash sha256 certificates
  match greeting with
  | .control m => .error (.unexpectedGreeting (Inbound.control m).describe)
  | .hello hello =>
    if hello.protocolVersion ≠ protocolVersion
      then .error (.protocolMismatch protocolVersion hello.protocolVersion) else
    let fingerprint := Fingerprint.of sha256 hello.serverIdentity.key
    if hello.serverIdentity.verifyServerHello hello.nonce certHash hello.serverName hello.signature = false then
      .error (.forgedGreeting fingerprint)
    else
      let addressKey := options.serverKey.getD options.address
      let trustStore ←
        applyTrustPolicy trustStore now options.trust addressKey options.address fingerprint hello.serverName
      let auth : WireAuth :=
        { protocolVersion := protocolVersion, identity := identity.publicHalf, nickname := options.nickname,
          password := options.password, clientVersion := clientVersion, signature :=
            identity.signAuth hello.nonce certHash }
      .ok (hello, auth, trustStore)

end

/-- The end of `connect`. -/
def readVerdict (hello : ServerHello) : Inbound → Except ConnectError SessionInfo
  | .control (.authOk ok) => .ok
    { clientId := ok.clientId, serverName := hello.serverName, serverIdentity := hello.serverIdentity,
      channels := ok.channels, users := ok.users, roles := ok.roles, defaultChannel := ok.defaultChannel, limits := ok.limits }
  | .control (.authFailed failure) => .error (.rejected failure.reason)
  | other => .error (.unexpectedGreeting other.describe)

/-- `ClientAuth` as the session of a server with this certificate and nonce reads it. -/
def WireAuth.read (sha256 : List UInt8 → Vector UInt8 32) (nonce : Nonce) (certHash : CertHash) (auth : WireAuth) :
    ClientAuth :=
  { protocolVersion := auth.protocolVersion, identity := auth.identity.read sha256, nickname := auth.nickname,
    password := auth.password, signatureOk := auth.identity.verifyAuth nonce certHash auth.signature }

/-! ## What a reply says -/

section
variable {sha256 : List UInt8 → Vector UInt8 32}

/-- A client that answers has checked the greeting against its connection, and
signs the nonce it read with the certificate of its connection. -/
theorem answerGreeting_ok {options : ConnectOptions} {identity : Identity} {store store' : TrustStore} {now : UInt64}
    {certificates : List (List UInt8)} {greeting : Inbound} {hello : ServerHello} {auth : WireAuth}
    (h : answerGreeting sha256 options identity store now certificates greeting = .ok (hello, auth, store')) :
    ∃ certHash, peerCertificateHash sha256 certificates = .ok certHash ∧ greeting = .hello hello ∧
      hello.serverIdentity.verifyServerHello hello.nonce certHash hello.serverName hello.signature = true ∧
      auth.identity = identity.publicHalf ∧ auth.signature = identity.signAuth hello.nonce certHash := by
  unfold answerGreeting at h
  cases hcert : peerCertificateHash sha256 certificates with
  | error e =>
    rw [hcert] at h
    cases h
  | ok certHash =>
    rw [hcert] at h
    cases greeting with
    | control m => cases h
    | hello hello' =>
      simp only [bind, Except.bind] at h
      split at h; · cases h
      split at h; · cases h
      rename_i hverify
      split at h; · cases h
      cases h
      exact ⟨certHash, rfl, rfl, by simpa using hverify, rfl, rfl⟩

theorem readVerdict_ok {hello : ServerHello} {verdict : Inbound} {info : SessionInfo}
    (h : readVerdict hello verdict = .ok info) :
    info.serverName = hello.serverName ∧ info.serverIdentity = hello.serverIdentity ∧
      ∃ ok, verdict = .control (.authOk ok) := by
  unfold readVerdict at h
  split at h
  · cases h
    exact ⟨rfl, rfl, _, rfl⟩
  · cases h
  · cases h

theorem signatureOk_of_verifyAuth {s : Shared} {auth : ClientAuth} (h : verifyAuth s auth = .ok ()) :
    auth.signatureOk = true := by
  unfold verifyAuth at h
  split at h; · cases h
  dsimp only at h
  cases hok : auth.signatureOk with
  | true => rfl
  | false =>
    simp only [hok, Bool.false_eq_true, if_false] at h
    split at h
    · cases h
    · split at h
      · cases h
      · split at h <;> cases h

end

end PickleChat
