import PickleChat.Proto

/-!
# What identities sign

A client signs the greeting's nonce and the certificate of the connection; a
server signs the same two with its name in its greeting. Both are byte strings
under a context of their own, from which all that went in can be read back.
Signatures are ideal here: one is its signer and what it signed. SHA-256 is a
parameter.
-/

namespace PickleChat

abbrev Nonce := Vector UInt8 32

abbrev CertHash := Vector UInt8 32

abbrev VerifyingKey := Vector UInt8 32

structure Signature where
  signer : VerifyingKey
  message : List UInt8
  deriving DecidableEq

def asciiBytes (s : String) : List UInt8 := s.toList.map fun c => c.toNat.toUInt8

def authContext : List UInt8 := asciiBytes "pickle-auth-v1"

def serverHelloContext : List UInt8 := asciiBytes "pickle-server-hello-v1"

def powContext : List UInt8 := asciiBytes "pickle-identity-pow-v1"

def u64Le (n : UInt64) : List UInt8 :=
  [n.toUInt8, (n >>> 8).toUInt8, (n >>> 16).toUInt8, (n >>> 24).toUInt8, (n >>> 32).toUInt8, (n >>> 40).toUInt8,
    (n >>> 48).toUInt8, (n >>> 56).toUInt8]

def asBytes (s : String) : List UInt8 := s.toByteArray.data.toList

def authChallenge (nonce : Nonce) (serverCertHash : CertHash) : List UInt8 :=
  authContext ++ nonce.toList ++ serverCertHash.toList

def serverHelloChallenge (nonce : Nonce) (serverCertHash : CertHash) (serverName : String) : List UInt8 :=
  serverHelloContext ++ nonce.toList ++ serverCertHash.toList ++ u64Le (asBytes serverName).length.toUInt64 ++
    asBytes serverName

/-! ## Reading a challenge back -/

theorem asBytes_inj {s t : String} (h : asBytes s = asBytes t) : s = t :=
  String.toByteArray_inj.mp (ByteArray.ext (Array.toList_inj.mp h))

theorem fields_inj {context rest rest' : List UInt8} {a a' b b' : Vector UInt8 32}
    (h : context ++ a.toList ++ b.toList ++ rest = context ++ a'.toList ++ b'.toList ++ rest') :
    a = a' ∧ b = b' ∧ rest = rest' := by
  obtain ⟨hab, hrest⟩ := List.append_inj h (by simp)
  obtain ⟨ha, hb⟩ := List.append_inj hab (by simp)
  exact ⟨Vector.toList_inj.mp (List.append_cancel_left ha), Vector.toList_inj.mp hb, hrest⟩

theorem authChallenge_inj {nonce nonce' : Nonce} {h h' : CertHash}
    (he : authChallenge nonce h = authChallenge nonce' h') :
    nonce = nonce' ∧ h = h' := by
  have he : authContext ++ nonce.toList ++ h.toList ++ [] = authContext ++ nonce'.toList ++ h'.toList ++ [] :=
    congrArg (· ++ []) he
  obtain ⟨hnonce, hhash, -⟩ := fields_inj he
  exact ⟨hnonce, hhash⟩

theorem serverHelloChallenge_inj {nonce nonce' : Nonce} {h h' : CertHash} {name name' : String}
    (he : serverHelloChallenge nonce h name = serverHelloChallenge nonce' h' name') :
    nonce = nonce' ∧ h = h' ∧ name = name' := by
  unfold serverHelloChallenge at he
  rw [List.append_assoc _ (u64Le _), List.append_assoc _ (u64Le _)] at he
  obtain ⟨hnonce, hhash, hrest⟩ := fields_inj he
  exact ⟨hnonce, hhash, asBytes_inj (List.append_inj_right hrest rfl)⟩

theorem authChallenge_ne_serverHelloChallenge {nonce nonce' : Nonce} {h h' : CertHash} {name : String} :
    authChallenge nonce h ≠ serverHelloChallenge nonce' h' name := by
  intro he
  have hlen := congrArg List.length he
  have hauth : authContext.length = 14 := by decide
  have hhello : serverHelloContext.length = 22 := by decide
  simp only [authChallenge, serverHelloChallenge, List.length_append, Vector.length_toList, hauth, hhello] at hlen
  omega

/-! ## Identities -/

/-- The public half as it travels. -/
structure WireIdentity where
  key : VerifyingKey
  counter : UInt64
  deriving DecidableEq

def WireIdentity.verifyAuth (identity : WireIdentity) (nonce : Nonce) (serverCertHash : CertHash)
    (signature : Signature) : Bool := signature = ⟨identity.key, authChallenge nonce serverCertHash⟩

def WireIdentity.verifyServerHello (identity : WireIdentity) (nonce : Nonce) (serverCertHash : CertHash)
    (serverName : String) (signature : Signature) : Bool :=
  signature = ⟨identity.key, serverHelloChallenge nonce serverCertHash serverName⟩

/-- A full identity, by its public half: the secret does nothing but sign. -/
structure Identity where
  publicHalf : WireIdentity
  deriving DecidableEq

namespace Identity

def signAuth (identity : Identity) (nonce : Nonce) (serverCertHash : CertHash) : Signature :=
  ⟨identity.publicHalf.key, authChallenge nonce serverCertHash⟩

def signServerHello (identity : Identity) (nonce : Nonce) (serverCertHash : CertHash) (serverName : String) :
    Signature :=
  ⟨identity.publicHalf.key, serverHelloChallenge nonce serverCertHash serverName⟩

end Identity

section
variable (sha256 : List UInt8 → Vector UInt8 32)

def Fingerprint.of (key : VerifyingKey) : Fingerprint := ⟨(sha256 key.toList).toList, Vector.length_toList⟩

def leadingZeroBits : List UInt8 → Nat
  | [] => 0
  | byte :: digest => if byte = 0 then 8 + leadingZeroBits digest else 8 - (byte.toNat.log2 + 1)

def securityLevel (publicKey : VerifyingKey) (counter : UInt64) : UInt32 :=
  (leadingZeroBits (sha256 (powContext ++ publicKey.toList ++ u64Le counter)).toList).toUInt32

/-- What the server reads off it. -/
def WireIdentity.read (identity : WireIdentity) : PublicIdentity :=
  ⟨Fingerprint.of sha256 identity.key, securityLevel sha256 identity.key identity.counter⟩

end

end PickleChat
