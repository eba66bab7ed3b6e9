import PickleChat.Connect
import PickleChat.Lib.Run

/-!
# Agreement

Any number of clients and servers that run this program, on a network the
attacker owns, with hostile servers and keys of the attacker's among them. A
login that a server accepts was signed by its client on this very connection,
and a client that connects got its greeting from the holder of the key it sees.
-/

namespace PickleChat

open Async (Run)

/-- A server that runs this program. -/
structure Host where
  identity : Identity
  config : ServerConfig
  name : String
  certificate : List UInt8

/-- The arguments of a `connect`. -/
structure Caller where
  options : ConnectOptions
  identity : Identity
  trustStore : TrustStore

/-- One connection. Without a caller the attacker opened it; without a host it
ends at the attacker. -/
structure Exchange where
  caller : Option Caller
  host : Option Host
  certificates : List (List UInt8)
  /-- The nonce of the host's greeting. -/
  nonce : Option Nonce := none
  /-- The greeting the caller has checked, and its reply. -/
  answer : Option (ServerHello × WireAuth) := none
  /-- The login that has passed the host's checks. -/
  accepted : Option WireAuth := none
  /-- What `connect` has returned. -/
  session : Option SessionInfo := none

/-- All connections so far, and every signature made. -/
structure Network where
  exchanges : Nat → Option Exchange
  signed : Signature → Prop

/-- SHA-256, the servers that run this program, and the keys nothing but this
program signs with. -/
structure Setting where
  sha256 : List UInt8 → Vector UInt8 32
  hosts : Host → Prop
  ours : VerifyingKey → Prop

/-- `ServerHello` as the handshake writes it. -/
def Host.hello (sha256 : List UInt8 → Vector UInt8 32) (host : Host) (nonce : Nonce) : ServerHello :=
  { protocolVersion := protocolVersion, serverName := host.name, serverIdentity := host.identity.publicHalf, nonce,
    minSecurityLevel := host.config.minSecurityLevel, requiresPassword := host.config.password.isSome,
    signature := host.identity.signServerHello nonce (sha256 host.certificate) host.name }

inductive Deed where
  | dial (i : Nat) (caller : Option Caller) (host : Host)
  | intercept (i : Nat) (caller : Caller) (certificates : List (List UInt8))
  | greet (i : Nat) (nonce : Nonce)
  | answer (i : Nat) (greeting : Inbound) (now : UInt64)
  | check (i : Nat) (auth : WireAuth)
  | finish (i : Nat) (verdict : Inbound)
  | sign (signature : Signature)

namespace Network

def start : Network := ⟨fun _ => none, fun _ => False⟩

def set (w : Network) (i : Nat) (c : Exchange) : Network :=
  { w with exchanges := fun j => if j = i then some c else w.exchanges j }

def sign (w : Network) (signature : Signature) : Network :=
  { w with signed := fun s => w.signed s ∨ s = signature }

/-- What may reach the caller as a greeting: the host's, or whatever the
attacker can put together of the signatures there are. -/
def Greets (S : Setting) (w : Network) (c : Exchange) : Inbound → Prop
  | .hello hello => match c.host with
    | some host => ∃ nonce, c.nonce = some nonce ∧ hello = host.hello S.sha256 nonce
    | none => w.signed hello.signature
  | .control _ => c.host = none

/-- What may reach the host as a login. -/
def Logs (w : Network) (c : Exchange) (auth : WireAuth) : Prop :=
  match c.caller with
  | some _ => ∃ hello, c.answer = some (hello, auth)
  | none => w.signed auth.signature

inductive Step (S : Setting) (w : Network) : Deed → Network → Prop
  | dial {i caller host} : w.exchanges i = none → S.hosts host →
      Step S w (.dial i caller host) (w.set i { caller, host := some host, certificates := [host.certificate] })
  -- Only the holder of a certificate's key ends a connection that presents it.
  | intercept {i caller certificates} : w.exchanges i = none →
      (∀ host, S.hosts host → certificates.head? ≠ some host.certificate) →
      Step S w (.intercept i caller certificates) (w.set i { caller := some caller, host := none, certificates })
  | greet {i c host nonce} : w.exchanges i = some c → c.host = some host → c.nonce = none →
      Step S w (.greet i nonce) ((w.set i { c with nonce := some nonce }).sign
        (host.identity.signServerHello nonce (S.sha256 host.certificate) host.name))
  | answer {i c caller greeting now hello auth store} : w.exchanges i = some c → c.caller = some caller →
      c.answer = none → w.Greets S c greeting →
      answerGreeting S.sha256 caller.options caller.identity caller.trustStore now c.certificates greeting =
        .ok (hello, auth, store) →
      Step S w (.answer i greeting now) ((w.set i { c with answer := some (hello, auth) }).sign auth.signature)
  | check {i c host nonce auth} (s : Shared) : w.exchanges i = some c → c.host = some host → c.nonce = some nonce →
      c.accepted = none → w.Logs c auth → s.config = host.config →
      verifyAuth s (auth.read S.sha256 nonce (S.sha256 host.certificate)) = .ok () →
      Step S w (.check i auth) (w.set i { c with accepted := some auth })
  | finish {i c hello auth verdict info} : w.exchanges i = some c → c.answer = some (hello, auth) → c.session = none →
      (c.host ≠ none → c.accepted ≠ none) → readVerdict hello verdict = .ok info →
      Step S w (.finish i verdict) (w.set i { c with session := some info })
  | sign {signature} : ¬ S.ours signature.signer → Step S w (.sign signature) (w.sign signature)

end Network

/-- Nonces are fresh, and no certificate has the hash of another. -/
def Ideal (S : Setting) (w : Network) : Deed → Prop
  | .greet _ nonce => ∀ i c, w.exchanges i = some c → c.nonce ≠ some nonce
  | .intercept _ _ certificates => ∀ host, S.hosts host → ∀ certificate, certificates.head? = some certificate →
      S.sha256 certificate = S.sha256 host.certificate → certificate = host.certificate
  | _ => True

/-! ## What holds of every connection -/

structure Exchange.Sound (S : Setting) (signed : Signature → Prop) (c : Exchange) : Prop where
  held : ∀ host, c.host = some host → S.hosts host ∧ c.certificates = [host.certificate]
  foreign : c.host = none → ∀ host, S.hosts host →
    peerCertificateHash S.sha256 c.certificates ≠ .ok (S.sha256 host.certificate)
  greeted : ∀ host nonce, c.host = some host → c.nonce = some nonce → signed (host.hello S.sha256 nonce).signature
  answered : ∀ hello auth, c.answer = some (hello, auth) → ∃ caller certHash, c.caller = some caller ∧
    peerCertificateHash S.sha256 c.certificates = .ok certHash ∧
    hello.signature = ⟨hello.serverIdentity.key, serverHelloChallenge hello.nonce certHash hello.serverName⟩ ∧
    auth.identity = caller.identity.publicHalf ∧ auth.signature = caller.identity.signAuth hello.nonce certHash ∧
    signed hello.signature ∧ signed auth.signature
  direct : ∀ host hello auth, c.host = some host → c.answer = some (hello, auth) →
    c.nonce = some hello.nonce ∧ hello = host.hello S.sha256 hello.nonce
  checked : ∀ auth, c.accepted = some auth → ∃ host nonce, c.host = some host ∧ c.nonce = some nonce ∧
    auth.signature = ⟨auth.identity.key, authChallenge nonce (S.sha256 host.certificate)⟩ ∧ signed auth.signature
  returned : ∀ info, c.session = some info → ∃ hello auth, c.answer = some (hello, auth) ∧
    info.serverName = hello.serverName ∧ info.serverIdentity = hello.serverIdentity

/-- A signature of a greeting or a login of this program. -/
def Origin (S : Setting) (w : Network) (signature : Signature) : Prop :=
  (∃ i c host nonce, w.exchanges i = some c ∧ c.host = some host ∧ c.nonce = some nonce ∧
    signature = (host.hello S.sha256 nonce).signature) ∨
  ∃ i c hello auth, w.exchanges i = some c ∧ c.answer = some (hello, auth) ∧ signature = auth.signature

structure Network.Sound (S : Setting) (w : Network) : Prop where
  exchanges : ∀ i c, w.exchanges i = some c → c.Sound S w.signed
  origin : ∀ signature, w.signed signature → S.ours signature.signer → Origin S w signature
  fresh : ∀ i j c d nonce, w.exchanges i = some c → w.exchanges j = some d → c.nonce = some nonce →
    d.nonce = some nonce → i = j

section
variable {S : Setting} {w w' : Network} {i : Nat} {c c' : Exchange}

theorem Exchange.Sound.mono {signed signed' : Signature → Prop} (h : c.Sound S signed)
    (hle : ∀ s, signed s → signed' s) :
    c.Sound S signed' where
  held := h.held
  foreign := h.foreign
  greeted host nonce hhost hnonce := hle _ (h.greeted host nonce hhost hnonce)
  answered hello auth ha := by
    obtain ⟨caller, certHash, hcaller, hcert, hhello, hid, hauth, hs, hs'⟩ := h.answered hello auth ha
    exact ⟨caller, certHash, hcaller, hcert, hhello, hid, hauth, hle _ hs, hle _ hs'⟩
  direct := h.direct
  checked auth ha := by
    obtain ⟨host, nonce, hhost, hnonce, hsig, hs⟩ := h.checked auth ha
    exact ⟨host, nonce, hhost, hnonce, hsig, hle _ hs⟩
  returned := h.returned

/-- A connection goes on: what was greeted and answered on it stays. -/
def Exchange.Continues (c c' : Exchange) : Prop :=
  c'.host = c.host ∧ (∀ nonce, c.nonce = some nonce → c'.nonce = some nonce) ∧
    ∀ answer, c.answer = some answer → c'.answer = some answer

theorem Origin.update (hexch : w'.exchanges = (w.set i c').exchanges)
    (hcont : ∀ c, w.exchanges i = some c → c.Continues c')
    {signature : Signature} (h : Origin S w signature) : Origin S w' signature := by
  -- The connection it was made on is still there.
  have stays : ∀ j c, w.exchanges j = some c → ∃ d, w'.exchanges j = some d ∧ c.Continues d := by
    intro j c hj
    rw [hexch]
    by_cases hji : j = i
    · subst hji
      exact ⟨c', if_pos rfl, hcont c hj⟩
    · exact ⟨c, (if_neg hji).trans hj, rfl, fun _ h => h, fun _ h => h⟩
  rcases h with ⟨j, c, host, nonce, hj, hhost, hnonce, rfl⟩ | ⟨j, c, hello, auth, hj, ha, rfl⟩
  · obtain ⟨d, hd, hhost', hnonce', -⟩ := stays j c hj
    exact .inl ⟨j, d, host, nonce, hd, hhost'.trans hhost, hnonce' nonce hnonce, rfl⟩
  · obtain ⟨d, hd, -, -, ha'⟩ := stays j c hj
    exact .inr ⟨j, d, hello, auth, hd, ha' _ ha, rfl⟩

theorem Network.Sound.update (h : w.Sound S) (hexch : w'.exchanges = (w.set i c').exchanges)
    (hmono : ∀ s, w.signed s → w'.signed s) (hnew : ∀ s, w'.signed s → w.signed s ∨ Origin S w' s)
    (hc : c'.Sound S w'.signed) (hcont : ∀ c, w.exchanges i = some c → c.Continues c')
    (hfresh : ∀ nonce, c'.nonce = some nonce → ∀ j d, w.exchanges j = some d → d.nonce = some nonce → j = i) :
    w'.Sound S where
  exchanges j d hd := by
    rw [hexch] at hd
    by_cases hji : j = i
    · cases (if_pos hji).symm.trans hd
      exact hc
    · exact (h.exchanges j d ((if_neg hji).symm.trans hd)).mono hmono
  origin signature hs hours := by
    rcases hnew signature hs with hs | hs
    · exact (h.origin signature hs hours).update hexch hcont
    · exact hs
  fresh j k d e nonce hd he hnd hne := by
    rw [hexch] at hd he
    by_cases hji : j = i <;> by_cases hki : k = i
    · exact hji.trans hki.symm
    · cases (if_pos hji).symm.trans hd
      exact hji.trans (hfresh nonce hnd k e ((if_neg hki).symm.trans he) hne).symm
    · cases (if_pos hki).symm.trans he
      exact (hfresh nonce hne j d ((if_neg hji).symm.trans hd) hnd).trans hki.symm
    · exact h.fresh j k d e nonce ((if_neg hji).symm.trans hd) ((if_neg hki).symm.trans he) hnd hne

theorem Exchange.Sound.new {signed : Signature → Prop} {caller : Option Caller} {host : Option Host}
    {certificates : List (List UInt8)} (hheld : ∀ h, host = some h → S.hosts h ∧ certificates = [h.certificate])
    (hforeign : host = none → ∀ h, S.hosts h →
      peerCertificateHash S.sha256 certificates ≠ .ok (S.sha256 h.certificate)) :
    Exchange.Sound S signed { caller, host, certificates } where
  held := hheld
  foreign := hforeign
  greeted _ _ _ hnonce := by cases hnonce
  answered _ _ ha := by cases ha
  direct _ _ _ _ ha := by cases ha
  checked _ ha := by cases ha
  returned _ hi := by cases hi

theorem Network.Sound.dial (h : w.Sound S) {caller : Option Caller} {host : Option Host}
    {certificates : List (List UInt8)}
    (hnone : w.exchanges i = none) (hheld : ∀ h, host = some h → S.hosts h ∧ certificates = [h.certificate])
    (hforeign : host = none → ∀ h, S.hosts h →
      peerCertificateHash S.sha256 certificates ≠ .ok (S.sha256 h.certificate)) :
    (w.set i { caller, host, certificates }).Sound S := by
  refine h.update rfl (fun _ hs => hs) (fun _ hs => .inl hs) (.new hheld hforeign) ?_ ?_
  · intro c hc
    rw [hnone] at hc
    cases hc
  · intro nonce hn
    cases hn

theorem Network.Sound.greet (h : w.Sound S) {host : Host} {nonce : Nonce} (hc : w.exchanges i = some c)
    (hhost : c.host = some host)
    (hnone : c.nonce = none) (hfresh : ∀ j d, w.exchanges j = some d → d.nonce ≠ some nonce) :
    ((w.set i { c with nonce := some nonce }).sign (host.hello S.sha256 nonce).signature).Sound S := by
  have hold := h.exchanges i c hc
  have hs : c.Sound S (w.sign (host.hello S.sha256 nonce).signature).signed := hold.mono fun _ hs => .inl hs
  refine h.update rfl (fun _ hs => .inl hs) ?_ ⟨hs.held, hs.foreign, ?_, hs.answered, ?_, ?_, hs.returned⟩ ?_ ?_
  · rintro s (hs | rfl)
    · exact .inl hs
    · exact .inr (.inl ⟨i, { c with nonce := some nonce }, host, nonce, if_pos rfl, hhost, rfl, rfl⟩)
  · intro host' nonce' hhost' hnonce'
    cases hhost.symm.trans hhost'
    cases hnonce'
    exact .inr rfl
  -- Nobody has answered a greeting that was not sent, and no login was checked.
  · intro host' hello auth _ ha
    have hd := (hold.direct host hello auth hhost ha).1
    rw [hnone] at hd
    cases hd
  · intro auth ha
    obtain ⟨_, _, -, hn, -⟩ := hold.checked auth ha
    rw [hnone] at hn
    cases hn
  · intro d hd
    cases hc.symm.trans hd
    refine ⟨rfl, fun nonce' hn => ?_, fun _ ha => ha⟩
    rw [hnone] at hn
    cases hn
  · intro nonce' hn j d hj hd
    cases hn
    exact absurd hd (hfresh j d hj)

theorem Network.Sound.signed_of_greets (h : w.Sound S) (hc : w.exchanges i = some c) {hello : ServerHello}
    (hg : w.Greets S c (.hello hello)) : w.signed hello.signature := by
  unfold Network.Greets at hg
  cases hhost : c.host with
  | none =>
    rw [hhost] at hg
    exact hg
  | some host =>
    rw [hhost] at hg
    obtain ⟨nonce, hn, rfl⟩ := hg
    exact (h.exchanges i c hc).greeted host nonce hhost hn

theorem Network.Sound.answer (h : w.Sound S) {caller : Caller} {greeting : Inbound} {now : UInt64} {hello : ServerHello}
    {auth : WireAuth} {store : TrustStore} (hc : w.exchanges i = some c) (hcaller : c.caller = some caller)
    (hnone : c.answer = none)
    (hg : w.Greets S c greeting)
    (hans : answerGreeting S.sha256 caller.options caller.identity caller.trustStore now c.certificates greeting =
      .ok (hello, auth, store)) :
    ((w.set i { c with answer := some (hello, auth) }).sign auth.signature).Sound S := by
  obtain ⟨certHash, hcert, rfl, hverify, hid, hsig⟩ := answerGreeting_ok hans
  have hmade := h.signed_of_greets hc hg
  have hold := h.exchanges i c hc
  have hs : c.Sound S (w.sign auth.signature).signed := hold.mono fun _ hs => .inl hs
  refine h.update rfl (fun _ hs => .inl hs) ?_ ⟨hs.held, hs.foreign, hs.greeted, ?_, ?_, hs.checked, ?_⟩ ?_ ?_
  · rintro s (hs | rfl)
    · exact .inl hs
    · exact .inr (.inr ⟨i, { c with answer := some (hello, auth) }, hello, auth, if_pos rfl, rfl, rfl⟩)
  · intro hello' auth' ha
    cases ha
    unfold WireIdentity.verifyServerHello at hverify
    exact ⟨caller, certHash, hcaller, hcert, of_decide_eq_true hverify, hid, hsig, .inl hmade, .inr rfl⟩
  · intro host hello' auth' hhost ha
    cases ha
    have hhost : c.host = some host := hhost
    unfold Network.Greets at hg
    rw [hhost] at hg
    obtain ⟨nonce, hn, rfl⟩ := hg
    exact ⟨hn, rfl⟩
  · intro info hi
    obtain ⟨_, _, ha, -⟩ := hold.returned info hi
    rw [hnone] at ha
    cases ha
  · intro d hd
    cases hc.symm.trans hd
    refine ⟨rfl, fun _ hn => hn, fun answer ha => ?_⟩
    rw [hnone] at ha
    cases ha
  · intro nonce hn j d hj hd
    exact h.fresh j i d c nonce hj hc hd hn

theorem Network.Sound.signed_of_logs (h : w.Sound S) (hc : w.exchanges i = some c) {auth : WireAuth}
    (hl : w.Logs c auth) :
    w.signed auth.signature := by
  unfold Network.Logs at hl
  cases hcaller : c.caller with
  | none =>
    rw [hcaller] at hl
    exact hl
  | some caller =>
    rw [hcaller] at hl
    obtain ⟨hello, ha⟩ := hl
    obtain ⟨_, _, -, -, -, -, -, -, hs⟩ := (h.exchanges i c hc).answered hello auth ha
    exact hs

theorem Network.Sound.goOn (h : w.Sound S) (hc : w.exchanges i = some c) (hhost : c'.host = c.host)
    (hnonce : c'.nonce = c.nonce)
    (hanswer : c'.answer = c.answer) (hs : c'.Sound S w.signed) : (w.set i c').Sound S := by
  refine h.update rfl (fun _ hs => hs) (fun _ hs => .inl hs) hs ?_ ?_
  · intro d hd
    cases hc.symm.trans hd
    exact ⟨hhost, fun _ hn => hnonce.trans hn, fun _ ha => hanswer.trans ha⟩
  · intro nonce hn j d hj hd
    exact h.fresh j i d c nonce hj hc hd (hnonce.symm.trans hn)

theorem Network.Sound.check (h : w.Sound S) {host : Host} {nonce : Nonce} {auth : WireAuth} {s : Shared}
    (hc : w.exchanges i = some c) (hhost : c.host = some host) (hnonce : c.nonce = some nonce) (hl : w.Logs c auth)
    (hverify : verifyAuth s (auth.read S.sha256 nonce (S.sha256 host.certificate)) = .ok ()) :
    (w.set i { c with accepted := some auth }).Sound S := by
  have hold := h.exchanges i c hc
  refine h.goOn hc rfl rfl rfl ⟨hold.held, hold.foreign, hold.greeted, hold.answered, hold.direct, ?_, hold.returned⟩
  intro auth' ha
  cases ha
  exact ⟨host, nonce, hhost, hnonce, of_decide_eq_true (signatureOk_of_verifyAuth hverify), h.signed_of_logs hc hl⟩

theorem Network.Sound.finish (h : w.Sound S) {hello : ServerHello} {auth : WireAuth} {verdict : Inbound}
    {info : SessionInfo}
    (hc : w.exchanges i = some c) (ha : c.answer = some (hello, auth)) (hread : readVerdict hello verdict = .ok info) :
    (w.set i { c with session := some info }).Sound S := by
  have hold := h.exchanges i c hc
  obtain ⟨hname, hid, -⟩ := readVerdict_ok hread
  refine h.goOn hc rfl rfl rfl ⟨hold.held, hold.foreign, hold.greeted, hold.answered, hold.direct, hold.checked, ?_⟩
  intro info' hi
  cases hi
  exact ⟨hello, auth, ha, hname, hid⟩

theorem Network.Sound.step (h : w.Sound S) {e : Deed} (hok : Ideal S w e) (hst : w.Step S e w') : w'.Sound S := by
  cases hst with
  | dial hnone hhost =>
    refine h.dial hnone ?_ ?_
    · intro host he
      cases he
      exact ⟨hhost, rfl⟩
    · intro he
      cases he
  | @intercept i caller certificates hnone htls =>
    refine h.dial hnone ?_ ?_
    · intro host he
      cases he
    · intro _ host hhost hcert
      cases certificates with
      | nil => cases hcert
      | cons certificate rest =>
        have hhash : S.sha256 certificate = S.sha256 host.certificate := Except.ok.inj hcert
        exact htls host hhost (congrArg some (hok host hhost certificate rfl hhash))
  | greet hc hhost hnone => exact h.greet hc hhost hnone hok
  | answer hc hcaller hnone hg hans => exact h.answer hc hcaller hnone hg hans
  | check s hc hhost hnonce hnone hl hconfig hverify => exact h.check hc hhost hnonce hl hverify
  | finish hc ha hnone haccepted hread => exact h.finish hc ha hread
  | sign hours =>
    refine ⟨fun j d hd => (h.exchanges j d hd).mono fun _ hs => .inl hs, ?_, h.fresh⟩
    rintro s (hs | rfl) hs'
    · exact h.origin s hs hs'
    · exact absurd hs' hours

theorem Network.sound_start (S : Setting) : Network.start.Sound S where
  exchanges _ _ hc := by cases hc
  origin _ hs := by cases hs
  fresh _ _ _ _ _ hc := by cases hc

/-! ## Agreement -/

/-- A login one of ours has signed was signed on a connection to that certificate, for the nonce of its greeting. -/
theorem Network.Sound.login_origin (h : w.Sound S) {key : VerifyingKey} {nonce : Nonce} {certHash : CertHash}
    (hs : w.signed ⟨key, authChallenge nonce certHash⟩) (hours : S.ours key) :
    ∃ j d caller hello reply, w.exchanges j = some d ∧ d.caller = some caller ∧ d.answer = some (hello, reply) ∧
      caller.identity.publicHalf.key = key ∧ hello.nonce = nonce ∧
      peerCertificateHash S.sha256 d.certificates = .ok certHash := by
  rcases h.origin _ hs hours with ⟨_, _, host, nonce', -, -, -, he⟩ | ⟨j, d, hello, reply, hj, ha, he⟩
  · exact absurd (congrArg Signature.message he) authChallenge_ne_serverHelloChallenge
  · obtain ⟨caller, certHash', hcaller, hcert, -, -, hsig, -⟩ := (h.exchanges j d hj).answered hello reply ha
    rw [hsig] at he
    have hkey : key = caller.identity.publicHalf.key := congrArg Signature.signer he
    obtain ⟨hnonce, hhash⟩ := authChallenge_inj (congrArg Signature.message he)
    exact ⟨j, d, caller, hello, reply, hj, hcaller, ha, hkey.symm, hnonce.symm, hhash ▸ hcert⟩

/-- A greeting one of ours has signed came from a server with that certificate. -/
theorem Network.Sound.hello_origin (h : w.Sound S) {key : VerifyingKey} {nonce : Nonce} {certHash : CertHash}
    {name : String}
    (hs : w.signed ⟨key, serverHelloChallenge nonce certHash name⟩) (hours : S.ours key) :
    ∃ host, S.hosts host ∧ host.identity.publicHalf.key = key ∧ S.sha256 host.certificate = certHash := by
  rcases h.origin _ hs hours with ⟨j, d, host, nonce', hj, hhost, -, he⟩ | ⟨j, d, hello, reply, hj, ha, he⟩
  · have hkey : key = host.identity.publicHalf.key := congrArg Signature.signer he
    obtain ⟨-, hhash, -⟩ := serverHelloChallenge_inj (congrArg Signature.message he)
    exact ⟨host, ((h.exchanges j d hj).held host hhost).1, hkey.symm, hhash.symm⟩
  · obtain ⟨_, _, -, -, -, -, hsig, -⟩ := (h.exchanges j d hj).answered hello reply ha
    rw [hsig] at he
    exact absurd (congrArg Signature.message he).symm authChallenge_ne_serverHelloChallenge

/-- A connection that shows the certificate of one of our servers ends at one of them. -/
theorem Exchange.Sound.ends {signed : Signature → Prop} (h : c.Sound S signed) {host : Host} (hhost : S.hosts host)
    (hcert : peerCertificateHash S.sha256 c.certificates = .ok (S.sha256 host.certificate)) :
    ∃ host', c.host = some host' := by
  cases hc : c.host with
  | some host' => exact ⟨host', rfl⟩
  | none => exact absurd hcert (h.foreign hc host hhost)

end

/-- What a server and a client may conclude from a handshake. -/
structure Agreement (S : Setting) (w : Network) : Prop where
  /-- The holder of the key has signed the nonce and the certificate; if it runs this
  program, in a `connect` on this very connection, for a greeting it has checked. -/
  login : ∀ i c host nonce auth, w.exchanges i = some c → c.host = some host → c.nonce = some nonce →
    c.accepted = some auth →
    w.signed ⟨auth.identity.key, authChallenge nonce (S.sha256 host.certificate)⟩ ∧
      (S.ours auth.identity.key → ∃ caller hello reply, c.caller = some caller ∧
        caller.identity.publicHalf.key = auth.identity.key ∧
        peerCertificateHash S.sha256 c.certificates = .ok (S.sha256 host.certificate) ∧
        c.answer = some (hello, reply) ∧ hello.nonce = nonce ∧
        hello.serverIdentity.verifyServerHello nonce
          (S.sha256 host.certificate) hello.serverName hello.signature = true ∧
        reply.signature = caller.identity.signAuth nonce (S.sha256 host.certificate))
  /-- The holder of the server's key has signed the greeting for the certificate of the
  connection; if it runs this program, the connection ends at one of our servers, which greeted so. -/
  connected : ∀ i c info, w.exchanges i = some c → c.session = some info → ∃ hello reply certHash,
    c.answer = some (hello, reply) ∧ peerCertificateHash S.sha256 c.certificates = .ok certHash ∧
      w.signed ⟨info.serverIdentity.key, serverHelloChallenge hello.nonce certHash info.serverName⟩ ∧
      (S.ours info.serverIdentity.key → ∃ host, c.host = some host ∧ hello = host.hello S.sha256 hello.nonce)
  /-- No other login is accepted, and no greeting. -/
  elsewhere : ∀ i c host nonce auth, w.exchanges i = some c → c.host = some host → c.nonce = some nonce →
    c.accepted = some auth →
    ∀ identity : Identity,
      (∀ nonce' certHash', auth.signature = identity.signAuth nonce' certHash' →
        nonce' = nonce ∧ certHash' = S.sha256 host.certificate) ∧
      ∀ nonce' certHash' name, auth.signature ≠ identity.signServerHello nonce' certHash' name

theorem Network.Sound.accepted {S : Setting} {w : Network} (h : w.Sound S) {i : Nat} {c : Exchange} {host : Host}
    {nonce : Nonce}
    {auth : WireAuth} (hc : w.exchanges i = some c) (hhost : c.host = some host) (hnonce : c.nonce = some nonce)
    (ha : c.accepted = some auth) :
    auth.signature = ⟨auth.identity.key, authChallenge nonce (S.sha256 host.certificate)⟩ ∧
      w.signed auth.signature := by
  obtain ⟨host', nonce', hhost', hnonce', hsig, hs⟩ := (h.exchanges i c hc).checked auth ha
  cases hhost.symm.trans hhost'
  cases hnonce.symm.trans hnonce'
  exact ⟨hsig, hs⟩

theorem Network.Sound.agreement {S : Setting} {w : Network} (h : w.Sound S) : Agreement S w where
  login i c host nonce auth hc hhost hnonce ha := by
    obtain ⟨hsig, hs⟩ := h.accepted hc hhost hnonce ha
    rw [hsig] at hs
    refine ⟨hs, fun hours => ?_⟩
    obtain ⟨j, d, caller, hello, reply, hj, hcaller, hans, hkey, hn, hcert⟩ := h.login_origin hs hours
    -- It shows the certificate of one of our servers, so the nonce is of its own greeting, and nonces are fresh.
    obtain ⟨host', hhost'⟩ := (h.exchanges j d hj).ends ((h.exchanges i c hc).held host hhost).1 hcert
    have hnonce' := ((h.exchanges j d hj).direct host' hello reply hhost' hans).1
    obtain rfl : j = i := h.fresh j i d c nonce hj hc (hn ▸ hnonce') hnonce
    cases hc.symm.trans hj
    obtain ⟨caller', certHash, hcaller', hcert', hhello, -, hreply, -⟩ := (h.exchanges j c hc).answered hello reply hans
    cases hcaller.symm.trans hcaller'
    cases hcert.symm.trans hcert'
    subst hn
    refine ⟨caller, hello, reply, hcaller, hkey, hcert, hans, rfl, ?_, hreply⟩
    exact decide_eq_true hhello
  connected i c info hc hi := by
    obtain ⟨hello, reply, ha, hname, hid⟩ := (h.exchanges i c hc).returned info hi
    obtain ⟨caller, certHash, -, hcert, hhello, -, -, hs, -⟩ := (h.exchanges i c hc).answered hello reply ha
    rw [hhello, ← hid, ← hname] at hs
    refine ⟨hello, reply, certHash, ha, hcert, hs, fun hours => ?_⟩
    obtain ⟨host, hhost, -, hhash⟩ := h.hello_origin hs hours
    obtain ⟨host', hhost'⟩ := (h.exchanges i c hc).ends hhost (hhash ▸ hcert)
    exact ⟨host', hhost', ((h.exchanges i c hc).direct host' hello reply hhost' ha).2⟩
  elsewhere i c host nonce auth hc hhost hnonce ha identity := by
    obtain ⟨hsig, -⟩ := h.accepted hc hhost hnonce ha
    rw [hsig]
    refine ⟨fun nonce' certHash' he => ?_, fun nonce' certHash' name he => ?_⟩
    · obtain ⟨hn, hh⟩ := authChallenge_inj (congrArg Signature.message he)
      exact ⟨hn.symm, hh.symm⟩
    · exact authChallenge_ne_serverHelloChallenge (congrArg Signature.message he)

/-- However clients, servers and the attacker take turns. -/
theorem handshakes_agree {S : Setting} {w : Network} (hrun : Run (Network.Step S) (Ideal S) .start w) : Agreement S w :=
  (hrun.invariant (Network.Sound S) (Network.sound_start S) fun _ _ _ h hok hst => h.step hok hst).agreement

/-! ## A handshake -/

def someBytes (b : UInt8) : Vector UInt8 32 := Vector.replicate 32 b

/-- One server; every key is used by this program alone. -/
def exampleHost : Host := ⟨⟨⟨someBytes 1, 0⟩⟩, ⟨0, none, none, 8, false, []⟩, "Server", [48, 130]⟩

def exampleSetting : Setting := ⟨fun l => someBytes (l.foldl (· + ·) 7), (· = exampleHost), fun _ => True⟩

def exampleCaller : Caller := ⟨⟨"1.2.3.4:42071", "n", none, .onFirstUse, none⟩, ⟨⟨someBytes 2, 0⟩⟩, ⟨[]⟩⟩

def exampleAuthOk : AuthOk := ⟨1, [], [], [], none, { maxUsers := 8 }⟩

/-- A client connects, is greeted, signs, is accepted and connected. -/
theorem handshakes_agree_once :
    ∃ w c auth info, Run (Network.Step exampleSetting) (Ideal exampleSetting) .start w ∧ w.exchanges 0 = some c ∧
      c.accepted = some auth ∧ c.session = some info ∧ Agreement exampleSetting w := by
  have hrun : ∃ w c auth info, Run (Network.Step exampleSetting) (Ideal exampleSetting) .start w ∧
      w.exchanges 0 = some c ∧
      c.accepted = some auth ∧ c.session = some info := by
    refine ⟨_, _, _, _, .step (.finish 0 (.control (.authOk exampleAuthOk))) (.step (.check 0 _)
      (.step (.answer 0 (.hello (exampleHost.hello exampleSetting.sha256 (someBytes 5))) 9)
        (.step (.greet 0 (someBytes 5))
      (.step (.dial 0 (some exampleCaller) exampleHost) .refl trivial (.dial rfl rfl))
      ?_ (.greet rfl rfl rfl)) trivial (.answer rfl rfl rfl ⟨_, rfl, rfl⟩ rfl)) trivial
      (.check (Shared.new exampleHost.config [] ⟨[], fun _ => none⟩ false 0) rfl rfl rfl rfl ⟨_, rfl⟩ rfl rfl))
      trivial (.finish rfl rfl rfl (fun _ => nofun) rfl), rfl, rfl, rfl⟩
    intro i c hc
    by_cases hi : i = 0
    · cases (if_pos hi).symm.trans hc
      nofun
    · cases (if_neg hi).symm.trans hc
  obtain ⟨w, c, auth, info, hrun, hc, ha, hi⟩ := hrun
  exact ⟨w, c, auth, info, hrun, hc, ha, hi, handshakes_agree hrun⟩

end PickleChat
