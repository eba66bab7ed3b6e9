import PickleChat.KeyFiles
import PickleChat.Reopening

/-!
# Changing the passphrase

`save`, `rewrite_verified` and the two calls that lead to it, on a disk. What a
vault is written to is a file beside its own, with another extension; all hangs
on the two not being one.
-/

namespace PickleChat

open Files

def stagingSuffix : String := "rekey"

/-- What comes of the steps of a re-encryption that touch files. -/
structure RekeySteps where
  written : Option WriteFault
  reopened : Option ReadFault
  renamed : Bool
  removed : Bool

section
variable (c : Crates) (umask : UInt32)

namespace Vault

def permissionsError (path : String) : KeystoreError → VaultError
  | .permissionsTooOpen _ mode => .permissionsTooOpen path mode
  | .io _ => .io path
  | other => .migration path other

/-- `open_with_passphrase`, of a file that is there. -/
def openFile (path : String) (file : File) (passphrase : Option String) (fault : Option ReadFault) :
    Except VaultError Vault :=
  match if fault = some .reading then none else readToString file.bytes with
  | none => .error (.io path)
  | some raw => do
    (checkPermissions path file fault).mapError (permissionsError path)
    parse c path raw passphrase

def saveOn (d : Disk String) (v : Vault) (nonce : Vector UInt8 24) (written : Option WriteFault) (renamed : Bool) :
    Except VaultError Unit × Disk String :=
  let tmp := withExtension v.path tmpSuffix
  match v.encode c v.protection nonce with
  | .error e => (.error e, d)
  | .ok text =>
    let (done, d) := writePrivate umask d tmp (asBytes text) written
    if !done then (.error (.io tmp), d)
    else if !renamed then (.error (.io v.path), d)
    else (.ok (), d.rename tmp v.path)

/-- The staging file, opened and compared with the vault it was written from. -/
def verify (v : Vault) (staging : String) (file : File) (passphrase : Option String) (fault : Option ReadFault) :
    Except VaultError Unit := do
  let reopened ← openFile c staging file passphrase fault
  if reopened.holdsTheSameIdentitiesAs v then .ok () else .error (.verificationFailed v.path)

def rewriteVerifiedOn (d : Disk String) (v : Vault) (protection : Protection) (passphrase : Option String)
    (nonce : Vector UInt8 24) (steps : RekeySteps) : Except VaultError Unit × Vault × Disk String :=
  let staging := withExtension v.path stagingSuffix
  match v.encode c protection nonce with
  | .error e => (.error e, v, d)
  | .ok text =>
    let (done, d) := writePrivate umask d staging (asBytes text) steps.written
    if !done then (.error (.io staging), v, d)
    else
      -- the file has just been written, so that no vault is made in its place
      let verified := (d staging).elim (.error (.io staging)) fun file =>
        verify c v staging file passphrase steps.reopened
      match verified with
      | .error e => (.error e, v, if steps.removed then d.remove staging else d)
      | .ok () =>
        if !steps.renamed then (.error (.io v.path), v, d)
        else (.ok (), { v with protection }, d.rename staging v.path)

variable {c} {path path' raw : String} {passphrase : Option String}

theorem unseal_path {r : StoredVault × Protection} (h : «unseal» c path raw passphrase = .ok r) :
    «unseal» c path' raw passphrase = .ok r := by
  unfold «unseal» at h ⊢
  cases hsealed : (c.parseJson raw).bind SealedVault.ofJson with
  | none => rw [hsealed] at h; cases h
  | some sealed =>
    rw [hsealed] at h
    cases passphrase with
    | none => cases h
    | some passphrase =>
      obtain ⟨key, hkey, h⟩ := ok_of_bind h
      obtain ⟨plaintext, hplain, h⟩ := ok_of_bind h
      have hkey := ok_of_mapError hkey
      have hplain := ok_of_mapError hplain
      simp only [hkey, hplain, Except.mapError, bind, Except.bind]
      cases hstored : ((readToString plaintext).bind c.parseJson).bind StoredVault.ofJson with
      | none => rw [hstored] at h; cases h
      | some stored =>
        simp only [hstored] at h ⊢
        by_cases hversion : stored.version ≠ vaultVersion
        · rw [if_pos hversion] at h; cases h
        · rwa [if_neg hversion] at h ⊢

theorem readDocument_path {r : StoredVault × Protection} (h : readDocument c path raw passphrase = .ok r) :
    readDocument c path' raw passphrase = .ok r := by
  unfold readDocument at h ⊢
  cases hversion : (c.parseJson raw).bind probeVersion with
  | none => rw [hversion] at h; cases h
  | some version =>
    simp only [hversion] at h ⊢
    by_cases hplain : version = vaultVersion
    · rw [if_pos hplain] at h ⊢
      cases hstored : (c.parseJson raw).bind StoredVault.ofJson with
      | none => rw [hstored] at h; cases h
      | some stored => rwa [hstored] at h
    · rw [if_neg hplain] at h ⊢
      by_cases hsealed : version = sealedVersion
      · rw [if_pos hsealed] at h ⊢
        exact unseal_path h
      · rw [if_neg hsealed] at h; cases h

theorem readEntry_path {stored : StoredEntry} {entry : VaultEntry} (h : readEntry c path stored = .ok entry) :
    readEntry c path' stored = .ok entry := by
  unfold readEntry at h ⊢
  cases hbytes : c.base64Decode stored.secretKey with
  | none => rw [hbytes] at h; cases h
  | some bytes =>
    simp only [hbytes] at h ⊢
    split at h
    · rwa [dif_pos ‹_›]
    · cases h

theorem readEntries_path {stored : List StoredEntry} {entries : List VaultEntry}
    (h : stored.mapM (readEntry c path) = .ok entries) : stored.mapM (readEntry c path') = .ok entries := by
  induction stored generalizing entries with
  | nil => exact h
  | cons e stored ih =>
    rw [List.mapM_cons] at h ⊢
    obtain ⟨entry, hentry, h⟩ := ok_of_bind h
    obtain ⟨rest, hrest, h⟩ := ok_of_bind h
    rw [readEntry_path hentry, ih hrest]
    exact h

/-- What is read from a file does not depend on its name. -/
theorem parse_path {v : Vault} (h : parse c path raw passphrase = .ok v) :
    parse c path' raw passphrase = .ok { v with path := path' } := by
  obtain ⟨⟨stored, protection⟩, hdoc, h⟩ := ok_of_bind h
  obtain ⟨entries, hentries, h⟩ := ok_of_bind h
  unfold parse
  rw [readDocument_path hdoc]
  simp only [bind, Except.bind, readEntries_path hentries]
  cases entries with
  | nil => cases h
  | cons first rest => rw [← Except.ok.inj h]

theorem holdsTheSame_eq {v v' : Vault} (h : v.holdsTheSameIdentitiesAs v' = true) :
    v.entries = v'.entries ∧ v.active = v'.active := by
  simp only [holdsTheSameIdentitiesAs, Bool.and_eq_true, decide_eq_true_eq] at h
  obtain ⟨⟨hactive, hlen⟩, hall⟩ := h
  refine ⟨?_, hactive⟩
  generalize v.entries = l at hlen hall
  generalize v'.entries = l' at hlen hall
  induction l generalizing l' with
  | nil => exact (List.length_eq_zero_iff.mp hlen.symm).symm
  | cons e l ih =>
    cases l' with
    | nil => cases hlen
    | cons e' l' =>
      simp only [List.zip_cons_cons, List.all_cons, Bool.and_eq_true, decide_eq_true_eq] at hall
      obtain ⟨⟨⟨⟨hsecret, hcounter⟩, hnickname⟩, hlabel⟩, hrest⟩ := hall
      have hfirst : e = e' := by
        obtain ⟨⟨secret, counter⟩, nickname, label⟩ := e
        obtain ⟨⟨secret', counter'⟩, nickname', label'⟩ := e'
        cases hsecret
        cases hcounter
        cases hnickname
        cases hlabel
        rfl
      rw [hfirst, ih l' (Nat.succ.inj hlen) (by simpa using hrest)]

theorem verify_iff {v : Vault} {staging : String} {file : File} {fault : Option ReadFault} :
    v.verify c staging file passphrase fault = .ok () ↔
      ∃ reopened, openFile c staging file passphrase fault = .ok reopened ∧
        reopened.holdsTheSameIdentitiesAs v = true := by
  unfold verify
  cases openFile c staging file passphrase fault with
  | error e => simp [bind, Except.bind]
  | ok reopened => simp [bind, Except.bind]

/-- A file that verifies is its owner's alone, and opens under any name to the entries it was written from. -/
theorem verify_ok {v : Vault} {staging : String} {file : File} {fault : Option ReadFault}
    (h : v.verify c staging file passphrase fault = .ok ()) (path : String) :
    file.Owned ∧ ∃ opened, openFile c path file passphrase none = .ok opened ∧ opened.entries = v.entries ∧
      opened.active = v.active := by
  obtain ⟨reopened, hopen, hsame⟩ := verify_iff.mp h
  unfold openFile at hopen ⊢
  by_cases hreading : fault = some .reading
  · rw [if_pos hreading] at hopen
    cases hopen
  · rw [if_neg hreading] at hopen
    rw [if_neg (by decide)]
    cases hraw : readToString file.bytes with
    | none => rw [hraw] at hopen; cases hopen
    | some raw =>
      rw [hraw] at hopen
      obtain ⟨u, hcheck, hparse⟩ := ok_of_bind hopen
      have howned := owned_of_checkPermissions (ok_of_mapError hcheck)
      refine ⟨howned, { reopened with path }, ?_, holdsTheSame_eq hsame⟩
      simp only [checkPermissions_owned howned, Except.mapError, bind, Except.bind]
      exact parse_path hparse

/-- On a disk a re-encryption does what it does given what comes of its steps. -/
theorem rewriteVerifiedOn_outcomes (c : Crates) (umask : UInt32) (d : Disk String) (v : Vault) (protection : Protection)
    (passphrase : Option String) (nonce : Vector UInt8 24) (steps : RekeySteps) : ∃ written reopened renamed,
    (v.rewriteVerifiedOn c umask d protection passphrase nonce steps).1 =
        (v.rewriteVerified c protection nonce written reopened renamed).map (fun _ => ()) ∧
      (v.rewriteVerifiedOn c umask d protection passphrase nonce steps).2.1 =
        orUnchanged v (v.rewriteVerified c protection nonce written reopened renamed) := by
  simp only [rewriteVerifiedOn, rewriteVerified, writePrivate]
  generalize withExtension v.path stagingSuffix = staging
  cases he : v.encode c protection nonce with
  | error e => exact ⟨.ok (), .ok v, .ok (), rfl, rfl⟩
  | ok text =>
    by_cases hw : writeFault staging steps.written = none
    · simp only [hw, Disk.overwrite_done, Option.elim, Option.isNone_none, Bool.not_true, Bool.false_eq_true, if_false,
        verify]
      generalize openFile c staging _ passphrase steps.reopened = reopened
      refine ⟨.ok (), reopened, if steps.renamed then .ok () else .error (.io v.path), ?_⟩
      cases reopened with
      | error e => exact ⟨rfl, rfl⟩
      | ok reopened =>
        simp only [bind, Except.bind]
        by_cases hsame : reopened.holdsTheSameIdentitiesAs v = true
        · simp only [if_pos hsame]
          cases steps.renamed <;> exact ⟨rfl, rfl⟩
        · simp only [if_neg hsame]
          exact ⟨rfl, rfl⟩
    · refine ⟨.error (.io staging), .ok v, .ok (), ?_⟩
      simp [Option.isSome_iff_ne_none.mpr hw, bind, Except.bind, Except.map, orUnchanged]

end Vault

inductive Rekeying where
  | setPassphrase (passphrase : String) (salt : Vector UInt8 16)
  | removePassphrase

namespace Rekeying

def passphrase : Rekeying → Option String
  | setPassphrase passphrase _ => some passphrase
  | removePassphrase => none

/-- What the vault is to be protected by, where a key can be derived. -/
def protection (v : Vault) : Rekeying → Except VaultError Protection
  | setPassphrase passphrase salt => do
    let key ← (VaultKey.fresh c passphrase salt).mapError (.locked v.path)
    .ok (.passphrase key)
  | removePassphrase => .ok .none

/-- `set_passphrase` and `remove_passphrase`. -/
def exec (d : Disk String) (v : Vault) (nonce : Vector UInt8 24) (steps : RekeySteps) (call : Rekeying) :
    Except VaultError Unit × Vault × Disk String :=
  match call.protection c v with
  | .error e => (.error e, v, d)
  | .ok protection => v.rewriteVerifiedOn c umask d protection call.passphrase nonce steps

def text (v : Vault) (nonce : Vector UInt8 24) (call : Rekeying) : Except VaultError String := do
  let protection ← call.protection c v
  v.encode c protection nonce

def staging (v : Vault) : String := withExtension v.path stagingSuffix

def staged (d : Disk String) (v : Vault) (text : String) : File :=
  ⟨asBytes text, Disk.createdMode umask 0o600 d (staging v)⟩

variable {c umask} {d : Disk String} {v : Vault} {nonce : Vector UInt8 24} {steps : RekeySteps} {call : Rekeying}

/-- All that a call can do. -/
theorem exec_cases (c : Crates) (umask : UInt32) (d : Disk String) (v : Vault) (nonce : Vector UInt8 24)
    (steps : RekeySteps) (call : Rekeying) :
    (∃ e, call.text c v nonce = .error e ∧ call.exec c umask d v nonce steps = (.error e, v, d)) ∨
    (∃ text, call.text c v nonce = .ok text ∧ writeFault (staging v) steps.written ≠ none ∧
      call.exec c umask d v nonce steps = (.error (.io (staging v)), v,
        d.overwrite umask 0o600 (staging v) (asBytes text) (writeFault (staging v) steps.written))) ∨
    (∃ text d', call.text c v nonce = .ok text ∧ writeFault (staging v) steps.written = none ∧
      d' = d.overwrite umask 0o600 (staging v) (asBytes text) none ∧ d' (staging v) = some (staged umask d v text) ∧
      ((∃ e, v.verify c (staging v) (staged umask d v text) call.passphrase steps.reopened = .error e ∧
          call.exec c umask d v nonce steps = (.error e, v, if steps.removed then d'.remove (staging v) else d')) ∨
        v.verify c (staging v) (staged umask d v text) call.passphrase steps.reopened = .ok () ∧
          (steps.renamed = false ∧ call.exec c umask d v nonce steps = (.error (.io v.path), v, d') ∨
            steps.renamed = true ∧ ∃ protection, call.protection c v = .ok protection ∧
              call.exec c umask d v nonce steps = (.ok (), { v with protection }, d'.rename (staging v) v.path)))) := by
  cases hp : call.protection c v with
  | error e => exact .inl ⟨e, by simp [text, hp, bind, Except.bind], by simp [exec, hp]⟩
  | ok protection =>
    have htext : call.text c v nonce = v.encode c protection nonce := by simp [text, hp, bind, Except.bind]
    rw [htext]
    simp only [exec, hp, Vault.rewriteVerifiedOn]
    cases he : v.encode c protection nonce with
    | error e => exact .inl ⟨e, rfl, rfl⟩
    | ok text =>
      refine .inr ?_
      have hstaging : withExtension v.path stagingSuffix = staging v := rfl
      simp only [hstaging, writePrivate]
      by_cases hw : writeFault (staging v) steps.written = none
      · refine .inr ⟨text, _, rfl, hw, rfl, Disk.overwrite_done .., ?_⟩
        simp only [hw, Disk.overwrite_done, Option.elim, Option.isNone_none, Bool.not_true, Bool.false_eq_true,
          if_false]
        have hfile : (⟨asBytes text, Disk.createdMode umask 0o600 d (staging v)⟩ : File) = staged umask d v text := rfl
        rw [hfile]
        cases hv : v.verify c (staging v) (staged umask d v text) call.passphrase steps.reopened with
        | error e => exact .inl ⟨e, rfl, rfl⟩
        | ok u =>
          refine .inr ⟨rfl, ?_⟩
          cases hr : steps.renamed with
          | false => exact .inl ⟨rfl, rfl⟩
          | true => exact .inr ⟨rfl, protection, rfl, rfl⟩
      · exact .inl ⟨text, rfl, hw, by simp [Option.isSome_iff_ne_none.mpr hw]⟩

/-- Whatever fails, a valid vault stays valid. -/
theorem exec_valid (h : v.Valid c) (steps : RekeySteps) : (call.exec c umask d v nonce steps).2.1.Valid c := by
  unfold exec
  cases call.protection c v with
  | error e => exact h
  | ok protection =>
    obtain ⟨written, reopened, renamed, -, hvault⟩ :=
      Vault.rewriteVerifiedOn_outcomes c umask d v protection call.passphrase nonce steps
    simp only [hvault]
    exact h.rewriteVerified protection nonce written renamed reopened

/-! ## All or nothing -/

/-- A call that fails leaves the vault and its file as they were, and after one that succeeds the file opens to what
is in the vault, which is saved under the new protection from then on. -/
structure AllOrNothing (c : Crates) (d : Disk String) (v : Vault) (call : Rekeying)
    (r : Except VaultError Unit × Vault × Disk String) : Prop where
  failed : ∀ e, r.1 = .error e → r.2.1 = v ∧ (r.2.2 v.path).map File.bytes = (d v.path).map File.bytes
  done : r.1 = .ok () →
    (∃ file opened, r.2.2 v.path = some file ∧ Vault.openFile c v.path file call.passphrase none = .ok opened ∧
        opened.entries = v.entries ∧ opened.active = v.active) ∧
      ∃ protection, call.protection c v = .ok protection ∧ r.2.1 = { v with protection }

theorem allOrNothing_failed {e : VaultError} {d' : Disk String} (h : d' v.path = d v.path) :
    AllOrNothing c d v call (.error e, v, d') :=
  ⟨fun _ _ => ⟨rfl, congrArg (Option.map File.bytes) h⟩, nofun⟩

theorem allOrNothing_done {d' : Disk String} {file : File} {opened : Vault} {protection : Protection}
    (hfile : d' v.path = some file) (hopen : Vault.openFile c v.path file call.passphrase none = .ok opened)
    (hsame : opened.entries = v.entries ∧ opened.active = v.active) (hp : call.protection c v = .ok protection) :
    AllOrNothing c d v call (.ok (), { v with protection }, d') :=
  ⟨nofun, fun _ => ⟨⟨file, opened, hfile, hopen, hsame⟩, protection, hp, rfl⟩⟩

theorem allOrNothing (hbeside : staging v ≠ v.path) (steps : RekeySteps) :
    AllOrNothing c d v call (call.exec c umask d v nonce steps) := by
  have hkeeps : ∀ bytes fault, d.overwrite umask 0o600 (staging v) bytes fault v.path = d v.path :=
    fun bytes fault => Disk.overwrite_of_ne umask 0o600 bytes fault hbeside.symm
  rcases exec_cases c umask d v nonce steps call with
    ⟨e, -, heq⟩ | ⟨text, -, -, heq⟩ | ⟨text, d', -, -, rfl, hstaged, hrest⟩
  · rw [heq]
    exact allOrNothing_failed rfl
  · rw [heq]
    exact allOrNothing_failed (hkeeps _ _)
  · rcases hrest with ⟨e, -, heq⟩ | ⟨hverified, ⟨-, heq⟩ | ⟨-, protection, hp, heq⟩⟩
    · rw [heq]
      apply allOrNothing_failed
      split
      · exact (Disk.remove_of_ne hbeside.symm).trans (hkeeps _ _)
      · exact hkeeps _ _
    · rw [heq]
      exact allOrNothing_failed (hkeeps _ _)
    · rw [heq]
      obtain ⟨-, opened, hopen, hsame⟩ := Vault.verify_ok hverified v.path
      have hnew := Disk.rename_new hstaged v.path
      exact allOrNothing_done hnew hopen hsame hp

theorem text_ne_nil {text : String} (h : call.text c v nonce = .ok text) : asBytes text ≠ [] := by
  obtain ⟨protection, -, h⟩ := ok_of_bind h
  have hline : ∃ body, text = body ++ "\n" := by
    unfold Vault.encode at h
    cases protection with
    | none => exact ⟨_, (Except.ok.inj h).symm⟩
    | passphrase key =>
      obtain ⟨sealed, -, h⟩ := ok_of_bind h
      exact ⟨_, (Except.ok.inj h).symm⟩
  obtain ⟨body, rfl⟩ := hline
  intro hnil
  have hempty : body ++ "\n" = "" := asBytes_inj hnil
  simpa using congrArg String.toList hempty

theorem exec_no_text {e : VaultError} (h : call.text c v nonce = .error e) :
    call.exec c umask d v nonce steps = (.error e, v, d) := by
  rcases exec_cases c umask d v nonce steps call with ⟨e', h', heq⟩ | ⟨text, h', -⟩ | ⟨text, d', h', -⟩
  · rw [heq, Except.error.inj (h'.symm.trans h)]
  · cases h'.symm.trans h
  · cases h'.symm.trans h

theorem exec_write_fails {text : String} {fault : WriteFault} (h : call.text c v nonce = .ok text)
    (hfault : writeFault (staging v) steps.written = some fault) :
    call.exec c umask d v nonce steps =
      (.error (.io (staging v)), v, d.overwrite umask 0o600 (staging v) (asBytes text) (some fault)) := by
  rcases exec_cases c umask d v nonce steps call with ⟨e, h', -⟩ | ⟨text', h', -, heq⟩ | ⟨text', d', -, hnone, -⟩
  · cases h'.symm.trans h
  · rw [heq, hfault, Except.ok.inj (h'.symm.trans h)]
  · cases hnone.symm.trans hfault

/-- Re-encrypting is all or nothing, wherever it fails, exactly if the new file is not written over the old one. -/
theorem all_or_nothing_iff (c : Crates) (umask : UInt32) (d : Disk String) (v : Vault) (nonce : Vector UInt8 24)
    (call : Rekeying) :
    (∀ steps, AllOrNothing c d v call (call.exec c umask d v nonce steps)) ↔
      (∃ e, call.text c v nonce = .error e) ∨ fileName (staging v) = none ∨ staging v ≠ v.path := by
  constructor
  · intro h
    by_contra hnot
    obtain ⟨hwrites, hnot⟩ := not_or.mp hnot
    obtain ⟨hname, hbeside⟩ := not_or.mp hnot
    have hsame : staging v = v.path := not_not.mp hbeside
    cases htext : call.text c v nonce with
    | error e => exact hwrites ⟨e, htext⟩
    | ok text =>
      -- a disk that is full after `n` bytes leaves `n` bytes of the vault
      have hfull : ∀ n, some ((asBytes text).take n) = (d v.path).map File.bytes := by
        intro n
        have hfault : writeFault (staging v) (some (.writing n)) = some (.writing n) := if_neg hname
        have heq : call.exec c umask d v nonce ⟨some (.writing n), none, true, true⟩ = (.error (.io (staging v)), v,
            d.overwrite umask 0o600 (staging v) (asBytes text) (some (.writing n))) := exec_write_fails htext hfault
        have hcut := Disk.overwrite_cut umask 0o600 d (staging v) (asBytes text) n
        have hbytes := ((h _).failed _ (congrArg Prod.fst heq)).2
        rw [← hsame] at hbytes ⊢
        simp only [heq, hcut, Option.map_some] at hbytes
        exact hbytes
      have hnil := Option.some.inj ((hfull 0).trans (hfull (asBytes text).length).symm)
      rw [List.take_zero, List.take_length] at hnil
      exact text_ne_nil htext hnil.symm
  · rintro (⟨e, he⟩ | hname | hbeside) steps
    · rw [exec_no_text he]
      exact allOrNothing_failed rfl
    · cases htext : call.text c v nonce with
      | error e =>
        rw [exec_no_text htext]
        exact allOrNothing_failed rfl
      | ok text =>
        have hopening : writeFault (staging v) steps.written = some .opening := if_pos hname
        rw [exec_write_fails htext hopening]
        exact allOrNothing_failed rfl
    · exact allOrNothing hbeside steps

/-- A vault under the staging file's own name is cut short where the disk is full. -/
theorem staging_over_vault : ¬ ∀ (c : Crates) (umask : UInt32) (d : Disk String) (v : Vault) (nonce : Vector UInt8 24)
    (call : Rekeying) (steps : RekeySteps), AllOrNothing c d v call (call.exec c umask d v nonce steps) := by
  intro h
  have hbytes := ((h Vault.zeroCrates 0o022
    (fun path => if path = "me.rekey" then some ⟨asBytes Vault.oneKeyFile, 0o600⟩ else none)
    ⟨"me.rekey", [Vault.annEntry], Vault.annEntry.name Vault.zeroCrates, .none⟩ zeroNonce .removePassphrase
    ⟨some (.writing 5), none, true, true⟩).failed (.io "me.rekey") (by decide +kernel)).2
  revert hbytes
  decide +kernel

/-! ## What is left of the staging file -/

/-- The staging file has been opened for writing. -/
def Attempted (c : Crates) (v : Vault) (nonce : Vector UInt8 24) (steps : RekeySteps) (call : Rekeying) : Prop :=
  (∃ text, call.text c v nonce = .ok text) ∧ writeFault (staging v) steps.written ≠ some .opening

/-- The staging file is gone, or was there before and has not been touched. -/
def Cleared (c : Crates) (umask : UInt32) (d : Disk String) (v : Vault) (nonce : Vector UInt8 24) (steps : RekeySteps)
    (call : Rekeying) : Prop :=
  (call.exec c umask d v nonce steps).2.2 (staging v) = none ∨
    (d (staging v)).isSome ∧ ¬ call.Attempted c v nonce steps

/-- The staging file, once written, opens to what is in the vault. -/
def Reopens (c : Crates) (umask : UInt32) (d : Disk String) (v : Vault) (nonce : Vector UInt8 24) (steps : RekeySteps)
    (call : Rekeying) : Prop :=
  ∃ text reopened, call.text c v nonce = .ok text ∧
    Vault.openFile c (staging v) (staged umask d v text) call.passphrase steps.reopened = .ok reopened ∧
      reopened.holdsTheSameIdentitiesAs v = true

theorem exec_not_attempted (h : ¬ call.Attempted c v nonce steps) : (call.exec c umask d v nonce steps).2.2 = d := by
  cases htext : call.text c v nonce with
  | error e => rw [exec_no_text htext]
  | ok text =>
    have hopening : writeFault (staging v) steps.written = some .opening := by
      by_contra hne
      exact h ⟨⟨text, htext⟩, hne⟩
    rw [exec_write_fails htext hopening]
    rfl

theorem writeFault_of_ne {path : String} {fault : Option WriteFault} (h : writeFault path fault ≠ some .opening) :
    writeFault path fault = fault := by
  unfold writeFault at h ⊢
  split
  · rw [if_pos ‹_›] at h
    exact absurd rfl h
  · rfl

/-- Nothing is left of the staging file exactly if it is never opened for writing, or is written to its end and then
either does not open to what is in the vault, or gets another name. -/
theorem cleared_iff (c : Crates) (umask : UInt32) (d : Disk String) (v : Vault) (nonce : Vector UInt8 24)
    (steps : RekeySteps) (call : Rekeying) (hremoved : steps.removed = true) :
    call.Cleared c umask d v nonce steps ↔
      (call.Attempted c v nonce steps → steps.written = none ∧
        (call.Reopens c umask d v nonce steps → steps.renamed = true ∧ staging v ≠ v.path)) := by
  by_cases hatt : call.Attempted c v nonce steps
  · have hleft : call.Cleared c umask d v nonce steps ↔ (call.exec c umask d v nonce steps).2.2 (staging v) = none := by
      simp [Cleared, hatt]
    rw [hleft]
    simp only [hatt, true_imp_iff]
    obtain ⟨⟨text₀, htext₀⟩, hopened⟩ := hatt
    have hwritten := writeFault_of_ne hopened
    rcases exec_cases c umask d v nonce steps call with
      ⟨e, htext, -⟩ | ⟨text, -, hfault, heq⟩ | ⟨text, d', htext, hnone, rfl, hstaged, hrest⟩
    · cases htext.symm.trans htext₀
    · have hthere := Disk.overwrite_ne_none umask 0o600 d (staging v) (asBytes text) hopened
      simp only [heq]
      exact iff_of_false hthere fun h => hfault (hwritten.trans h.1)
    · have hreopens : call.Reopens c umask d v nonce steps ↔
          v.verify c (staging v) (staged umask d v text) call.passphrase steps.reopened = .ok () := by
        rw [Vault.verify_iff]
        constructor
        · rintro ⟨text', reopened, htext', hopen⟩
          obtain rfl := Except.ok.inj (htext'.symm.trans htext)
          exact ⟨reopened, hopen⟩
        · rintro ⟨reopened, hopen⟩
          exact ⟨text, reopened, htext, hopen⟩
      rw [hreopens]
      have hall : steps.written = none := hwritten.symm.trans hnone
      rcases hrest with ⟨e, hfailed, heq⟩ | ⟨hverified, ⟨hrenamed, heq⟩ | ⟨hrenamed, protection, -, heq⟩⟩
      · have hgone := Disk.remove_self (d.overwrite umask 0o600 (staging v) (asBytes text) none) (staging v)
        simp only [heq, hremoved, if_true]
        refine iff_of_true hgone ⟨hall, fun h => ?_⟩
        cases hfailed.symm.trans h
      · rw [heq]
        refine iff_of_false (by simp [hstaged]) fun h => ?_
        cases hrenamed.symm.trans (h.2 hverified).1
      · simp only [heq]
        by_cases hbeside : staging v = v.path
        · have hnew := Disk.rename_new hstaged v.path
          rw [← hbeside] at hnew
          rw [← hbeside]
          refine iff_of_false (by rw [hnew]; exact Option.some_ne_none _) fun h => (h.2 hverified).2 rfl
        · have hold := Disk.rename_old hstaged hbeside
          exact iff_of_true hold ⟨hall, fun _ => ⟨hrenamed, hbeside⟩⟩
  · refine iff_of_true ?_ fun h => absurd h hatt
    unfold Cleared
    rw [exec_not_attempted hatt]
    cases hd : d (staging v) with
    | none => exact .inl rfl
    | some file => exact .inr ⟨rfl, hatt⟩

theorem cleared_iff_ann : Cleared Vault.zeroCrates 0o022 (fun _ => none)
    ⟨"identities.json", [Vault.annEntry], Vault.annEntry.name Vault.zeroCrates, .none⟩ zeroNonce
    ⟨none, some .reading, true, true⟩ .removePassphrase := by
  refine (cleared_iff Vault.zeroCrates 0o022 _ _ zeroNonce ⟨none, some .reading, true, true⟩ .removePassphrase rfl).mpr
    fun _ => ⟨rfl, fun ⟨_, _, _, hopen, _⟩ => ?_⟩
  cases hopen

/-- All keys are left beside the vault where the disk fails once they are written. -/
theorem staging_file_left : ¬ ∀ (c : Crates) (umask : UInt32) (d : Disk String) (v : Vault) (nonce : Vector UInt8 24)
    (steps : RekeySteps) (call : Rekeying), steps.removed = true → call.Cleared c umask d v nonce steps := by
  intro h
  have hcleared := h Vault.zeroCrates 0o022 (fun _ => none)
    ⟨"identities.json", [Vault.annEntry], Vault.annEntry.name Vault.zeroCrates, .none⟩ zeroNonce
    ⟨some .syncing, none, true, true⟩ .removePassphrase rfl
  rcases hcleared with hgone | ⟨hold, -⟩
  · revert hgone
    decide +kernel
  · cases hold

end Rekeying

end

end PickleChat
