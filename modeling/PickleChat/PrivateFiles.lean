import PickleChat.Rekeying

/-!
# Key files that others may read

A file of keys is made for its owner alone. One that is already there keeps its
mode, and takes it along when it is renamed.
-/

namespace PickleChat

open Files

theorem error_of_bind {ε α β : Type} {x : Except ε α} {f : α → Except ε β} {e : ε} (h : x >>= f = .error e) :
    x = .error e ∨ ∃ a, x = .ok a ∧ f a = .error e := by
  cases x with
  | error e' =>
    cases h
    exact .inl rfl
  | ok a => exact .inr ⟨a, rfl, h⟩

theorem error_of_mapError {ε ε' α : Type} {f : ε → ε'} {x : Except ε α} {e' : ε'} (h : x.mapError f = .error e') :
    ∃ e, x = .error e ∧ f e = e' := by
  cases x with
  | error e => exact ⟨e, rfl, Except.error.inj h⟩
  | ok a => cases h

/-! ## A file that is its owner's alone -/

theorem checkPermissions_private {file : File} (h : file.Owned) (path : String) (fault : Option ReadFault) :
    checkPermissions path file fault = .ok () ∨ checkPermissions path file fault = .error (.io path) := by
  by_cases hfault : fault = some .metadata
  · exact .inr (if_pos hfault)
  · have hok : checkPermissions path file none = .ok () := checkPermissions_owned h
    unfold checkPermissions at hok ⊢
    rw [if_neg (by decide)] at hok
    rw [if_neg hfault]
    exact .inl hok

theorem Keystore.load_private {d : Disk String} {path : String} (h : ∀ file ∈ d path, file.Owned) (c : Crates)
    (fault : Option ReadFault) (path' : String) (mode : UInt32) :
    Keystore.load c d path fault ≠ .error (.permissionsTooOpen path' mode) := by
  intro hload
  unfold load at hload
  cases hfile : d path with
  | none => rw [hfile] at hload; cases hload
  | some file =>
    simp only [hfile] at hload
    split at hload
    · cases hload
    · rcases error_of_bind hload with hcheck | ⟨u, -, hparse⟩
      · rcases checkPermissions_private (h file hfile) path fault with hok | hok
        · cases hok.symm.trans hcheck
        · cases hok.symm.trans hcheck
      · exact parse_permissions c path _ path' mode hparse

namespace Vault
variable {c : Crates} {path path' raw : String} {passphrase : Option String} {mode : UInt32}

theorem unseal_permissions : «unseal» c path raw passphrase ≠ .error (.permissionsTooOpen path' mode) := by
  intro h
  unfold «unseal» at h
  split at h
  · cases h
  · split at h
    · cases h
    · rcases error_of_bind h with hkey | ⟨key, -, h⟩
      · obtain ⟨e, -, he⟩ := error_of_mapError hkey
        cases he
      · rcases error_of_bind h with hplain | ⟨plaintext, -, h⟩
        · obtain ⟨e, -, he⟩ := error_of_mapError hplain
          cases he
        · split at h
          · cases h
          · split at h <;> cases h

theorem readDocument_permissions : readDocument c path raw passphrase ≠ .error (.permissionsTooOpen path' mode) := by
  intro h
  unfold readDocument at h
  split at h
  · cases h
  · split at h
    · split at h <;> cases h
    · split at h
      · exact unseal_permissions h
      · cases h

theorem readEntries_permissions {stored : List StoredEntry} :
    stored.mapM (readEntry c path) ≠ .error (.permissionsTooOpen path' mode) := by
  induction stored with
  | nil => nofun
  | cons e stored ih =>
    intro h
    rw [List.mapM_cons] at h
    rcases error_of_bind h with hentry | ⟨entry, -, h⟩
    · unfold readEntry at hentry
      split at hentry
      · cases hentry
      · split at hentry <;> cases hentry
    · rcases error_of_bind h with hrest | ⟨rest, -, h⟩
      · exact ih hrest
      · cases h

theorem parse_permissions : parse c path raw passphrase ≠ .error (.permissionsTooOpen path' mode) := by
  intro h
  rcases error_of_bind h with hdoc | ⟨⟨stored, protection⟩, -, h⟩
  · exact readDocument_permissions hdoc
  · rcases error_of_bind h with hentries | ⟨entries, -, h⟩
    · exact readEntries_permissions hentries
    · cases entries <;> cases h

theorem openFile_private {file : File} (h : file.Owned) (c : Crates) (path : String) (passphrase : Option String)
    (fault : Option ReadFault) (path' : String) (mode : UInt32) :
    openFile c path file passphrase fault ≠ .error (.permissionsTooOpen path' mode) := by
  intro hopen
  unfold openFile at hopen
  split at hopen
  · cases hopen
  · rcases error_of_bind hopen with hcheck | ⟨u, -, hparse⟩
    · obtain ⟨e, hcheck, he⟩ := error_of_mapError hcheck
      rcases checkPermissions_private h path fault with hok | hok
      · cases hok.symm.trans hcheck
      · cases hok.symm.trans hcheck
        cases he
    · exact parse_permissions hparse

end Vault

/-! ## What a save leaves -/

/-- The keystore's file is its owner's alone, and is never refused for its mode. -/
def KeyPrivate (c : Crates) (d : Disk String) (path : String) : Prop :=
  (∀ file ∈ d path, file.Owned) ∧
    ∀ fault path' mode, Keystore.load c d path fault ≠ .error (.permissionsTooOpen path' mode)

/-- The vault's file is its owner's alone, and is never refused for its mode. -/
def VaultPrivate (c : Crates) (d : Disk String) (path : String) : Prop :=
  ∀ file ∈ d path, file.Owned ∧
    ∀ passphrase fault path' mode, Vault.openFile c path file passphrase fault ≠ .error (.permissionsTooOpen path' mode)

theorem keyPrivate_iff {c : Crates} {d : Disk String} {path : String} :
    KeyPrivate c d path ↔ ∀ file ∈ d path, file.Owned :=
  ⟨And.left, fun h => ⟨h, Keystore.load_private h c⟩⟩

theorem vaultPrivate_iff {c : Crates} {d : Disk String} {path : String} :
    VaultPrivate c d path ↔ ∀ file ∈ d path, file.Owned :=
  ⟨fun h file hfile => (h file hfile).1, fun h file hfile =>
    ⟨h file hfile, Vault.openFile_private (h file hfile) c path⟩⟩

/-- What is written beside a file and renamed is as open to others as what was there. -/
theorem renamed_owned {umask : UInt32} {d : Disk String} {tmp path : String} {bytes : List UInt8} :
    (∀ file ∈ (d.overwrite umask 0o600 tmp bytes none).rename tmp path path, file.Owned) ↔
      ∀ file ∈ d tmp, file.Owned := by
  have hmode : Disk.createdMode umask 0o600 d tmp &&& 0o077 = 0 ↔ ∀ file ∈ d tmp, file.Owned :=
    Disk.createdMode_owned (by decide) d tmp
  rw [← hmode, Disk.rename_new (Disk.overwrite_done umask 0o600 d tmp bytes) path]
  simp [File.Owned]

theorem writePrivate_done {umask : UInt32} {d : Disk String} {path : String} {bytes : List UInt8}
    {fault : Option WriteFault} (h : (writePrivate umask d path bytes fault).1 = true) :
    (writePrivate umask d path bytes fault).2 = d.overwrite umask 0o600 path bytes none := by
  simp only [writePrivate] at h ⊢
  rw [Option.isNone_iff_eq_none.mp h]

theorem Keystore.save_done {c : Crates} {umask : UInt32} {d : Disk String} {path : String} {identity : SecretIdentity}
    {nickname : String} {written : Option WriteFault} {renamed : Bool}
    (h : (save c umask d path identity nickname written renamed).1 = .ok ()) :
    (save c umask d path identity nickname written renamed).2 =
      (d.overwrite umask 0o600 (withExtension path tmpSuffix) (asBytes (encode c identity nickname)) none).rename
        (withExtension path tmpSuffix) path := by
  simp only [save] at h ⊢
  cases hdone : (writePrivate umask d (withExtension path tmpSuffix)
    (asBytes (encode c identity nickname)) written).1 with
  | false => simp [hdone] at h
  | true =>
    cases renamed with
    | false => simp [hdone] at h
    | true => simp [writePrivate_done hdone]

theorem Vault.saveOn_done {c : Crates} {umask : UInt32} {d : Disk String} {v : Vault} {nonce : Vector UInt8 24}
    {written : Option WriteFault} {renamed : Bool} (h : (v.saveOn c umask d nonce written renamed).1 = .ok ()) :
    ∃ text, v.encode c v.protection nonce = .ok text ∧ (v.saveOn c umask d nonce written renamed).2 =
      (d.overwrite umask 0o600 (withExtension v.path tmpSuffix) (asBytes text) none).rename
        (withExtension v.path tmpSuffix) v.path := by
  simp only [saveOn] at h ⊢
  cases htext : v.encode c v.protection nonce with
  | error e => simp [htext] at h
  | ok text =>
    simp only [htext] at h ⊢
    cases hdone : (writePrivate umask d (withExtension v.path tmpSuffix) (asBytes text) written).1 with
    | false => simp [hdone] at h
    | true =>
      cases renamed with
      | false => simp [hdone] at h
      | true => exact ⟨text, rfl, by simp [writePrivate_done hdone]⟩

/-- A re-encryption that succeeds has read its file back, which it would not do were others allowed to. -/
theorem Rekeying.exec_private {c : Crates} {umask : UInt32} {d : Disk String} {v : Vault} {nonce : Vector UInt8 24}
    {steps : RekeySteps} {call : Rekeying} (h : (call.exec c umask d v nonce steps).1 = .ok ()) :
    ∀ file ∈ (call.exec c umask d v nonce steps).2.2 v.path, file.Owned := by
  rcases exec_cases c umask d v nonce steps call with
    ⟨e, -, heq⟩ | ⟨text, -, -, heq⟩ | ⟨text, d', -, -, rfl, hstaged, hrest⟩
  · rw [heq] at h
    cases h
  · rw [heq] at h
    cases h
  · rcases hrest with ⟨e, -, heq⟩ | ⟨hverified, ⟨-, heq⟩ | ⟨-, protection, -, heq⟩⟩
    · rw [heq] at h
      cases h
    · rw [heq] at h
      cases h
    · have hnew := Disk.rename_new hstaged v.path
      simp only [heq, hnew]
      intro file hfile
      obtain rfl := Option.some.inj hfile
      exact (Vault.verify_ok hverified v.path).1

/-- A key file that has been saved is its owner's alone exactly if nothing else was left under the name it was written
to first; after a re-encryption it always is. -/
theorem saved_private_iff (c : Crates) (umask : UInt32) (d : Disk String) :
    (∀ path identity nickname written renamed,
      (Keystore.save c umask d path identity nickname written renamed).1 = .ok () →
        (KeyPrivate c (Keystore.save c umask d path identity nickname written renamed).2 path ↔
          ∀ file ∈ d (withExtension path tmpSuffix), file.Owned)) ∧
    (∀ (v : Vault) nonce written renamed, (v.saveOn c umask d nonce written renamed).1 = .ok () →
      (VaultPrivate c (v.saveOn c umask d nonce written renamed).2 v.path ↔
        ∀ file ∈ d (withExtension v.path tmpSuffix), file.Owned)) ∧
    ∀ v nonce steps (call : Rekeying), (call.exec c umask d v nonce steps).1 = .ok () →
      VaultPrivate c (call.exec c umask d v nonce steps).2.2 v.path := by
  refine ⟨fun path identity nickname written renamed h => ?_, fun v nonce written renamed h => ?_,
    fun v nonce steps call h => vaultPrivate_iff.mpr (Rekeying.exec_private h)⟩
  · rw [keyPrivate_iff, Keystore.save_done h, renamed_owned]
  · obtain ⟨text, -, heq⟩ := Vault.saveOn_done h
    rw [vaultPrivate_iff, heq, renamed_owned]

theorem saved_private_fresh : KeyPrivate Vault.zeroCrates
    (Keystore.save Vault.zeroCrates 0o022 (fun _ => none) "identity.json" Vault.annEntry.identity "ann" none true).2
      "identity.json" := by
  refine ((saved_private_iff Vault.zeroCrates 0o022 fun _ => none).1 "identity.json" Vault.annEntry.identity "ann" none
    true (by decide +kernel)).mpr ?_
  nofun

/-- The key is written into a file that others may read, where one was left behind. -/
theorem leftover_mode_kept : ¬ ∀ (c : Crates) (umask : UInt32) (d : Disk String) (path : String)
    (identity : SecretIdentity) (nickname : String) (written : Option WriteFault) (renamed : Bool),
    (Keystore.save c umask d path identity nickname written renamed).1 = .ok () →
      KeyPrivate c (Keystore.save c umask d path identity nickname written renamed).2 path := by
  intro h
  have hprivate := (h Vault.zeroCrates 0o022
    (fun path => if path = "identity.tmp" then some ⟨[], 0o644⟩ else none) "identity.json" Vault.annEntry.identity "ann"
    none true (by decide +kernel)).1
  revert hprivate
  decide +kernel

end PickleChat
