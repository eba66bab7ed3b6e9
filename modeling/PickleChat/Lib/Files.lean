import Mathlib.Logic.Function.Basic

/-!
# Files

A disk keeps at most one file under each path. Directories and links are left
out. Of an operation that may fail it is said beforehand whether it does, and
how far it gets.
-/

namespace Files

structure File where
  bytes : List UInt8
  mode : UInt32
  deriving DecidableEq

def File.Owned (file : File) : Prop := file.mode &&& 0o077 = 0

instance (file : File) : Decidable file.Owned := inferInstanceAs (Decidable (_ = _))

abbrev Disk (π : Type) := π → Option File

/-- How opening a file to write it, and writing it, fails. -/
inductive WriteFault where
  | opening
  | writing (written : Nat)
  | syncing
  deriving DecidableEq

/-- How reading a file and its mode fails. -/
inductive ReadFault where
  | reading
  | metadata
  deriving DecidableEq

namespace Disk
variable {π : Type} [DecidableEq π] {d : Disk π} {p q : π}

/-- The mode of a file opened with `O_CREAT`: that asked for is only for one that is not there yet. -/
def createdMode (umask mode : UInt32) (d : Disk π) (p : π) : UInt32 :=
  match d p with
  | some file => file.mode
  | none => mode &&& ~~~umask

/-- Open with `O_WRONLY`, `O_CREAT` and `O_TRUNC`, write and sync. -/
def overwrite (umask mode : UInt32) (d : Disk π) (p : π) (bytes : List UInt8) : Option WriteFault → Disk π
  | some .opening => d
  | some (.writing written) => Function.update d p (some ⟨bytes.take written, createdMode umask mode d p⟩)
  | some .syncing | none => Function.update d p (some ⟨bytes, createdMode umask mode d p⟩)

/-- A file that is there gets another name, and what had that name is gone. -/
def rename (d : Disk π) (p q : π) : Disk π :=
  match d p with
  | some file => Function.update (Function.update d p none) q (some file)
  | none => d

def remove (d : Disk π) (p : π) : Disk π := Function.update d p none

theorem overwrite_of_ne (umask mode : UInt32) (bytes : List UInt8) (fault : Option WriteFault) (h : q ≠ p) :
    d.overwrite umask mode p bytes fault q = d q := by
  unfold overwrite
  split <;> simp [Function.update_of_ne h]

theorem overwrite_done (umask mode : UInt32) (d : Disk π) (p : π) (bytes : List UInt8) :
    d.overwrite umask mode p bytes none p = some ⟨bytes, createdMode umask mode d p⟩ := by
  simp [overwrite]

theorem overwrite_cut (umask mode : UInt32) (d : Disk π) (p : π) (bytes : List UInt8) (written : Nat) :
    d.overwrite umask mode p bytes (some (.writing written)) p =
      some ⟨bytes.take written, createdMode umask mode d p⟩ := by
  simp [overwrite]

/-- Once it has been opened for writing the file is there. -/
theorem overwrite_ne_none (umask mode : UInt32) (d : Disk π) (p : π) (bytes : List UInt8) {fault : Option WriteFault}
    (h : fault ≠ some .opening) : d.overwrite umask mode p bytes fault p ≠ none := by
  rcases fault with _ | _ | written | _
  · simp [overwrite]
  · exact absurd rfl h
  · simp [overwrite]
  · simp [overwrite]

theorem rename_new {file : File} (h : d p = some file) (q : π) : d.rename p q q = some file := by
  simp [rename, h]

theorem rename_old {file : File} (h : d p = some file) (hne : p ≠ q) : d.rename p q p = none := by
  simp [rename, h, Function.update_of_ne hne]

theorem remove_self (d : Disk π) (p : π) : d.remove p p = none := by simp [remove]

theorem remove_of_ne (h : q ≠ p) : d.remove p q = d q := by simp [remove, Function.update_of_ne h]

omit [DecidableEq π] in
/-- A file that is overwritten stays as open to others as it was. -/
theorem createdMode_owned {umask mode : UInt32} (hmode : mode &&& 0o077 = 0) (d : Disk π) (p : π) :
    createdMode umask mode d p &&& 0o077 = 0 ↔ ∀ file ∈ d p, file.Owned := by
  unfold createdMode
  cases hp : d p with
  | some file => simp [File.Owned]
  | none =>
    have hcomm : mode &&& ~~~umask &&& 0o077 = mode &&& 0o077 &&& ~~~umask := by
      rw [UInt32.and_assoc, UInt32.and_comm (~~~umask), ← UInt32.and_assoc]
    simp [hcomm, hmode]

end Disk

end Files
