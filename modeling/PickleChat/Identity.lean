import PickleChat.Lib.Base32
import PickleChat.Lib.Text

/-!
# Identities

A fingerprint is the SHA-256 of a public key; grants, bans and ownership name
fingerprints. Storage keeps them as text: lower-case base32 in hyphenated
groups of four.
-/

namespace PickleChat

structure Fingerprint where
  bytes : List UInt8
  length_eq : bytes.length = 32
  deriving DecidableEq

/-- The public half of an identity, by what the server reads off it: the
fingerprint of its key and the security level of its proof of work. -/
structure PublicIdentity where
  fingerprint : Fingerprint
  securityLevel : UInt32
  deriving DecidableEq

namespace Fingerprint

def chunks : List Char → List (List Char)
  | a :: b :: c :: d :: l => [a, b, c, d] :: chunks l
  | [] => []
  | l => [l]

def toText (f : Fingerprint) : String :=
  String.ofList (List.intercalate ['-'] (chunks ((Base32.encode f.bytes).map Text.toLowercase)))

def parse (s : String) : Option Fingerprint :=
  let cleaned := (s.toList.filter fun c => !Text.isWhitespace c && c ≠ '-').flatMap Text.toUppercase
  match Base32.decode cleaned with
  | some bytes => if h : bytes.length = 32 then some ⟨bytes, h⟩ else none
  | none => none

theorem flatten_chunks : ∀ l : List Char, (chunks l).flatten = l
  | a :: b :: c :: d :: l => by simp [chunks, flatten_chunks l]
  | [] => rfl
  | [_] => rfl
  | [_, _] => rfl
  | [_, _, _] => rfl

theorem filter_intercalate (p : Char → Bool) (hsep : p '-' = false) :
    ∀ ls : List (List Char), (List.intercalate ['-'] ls).filter p = ls.flatten.filter p
  | [] => rfl
  | [l] => by simp [List.intercalate]
  | l :: l' :: ls => by
    have ih := filter_intercalate p hsep (l' :: ls)
    simp only [List.intercalate, List.intersperse_cons_cons, List.flatten_cons, List.filter_append] at ih ⊢
    rw [ih]
    simp [hsep]

theorem lowercase_kept : ∀ c ∈ Base32.alphabet,
    (!Text.isWhitespace (Text.toLowercase c) && Text.toLowercase c ≠ '-') = true ∧
      Text.toUppercase (Text.toLowercase c) = [c] := by
  have h : Base32.alphabet.all (fun c => (!Text.isWhitespace (Text.toLowercase c) && Text.toLowercase c ≠ '-') &&
      decide (Text.toUppercase (Text.toLowercase c) = [c])) = true := by decide +kernel
  simpa using h

theorem parse_toText (f : Fingerprint) : parse f.toText = some f := by
  have hkeep : ∀ c ∈ (Base32.encode f.bytes).map Text.toLowercase,
      (!Text.isWhitespace c && c ≠ '-') = true := by
    intro c hc
    obtain ⟨d, hd, rfl⟩ := List.mem_map.mp hc
    exact (lowercase_kept d (Base32.encode_mem hd)).1
  have hup : ((Base32.encode f.bytes).map Text.toLowercase).flatMap Text.toUppercase = Base32.encode f.bytes := by
    rw [List.flatMap_map]
    have : ∀ l : List Char, (∀ c ∈ l, c ∈ Base32.alphabet) →
        l.flatMap (fun c => Text.toUppercase (Text.toLowercase c)) = l := by
      intro l
      induction l with
      | nil => simp
      | cons c l ih =>
        intro h
        rw [List.flatMap_cons, (lowercase_kept c (h c (by simp))).2, ih fun d hd => h d (by simp [hd])]
        rfl
    exact this _ fun c hc => Base32.encode_mem hc
  unfold parse toText
  rw [String.toList_ofList, filter_intercalate _ (by decide), flatten_chunks, List.filter_eq_self.mpr hkeep]
  simp only [hup, Base32.decode_encode, f.length_eq, dite_true]

theorem toText_inj {f g : Fingerprint} (h : f.toText = g.toText) : f = g := by
  have := congrArg parse h
  rw [parse_toText, parse_toText] at this
  exact Option.some.inj this

/-- A fingerprint with one byte throughout, for examples. -/
def rep (b : UInt8) : Fingerprint := ⟨List.replicate 32 b, List.length_replicate⟩

example : parse "AAAA-aaaa aaaaaaaaaaaaaaaaaaaaaaaaaaaaaaaaaaaaaaaaaaaa" = some (rep 0) := by decide +kernel

end Fingerprint

end PickleChat
