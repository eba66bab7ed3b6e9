import Mathlib.Data.List.Basic
import PickleChat.Identity

/-!
# What reads as a fingerprint

`parse` brings what it is given to upper case as Unicode has it, which makes
ASCII letters of a few characters that are none.
-/

namespace PickleChat

namespace Fingerprint

def cleaned (s : String) : List Char := s.toList.filter fun c => !Text.isWhitespace c && c ≠ '-'

def asciiUppercase (c : Char) : Char := if 'a' ≤ c ∧ c ≤ 'z' then Char.ofNat (c.toNat - 32) else c

/-- The characters that spell a fingerprint: its base32, in letters of either case. -/
def SpeltBy (f : Fingerprint) (text : List Char) : Prop := text.map asciiUppercase = Base32.encode f.bytes

/-- The characters beyond ASCII whose upper case is ASCII. -/
def foreign : List Char := ['ı', 'ſ', 'ß', 'ﬀ', 'ﬁ', 'ﬂ', 'ﬃ', 'ﬄ', 'ﬅ', 'ﬆ']

/-- The ASCII letters these are read as, and any other character as it is. -/
def letters : Char → List Char
  | 'ı' => ['i']
  | 'ſ' => ['s']
  | 'ß' => ['s', 's']
  | 'ﬀ' => ['f', 'f']
  | 'ﬁ' => ['f', 'i']
  | 'ﬂ' => ['f', 'l']
  | 'ﬃ' => ['f', 'f', 'i']
  | 'ﬄ' => ['f', 'f', 'l']
  | 'ﬅ' => ['s', 't']
  | 'ﬆ' => ['s', 't']
  | c => [c]

theorem bytes_inj {f g : Fingerprint} (h : f.bytes = g.bytes) : f = g := by
  cases f
  cases g
  cases h
  rfl

theorem speltBy_inj {f g : Fingerprint} {text : List Char} (hf : f.SpeltBy text) (hg : g.SpeltBy text) : f = g :=
  bytes_inj (Base32.encode_inj (hf.symm.trans hg))

/-- A text is read as a fingerprint exactly if its upper case is the base32 of it. -/
theorem parse_eq_some {s : String} {f : Fingerprint} :
    parse s = some f ↔ (cleaned s).flatMap Text.toUppercase = Base32.encode f.bytes := by
  unfold parse
  simp only
  rw [← Base32.decode_eq_some]
  have hclean : s.toList.filter (fun c => !Text.isWhitespace c && c ≠ '-') = cleaned s := rfl
  rw [hclean]
  cases hdecode : Base32.decode ((cleaned s).flatMap Text.toUppercase) with
  | none => simp
  | some bytes =>
    by_cases hlen : bytes.length = 32
    · simp only [hlen, dite_true, Option.some.injEq]
      exact ⟨fun h => h ▸ rfl, fun h => bytes_inj h⟩
    · simp only [hlen, dite_false, Option.some.injEq, reduceCtorEq, false_iff]
      rintro rfl
      exact hlen f.length_eq

/-! ## Upper case -/

theorem toUppercase_plain {c : Char} (h : c ∉ foreign) : Text.toUppercase c = [asciiUppercase c] := by
  unfold Text.toUppercase asciiUppercase
  by_cases hlower : 'a' ≤ c ∧ c ≤ 'z'
  · rw [if_pos hlower, if_pos hlower]
  · rw [if_neg hlower, if_neg hlower]
    split
    all_goals first | rfl | exact absurd (by decide) h

theorem asciiUppercase_foreign : ∀ c ∈ foreign, asciiUppercase c ∉ Base32.alphabet := by
  have hall : (foreign.all fun c => asciiUppercase c ∉ Base32.alphabet) = true := by decide
  simpa only [List.all_eq_true, decide_eq_true_eq] using hall

theorem letters_plain {c : Char} (h : c ∉ foreign) : letters c = [c] := by
  unfold letters
  split
  all_goals first | rfl | exact absurd (by decide) h

theorem letters_uppercase (c : Char) : (letters c).map asciiUppercase = Text.toUppercase c := by
  by_cases hforeign : c ∈ foreign
  · have hall : (foreign.all fun c => (letters c).map asciiUppercase = Text.toUppercase c) = true := by decide
    simp only [List.all_eq_true, decide_eq_true_eq] at hall
    exact hall c hforeign
  · rw [toUppercase_plain hforeign, letters_plain hforeign, List.map_singleton]

theorem speltBy_letters {f : Fingerprint} {text : List Char} :
    f.SpeltBy (text.flatMap letters) ↔ text.flatMap Text.toUppercase = Base32.encode f.bytes := by
  unfold SpeltBy
  rw [List.map_flatMap]
  simp only [letters_uppercase]

theorem not_speltBy_foreign {f : Fingerprint} {text : List Char} {c : Char} (hc : c ∈ text) (h : c ∈ foreign) :
    ¬ f.SpeltBy text := by
  intro hspelt
  have hmem : asciiUppercase c ∈ Base32.encode f.bytes := hspelt ▸ List.mem_map_of_mem hc
  exact asciiUppercase_foreign c h (Base32.encode_mem hmem)

/-- A fingerprint's text reads as itself, no text spells two of them, and what is read is what is spelt, exactly if
no character beyond ASCII stands for letters of a spelling. -/
theorem parse_exact_iff (s : String) :
    (∀ f : Fingerprint, parse f.toText = some f) ∧
      (∀ (f g : Fingerprint) (text : List Char), f.SpeltBy text → g.SpeltBy text → f = g) ∧
        ((∀ f, parse s = some f ↔ f.SpeltBy (cleaned s)) ↔
          (∀ c ∈ cleaned s, c ∉ foreign) ∨ ∀ f : Fingerprint, ¬ f.SpeltBy ((cleaned s).flatMap letters)) := by
  refine ⟨parse_toText, fun f g text => speltBy_inj, ?_⟩
  simp only [speltBy_letters, ← parse_eq_some]
  by_cases hplain : ∀ c ∈ cleaned s, c ∉ foreign
  · refine iff_of_true (fun f => ?_) (.inl hplain)
    have hupper : (cleaned s).flatMap Text.toUppercase = (cleaned s).map asciiUppercase := by
      rw [List.map_eq_flatMap]
      exact List.flatMap_congr fun c hc => toUppercase_plain (hplain c hc)
    rw [parse_eq_some, hupper, SpeltBy]
  · obtain ⟨c, hc, hforeign⟩ : ∃ c ∈ cleaned s, c ∈ foreign := by simpa using hplain
    constructor
    · exact fun hexact => .inr fun f hf => not_speltBy_foreign hc hforeign ((hexact f).mp hf)
    · rintro (h | hnone) f
      · exact absurd h hplain
      · exact iff_of_false (hnone f) (not_speltBy_foreign hc hforeign)

/-- A text with a long s in it is read as if it had an S. -/
theorem long_s_is_read : ¬ ∀ (s : String) (f : Fingerprint), parse s = some f ↔ f.SpeltBy (cleaned s) := by
  intro h
  have hread := (h "ſaaa-aaaa-aaaa-aaaa-aaaa-aaaa-aaaa-aaaa-aaaa-aaaa-aaaa-aaaa-aaaa"
    ⟨0x90 :: List.replicate 31 0, rfl⟩).mp (by decide +kernel)
  exact not_speltBy_foreign (c := 'ſ') (by decide) (by decide) hread

end Fingerprint

end PickleChat
