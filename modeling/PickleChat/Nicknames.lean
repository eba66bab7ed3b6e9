import PickleChat.State

/-!
# Nicknames

`sanitize_nickname` drops control characters, trims, and cuts what is left to
a length. The cut comes last, and nothing trims what it leaves.
-/

namespace PickleChat

namespace Shared

/-- What is left of a name without control characters. -/
def printable (raw : String) : String := String.ofList (raw.toList.filter fun c => !Text.isControl c)

/-- A name that is fit to be shown, and that sanitising again would not change. -/
structure Normalised (maxLen : Nat) (name : String) : Prop where
  printable : ∀ c ∈ name.toList, Text.isControl c = false
  trimmed : Text.Trimmed name
  visible : name.toList ≠ []
  short : name.toList.length ≤ maxLen
  stable : sanitizeNickname name maxLen = some name

variable {raw name : String} {maxLen : Nat}

theorem mem_printable {c : Char} : c ∈ (printable raw).toList ↔ c ∈ raw.toList ∧ Text.isControl c = false := by
  unfold printable
  simp

theorem printable_eq_self (h : ∀ c ∈ raw.toList, Text.isControl c = false) : printable raw = raw := by
  have hkept : raw.toList.filter (fun c => !Text.isControl c) = raw.toList := by
    apply List.filter_eq_self.mpr
    intro c hc
    simp [h c hc]
  rw [printable, hkept, String.ofList_toList]

theorem sanitizeNickname_eq_some : sanitizeNickname raw maxLen = some name ↔
    name.toList ≠ [] ∧ name.toList = (Text.trim (printable raw)).toList.take maxLen := by
  unfold sanitizeNickname
  simp only
  rw [← printable]
  by_cases hnil : (Text.trim (printable raw)).toList.take maxLen = []
  · rw [if_pos hnil]
    simp only [reduceCtorEq, false_iff, not_and]
    intro hne htake
    exact hne (htake.trans hnil)
  · rw [if_neg hnil, Option.some_inj]
    constructor
    · intro hname
      rw [← hname, String.toList_ofList]
      exact ⟨hnil, rfl⟩
    · intro h
      rw [← h.2, String.ofList_toList]

/-- No nickname is left just of a name that has nothing to show. -/
theorem sanitizeNickname_eq_none (hmax : 1 ≤ maxLen) : sanitizeNickname raw maxLen = none ↔
    ∀ c ∈ raw.toList, Text.isControl c = true ∨ Text.isWhitespace c = true := by
  have hcut : (Text.trim (printable raw)).toList.take maxLen = [] ↔ (Text.trim (printable raw)).toList = [] := by
    rw [List.take_eq_nil_iff]
    apply or_iff_right
    omega
  have hnone : sanitizeNickname raw maxLen = none ↔ (Text.trim (printable raw)).toList.take maxLen = [] := by
    unfold sanitizeNickname
    simp only
    rw [← printable]
    by_cases hnil : (Text.trim (printable raw)).toList.take maxLen = []
    · rw [if_pos hnil]
      exact iff_of_true rfl hnil
    · rw [if_neg hnil]
      exact iff_of_false (Option.some_ne_none _) hnil
  rw [hnone, hcut, Text.toList_trim_eq_nil]
  constructor
  · intro h c hc
    by_cases hcontrol : Text.isControl c = true
    · exact .inl hcontrol
    · exact .inr (h c (mem_printable.mpr ⟨hc, by simpa using hcontrol⟩))
  · intro h c hc
    obtain ⟨hmem, hcontrol⟩ := mem_printable.mp hc
    apply (h c hmem).resolve_left
    simp [hcontrol]

/-- A cut leaves a trimmed text trimmed exactly if it is not made right behind white space. -/
theorem trimmed_take {s : String} (hs : Text.Trimmed s) (hmax : 1 ≤ maxLen)
    (hname : name.toList = s.toList.take maxLen) :
    Text.Trimmed name ↔ ∀ c ∈ s.toList[maxLen - 1]?, Text.isWhitespace c = false := by
  have hzero : maxLen ≠ 0 := by omega
  unfold Text.Trimmed
  rw [hname, List.head?_take, if_neg hzero, List.getLast?_take, if_neg hzero]
  constructor
  · intro h c hc
    apply h.2
    rw [hc]
    rfl
  · intro h
    refine ⟨hs.1, fun c hc => ?_⟩
    cases hlast : s.toList[maxLen - 1]? with
    | none =>
      rw [hlast] at hc
      exact hs.2 c hc
    | some d =>
      rw [hlast] at hc
      cases hc
      exact h c hlast

/-- What is sanitised already stays as it is. -/
theorem sanitizeNickname_stable (hprintable : ∀ c ∈ name.toList, Text.isControl c = false)
    (htrimmed : Text.Trimmed name) (hvisible : name.toList ≠ []) (hshort : name.toList.length ≤ maxLen) :
    sanitizeNickname name maxLen = some name := by
  apply sanitizeNickname_eq_some.mpr
  rw [printable_eq_self hprintable, Text.trim_eq_self htrimmed, List.take_of_length_le hshort]
  exact ⟨hvisible, rfl⟩

theorem normalised_iff (h : sanitizeNickname raw maxLen = some name) : Normalised maxLen name ↔ Text.Trimmed name := by
  obtain ⟨hvisible, hname⟩ := sanitizeNickname_eq_some.mp h
  have hprintable : ∀ c ∈ name.toList, Text.isControl c = false := by
    intro c hc
    rw [hname] at hc
    exact (mem_printable.mp (Text.mem_of_mem_trim (List.mem_of_mem_take hc))).2
  have hshort : name.toList.length ≤ maxLen := by
    rw [hname]
    exact List.length_take_le _ _
  constructor
  · exact fun hnormalised => hnormalised.trimmed
  · intro htrimmed
    exact ⟨hprintable, htrimmed, hvisible, hshort, sanitizeNickname_stable hprintable htrimmed hvisible hshort⟩

/-- A nickname is normalised once and for all exactly if it is not cut right behind white space. -/
theorem nickname_normalised_iff (raw : String) (maxLen : Nat) (hmax : 1 ≤ maxLen) :
    ((∀ name, sanitizeNickname raw maxLen = some name → Normalised maxLen name) ∧
        (sanitizeNickname raw maxLen = none ↔
          ∀ c ∈ raw.toList, Text.isControl c = true ∨ Text.isWhitespace c = true)) ↔
      ∀ c ∈ (Text.trim (printable raw)).toList[maxLen - 1]?, Text.isWhitespace c = false := by
  have htrim := Text.trimmed_trim (printable raw)
  constructor
  · intro h c hc
    have hvisible : (Text.trim (printable raw)).toList.take maxLen ≠ [] := by
      intro hnil
      have hlength := congrArg List.length hnil
      have hlt := (List.getElem?_eq_some_iff.mp hc).1
      rw [List.length_take, List.length_nil] at hlength
      omega
    have hname : sanitizeNickname raw maxLen =
        some (String.ofList ((Text.trim (printable raw)).toList.take maxLen)) := by
      apply sanitizeNickname_eq_some.mpr
      rw [String.toList_ofList]
      exact ⟨hvisible, rfl⟩
    have htrimmed := (h.1 _ hname).trimmed
    exact (trimmed_take htrim hmax String.toList_ofList).mp htrimmed c hc
  · intro h
    refine ⟨fun name hname => ?_, sanitizeNickname_eq_none hmax⟩
    apply (normalised_iff hname).mpr
    exact (trimmed_take htrim hmax (sanitizeNickname_eq_some.mp hname).2).mpr h

theorem nickname_normalised_short : Normalised 32 "ann" := by
  have hend : (Text.trim (printable " ann\n")).toList[32 - 1]? = none := by decide +kernel
  have hname : sanitizeNickname " ann\n" 32 = some "ann" := by decide +kernel
  refine ((nickname_normalised_iff " ann\n" 32 (by decide)).mpr fun c hc => ?_).1 "ann" hname
  rw [hend] at hc
  cases hc

/-- A name whose thirty-second character is a space keeps it at its end. -/
theorem nickname_cut_at_space : ¬ ∀ (raw : String) (maxLen : Nat), 1 ≤ maxLen →
    (∀ name, sanitizeNickname raw maxLen = some name → Normalised maxLen name) ∧
      (sanitizeNickname raw maxLen = none ↔
        ∀ c ∈ raw.toList, Text.isControl c = true ∨ Text.isWhitespace c = true) := by
  intro h
  have hname : sanitizeNickname "aaaaaaaaaaaaaaaaaaaaaaaaaaaaaaa b" 32 = some "aaaaaaaaaaaaaaaaaaaaaaaaaaaaaaa " := by
    decide +kernel
  have htrimmed := ((h _ 32 (by decide)).1 _ hname).trimmed
  have hspace := htrimmed.2 ' ' (by decide +kernel)
  exact absurd hspace (by decide)

end Shared

end PickleChat
