import Mathlib.Data.List.DropRight

/-!
# Text

Trimming, words, case and decimal numbers as the Rust standard library has them,
and the lines of a text.
-/

namespace Text

/-- Unicode `White_Space`. -/
def isWhitespace (c : Char) : Bool :=
  let n := c.toNat
  (0x9 ≤ n && n ≤ 0xD) || n == 0x20 || n == 0x85 || n == 0xA0 || n == 0x1680 || (0x2000 ≤ n && n ≤ 0x200A) ||
    n == 0x2028 || n == 0x2029 || n == 0x202F || n == 0x205F || n == 0x3000

/-- Unicode `Cc`. -/
def isControl (c : Char) : Bool := c.toNat ≤ 0x1F || (0x7F ≤ c.toNat && c.toNat ≤ 0x9F)

def trim (s : String) : String :=
  String.ofList ((s.toList.dropWhile isWhitespace).reverse.dropWhile isWhitespace).reverse

/-- Upper case, where it is ASCII. A character whose upper case is not ASCII
stands for itself: neither is a base32 symbol. -/
def toUppercase (c : Char) : List Char :=
  if 'a' ≤ c ∧ c ≤ 'z' then [Char.ofNat (c.toNat - 32)] else
  match c with
  | 'ı' => ['I']
  | 'ſ' => ['S']
  | 'ß' => ['S', 'S']
  | 'ﬀ' => ['F', 'F']
  | 'ﬁ' => ['F', 'I']
  | 'ﬂ' => ['F', 'L']
  | 'ﬃ' => ['F', 'F', 'I']
  | 'ﬄ' => ['F', 'F', 'L']
  | 'ﬅ' => ['S', 'T']
  | 'ﬆ' => ['S', 'T']
  | c => [c]

def toLowercase (c : Char) : Char := if 'A' ≤ c ∧ c ≤ 'Z' then Char.ofNat (c.toNat + 32) else c

/-- `u32::to_string`. -/
def decimal (n : UInt32) : String := String.ofList (Nat.toDigits 10 n.toNat)

/-- `str::parse::<u32>`: an optional plus, then digits only, in range. -/
def parseU32 (s : String) : Option UInt32 :=
  let digits := match s.toList with
    | '+' :: ds => ds
    | ds => ds
  if digits ≠ [] ∧ digits.all Char.isDigit = true ∧ Nat.ofDigitChars 10 digits 0 < UInt32.size then
    some (UInt32.ofNat (Nat.ofDigitChars 10 digits 0))
  else none

/-- One character inside a `{:?}` string. Rust also escapes characters beyond ASCII that
do not print and are no controls; here they stay as they are. -/
def escape (c : Char) : List Char :=
  match c with
  | '"' => ['\\', '"']
  | '\\' => ['\\', '\\']
  | '\n' => ['\\', 'n']
  | '\r' => ['\\', 'r']
  | '\t' => ['\\', 't']
  | '\x00' => ['\\', '0']
  | c => if isControl c then ['\\', 'u', '\x7b'] ++ Nat.toDigits 16 c.toNat ++ ['\x7d'] else [c]

/-- `{:?}` of a string. -/
def debug (s : String) : String := String.ofList (['"'] ++ s.toList.flatMap escape ++ ['"'])

theorem parseU32_decimal (n : UInt32) : parseU32 (decimal n) = some n := by
  have hdig : ∀ c ∈ Nat.toDigits 10 n.toNat, c.isDigit = true := fun c hc =>
    Nat.isDigit_of_mem_toDigits (by decide) (by decide) hc
  have hnil : Nat.toDigits 10 n.toNat ≠ [] := Nat.toDigits_ne_nil
  unfold parseU32 decimal
  rw [String.toList_ofList]
  have hplus : (match Nat.toDigits 10 n.toNat with | '+' :: ds => ds | ds => ds) = Nat.toDigits 10 n.toNat := by
    split
    · rename_i ds h
      exact absurd (hdig '+' (by simp [h])) (by decide)
    · rfl
  simp only [hplus, Nat.ofDigitChars_toDigits (show 1 < 10 by decide) (Nat.le_refl 10)]
  rw [if_pos ⟨hnil, List.all_eq_true.mpr hdig, UInt32.toNat_lt_size n⟩, UInt32.ofNat_toNat]

example : trim "  general \t" = "general" := by decide

example : debug "a\tb" = "\"a\\tb\"" := by decide

/-! ## Trimming -/

def Trimmed (s : String) : Prop :=
  (∀ c ∈ s.toList.head?, isWhitespace c = false) ∧ ∀ c ∈ s.toList.getLast?, isWhitespace c = false

theorem toList_trim (s : String) :
    (trim s).toList = (s.toList.dropWhile isWhitespace).rdropWhile isWhitespace := by
  rw [trim, String.toList_ofList, List.rdropWhile]

theorem trim_eq_self {s : String} (h : Trimmed s) : trim s = s := by
  apply String.toList_injective
  rw [toList_trim]
  have hfront : s.toList.dropWhile isWhitespace = s.toList := by
    cases hs : s.toList with
    | nil => rfl
    | cons c rest =>
      have hc := h.1 c (by simp [hs])
      simp [hc]
  rw [hfront, List.rdropWhile_eq_self_iff]
  intro hne
  simpa using h.2 _ (List.getLast?_eq_some_getLast hne)

theorem trimmed_trim (s : String) : Trimmed (trim s) := by
  constructor
  · intro c hc
    rw [toList_trim] at hc
    obtain ⟨rest, hrest⟩ := List.head?_eq_some_iff.mp hc
    obtain ⟨dropped, hdropped⟩ := List.rdropWhile_prefix isWhitespace (s.toList.dropWhile isWhitespace)
    rw [hrest, List.cons_append] at hdropped
    simpa [← hdropped] using List.head?_dropWhile_not isWhitespace s.toList
  · intro c hc
    rw [toList_trim] at hc
    have hne : (s.toList.dropWhile isWhitespace).rdropWhile isWhitespace ≠ [] := by
      rintro hnil
      simp [hnil] at hc
    have hlast := List.rdropWhile_last_not isWhitespace _ hne
    rw [List.getLast?_eq_some_getLast hne] at hc
    cases hc
    simpa using hlast

theorem mem_of_mem_trim {s : String} {c : Char} (h : c ∈ (trim s).toList) : c ∈ s.toList := by
  rw [toList_trim] at h
  apply (List.dropWhile_sublist isWhitespace).subset
  exact (List.rdropWhile_prefix isWhitespace _).subset h

/-- Trimming leaves nothing of white space only. -/
theorem toList_trim_eq_nil {s : String} : (trim s).toList = [] ↔ ∀ c ∈ s.toList, isWhitespace c = true := by
  rw [toList_trim, List.rdropWhile_eq_nil_iff]
  constructor
  · intro h
    rw [← List.dropWhile_eq_nil_iff]
    cases hfront : s.toList.dropWhile isWhitespace with
    | nil => rfl
    | cons c rest =>
      have hspace : isWhitespace c = true := h c (by simp [hfront])
      have hfirst := List.head?_dropWhile_not isWhitespace s.toList
      rw [hfront, List.head?_cons] at hfirst
      simp [hspace] at hfirst
  · intro h c hc
    exact h c ((List.dropWhile_sublist isWhitespace).subset hc)

theorem trim_trim (s : String) : trim (trim s) = trim s := trim_eq_self (trimmed_trim s)

/-- What begins trimmed and goes on with what ends so is trimmed. -/
theorem trimmed_append {s t : String} (hs : Trimmed s) (ht : Trimmed t) : Trimmed (s ++ t) := by
  constructor
  · intro c hc
    rw [String.toList_append, List.head?_append] at hc
    cases hhead : s.toList.head? with
    | none => exact ht.1 c (by simpa [hhead] using hc)
    | some d => exact hs.1 c (by simpa [hhead] using hc)
  · intro c hc
    rw [String.toList_append, List.getLast?_append] at hc
    cases hlast : t.toList.getLast? with
    | none => exact hs.2 c (by simpa [hlast] using hc)
    | some d => exact ht.2 c (by simpa [hlast] using hc)

theorem utf8ByteSize_replicate (n : Nat) : (String.ofList (List.replicate n 'x')).utf8ByteSize = n := by
  induction n with
  | zero => rfl
  | succ n ih =>
    have hx : (String.singleton 'x').utf8ByteSize = 1 := by decide
    rw [List.replicate_succ, String.ofList_cons, String.utf8ByteSize_append, hx, ih, Nat.add_comm]

theorem utf8ByteSize_le (s : String) : s.utf8ByteSize ≤ 4 * s.toList.length := by
  have hchars : ∀ l : List Char, (String.ofList l).utf8ByteSize ≤ 4 * l.length := by
    intro l
    induction l with
    | nil => simp
    | cons c l ih =>
      have hc := c.utf8Size_le_four
      rw [String.ofList_cons, String.utf8ByteSize_append, String.utf8ByteSize_singleton, List.length_cons]
      omega
  simpa using hchars s.toList

/-! ## Words and lines -/

def splitWhitespace (s : String) : List String :=
  ((s.toList.splitOnP isWhitespace).filter fun w => !w.isEmpty).map String.ofList

/-- Whatever some reader may end a line at: a control character, or Unicode's two separators. -/
def endsLine (c : Char) : Bool := isControl c || c.toNat == 0x2028 || c.toNat == 0x2029

def lines (s : String) : List String := (s.toList.splitOnP endsLine).map String.ofList

def OneLine (s : String) : Prop := ∀ c ∈ s.toList, endsLine c = false

/-- For a text that is written out: its characters are there to be looked at. -/
theorem oneLine_ofList {l : List Char} (h : (l.all fun c => !endsLine c) = true) : OneLine (String.ofList l) := by
  intro c hc
  rw [String.toList_ofList] at hc
  simpa using List.all_eq_true.mp h c hc

theorem head?_ofList (c : Char) (l : List Char) : (String.ofList (c :: l)).toList.head? = some c := by
  rw [String.toList_ofList, List.head?_cons]

theorem head?_append {s : String} {c : Char} (h : s.toList.head? = some c) (t : String) :
    (s ++ t).toList.head? = some c := by
  rw [String.toList_append, List.head?_append, h, Option.some_or]

theorem OneLine.append {s t : String} (hs : OneLine s) (ht : OneLine t) : OneLine (s ++ t) := by
  intro c hc
  rw [String.toList_append, List.mem_append] at hc
  exact hc.elim (hs c) (ht c)

theorem mem_splitOnP {α : Type} {p : α → Bool} {l w : List α} (hw : w ∈ l.splitOnP p) :
    ∀ a ∈ w, a ∈ l ∧ p a = false := by
  induction l generalizing w with
  | nil =>
    rw [List.splitOnP_nil, List.mem_singleton] at hw
    simp [hw]
  | cons x l ih =>
    rw [List.splitOnP_cons_eq_if_modifyHead] at hw
    obtain ⟨first, rest, hsplit⟩ := List.exists_cons_of_ne_nil (List.splitOnP_ne_nil p l)
    have hlater : ∀ w' ∈ first :: rest, ∀ a ∈ w', a ∈ x :: l ∧ p a = false := by
      intro w' hw' a ha
      obtain ⟨hmem, hp⟩ := ih (hsplit ▸ hw') a ha
      exact ⟨List.mem_cons_of_mem _ hmem, hp⟩
    rw [hsplit, List.modifyHead_cons] at hw
    by_cases hx : p x
    · rw [if_pos hx] at hw
      rcases List.mem_cons.mp hw with rfl | hw
      · simp
      · exact hlater w hw
    · rw [if_neg hx] at hw
      rcases List.mem_cons.mp hw with rfl | hw
      · intro a ha
        rcases List.mem_cons.mp ha with rfl | ha
        · exact ⟨List.mem_cons_self, by simpa using hx⟩
        · exact hlater first List.mem_cons_self a ha
      · exact hlater w (List.mem_cons_of_mem _ hw)

/-- A word has no white space, and nothing that the text has not. -/
theorem mem_splitWhitespace {s w : String} (hw : w ∈ splitWhitespace s) :
    ∀ c ∈ w.toList, c ∈ s.toList ∧ isWhitespace c = false := by
  obtain ⟨l, hl, rfl⟩ := List.mem_map.mp hw
  rw [String.toList_ofList]
  exact mem_splitOnP (List.mem_filter.mp hl).1

/-- What is put between words is all that joining them adds. -/
theorem mem_intercalate {sep : String} {ws : List String} {c : Char} (hc : c ∈ (sep.intercalate ws).toList) :
    c ∈ sep.toList ∨ ∃ w ∈ ws, c ∈ w.toList := by
  induction ws with
  | nil =>
    rw [String.intercalate_nil] at hc
    cases hc
  | cons w ws ih =>
    by_cases hnil : ws = []
    · rw [hnil, String.intercalate_singleton] at hc
      exact .inr ⟨w, List.mem_cons_self, hc⟩
    · rw [String.intercalate_cons_of_ne_nil hnil, String.toList_append, String.toList_append, List.append_assoc,
        List.mem_append, List.mem_append] at hc
      rcases hc with hc | hc | hc
      · exact .inr ⟨w, List.mem_cons_self, hc⟩
      · exact .inl hc
      · rcases ih hc with hc | ⟨w', hw', hc⟩
        · exact .inl hc
        · exact .inr ⟨w', List.mem_cons_of_mem _ hw', hc⟩

/-- Lines that are written with a line feed behind each are read back. -/
theorem lines_join {ls : List String} (h : ∀ l ∈ ls, OneLine l) :
    lines (String.join (ls.map fun l => l ++ "\n")) = ls ++ [""] := by
  have hfeed : endsLine '\n' = true := by decide
  induction ls with
  | nil => simp [lines]
  | cons l ls ih =>
    have hrest := ih fun l' hl' => h l' (List.mem_cons_of_mem _ hl')
    unfold lines at hrest ⊢
    have htext : (String.join ((l :: ls).map fun l => l ++ "\n")).toList =
        l.toList ++ '\n' :: (String.join (ls.map fun l => l ++ "\n")).toList := by
      simp [String.join_cons]
    rw [htext, List.splitOnP_append_cons_of_forall_mem (h l List.mem_cons_self) '\n' hfeed, List.map_cons, hrest,
      String.ofList_toList, List.cons_append]

end Text
