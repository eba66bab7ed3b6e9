/-!
# Base32 without padding

The alphabet of RFC 4648 over bits, most significant first. `encode` fills the
last symbol with zero bits; `decode` refuses a symbol outside the alphabet, a
symbol too many, and trailing bits that are not zero.
-/

namespace Base32

def bits8 (b : UInt8) : List Bool := [7, 6, 5, 4, 3, 2, 1, 0].map b.toNat.testBit

def bits5 (d : Fin 32) : List Bool := [4, 3, 2, 1, 0].map d.val.testBit

def value (l : List Bool) : Nat := l.foldl (fun n b => 2 * n + b.toNat) 0

def alphabet : List Char := "ABCDEFGHIJKLMNOPQRSTUVWXYZ234567".toList

def symbol (d : Fin 32) : Char := alphabet.getD d.val 'A'

def digit (c : Char) : Option (Fin 32) := (List.finRange 32).find? fun d => symbol d = c

def quintets : List Bool → List (Fin 32)
  | a :: b :: c :: d :: e :: l => Fin.ofNat 32 (value [a, b, c, d, e]) :: quintets l
  | [] => []
  | l => [Fin.ofNat 32 (value (l ++ List.replicate (5 - l.length) false))]

/-- Whole octets, and the bits left over. -/
def octets : List Bool → List UInt8 × List Bool
  | a :: b :: c :: d :: e :: f :: g :: h :: l =>
    (UInt8.ofNat (value [a, b, c, d, e, f, g, h]) :: (octets l).1, (octets l).2)
  | l => ([], l)

def encode (bytes : List UInt8) : List Char := (quintets (bytes.flatMap bits8)).map symbol

def decode (text : List Char) : Option (List UInt8) :=
  match text.mapM digit with
  | none => none
  | some ds =>
    let (bytes, rest) := octets (ds.flatMap bits5)
    if rest.length < 5 ∧ rest.all not = true then some bytes else none

theorem digit_symbol : ∀ d : Fin 32, digit (symbol d) = some d := by decide

theorem symbol_mem (d : Fin 32) : symbol d ∈ alphabet := by
  have : ∀ d : Fin 32, symbol d ∈ alphabet := by decide
  exact this d

theorem bits5_value : ∀ a b c d e : Bool, bits5 (Fin.ofNat 32 (value [a, b, c, d, e])) = [a, b, c, d, e] := by
  decide

theorem value_bits8 (b : UInt8) : UInt8.ofNat (value (bits8 b)) = b := by
  have h : ∀ n < 256, value ([7, 6, 5, 4, 3, 2, 1, 0].map n.testBit) = n := by decide +kernel
  unfold bits8
  rw [h b.toNat (UInt8.toNat_lt b), UInt8.ofNat_toNat]

theorem bits_quintets : ∀ l : List Bool, ∃ p < 5, (quintets l).flatMap bits5 = l ++ List.replicate p false
  | a :: b :: c :: d :: e :: l => by
    obtain ⟨p, hp, h⟩ := bits_quintets l
    exact ⟨p, hp, by rw [quintets, List.flatMap_cons, bits5_value, h]; rfl⟩
  | [] => ⟨0, by omega, rfl⟩
  | [a] => ⟨4, by omega, (List.append_nil _).trans (bits5_value a _ _ _ _)⟩
  | [a, b] => ⟨3, by omega, (List.append_nil _).trans (bits5_value a b _ _ _)⟩
  | [a, b, c] => ⟨2, by omega, (List.append_nil _).trans (bits5_value a b c _ _)⟩
  | [a, b, c, d] => ⟨1, by omega, (List.append_nil _).trans (bits5_value a b c d _)⟩

theorem octets_short {l : List Bool} (h : l.length < 8) : octets l = ([], l) := by
  unfold octets
  split
  · simp only [List.length_cons] at h; omega
  · rfl

theorem octets_bits8 {rest : List Bool} (h : rest.length < 8) :
    ∀ bytes : List UInt8, octets (bytes.flatMap bits8 ++ rest) = (bytes, rest)
  | [] => octets_short h
  | b :: bytes => by
    have ih := octets_bits8 h bytes
    have hb := value_bits8 b
    simp only [bits8, List.map_cons, List.map_nil] at hb
    simp only [List.flatMap_cons, bits8, List.map_cons, List.map_nil, List.cons_append, List.nil_append, octets, hb]
    rw [ih]

theorem mapM_digit_symbol : ∀ ds : List (Fin 32), (ds.map symbol).mapM digit = some ds
  | [] => rfl
  | d :: ds => by simp [digit_symbol, mapM_digit_symbol ds]

theorem decode_encode (bytes : List UInt8) : decode (encode bytes) = some bytes := by
  obtain ⟨p, hp, h⟩ := bits_quintets (bytes.flatMap bits8)
  unfold decode encode
  rw [mapM_digit_symbol]
  simp only [h, octets_bits8 (show (List.replicate p false).length < 8 by rw [List.length_replicate]; omega)]
  rw [if_pos ⟨by rw [List.length_replicate]; exact hp, by simp⟩]

theorem encode_mem {bytes : List UInt8} {c : Char} (h : c ∈ encode bytes) : c ∈ alphabet := by
  obtain ⟨d, -, rfl⟩ := List.mem_map.mp h
  exact symbol_mem d

/-! ## Nothing else is accepted -/

theorem symbol_of_digit {c : Char} {d : Fin 32} (h : digit c = some d) : symbol d = c := by
  simpa using List.find?_some h

theorem symbols_of_mapM : ∀ {text : List Char} {ds : List (Fin 32)}, text.mapM digit = some ds → text = ds.map symbol
  | [], ds, h => by
    obtain rfl := Option.some.inj h
    rfl
  | c :: text, ds, h => by
    rw [List.mapM_cons] at h
    obtain ⟨d, hd, h⟩ := Option.bind_eq_some_iff.mp h
    obtain ⟨ds', hds, h⟩ := Option.bind_eq_some_iff.mp h
    obtain rfl := Option.some.inj h
    rw [List.map_cons, symbol_of_digit hd, ← symbols_of_mapM hds]

theorem bits8_value : ∀ a b c d e f g h : Bool, bits8 (UInt8.ofNat (value [a, b, c, d, e, f, g, h])) =
    [a, b, c, d, e, f, g, h] := by
  decide

theorem bits_octets : ∀ l : List Bool, (octets l).1.flatMap bits8 ++ (octets l).2 = l
  | a :: b :: c :: d :: e :: f :: g :: h :: l => by
    rw [octets, List.flatMap_cons, bits8_value, List.append_assoc, bits_octets l]
    rfl
  | [] => rfl
  | [_] => rfl
  | [_, _] => rfl
  | [_, _, _] => rfl
  | [_, _, _, _] => rfl
  | [_, _, _, _, _] => rfl
  | [_, _, _, _, _, _] => rfl
  | [_, _, _, _, _, _, _] => rfl

theorem value_bits5 : ∀ d : Fin 32, Fin.ofNat 32 (value (bits5 d)) = d := by decide

theorem length_bits5 (d : Fin 32) : (bits5 d).length = 5 := rfl

theorem quintets_short {l : List Bool} (hne : l ≠ []) (h : l.length < 5) :
    quintets l = [Fin.ofNat 32 (value (l ++ List.replicate (5 - l.length) false))] := by
  unfold quintets
  split
  · simp only [List.length_cons] at h
    omega
  · exact absurd rfl hne
  · rfl

theorem quintets_last {l : List Bool} {d : Fin 32} {ds : List (Fin 32)} {p : Nat} (hp : p < 5)
    (h : l ++ List.replicate p false = (d :: ds).flatMap bits5) (hne : l ≠ []) (hshort : l.length < 5) :
    quintets l = d :: ds := by
  have hlen := congrArg List.length h
  simp only [List.length_append, List.length_replicate, List.flatMap_cons, length_bits5] at hlen
  cases ds with
  | nil =>
    simp only [List.flatMap_nil, List.length_nil] at hlen
    obtain rfl : p = 5 - l.length := by omega
    rw [List.flatMap_cons, List.flatMap_nil, List.append_nil] at h
    rw [quintets_short hne hshort, h, value_bits5]
  | cons d' ds =>
    simp only [List.flatMap_cons, List.length_append, length_bits5] at hlen
    omega

/-- Bits that are those of some symbols, up to fewer than five zeros at the end, give these symbols again. -/
theorem quintets_of_bits : ∀ {l : List Bool} {ds : List (Fin 32)} {p : Nat}, p < 5 →
    l ++ List.replicate p false = ds.flatMap bits5 → quintets l = ds
  | l, [], p, _, h => by
    obtain ⟨rfl, -⟩ := List.append_eq_nil_iff.mp h
    rfl
  | [], d :: ds, p, hp, h => by
    have hlen := congrArg List.length h
    simp only [List.nil_append, List.length_replicate, List.flatMap_cons, List.length_append, length_bits5] at hlen
    omega
  | a :: b :: c :: d :: e :: l, d₀ :: ds, p, hp, h => by
    rw [List.flatMap_cons] at h
    have h' : [a, b, c, d, e] ++ (l ++ List.replicate p false) = bits5 d₀ ++ ds.flatMap bits5 := h
    obtain ⟨hfirst, hrest⟩ := List.append_inj h' rfl
    rw [quintets, hfirst, value_bits5, quintets_of_bits hp hrest]
  | [a], d₀ :: ds, p, hp, h => quintets_last hp h (by simp) (by simp)
  | [a, b], d₀ :: ds, p, hp, h => quintets_last hp h (by simp) (by simp)
  | [a, b, c], d₀ :: ds, p, hp, h => quintets_last hp h (by simp) (by simp)
  | [a, b, c, d], d₀ :: ds, p, hp, h => quintets_last hp h (by simp) (by simp)

theorem decode_eq_some {text : List Char} {bytes : List UInt8} : decode text = some bytes ↔ text = encode bytes := by
  constructor
  · intro h
    unfold decode at h
    cases hds : text.mapM digit with
    | none => simp [hds] at h
    | some ds =>
      simp only [hds, Option.ite_none_right_eq_some, Option.some.injEq] at h
      obtain ⟨⟨hshort, hzero⟩, rfl⟩ := h
      have hrest : (octets (ds.flatMap bits5)).2 = List.replicate (octets (ds.flatMap bits5)).2.length false := by
        refine List.eq_replicate_iff.mpr ⟨rfl, fun b hb => ?_⟩
        simpa using List.all_eq_true.mp hzero b hb
      have hbits := bits_octets (ds.flatMap bits5)
      rw [hrest] at hbits
      rw [encode, quintets_of_bits hshort hbits]
      exact symbols_of_mapM hds
  · rintro rfl
    exact decode_encode bytes

theorem encode_inj {bytes bytes' : List UInt8} (h : encode bytes = encode bytes') : bytes = bytes' := by
  have hdecode := congrArg decode h
  rw [decode_encode, decode_encode] at hdecode
  exact Option.some.inj hdecode

example : encode [0x66, 0x6f, 0x6f] = "MZXW6".toList := by decide

end Base32
