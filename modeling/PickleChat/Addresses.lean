import PickleChat.Lib.Text

/-!
# What a user types for a server

A server is pinned under the address as typed, with the default port made
explicit. The port is looked for by its colon, and a bare IPv6 address has
several.
-/

namespace PickleChat

namespace Address

def portSuffix : String := ":42071"

/-- What follows the last closing bracket, the last character first. -/
def afterBracket (address : String) : List Char := address.toList.reverse.takeWhile (· ≠ ']')

def hasPort (address : String) : Bool :=
  if ']' ∈ address.toList then decide (':' ∈ afterBracket address) else address.toList.count ':' == 1

def canonicalAddress (input : String) : String :=
  let trimmed := Text.trim input
  if hasPort trimmed then trimmed else trimmed ++ portSuffix

/-- `toSocketAddrs` is the lookup of the standard library. -/
def resolve {σ : Type} (toSocketAddrs : String → Except String (List σ)) (input : String) : Except String σ :=
  let trimmed := Text.trim input
  if trimmed = "" then .error "Enter a server address." else
  let withPort := if hasPort trimmed then trimmed else trimmed ++ portSuffix
  match toSocketAddrs withPort with
  | .error e => .error s!"Could not look up {trimmed}: {e}"
  | .ok [] => .error s!"{trimmed} did not resolve to any address."
  | .ok (addr :: _) => .ok addr

def normaliseServerKey (key : String) : String :=
  String.ofList ((Text.trim key).toList.map Text.toLowercase)

/-- What a server is pinned under: `connect` hands the canonical address to `with_server_key`. -/
def pinKey (input : String) : String := normaliseServerKey (canonicalAddress input)

/-- An IPv6 address without its brackets: colons, and none of them a port's. -/
def IsBareIpv6 (address : String) : Prop := ']' ∉ address.toList ∧ 2 ≤ address.toList.count ':'

instance (address : String) : Decidable (IsBareIpv6 address) := inferInstanceAs (Decidable (_ ∧ _))

/-- An address without a port, with the default one as a user writes it: an
IPv6 address goes into brackets first. -/
def withDefaultPort (address : String) : String :=
  if IsBareIpv6 address then "[" ++ address ++ "]" ++ portSuffix else address ++ portSuffix

/-- One server, one key. -/
structure OneKey (input : String) : Prop where
  idem : canonicalAddress (canonicalAddress input) = canonicalAddress input
  explicit : hasPort (Text.trim input) = false → ∀ typed, Text.trim typed = withDefaultPort (Text.trim input) →
    canonicalAddress typed = canonicalAddress input ∧ pinKey typed = pinKey input

/-! ## Ports -/

theorem toList_suffix : portSuffix.toList = [':', '4', '2', '0', '7', '1'] := by decide

theorem trimmed_suffix : Text.Trimmed portSuffix := by
  unfold Text.Trimmed
  rw [toList_suffix]
  constructor
  · intro c hc
    cases hc
    decide
  · intro c hc
    cases hc
    decide

theorem trim_withPort (input : String) :
    Text.trim (Text.trim input ++ portSuffix) = Text.trim input ++ portSuffix :=
  Text.trim_eq_self (Text.trimmed_append (Text.trimmed_trim input) trimmed_suffix)

/-- An address with a port written after it carries one, but for a bare IPv6 address. -/
theorem hasPort_append {address : String} (h : hasPort address = false) :
    hasPort (address ++ portSuffix) = true ↔ ¬ IsBareIpv6 address := by
  unfold hasPort at h ⊢
  unfold IsBareIpv6 afterBracket
  simp only [String.toList_append, List.mem_append, toList_suffix, List.count_append]
  by_cases hbracket : ']' ∈ address.toList
  · have hafter : (address.toList ++ [':', '4', '2', '0', '7', '1']).reverse.takeWhile (· ≠ ']') =
        ['1', '7', '0', '2', '4', ':'] ++ address.toList.reverse.takeWhile (· ≠ ']') := by simp
    rw [if_pos (.inl hbracket), hafter]
    simp [hbracket]
  · rw [if_neg hbracket] at h
    have hcount : address.toList.count ':' ≠ 1 := by simpa using h
    have hsuffix : List.count ':' [':', '4', '2', '0', '7', '1'] = 1 := by decide
    have hfree : ']' ∉ [':', '4', '2', '0', '7', '1'] := by decide
    rw [if_neg (by tauto), hsuffix]
    simp only [beq_iff_eq, hbracket, not_false_eq_true, true_and]
    omega

theorem canonicalAddress_eq {input : String} (h : hasPort (Text.trim input) = true) :
    canonicalAddress input = Text.trim input := by
  unfold canonicalAddress
  simp only [h, if_true]

theorem canonicalAddress_default {input : String} (h : hasPort (Text.trim input) = false) :
    canonicalAddress input = Text.trim input ++ portSuffix := by
  unfold canonicalAddress
  simp only [h, Bool.false_eq_true, if_false]

theorem canonicalAddress_eq_self {address : String} (h : Text.trim address = address) :
    canonicalAddress address = address ↔ hasPort address = true := by
  constructor
  · intro hself
    by_contra hport
    rw [canonicalAddress_default (by rw [h]; simpa using hport), h] at hself
    have hlength := congrArg (fun s => s.toList.length) hself
    simp only [String.toList_append, List.length_append, toList_suffix] at hlength
    simp at hlength
  · intro hport
    have hkept : canonicalAddress address = Text.trim address := canonicalAddress_eq (by rw [h]; exact hport)
    rw [hkept, h]

theorem bareIpv6_hasPort {address : String} (h : IsBareIpv6 address) : hasPort address = false := by
  unfold hasPort
  rw [if_neg h.1]
  have hcount := h.2
  simp only [beq_eq_false_iff_ne, ne_eq]
  omega

theorem bareIpv6_not_oneKey {input : String} (h : IsBareIpv6 (Text.trim input)) : ¬ OneKey input := by
  rintro ⟨hidem, -⟩
  have hport := bareIpv6_hasPort h
  rw [canonicalAddress_default hport, canonicalAddress_eq_self (trim_withPort input)] at hidem
  exact (hasPort_append hport).mp hidem h

/-- One server has one key however it is typed, but for a bare IPv6 address. -/
theorem oneKey_iff (input : String) : OneKey input ↔ ¬ IsBareIpv6 (Text.trim input) := by
  constructor
  · exact fun hone hbare => bareIpv6_not_oneKey hbare hone
  · intro hbare
    cases hport : hasPort (Text.trim input) with
    | true =>
      refine ⟨?_, fun hnone => ?_⟩
      · rw [canonicalAddress_eq hport, canonicalAddress_eq_self (Text.trim_trim input)]
        exact hport
      · rw [hport] at hnone
        cases hnone
    | false =>
      have hfull := (hasPort_append hport).mpr hbare
      refine ⟨?_, fun _ typed htyped => ?_⟩
      · rw [canonicalAddress_default hport, canonicalAddress_eq_self (trim_withPort input)]
        exact hfull
      · rw [withDefaultPort, if_neg hbare] at htyped
        have hsame : canonicalAddress typed = canonicalAddress input := by
          rw [canonicalAddress_default hport, canonicalAddress_eq (by rw [htyped]; exact hfull), htyped]
        exact ⟨hsame, congrArg normaliseServerKey hsame⟩

/-- The lookup of a host that has only its loopback: what follows the last colon is the port. -/
def loopback : String → Except String (List String)
  | "::1:42071" => .ok ["[::1]:42071"]
  | "[::1]:42071" => .ok ["[::1]:42071"]
  | "127.0.0.1:42071" => .ok ["127.0.0.1:42071"]
  | _ => .error "failed to lookup address information: Name or service not known"

/-- `::1` and `[::1]:42071` reach one server and are pinned as two. -/
theorem loopback_has_two_keys :
    ¬ ∀ input addr, resolve loopback input = .ok addr → OneKey input := by
  intro h
  exact bareIpv6_not_oneKey (by decide +kernel) (h "::1" "[::1]:42071" (by decide +kernel))

example : resolve loopback "[::1]:42071" = .ok "[::1]:42071" ∧ pinKey " [::1]:42071" = "[::1]:42071" ∧
    pinKey "::1" = "::1:42071" := by decide +kernel

end Address

end PickleChat
