import Mathlib.Algebra.Ring.Nat

/-!
# Bytes and streams of them

The little-endian bytes of a 32-bit word, and a stream of bytes that arrive in
pieces and may break. A read waits until its buffer is full; what it finds
depends on the bytes alone, however they arrive.
-/

namespace Stream

/-! ## Words -/

/-- `u32::to_le_bytes`. -/
def u32Le (n : UInt32) : List UInt8 :=
  [.ofNat n.toNat, .ofNat (n.toNat / 2 ^ 8), .ofNat (n.toNat / 2 ^ 16), .ofNat (n.toNat / 2 ^ 24)]

/-- `u32::from_le_bytes`. -/
def fromLe : List UInt8 → UInt32
  | [] => 0
  | b :: bs => .ofNat (b.toNat + 2 ^ 8 * (fromLe bs).toNat)

@[simp] theorem length_u32Le (n : UInt32) : (u32Le n).length = 4 := rfl

theorem fromLe_u32Le (n : UInt32) : fromLe (u32Le n) = n := by
  apply UInt32.toNat_inj.mp
  have hn := n.toNat_lt
  simp only [fromLe, u32Le, UInt32.toNat_ofNat', UInt8.toNat_ofNat', UInt32.toNat_zero]
  omega

theorem u32Le_fromLe {bs : List UInt8} (h : bs.length = 4) : u32Le (fromLe bs) = bs := by
  match bs, h with
  | [a, b, c, d], _ =>
    have ha := a.toNat_lt
    have hb := b.toNat_lt
    have hc := c.toNat_lt
    have hd := d.toNat_lt
    have hn : (fromLe [a, b, c, d]).toNat = a.toNat + 2 ^ 8 * b.toNat + 2 ^ 16 * c.toNat + 2 ^ 24 * d.toNat := by
      simp only [fromLe, UInt32.toNat_ofNat', UInt32.toNat_zero]
      omega
    simp only [u32Le, hn, List.cons.injEq, and_true]
    refine ⟨?_, ?_, ?_, ?_⟩ <;> apply UInt8.toNat_inj.mp <;> simp only [UInt8.toNat_ofNat'] <;> omega

/-! ## Arriving bytes -/

inductive IoError where
  | unexpectedEof
  | other
  deriving DecidableEq

/-- What one read of a stream finds: some bytes, or that the stream broke. -/
inductive Arrival where
  | bytes (b : UInt8) (bs : List UInt8)
  | fault

/-- What has yet to arrive; at its end the peer has closed. -/
abbrev Source := List Arrival

def Arrival.content : Arrival → List UInt8
  | bytes b bs => b :: bs
  | fault => []

def content (s : Source) : List UInt8 := s.flatMap Arrival.content

def Unbroken (s : Source) : Prop := .fault ∉ s

/-- The rest of a piece. -/
def putBack (rest : List UInt8) (s : Source) : Source :=
  match rest with
  | [] => s
  | b :: bs => .bytes b bs :: s

/-- `read_exact` into a buffer of `n` bytes, and what is left of the stream. -/
def readExact (n : Nat) : Source → Except IoError (List UInt8) × Source
  | [] => if n = 0 then (.ok [], []) else (.error .unexpectedEof, [])
  | .fault :: s => if n = 0 then (.ok [], .fault :: s) else (.error .other, s)
  | .bytes b bs :: s =>
    if n = 0 then (.ok [], .bytes b bs :: s) else
    if n ≤ (b :: bs).length then (.ok ((b :: bs).take n), putBack ((b :: bs).drop n) s) else
    match readExact (n - (b :: bs).length) s with
    | (.ok more, s) => (.ok ((b :: bs) ++ more), s)
    | (.error e, s) => (.error e, s)

theorem content_putBack (rest : List UInt8) (s : Source) : content (putBack rest s) = rest ++ content s := by
  cases rest <;> rfl

theorem unbroken_putBack {rest : List UInt8} {s : Source} (h : Unbroken s) : Unbroken (putBack rest s) := by
  cases rest with
  | nil => exact h
  | cons b bs => simpa [putBack, Unbroken] using h

theorem readExact_of_le {n : Nat} {s : Source} (hs : Unbroken s) (h : n ≤ (content s).length) :
    ∃ rest, readExact n s = (.ok ((content s).take n), rest) ∧ content rest = (content s).drop n ∧ Unbroken rest := by
  induction s generalizing n with
  | nil =>
    obtain rfl : n = 0 := by simpa [content] using h
    exact ⟨[], rfl, rfl, hs⟩
  | cons a s ih =>
    have hs' : Unbroken s := fun hm => hs (List.mem_cons_of_mem _ hm)
    cases a with
    | fault => exact absurd List.mem_cons_self hs
    | bytes b bs =>
      have hcontent : content (.bytes b bs :: s) = (b :: bs) ++ content s := rfl
      unfold readExact
      by_cases h0 : n = 0
      · subst h0
        exact ⟨_, if_pos rfl, by simp, hs⟩
      rw [if_neg h0]
      by_cases hn : n ≤ (b :: bs).length
      · rw [if_pos hn, hcontent, List.take_append_of_le_length hn, List.drop_append_of_le_length hn]
        exact ⟨_, rfl, content_putBack .., unbroken_putBack hs'⟩
      · have hle : n - (b :: bs).length ≤ (content s).length := by
          rw [hcontent, List.length_append] at h
          omega
        obtain ⟨rest, hr, hc, hu⟩ := ih hs' hle
        have htake : (b :: bs).take n = b :: bs := List.take_of_length_le (by omega)
        have hdrop : (b :: bs).drop n = [] := List.drop_of_length_le (by omega)
        rw [if_neg hn, hr, hcontent, List.take_append, List.drop_append, htake, hdrop, List.nil_append]
        exact ⟨rest, rfl, hc, hu⟩

theorem readExact_of_lt {n : Nat} {s : Source} (hs : Unbroken s) (h : (content s).length < n) :
    readExact n s = (.error .unexpectedEof, []) := by
  induction s generalizing n with
  | nil => exact if_neg (by omega)
  | cons a s ih =>
    have hs' : Unbroken s := fun hm => hs (List.mem_cons_of_mem _ hm)
    cases a with
    | fault => exact absurd List.mem_cons_self hs
    | bytes b bs =>
      have hcontent : content (.bytes b bs :: s) = (b :: bs) ++ content s := rfl
      rw [hcontent, List.length_append] at h
      unfold readExact
      rw [if_neg (by omega), if_neg (by omega), ih hs' (by omega)]

end Stream
