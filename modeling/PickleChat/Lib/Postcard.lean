import Mathlib.Algebra.Order.BigOperators.Group.List
import Mathlib.Algebra.Order.Ring.Nat

/-!
# Lengths in the postcard format

Unsigned integers take seven bits a byte, signed ones are folded onto unsigned
ones first, strings and sequences carry their length in front, an option and a
variant one byte and what is inside.
-/

namespace Postcard

/-- The bytes of an unsigned integer. -/
def varint (n : Nat) : Nat := n.log2 / 7 + 1

/-- `0, -1, 1, -2, ..` in order. -/
def zigzag (n : Int) : Nat := if 0 ≤ n then 2 * n.toNat else 2 * (-n).toNat - 1

def str (s : String) : Nat := varint s.utf8ByteSize + s.utf8ByteSize

section
variable {α : Type}

def opt (f : α → Nat) : Option α → Nat
  | none => 1
  | some a => 1 + f a

def seq (f : α → Nat) (l : List α) : Nat := varint l.length + (l.map f).sum

end

theorem varint_le {n k : Nat} (hk : 0 < k) (h : n < 2 ^ (7 * k)) : varint n ≤ k := by
  unfold varint
  by_cases hn : n = 0
  · subst hn
    simp
    omega
  · have hlog : n.log2 < 7 * k := (Nat.log2_lt hn).mpr h
    omega

theorem str_le {s : String} {b k : Nat} (hk : 0 < k) (hs : s.utf8ByteSize ≤ b) (hb : b < 2 ^ (7 * k)) :
    str s ≤ k + b := by
  have hlen : varint s.utf8ByteSize ≤ k := varint_le hk (by omega)
  unfold str
  omega

theorem opt_le {α : Type} {f : α → Nat} {o : Option α} {b : Nat} (h : ∀ a, o = some a → f a ≤ b) : opt f o ≤ 1 + b := by
  cases o with
  | none => simp [opt]
  | some a => simpa [opt] using h a rfl

theorem seq_le {α : Type} {f : α → Nat} {l : List α} {b : Nat} (h : ∀ a ∈ l, f a ≤ b) :
    seq f l ≤ varint l.length + l.length * b := by
  have hsum := List.sum_le_card_nsmul (l.map f) b (by simpa using h)
  unfold seq
  simp at hsum
  omega

example : varint 127 = 1 ∧ varint 128 = 2 ∧ varint (2 ^ 64 - 1) = 10 := by decide

end Postcard
