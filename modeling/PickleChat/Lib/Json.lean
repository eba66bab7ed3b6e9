import Mathlib.Data.List.Basic

/-!
# JSON documents

Trees of the values a record is read from, and the reading of one: each field
by its name, at most once, members of other names ignored; an array stands for
the fields in their order.
-/

inductive Json
  | num (n : Nat)
  | str (s : String)
  | arr (items : List Json)
  | obj (members : List (String × Json))
  /-- What no field here is read from: `null`, booleans, negative and fractional numbers. -/
  | other

namespace Json

/-- The members a record with these fields is read from. -/
def fields (names : List String) : Json → Option (List (String × Json))
  | obj members => some members
  | arr items => if items.length ≤ names.length then some (names.zip items) else none
  | _ => none

/-- A field that must be there once. -/
def required (name : String) (members : List (String × Json)) : Option Json :=
  match members.filter fun m => m.1 = name with
  | [m] => some m.2
  | _ => none

/-- A field that may be left out. -/
def defaulted (name : String) (dflt : Json) (members : List (String × Json)) : Option Json :=
  match members.filter fun m => m.1 = name with
  | [] => some dflt
  | [m] => some m.2
  | _ => none

def asString : Json → Option String
  | str s => some s
  | _ => none

def asU32 : Json → Option UInt32
  | num n => if n < UInt32.size then some n.toUInt32 else none
  | _ => none

def asU64 : Json → Option UInt64
  | num n => if n < UInt64.size then some n.toUInt64 else none
  | _ => none

def asList {α : Type} (f : Json → Option α) : Json → Option (List α)
  | arr items => items.mapM f
  | _ => none

@[simp] theorem asU32_num (n : UInt32) : asU32 (num n.toNat) = some n := by
  have hn : n.toNat < UInt32.size := n.toNat_lt
  simp only [asU32, if_pos hn]
  exact congrArg some (UInt32.ofNat_toNat)

@[simp] theorem asU64_num (n : UInt64) : asU64 (num n.toNat) = some n := by
  have hn : n.toNat < UInt64.size := n.toNat_lt
  simp only [asU64, if_pos hn]
  exact congrArg some (UInt64.ofNat_toNat)

@[simp] theorem asString_str (s : String) : asString (str s) = some s := rfl

theorem asList_map {α : Type} {f : Json → Option α} {g : α → Json} (h : ∀ a, f (g a) = some a) (l : List α) :
    asList f (arr (l.map g)) = some l := by
  unfold asList
  induction l with
  | nil => rfl
  | cons a l ih => simp [h, ih]

end Json
