import BytecodeMutation.Json
import BytecodeMutation.Text.Numeral

/-!
Values with a JSON form.
-/
namespace BytecodeMutation

/-- How values of a type are written in JSON, and which JSON values are read as one. -/
class JsonForm (α : Type) where
  toJson : α → Json
  ofJson? : Json → Option α

export JsonForm (toJson ofJson?)

namespace JsonForm

/-- The form of a type whose values are given by a table of names. -/
abbrev ofNames {α : Type} [BEq α] (rows : List (String × α)) : JsonForm α where
  toJson a := .str (((rows.find? (·.2 == a)).map (·.1)).getD "")
  ofJson? j := do
    let (name, payload) ← j.variant?
    match payload with
    | none | some .null => rows.lookup name
    | _ => none

/-- The integer that a number stands for, if it lies between the bounds. -/
def intWithin? (low high : Int) : Json → Option Int
  | .int n => if low ≤ n ∧ n ≤ high then some n else none
  | _ => none

/-- A number of at most `bits` bits. -/
def wordWithin? (bits : Nat) (j : Json) : Option Nat :=
  (intWithin? 0 (Numeral.capacity bits - 1) j).map Int.toNat

instance : JsonForm Bool where
  toJson := .bool
  ofJson?
    | .bool b => some b
    | _ => none

instance : JsonForm String where
  toJson := .str
  ofJson?
    | .str s => some s
    | _ => none

/-- An index fits 64 bits. -/
instance : JsonForm Nat where
  toJson n := .int n
  ofJson? := wordWithin? 64

instance : JsonForm UInt8 where
  toJson n := .int n.toNat
  ofJson? j := (wordWithin? 8 j).map UInt8.ofNat

instance : JsonForm UInt16 where
  toJson n := .int n.toNat
  ofJson? j := (wordWithin? 16 j).map UInt16.ofNat

instance : JsonForm UInt32 where
  toJson n := .int n.toNat
  ofJson? j := (wordWithin? 32 j).map UInt32.ofNat

instance : JsonForm UInt64 where
  toJson n := .int n.toNat
  ofJson? j := (wordWithin? 64 j).map UInt64.ofNat

instance : JsonForm Int16 where
  toJson n := .int n.toInt
  ofJson? j := (intWithin? (-32768) 32767 j).map Int16.ofInt

instance : JsonForm Int32 where
  toJson n := .int n.toInt
  ofJson? j := (intWithin? (-2147483648) 2147483647 j).map Int32.ofInt

variable {α β : Type} [JsonForm α] [JsonForm β]

instance : JsonForm (List α) where
  toJson xs := .arr (xs.map toJson)
  ofJson?
    | .arr items => items.mapM ofJson?
    | _ => none

instance : JsonForm (α × β) where
  toJson p := .arr [toJson p.1, toJson p.2]
  ofJson?
    | .arr [a, b] => return (← ofJson? a, ← ofJson? b)
    | _ => none

/-- A missing value is written as null. -/
instance : JsonForm (Option α) where
  toJson
    | some a => toJson a
    | none => .null
  ofJson?
    | .null => some none
    | j => (ofJson? j).map some

/-- The value of a field that has to be there. -/
def required (field : Option Json) : Option α := field.bind ofJson?

/-- The value of a field that may be left out. -/
def optional (default : α) : Option Json → Option α
  | none => some default
  | some j => ofJson? j

end JsonForm

end BytecodeMutation
