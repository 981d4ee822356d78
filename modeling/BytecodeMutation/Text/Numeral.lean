/-!
Numerals in base ten and sixteen. Leading zeros are allowed, and so is one plus sign; a minus sign
only where the number may be negative.
-/
namespace BytecodeMutation.Numeral

/-- The value of an ASCII digit or letter, counting the letters on from ten in either case. -/
def value (c : Char) : Nat :=
  if '0' ≤ c ∧ c ≤ '9' then c.toNat - '0'.toNat
  else if 'a' ≤ c ∧ c ≤ 'z' then c.toNat - 'a'.toNat + 10
  else if 'A' ≤ c ∧ c ≤ 'Z' then c.toNat - 'A'.toNat + 10
  else 36

/-- The number that a non-empty run of digits spells. -/
def digits? (base : Nat) (cs : List Char) : Option Nat :=
  if !cs.isEmpty && cs.all (value · < base) then
    some (cs.foldl (fun n c => n * base + value c) 0)
  else none

def unsigned? (base : Nat) : List Char → Option Nat
  | '+' :: cs => digits? base cs
  | cs => digits? base cs

def signed? : List Char → Option Int
  | '-' :: cs => (digits? 10 cs).map fun n => -(n : Int)
  | cs => (unsigned? 10 cs).map Int.ofNat

/-- How many numbers fit `bits` bits. -/
def capacity (bits : Nat) : Nat := Nat.pow 2 bits

/-- A number that fits `bits` bits without a sign. -/
def word? (bits : Nat) (cs : List Char) : Option Nat :=
  (unsigned? 10 cs).filter (· < capacity bits)

/-- A number that fits `bits` bits with a sign. -/
def signedWord? (bits : Nat) (cs : List Char) : Option Int :=
  let half : Int := capacity (bits - 1)
  (signed? cs).filter fun n => -half ≤ n && n < half

/-- The decimal numeral without leading zeros. -/
def decimal (n : Nat) : String := String.ofList (Nat.toDigits 10 n)

def signedDecimal (n : Int) : String :=
  if n < 0 then "-" ++ decimal n.natAbs else decimal n.natAbs

end BytecodeMutation.Numeral
