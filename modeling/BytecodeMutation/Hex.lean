import BytecodeMutation.Text.Blank

/-!
Bytes spelled in hexadecimal, two digits a byte and the high one first. Both cases are read and
lower case is written. The reader works on the bytes of the text, since it names a bad byte and its
place among the bytes.
-/
namespace BytecodeMutation.Hex

/-- Why a text spells no bytes. -/
inductive Fault
  | oddLength
  /-- The first byte that is no digit, and its place. -/
  | badDigit (byte : UInt8) (position : Nat)
  deriving DecidableEq, Repr

def digit (n : Nat) : Char := Nat.digitChar n

def encode (bytes : List UInt8) : String :=
  String.ofList (bytes.flatMap fun b => [digit (b.toNat / 16), digit (b.toNat % 16)])

/-- The value of a digit. -/
def value? (b : UInt8) : Option Nat :=
  let n := b.toNat
  if 48 ≤ n ∧ n ≤ 57 then some (n - 48)
  else if 97 ≤ n ∧ n ≤ 102 then some (n - 87)
  else if 65 ≤ n ∧ n ≤ 70 then some (n - 55)
  else none

/-- The bytes that pairs of digits spell; a byte that is no digit counts as zero. -/
def pairs : List UInt8 → List UInt8
  | hi :: lo :: rest => UInt8.ofNat (16 * (value? hi).getD 0 + (value? lo).getD 0) :: pairs rest
  | _ => []

def decode (spelled : List UInt8) : Except Fault (List UInt8) :=
  if spelled.length % 2 = 1 then .error .oddLength
  else match spelled.zipIdx.find? fun (b, _) => (value? b).isNone with
    | some (b, i) => .error (.badDigit b i)
    | none => .ok (pairs spelled)

/-- The bytes of a text in UTF-8. -/
def utf8 (cs : List Char) : List UInt8 := cs.flatMap String.utf8EncodeChar

/-- The digits that an input names: blanks at both ends and one `0x` or `0X` do not count. -/
def digitsOf (cs : List Char) : List Char :=
  let cs := Text.trim cs
  ((Text.after? ['0', 'x'] cs).or (Text.after? ['0', 'X'] cs)).getD cs

/-- The digits of an input in lower case. Only their number is checked. -/
def normalize (text : String) : Except Fault String :=
  let cs := digitsOf text.toList
  if (utf8 cs).length % 2 = 1 then .error .oddLength
  else .ok (String.ofList (cs.map Char.toLower))

/-- The bytes that an input names. -/
def read (text : String) : Except Fault (List UInt8) :=
  match normalize text with
  | .error e => .error e
  | .ok digits => decode (utf8 digits.toList)

/-- A Latin-1 character between single quotes. Controls, the no-break space and the soft hyphen
are escaped. -/
def quoted (b : UInt8) : String :=
  let n := b.toNat
  let inner :=
    if n = 0 then "\\0"
    else if n = 9 then "\\t"
    else if n = 10 then "\\n"
    else if n = 13 then "\\r"
    else if n = 39 then "\\'"
    else if n = 92 then "\\\\"
    else if n < 32 ∨ (127 ≤ n ∧ n ≤ 160) ∨ n = 173 then
      "\\u\x7b" ++ String.ofList (Nat.toDigits 16 n) ++ "\x7d"
    else String.singleton (Char.ofNat n)
  "'" ++ inner ++ "'"

def Fault.message : Fault → String
  | .oddLength => "hex decode failed: Odd number of digits"
  | .badDigit b i =>
    "hex decode failed: Invalid character " ++ quoted b ++ " at position " ++ toString i

end BytecodeMutation.Hex
