import BytecodeMutation.Json
import BytecodeMutation.Text.Numeral

/-!
Reads JSON text. Each reader takes the characters before it and gives back those behind what it
read. `valueWithin` counts its nested calls down from a bound that the length of the text makes
large enough.
-/
namespace BytecodeMutation.Json

def isSpace (c : Char) : Bool := c == ' ' || c == '\n' || c == '\t' || c == '\r'

def isDigit (c : Char) : Bool := '0' ≤ c && c ≤ '9'

def skipSpace (cs : List Char) : List Char := cs.dropWhile isSpace

/-- The character that an escape of two characters stands for. -/
def simpleEscape? : Char → Option Char
  | '"' => some '"'
  | '\\' => some '\\'
  | '/' => some '/'
  | 'b' => some '\x08'
  | 'f' => some '\x0c'
  | 'n' => some '\n'
  | 'r' => some '\r'
  | 't' => some '\t'
  | _ => none

/-- The UTF-16 unit of four hexadecimal digits. -/
def unit? (digits : List Char) : Option Nat :=
  if digits.length = 4 then Numeral.digits? 16 digits else none

def isHighHalf (n : Nat) : Bool := 0xD800 ≤ n && n < 0xDC00

def isLowHalf (n : Nat) : Bool := 0xDC00 ≤ n && n < 0xE000

/-- What was read of a string: its characters, the last one first, a first half that waits for its
second, and whether every half so far has found its other. -/
structure Chars where
  reversed : List Char
  waiting : Option Nat
  paired : Bool

namespace Chars

def push (s : Chars) (c : Char) : Chars := ⟨c :: s.reversed, none, s.paired && s.waiting.isNone⟩

def pushUnit (s : Chars) (n : Nat) : Chars :=
  if isHighHalf n then ⟨s.reversed, some n, s.paired && s.waiting.isNone⟩
  else if isLowHalf n then
    match s.waiting with
    | some high =>
      ⟨Char.ofNat (0x10000 + (high - 0xD800) * 0x400 + (n - 0xDC00)) :: s.reversed, none, s.paired⟩
    | none => { s with paired := false }
  else s.push (Char.ofNat n)

/-- The string, unless a half is left without its other. -/
def text? (s : Chars) : Option String :=
  if s.paired && s.waiting.isNone then some (String.ofList s.reversed.reverse) else none

end Chars

/-- The rest of a string behind its opening quote. -/
def stringFrom (s : Chars) : List Char → Option (Option String × List Char)
  | '"' :: rest => some (s.text?, rest)
  | '\\' :: 'u' :: a :: b :: c :: d :: rest =>
    match unit? [a, b, c, d] with
    | some n => stringFrom (s.pushUnit n) rest
    | none => none
  | '\\' :: c :: rest =>
    match simpleEscape? c with
    | some c => stringFrom (s.push c) rest
    | none => none
  | c :: rest => if c < ' ' || c == '\\' then none else stringFrom (s.push c) rest
  | [] => none

def string? (cs : List Char) : Option (Option String × List Char) := stringFrom ⟨[], none, true⟩ cs

/-- At least one digit. -/
def someDigits? (cs : List Char) : Option (List Char) :=
  if (cs.takeWhile isDigit).isEmpty then none else some (cs.dropWhile isDigit)

def fraction? : List Char → Option (List Char)
  | '.' :: rest => someDigits? rest
  | cs => some cs

def exponent? : List Char → Option (List Char)
  | 'e' :: '+' :: rest | 'e' :: '-' :: rest | 'E' :: '+' :: rest | 'E' :: '-' :: rest
  | 'e' :: rest | 'E' :: rest => someDigits? rest
  | cs => some cs

/-- Whether a fraction or an exponent begins here. -/
def goesOn : List Char → Bool
  | c :: _ => c == '.' || c == 'e' || c == 'E'
  | [] => false

/-- A number: digits without a leading zero, then perhaps a fraction and an exponent. -/
def number? (cs : List Char) : Option (Json × List Char) := do
  let negative := cs.head? == some '-'
  let unsigned := if negative then cs.tail else cs
  let digits := unsigned.takeWhile isDigit
  let whole := unsigned.dropWhile isDigit
  let n ← Numeral.digits? 10 digits
  if digits.length > 1 && digits.head? == some '0' then none
  else if goesOn whole || (negative && n == 0) then
    let rest ← exponent? (← fraction? whole)
    return (real (String.ofList (cs.take (cs.length - rest.length))), rest)
  else return (int (if negative then -n else n), whole)

/-- Reads `true`, `false` and `null`. -/
def literal? : List Char → Option (Json × List Char)
  | 't' :: 'r' :: 'u' :: 'e' :: rest => some (bool true, rest)
  | 'f' :: 'a' :: 'l' :: 's' :: 'e' :: rest => some (bool false, rest)
  | 'n' :: 'u' :: 'l' :: 'l' :: rest => some (null, rest)
  | _ => none

/-- The name of a field and the colon behind it. -/
def name? (cs : List Char) : Option (Option String × List Char) :=
  match skipSpace cs with
  | '"' :: rest =>
    match string? rest with
    | some (name, rest) =>
      match skipSpace rest with
      | ':' :: rest => some (name, rest)
      | _ => none
    | none => none
  | _ => none

/-- The fields of an object with one more at the front, unless some name is no string. -/
def addField (name : Option String) (value : Json) (before : Option (List (String × Json))) :
    Option (List (String × Json)) := do
  return (← name, value) :: (← before)

/-- The object with these fields, the last one first. -/
def object (reversed : Option (List (String × Json))) : Json :=
  match reversed with
  | some fields => obj fields.reverse
  | none => halfPair

mutual

def valueWithin : Nat → List Char → Option (Json × List Char)
  | 0, _ => none
  | bound + 1, cs =>
    match skipSpace cs with
    | '"' :: rest => (string? rest).map fun (s, rest) => ((s.map str).getD halfPair, rest)
    | '[' :: rest =>
      match skipSpace rest with
      | ']' :: rest => some (arr [], rest)
      | rest => itemsWithin bound [] rest
    | '\x7b' :: rest =>
      match skipSpace rest with
      | '\x7d' :: rest => some (obj [], rest)
      | rest => fieldsWithin bound (some []) rest
    | cs => (literal? cs).or (number? cs)

/-- The items of an array behind the ones read, the last one first. -/
def itemsWithin : Nat → List Json → List Char → Option (Json × List Char)
  | 0, _, _ => none
  | bound + 1, before, cs =>
    match valueWithin bound cs with
    | none => none
    | some (item, rest) =>
      match skipSpace rest with
      | ',' :: rest => itemsWithin bound (item :: before) rest
      | ']' :: rest => some (arr (item :: before).reverse, rest)
      | _ => none

def fieldsWithin : Nat → Option (List (String × Json)) → List Char → Option (Json × List Char)
  | 0, _, _ => none
  | bound + 1, before, cs =>
    match name? cs with
    | none => none
    | some (name, rest) =>
      match valueWithin bound rest with
      | none => none
      | some (value, rest) =>
        match skipSpace rest with
        | ',' :: rest => fieldsWithin bound (addField name value before) rest
        | '\x7d' :: rest => some (object (addField name value before), rest)
        | _ => none

end

/-- Reads a text that holds one value and nothing else. A nested call goes with a character of its
own, a bracket or a comma, and at most one more call. -/
def parse? (text : String) : Option Json :=
  let cs := text.toList
  match valueWithin (2 * cs.length + 2) cs with
  | some (value, rest) => if (skipSpace rest).isEmpty then some value else none
  | none => none

end BytecodeMutation.Json
