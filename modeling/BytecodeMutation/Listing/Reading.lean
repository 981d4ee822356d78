import BytecodeMutation.Listing
import BytecodeMutation.Text.Blank

/-!
Reads assembly. Each line holds one element; a `#` begins a comment; lines left empty by that are
passed over. The operands of an instruction are words, and the shape of its opcode says which.
-/
namespace BytecodeMutation

/-- What is wrong with a line. -/
inductive ListingFault
  /-- The text holds nothing but blanks. -/
  | empty
  | label
  | lineNumber
  | unknownMnemonic (e : UnknownMnemonic)
  | unexpectedOperand
  | localIndex
  | immediate
  | jumpTarget
  | incrementOperands
  | increment
  | missingBytes
  | badBytes
  | byteCount (op : Opcode) (expected : Nat)
  | switchOperands
  deriving DecidableEq, Repr

def ListingFault.message : ListingFault → String
  | empty => "empty assembly"
  | label => "invalid label"
  | lineNumber => "invalid line number"
  | unknownMnemonic e => e.message
  | unexpectedOperand => "unexpected operand"
  | localIndex => "invalid local index"
  | immediate => "invalid immediate"
  | jumpTarget => "invalid jump target"
  | incrementOperands => "IINC takes an index and an increment"
  | increment => "invalid increment"
  | missingBytes => "missing operand bytes"
  | badBytes => "invalid operand bytes"
  | byteCount op expected => op.text ++ s!" takes {expected} operand bytes"
  | switchOperands => "invalid switch operands"

/-- A fault with the number of its line, from zero, and the line as it was given. -/
structure ListingError where
  line : Nat
  fault : ListingFault
  raw : String
  deriving DecidableEq, Repr

def ListingError.message (e : ListingError) : String :=
  s!"assembly parse error at line {e.line}: " ++ e.fault.message ++ " ⇒ \x60" ++ e.raw ++ "\x60"

namespace Listing
open Numeral

def label? : List Char → Option Label
  | 'L' :: digits => (word? 32 digits).map fun n => ⟨UInt32.ofNat n⟩
  | _ => none

def slot? (w : List Char) : Option UInt16 := (word? 16 w).map UInt16.ofNat

def int? (w : List Char) : Option Int32 := (signedWord? 32 w).map Int32.ofInt

def single? {α : Type} : List α → Option α
  | [a] => some a
  | _ => none

/-- The bytes of one word, after any number of `0x`. -/
def bytes? (w : List Char) : Option (List UInt8) :=
  match w with
  | '0' :: 'x' :: rest => bytes? rest
  | w => (Hex.decode (Hex.utf8 w)).toOption

def tableSwitch? (fallback : Label) : List (List Char) → Option (Instruction Label)
  | low :: targets => do
    let low ← int? low
    return .tableSwitch low fallback (← targets.mapM label?)
  | [] => none

def pair? (w : List Char) : Option (Int32 × Label) := do
  let (key, target) ← Text.cut? ':' w
  return (← int? key, ← label? target)

/-- The operands of a switch end with its fallback. `WIDE` is never written. -/
def switch? (op : Opcode) (operands : List (List Char)) : Option (Instruction Label) := do
  let fallback ← (Text.after? "default:".toList (← operands.getLast?)).bind label?
  match op with
  | .named .tableswitch => tableSwitch? fallback operands.dropLast
  | .named .lookupswitch => return .lookupSwitch fallback (← operands.dropLast.mapM pair?)
  | _ => none

def orFault {α : Type} (fault : ListingFault) : Option α → Except ListingFault α
  | some a => .ok a
  | none => .error fault

def increment (operands : List (List Char)) : Except ListingFault (Instruction Label) :=
  match operands with
  | [index, delta] => do
    let slot ← orFault .localIndex (slot? index)
    let d ← orFault .increment (signedWord? 16 delta)
    return .increment slot (Int16.ofInt d)
  | _ => .error .incrementOperands

def constant (op : Opcode) (length : Nat) (operands : List (List Char)) :
    Except ListingFault (Instruction Label) := do
  let w ← orFault .missingBytes (single? operands)
  let bytes ← orFault .badBytes (bytes? w)
  if bytes.length = length then return .constant op bytes else .error (.byteCount op length)

def instruction (op : Opcode) (operands : List (List Char)) :
    Except ListingFault (Instruction Label) :=
  match op.shape with
  | .bare => if operands.isEmpty then .ok (.plain op) else .error .unexpectedOperand
  | .slot => return .access op (← orFault .localIndex ((single? operands).bind slot?))
  | .signedByte | .unsignedByte | .signedShort =>
    return .immediate op (← orFault .immediate ((single? operands).bind int?))
  | .branch16 | .branch32 =>
    return .jump op (← orFault .jumpTarget ((single? operands).bind label?))
  | .increment => increment operands
  | .constant n => constant op n operands
  | .varying => orFault .switchOperands (switch? op operands)

def lineMarker (operands : List (List Char)) : Except ListingFault Element := do
  let n ← orFault .lineNumber ((single? operands).bind (word? 32))
  return .line (UInt32.ofNat n)

/-- The element of a line without comment and outer blanks. -/
def element (line : List Char) : Except ListingFault Element :=
  if line.getLast? = some ':' then
    return .label (← orFault .label (label? line.dropLast))
  else match Text.words line with
    | [] => .error .empty
    | name :: operands =>
      if name = "LINE".toList then lineMarker operands
      else match Opcode.ofText (String.ofList name) with
        | .error e => .error (.unknownMnemonic e)
        | .ok op => (instruction op operands).map .code

/-- A line without its comment and outer blanks. -/
def content (raw : List Char) : List Char := Text.trim (raw.takeWhile (· != '#'))

def readLine (raw : List Char) (number : Nat) : Except ListingError (Option Element) :=
  let line := content raw
  if line.isEmpty then .ok none
  else match element line with
    | .ok e => .ok (some e)
    | .error fault => .error ⟨number, fault, String.ofList raw⟩

def read (text : String) : Except ListingError Body :=
  let cs := text.toList
  if (Text.trim cs).isEmpty then .error ⟨0, .empty, text⟩
  else ((Text.lines cs).zipIdx.mapM fun p => readLine p.1 p.2).map fun es => es.filterMap id

end Listing

end BytecodeMutation
