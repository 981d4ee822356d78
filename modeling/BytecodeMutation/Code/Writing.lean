import Std.Data.HashMap
import BytecodeMutation.Code.Reading

/-!
From a body to a code array.

Offsets are assigned first, from the sizes of the elements, so a branch is written with the
distance that its label has in this layout. A label that stands in several places means the last.
-/
namespace BytecodeMutation

inductive WriteError
  | undefinedLabel (l : Label)
  /-- The operands are not of the kind that the opcode takes. -/
  | unsupported (op : Opcode)
  | operandOutOfRange (op : Opcode) (value : Int32)
  | branchOutOfRange (pc : Nat) (l : Label) (distance : Int)
  /-- An empty table, one whose keys run out of the ints, or a distance that no switch holds. -/
  | malformedSwitch (pc : Nat)
  deriving DecidableEq, Repr

def WriteError.message : WriteError → String
  | undefinedLabel l => "undefined label " ++ l.text
  | unsupported op => "unsupported opcode: " ++ op.text
  | operandOutOfRange op value =>
    "operand " ++ Numeral.signedDecimal value.toInt ++ " out of range for " ++ op.text
  | branchOutOfRange pc l distance =>
    "branch at offset " ++ Numeral.decimal pc ++ " to " ++ l.text ++ " needs " ++
      Numeral.signedDecimal distance ++ ", out of range"
  | malformedSwitch pc => s!"malformed switch at offset {pc}"

/-- A label and the offset that it stands for. -/
structure Target where
  label : Label
  offset : Nat
  deriving DecidableEq, Repr

namespace Instruction
open BigEndian

/-- Replaces the targets, a switch's fallback first, unless one of them fails. -/
def mapM {τ σ ε : Type} (f : τ → Except ε σ) : Instruction τ → Except ε (Instruction σ)
  | plain op => .ok (plain op)
  | access op slot => .ok (access op slot)
  | immediate op v => .ok (immediate op v)
  | jump op t => return jump op (← f t)
  | increment slot d => .ok (increment slot d)
  | constant op bs => .ok (constant op bs)
  | tableSwitch low t ts => return tableSwitch low (← f t) (← ts.mapM f)
  | lookupSwitch t ps => return lookupSwitch (← f t) (← ps.mapM fun p => return (p.1, ← f p.2))

/-- The four bytes of a switch target. -/
def switchDistance (pc : Nat) (t : Target) : Except WriteError (List UInt8) :=
  let distance : Int := t.offset - pc
  if -2147483648 ≤ distance ∧ distance ≤ 2147483647 then
    .ok (bytes32 (Int32.ofInt distance).toUInt32)
  else .error (.malformedSwitch pc)

def writeAccess (op : Opcode) (slot : UInt16) : List UInt8 :=
  match implicitByte? op slot with
  | some b => [b]
  | none =>
    if slot.toNat ≤ 255 then [op.byte, slot.toUInt8]
    else Mnemonic.wide.byte :: op.byte :: bytes16 slot

def writeImmediate (op : Opcode) (value : Int32) : Except WriteError (List UInt8) :=
  let v := value.toInt
  match op.shape with
  | .signedByte =>
    if -128 ≤ v ∧ v ≤ 127 then .ok [op.byte, value.toInt8.toUInt8]
    else .error (.operandOutOfRange op value)
  | .unsignedByte =>
    if 0 ≤ v ∧ v ≤ 255 then .ok [op.byte, value.toInt8.toUInt8]
    else .error (.operandOutOfRange op value)
  | .signedShort =>
    if -32768 ≤ v ∧ v ≤ 32767 then .ok (op.byte :: bytes16 value.toInt16.toUInt16)
    else .error (.operandOutOfRange op value)
  | _ => .error (.unsupported op)

def writeJump (pc : Nat) (op : Opcode) (t : Target) : Except WriteError (List UInt8) :=
  let distance : Int := t.offset - pc
  match op.shape with
  | .branch16 =>
    if -32768 ≤ distance ∧ distance ≤ 32767 then
      .ok (op.byte :: bytes16 (Int16.ofInt distance).toUInt16)
    else .error (.branchOutOfRange pc t.label distance)
  | .branch32 =>
    if -2147483648 ≤ distance ∧ distance ≤ 2147483647 then
      .ok (op.byte :: bytes32 (Int32.ofInt distance).toUInt32)
    else .error (.branchOutOfRange pc t.label distance)
  | _ => .error (.unsupported op)

def writeIncrement (slot : UInt16) (delta : Int16) : List UInt8 :=
  if isWideIncrement slot delta then
    Mnemonic.wide.byte :: Mnemonic.iinc.byte :: bytes16 slot ++ bytes16 delta.toUInt16
  else [Mnemonic.iinc.byte, slot.toUInt8, delta.toInt8.toUInt8]

def writeTableSwitch (pc : Nat) (low : Int32) (fallback : Target) (targets : List Target) :
    Except WriteError (List UInt8) :=
  let high := low.toInt + targets.length - 1
  if targets = [] ∨ targets.length > 2147483647 ∨ high > 2147483647 then
    .error (.malformedSwitch pc)
  else do
    let first ← switchDistance pc fallback
    let others ← targets.mapM (switchDistance pc)
    return Mnemonic.tableswitch.byte :: List.replicate (switchPadding pc) 0 ++ first ++
      bytes32 low.toUInt32 ++ bytes32 (Int32.ofInt high).toUInt32 ++ others.flatten

def writeLookupSwitch (pc : Nat) (fallback : Target) (pairs : List (Int32 × Target)) :
    Except WriteError (List UInt8) :=
  if pairs.length > 2147483647 then .error (.malformedSwitch pc)
  else do
    let first ← switchDistance pc fallback
    let others ← pairs.mapM fun p => return bytes32 p.1.toUInt32 ++ (← switchDistance pc p.2)
    return Mnemonic.lookupswitch.byte :: List.replicate (switchPadding pc) 0 ++ first ++
      bytes32 (UInt32.ofNat pairs.length) ++ others.flatten

/-- The bytes of an instruction at offset `pc`, in its shortest form. -/
def write (pc : Nat) : Instruction Target → Except WriteError (List UInt8)
  | plain op => if op.shape = .bare then .ok [op.byte] else .error (.unsupported op)
  | access op slot =>
    if op.shape = .slot then .ok (writeAccess op slot) else .error (.unsupported op)
  | immediate op v => writeImmediate op v
  | jump op t => writeJump pc op t
  | increment slot d => .ok (writeIncrement slot d)
  | constant op bs =>
    if op.shape = .constant bs.length then .ok (op.byte :: bs) else .error (.unsupported op)
  | tableSwitch low t ts => writeTableSwitch pc low t ts
  | lookupSwitch t ps => writeLookupSwitch pc t ps

end Instruction

namespace Body

/-- Every element with its offset, the first at `pc`. -/
def located (pc : Nat) : Body → List (Nat × Element)
  | [] => []
  | e :: rest => (pc, e) :: located (pc + e.size pc) rest

def placedLabel? : Nat × Element → Option (Label × Nat)
  | (pc, .label l) => some (l, pc)
  | _ => none

/-- The offset at which each label stands last. -/
def labelOffsets (elements : List (Nat × Element)) : Std.HashMap UInt32 Nat :=
  (elements.filterMap placedLabel?).foldl (fun m (l, pc) => m.insert l.number pc) ∅

def target (offsets : Std.HashMap UInt32 Nat) (l : Label) : Except WriteError Target :=
  match offsets[l.number]? with
  | some pc => .ok ⟨l, pc⟩
  | none => .error (.undefinedLabel l)

def placedInstruction? : Nat × Element → Option (Nat × Instruction Label)
  | (pc, .code i) => some (pc, i)
  | _ => none

def placedLine? : Nat × Element → Option LineEntry
  | (pc, .line n) => some ⟨UInt32.ofNat pc, n⟩
  | _ => none

/-- Writes a body as code. An undefined label is reported before anything else. -/
def write (body : Body) : Except WriteError Code := do
  let elements := located 0 body
  let offsets := labelOffsets elements
  let resolved ← (elements.filterMap placedInstruction?).mapM fun p =>
    return (p.1, ← p.2.mapM (target offsets))
  let pieces ← resolved.mapM fun p => p.2.write p.1
  return ⟨pieces.flatten, elements.filterMap placedLine?⟩

end Body

end BytecodeMutation
