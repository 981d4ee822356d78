import Std.Data.HashMap
import Std.Data.HashSet
import BytecodeMutation.Code.BigEndian
import BytecodeMutation.Code.Implicit

/-!
From a code array to a body.

`readInstructions` splits the bytes into instructions with absolute targets. `Code.read` then asks
that every target is the offset of an instruction, and turns the targets into labels, numbered by
ascending offset.
-/
namespace BytecodeMutation

/-- The source line that begins at a code offset. -/
structure LineEntry where
  start : UInt32
  line : UInt32
  deriving DecidableEq, Repr

/-- A code array and its line table. -/
structure Code where
  bytes : List UInt8
  lines : List LineEntry
  deriving DecidableEq, Repr

inductive ReadError
  /-- The code ends inside the instruction at this offset. -/
  | truncated (pc : Nat)
  /-- A switch with bounds or a count that make no sense. -/
  | malformedSwitch (pc : Nat)
  /-- The wide form of an opcode that has none. -/
  | unsupported (op : Opcode)
  /-- A target that is no instruction's offset. -/
  | strayTarget (pc : Nat) (target : Int)
  deriving DecidableEq, Repr

def ReadError.message : ReadError → String
  | truncated pc => s!"code truncated at offset {pc}"
  | malformedSwitch pc => s!"malformed switch at offset {pc}"
  | unsupported op => "unsupported opcode: " ++ op.text
  | strayTarget pc target =>
    s!"branch at offset {pc} targets {target}, which is not an instruction boundary"

namespace Instruction
open BigEndian

/-- The instruction that an opcode of fixed length makes with the bytes behind it, if there are
enough of them. -/
def readFixed? (pc : Nat) (op : Opcode) : Shape → List UInt8 → Option (Instruction Int)
  | .bare, _ => some (.plain op)
  | .slot, a :: _ => some (.access op a.toUInt16)
  | .signedByte, a :: _ => some (.immediate op a.toInt8.toInt32)
  | .unsignedByte, a :: _ => some (.immediate op (Int32.ofNat a.toNat))
  | .signedShort, a :: b :: _ => some (.immediate op (word16 a b).toInt16.toInt32)
  | .branch16, a :: b :: _ => some (.jump op (pc + (word16 a b).toInt16.toInt))
  | .branch32, a :: b :: c :: d :: _ => some (.jump op (pc + (word32 a b c d).toInt32.toInt))
  | .increment, a :: b :: _ => some (.increment a.toUInt16 b.toInt8.toInt16)
  | .constant n, bs => if (bs.take n).length = n then some (.constant op (bs.take n)) else none
  | _, _ => none

/-- `WIDE` doubles the index of a load or store and both operands of `IINC`. -/
def readWide (pc : Nat) : List UInt8 → Except ReadError (Instruction Int × Nat)
  | x :: a :: b :: rest =>
    let op := Opcode.ofByte x
    if op = .named .iinc then
      match rest with
      | c :: d :: _ => .ok (.increment (word16 a b) (word16 c d).toInt16, 5)
      | _ => .error (.truncated pc)
    else if op.shape = .slot then .ok (.access op (word16 a b), 3)
    else .error (.unsupported op)
  | _ => .error (.truncated pc)

def readTableSwitch (pc : Nat) (rest : List UInt8) : Except ReadError (Instruction Int × Nat) :=
  let pad := switchPadding pc
  let operands := rest.drop pad
  match words 3 operands with
  | some [fallback, low, high] =>
    if high.toInt < low.toInt then .error (.malformedSwitch pc)
    else
      let n := (high.toInt - low.toInt + 1).toNat
      match words n (operands.drop 12) with
      | some targets =>
        .ok (.tableSwitch low (pc + fallback.toInt) (targets.map fun t => pc + t.toInt),
          pad + 12 + 4 * n)
      | none => .error (.truncated pc)
  | _ => .error (.truncated pc)

/-- Keys and targets alternate. -/
def keyed (pc : Nat) : List Int32 → List (Int32 × Int)
  | key :: t :: rest => (key, pc + t.toInt) :: keyed pc rest
  | _ => []

def readLookupSwitch (pc : Nat) (rest : List UInt8) : Except ReadError (Instruction Int × Nat) :=
  let pad := switchPadding pc
  let operands := rest.drop pad
  match words 2 operands with
  | some [fallback, count] =>
    if count.toInt < 0 then .error (.malformedSwitch pc)
    else
      let n := count.toInt.toNat
      match words (2 * n) (operands.drop 8) with
      | some entries =>
        .ok (.lookupSwitch (pc + fallback.toInt) (keyed pc entries), pad + 8 + 8 * n)
      | none => .error (.truncated pc)
  | _ => .error (.truncated pc)

/-- Reads the instruction at offset `pc` with first byte `b`, and the number of bytes that it takes
behind `b`. -/
def read (pc : Nat) (b : UInt8) (rest : List UInt8) : Except ReadError (Instruction Int × Nat) :=
  match implicit? b with
  | some (op, slot) => .ok (.access op slot, 0)
  | none =>
    let op := Opcode.ofByte b
    match op.shape.length? with
    | some n =>
      match readFixed? pc op op.shape rest with
      | some i => .ok (i, n)
      | none => .error (.truncated pc)
    | none =>
      match op with
      | .named .wide => readWide pc rest
      | .named .tableswitch => readTableSwitch pc rest
      | .named .lookupswitch => readLookupSwitch pc rest
      | op => .error (.unsupported op)

end Instruction

/-- The instructions of the code from offset `pc` on, each with its offset. -/
def readInstructions (pc : Nat) : List UInt8 → Except ReadError (List (Nat × Instruction Int))
  | [] => .ok []
  | b :: rest =>
    match Instruction.read pc b rest with
    | .error e => .error e
    | .ok (i, n) => (readInstructions (pc + 1 + n) (rest.drop n)).map ((pc, i) :: ·)
termination_by bs => bs.length
decreasing_by simp only [List.length_drop, List.length_cons]; omega

/-- The first target of an instruction that is no instruction's offset. -/
def strayTarget? (starts : Std.HashSet Nat) (located : Nat × Instruction Int) : Option ReadError :=
  (located.2.targets.find? fun t => !(decide (0 ≤ t) && starts.contains t.toNat)).map
    (.strayTarget located.1)

/-- The lines that begin at each offset, in table order. -/
def linesByStart (lines : List LineEntry) : Std.HashMap Nat (List UInt32) :=
  lines.foldr (fun e m => m.insert e.start.toNat (e.line :: m.getD e.start.toNat [])) ∅

/-- The label of each targeted offset: its rank among them. -/
def labelsByOffset (located : List (Nat × Instruction Int)) : Std.HashMap Nat Label :=
  let targeted := Std.HashSet.ofList (located.flatMap fun (_, i) => i.targets.map Int.toNat)
  let offsets := (located.map (·.1)).filter targeted.contains
  Std.HashMap.ofList (offsets.zipIdx.map fun (pc, n) => (pc, ⟨UInt32.ofNat n⟩))

/-- One instruction of a body with the markers before it: its label, then its lines. -/
def marked (labels : Std.HashMap Nat Label) (lines : Std.HashMap Nat (List UInt32)) (pc : Nat)
    (i : Instruction Int) : Body :=
  (labels[pc]?.map Element.label).toList ++ (lines.getD pc []).map Element.line ++
    [.code (i.map fun t => labels.getD t.toNat default)]

def Code.read (code : Code) : Except ReadError Body :=
  match readInstructions 0 code.bytes with
  | .error e => .error e
  | .ok located =>
    let starts := Std.HashSet.ofList (located.map (·.1))
    match located.findSome? (strayTarget? starts) with
    | some e => .error e
    | none =>
      let labels := labelsByOffset located
      let lines := linesByStart code.lines
      .ok (located.flatMap fun (pc, i) => marked labels lines pc i)

end BytecodeMutation
