import BytecodeMutation.Opcode.Shape

/-!
Instructions and method bodies.

`Instruction τ` has branch targets of type `τ`: code offsets while bytes are read or written, and
labels in a body. A body is a list of labels, line markers and instructions. A label is placed
where it stands, so a branch keeps its target however the instructions in between change in size.
-/
namespace BytecodeMutation

structure Label where
  number : UInt32
  deriving DecidableEq, Repr, Ord, Inhabited

def Label.text (l : Label) : String := "L" ++ Numeral.decimal l.number.toNat

inductive Instruction (τ : Type)
  | plain (op : Opcode)
  /-- A load or store of a local variable, or `RET`. -/
  | access (op : Opcode) (slot : UInt16)
  /-- `BIPUSH`, `SIPUSH` or `NEWARRAY`. -/
  | immediate (op : Opcode) (value : Int32)
  | jump (op : Opcode) (target : τ)
  /-- `IINC`. -/
  | increment (slot : UInt16) (delta : Int16)
  /-- Operand bytes that are kept as they are. -/
  | constant (op : Opcode) (operands : List UInt8)
  /-- Key `low + n` goes to `targets[n]`, any other key to `fallback`. -/
  | tableSwitch (low : Int32) (fallback : τ) (targets : List τ)
  | lookupSwitch (fallback : τ) (pairs : List (Int32 × τ))
  deriving DecidableEq, Repr

/-- The bytes between a switch at `pc` and its first operand, which sits at a multiple of four. -/
def switchPadding (pc : Nat) : Nat := (4 - (pc + 1) % 4) % 4

theorem switchPadding_lt (pc : Nat) : switchPadding pc < 4 := Nat.mod_lt _ (by decide)

theorem switchPadding_aligned (pc : Nat) : (pc + 1 + switchPadding pc) % 4 = 0 := by
  simp only [switchPadding]; omega

/-- Whether an increment needs the wide form. -/
def isWideIncrement (slot : UInt16) (delta : Int16) : Bool :=
  slot.toNat > 255 || delta.toInt < -128 || delta.toInt > 127

namespace Instruction

variable {τ σ : Type}

def opcode : Instruction τ → Opcode
  | plain op | access op _ | immediate op _ | jump op _ | constant op _ => op
  | increment .. => .named .iinc
  | tableSwitch .. => .named .tableswitch
  | lookupSwitch .. => .named .lookupswitch

/-- Every target, a switch's fallback first. -/
def targets : Instruction τ → List τ
  | jump _ t => [t]
  | tableSwitch _ t ts => t :: ts
  | lookupSwitch t ps => t :: ps.map (·.2)
  | _ => []

def map (f : τ → σ) : Instruction τ → Instruction σ
  | plain op => plain op
  | access op slot => access op slot
  | immediate op v => immediate op v
  | jump op t => jump op (f t)
  | increment slot d => increment slot d
  | constant op bs => constant op bs
  | tableSwitch low t ts => tableSwitch low (f t) (ts.map f)
  | lookupSwitch t ps => lookupSwitch (f t) (ps.map fun p => (p.1, f p.2))

/-- The bytes that the instruction takes at offset `pc`: the shortest form, and for a switch the
padding too. -/
def size (pc : Nat) : Instruction τ → Nat
  | access op slot =>
    if slot.toNat ≤ 3 ∧ op ≠ .named .ret then 1
    else if slot.toNat > 255 then 4
    else 1 + op.shape.length?.getD 0
  | increment slot d => if isWideIncrement slot d then 6 else 3
  | constant _ bs => 1 + bs.length
  | tableSwitch _ _ ts => 1 + switchPadding pc + 12 + 4 * ts.length
  | lookupSwitch _ ps => 1 + switchPadding pc + 8 + 8 * ps.length
  | plain op | immediate op _ | jump op _ => 1 + op.shape.length?.getD 0

end Instruction

/-- One entry of a body. -/
inductive Element
  | label (l : Label)
  /-- A source line begins here. -/
  | line (number : UInt32)
  | code (i : Instruction Label)
  deriving DecidableEq, Repr

abbrev Body := List Element

namespace Element

def instruction? : Element → Option (Instruction Label)
  | code i => some i
  | _ => none

def opcode? (e : Element) : Option Opcode := e.instruction?.map (·.opcode)

def targets : Element → List Label
  | code i => i.targets
  | _ => []

def size (pc : Nat) : Element → Nat
  | code i => i.size pc
  | _ => 0

end Element

end BytecodeMutation
