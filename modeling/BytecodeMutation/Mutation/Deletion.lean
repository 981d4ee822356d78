import BytecodeMutation.Mutation.Pipeline
import BytecodeMutation.Opcode.Operator

/-!
Deletes one operand of a binary arithmetic instruction. Both operands are on the stack when it
runs, so stack opcodes that leave just the other operand take its place.
-/
namespace BytecodeMutation

/-- The operand that is deleted. -/
inductive Operand
  | first | second
  deriving DecidableEq, Repr

namespace Operand

def description : Operand → String
  | first => "AOD: Removed the first operand from an arithmetic expression"
  | second => "AOD: Removed the second operand from an arithmetic expression"

/-- The opcodes that delete an operand of the given width. There is no swap of two-word values, so
the second operand is copied below the first and both are popped from above it. -/
def replacement : Operand → Width → List Mnemonic
  | first, .single => [.swap, .pop]
  | first, .double => [.dup2X2, .pop2, .pop2]
  | second, .single => [.pop]
  | second, .double => [.pop2]

def edit? (o : Operand) : Element → Option Edit
  | .code (.plain op) => op.operandWidth?.map fun width =>
    ⟨o.description, (o.replacement width).map fun m => .code (.plain (.named m))⟩
  | _ => none

end Operand

end BytecodeMutation
