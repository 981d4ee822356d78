import BytecodeMutation.Opcode

/-!
The layout of the bytes behind an opcode.
-/
namespace BytecodeMutation

inductive Shape
  /-- No operand. -/
  | bare
  /-- The index of a local variable in one byte. -/
  | slot
  | signedByte
  | unsignedByte
  | signedShort
  /-- A branch distance in two bytes. -/
  | branch16
  /-- A branch distance in four bytes. -/
  | branch32
  /-- The index of a local variable and a signed increment, one byte each. -/
  | increment
  /-- A fixed number of bytes that only the constant pool explains. -/
  | constant (length : Nat)
  /-- A layout that the opcode alone does not fix. -/
  | varying
  deriving DecidableEq, Repr

namespace Shape

/-- The number of operand bytes, where the opcode fixes it. -/
def length? : Shape → Option Nat
  | bare => some 0
  | slot | signedByte | unsignedByte => some 1
  | signedShort | branch16 | increment => some 2
  | branch32 => some 4
  | constant n => some n
  | varying => none

def isBranch : Shape → Bool
  | branch16 | branch32 => true
  | _ => false

end Shape

def Mnemonic.shape : Mnemonic → Shape
  | .iload | .lload | .fload | .dload | .aload
  | .istore | .lstore | .fstore | .dstore | .astore | .ret => .slot
  | .bipush => .signedByte
  | .newarray => .unsignedByte
  | .sipush => .signedShort
  | .ifeq | .ifne | .iflt | .ifge | .ifgt | .ifle
  | .ifIcmpeq | .ifIcmpne | .ifIcmplt | .ifIcmpge | .ifIcmpgt | .ifIcmple
  | .ifAcmpeq | .ifAcmpne | .ifnull | .ifnonnull | .goto | .jsr => .branch16
  | .gotoW | .jsrW => .branch32
  | .iinc => .increment
  | .ldc => .constant 1
  | .ldcW | .ldc2W | .getstatic | .putstatic | .getfield | .putfield
  | .invokevirtual | .invokespecial | .invokestatic
  | .new | .anewarray | .checkcast | .instanceof => .constant 2
  | .multianewarray => .constant 3
  | .invokeinterface | .invokedynamic => .constant 4
  | .tableswitch | .lookupswitch | .wide => .varying
  | _ => .bare

namespace Opcode

/-- An unnamed byte stands alone. -/
def shape : Opcode → Shape
  | named m => m.shape
  | unknown _ => .bare

def isJump (op : Opcode) : Bool := op.shape.isBranch

def isReturn : Opcode → Bool
  | named .ireturn | named .lreturn | named .freturn | named .dreturn | named .areturn
  | named .voidReturn => true
  | _ => false

end Opcode

end BytecodeMutation
