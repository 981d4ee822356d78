import BytecodeMutation.Instruction

/-!
How many operand-stack words an instruction pops and pushes. A `long` or `double` is two words and
any other value one, which is also how the stack opcodes count.
-/
namespace BytecodeMutation.Stack

structure Effect where
  pops : Nat
  pushes : Nat
  deriving DecidableEq, Repr

/-- The effect that an opcode alone fixes. Where a constant-pool entry decides it, as for field and
method references and `LDC`, there is none; a class reference always moves one word. -/
def mnemonicEffect? : Mnemonic → Option Effect
  | .nop | .goto | .gotoW | .ret | .voidReturn => some ⟨0, 0⟩
  | .new => some ⟨0, 1⟩
  | .checkcast | .instanceof | .anewarray => some ⟨1, 1⟩
  | .tableswitch | .lookupswitch => some ⟨1, 0⟩
  | .aconstNull | .iconstM1 | .iconst0 | .iconst1 | .iconst2 | .iconst3 | .iconst4 | .iconst5
  | .fconst0 | .fconst1 | .fconst2 | .bipush | .sipush | .iload | .fload | .aload
  | .jsr | .jsrW => some ⟨0, 1⟩
  | .lconst0 | .lconst1 | .dconst0 | .dconst1 | .ldc2W | .lload | .dload => some ⟨0, 2⟩
  | .istore | .fstore | .astore | .pop | .ireturn | .freturn | .areturn | .athrow
  | .monitorenter | .monitorexit => some ⟨1, 0⟩
  | .lstore | .dstore | .pop2 | .lreturn | .dreturn => some ⟨2, 0⟩
  | .iaload | .faload | .aaload | .baload | .caload | .saload => some ⟨2, 1⟩
  | .laload | .daload => some ⟨2, 2⟩
  | .iastore | .fastore | .aastore | .bastore | .castore | .sastore => some ⟨3, 0⟩
  | .lastore | .dastore => some ⟨4, 0⟩
  | .dup => some ⟨1, 2⟩
  | .dupX1 => some ⟨2, 3⟩
  | .dupX2 => some ⟨3, 4⟩
  | .dup2 => some ⟨2, 4⟩
  | .dup2X1 => some ⟨3, 5⟩
  | .dup2X2 => some ⟨4, 6⟩
  | .swap => some ⟨2, 2⟩
  | .iadd | .isub | .imul | .idiv | .irem | .fadd | .fsub | .fmul | .fdiv | .frem
  | .ishl | .ishr | .iushr | .iand | .ior | .ixor => some ⟨2, 1⟩
  | .ladd | .lsub | .lmul | .ldiv | .lrem | .dadd | .dsub | .dmul | .ddiv | .drem
  | .land | .lor | .lxor => some ⟨4, 2⟩
  | .lshl | .lshr | .lushr => some ⟨3, 2⟩
  | .ineg | .fneg | .i2f | .f2i | .i2b | .i2c | .i2s | .newarray | .arraylength => some ⟨1, 1⟩
  | .lneg | .dneg | .l2d | .d2l => some ⟨2, 2⟩
  | .i2l | .i2d | .f2l | .f2d => some ⟨1, 2⟩
  | .l2i | .l2f | .d2i | .d2f => some ⟨2, 1⟩
  | .lcmp | .dcmpl | .dcmpg => some ⟨4, 1⟩
  | .fcmpl | .fcmpg => some ⟨2, 1⟩
  | .ifeq | .ifne | .iflt | .ifge | .ifgt | .ifle | .ifnull | .ifnonnull => some ⟨1, 0⟩
  | .ifIcmpeq | .ifIcmpne | .ifIcmplt | .ifIcmpge | .ifIcmpgt | .ifIcmple
  | .ifAcmpeq | .ifAcmpne => some ⟨2, 0⟩
  | _ => none

def opcodeEffect? (op : Opcode) : Option Effect := op.mnemonic?.bind mnemonicEffect?

/-- The effect of one element. `MULTIANEWARRAY` pops as many counts as its third operand byte
says. -/
def effect? : Element → Option Effect
  | .label _ | .line _ | .code (.increment ..) => some ⟨0, 0⟩
  | .code (.constant (.named .multianewarray) operands) =>
    operands[2]?.map fun dimensions => ⟨dimensions.toNat, 1⟩
  | .code i => opcodeEffect? i.opcode

end BytecodeMutation.Stack
