import BytecodeMutation.Hex
import BytecodeMutation.Text.Numeral

/-!
The opcodes of the Java virtual machine.

`Mnemonic` lists the opcodes that have a name. The forty bytes with an implicit local index
(`iload_0` to `astore_3`) have no name of their own here: they are short spellings of `iload` to
`astore`, which `Instruction.implicit?` reads. Every other byte is an `Opcode.unknown`.
-/
namespace BytecodeMutation

/-- The named opcodes, by ascending byte. -/
inductive Mnemonic
  | nop | aconstNull | iconstM1 | iconst0 | iconst1 | iconst2 | iconst3 | iconst4 | iconst5
  | lconst0 | lconst1 | fconst0 | fconst1 | fconst2 | dconst0 | dconst1 | bipush | sipush | ldc
  | ldcW | ldc2W | iload | lload | fload | dload | aload | iaload | laload | faload | daload
  | aaload | baload | caload | saload | istore | lstore | fstore | dstore | astore | iastore
  | lastore | fastore | dastore | aastore | bastore | castore | sastore | pop | pop2 | dup
  | dupX1 | dupX2 | dup2 | dup2X1 | dup2X2 | swap | iadd | ladd | fadd | dadd | isub | lsub
  | fsub | dsub | imul | lmul | fmul | dmul | idiv | ldiv | fdiv | ddiv | irem | lrem | frem
  | drem | ineg | lneg | fneg | dneg | ishl | lshl | ishr | lshr | iushr | lushr | iand | land
  | ior | lor | ixor | lxor | iinc | i2l | i2f | i2d | l2i | l2f | l2d | f2i | f2l | f2d | d2i
  | d2l | d2f | i2b | i2c | i2s | lcmp | fcmpl | fcmpg | dcmpl | dcmpg | ifeq | ifne | iflt
  | ifge | ifgt | ifle | ifIcmpeq | ifIcmpne | ifIcmplt | ifIcmpge | ifIcmpgt | ifIcmple
  | ifAcmpeq | ifAcmpne | goto | jsr | ret | tableswitch | lookupswitch | ireturn | lreturn
  | freturn | dreturn | areturn | voidReturn | getstatic | putstatic | getfield | putfield
  | invokevirtual | invokespecial | invokestatic | invokeinterface | invokedynamic | new
  | newarray | anewarray | arraylength | athrow | checkcast | instanceof | monitorenter
  | monitorexit | wide | multianewarray | ifnull | ifnonnull | gotoW | jsrW
  deriving DecidableEq, Repr, Ord

namespace Mnemonic

/-- Every named opcode once, by ascending byte. -/
def all : List Mnemonic := [
  .nop, .aconstNull, .iconstM1, .iconst0, .iconst1, .iconst2, .iconst3, .iconst4, .iconst5,
  .lconst0, .lconst1, .fconst0, .fconst1, .fconst2, .dconst0, .dconst1, .bipush, .sipush, .ldc,
  .ldcW, .ldc2W, .iload, .lload, .fload, .dload, .aload, .iaload, .laload, .faload, .daload,
  .aaload, .baload, .caload, .saload, .istore, .lstore, .fstore, .dstore, .astore, .iastore,
  .lastore, .fastore, .dastore, .aastore, .bastore, .castore, .sastore, .pop, .pop2, .dup,
  .dupX1, .dupX2, .dup2, .dup2X1, .dup2X2, .swap, .iadd, .ladd, .fadd, .dadd, .isub, .lsub,
  .fsub, .dsub, .imul, .lmul, .fmul, .dmul, .idiv, .ldiv, .fdiv, .ddiv, .irem, .lrem, .frem,
  .drem, .ineg, .lneg, .fneg, .dneg, .ishl, .lshl, .ishr, .lshr, .iushr, .lushr, .iand, .land,
  .ior, .lor, .ixor, .lxor, .iinc, .i2l, .i2f, .i2d, .l2i, .l2f, .l2d, .f2i, .f2l, .f2d, .d2i,
  .d2l, .d2f, .i2b, .i2c, .i2s, .lcmp, .fcmpl, .fcmpg, .dcmpl, .dcmpg, .ifeq, .ifne, .iflt,
  .ifge, .ifgt, .ifle, .ifIcmpeq, .ifIcmpne, .ifIcmplt, .ifIcmpge, .ifIcmpgt, .ifIcmple,
  .ifAcmpeq, .ifAcmpne, .goto, .jsr, .ret, .tableswitch, .lookupswitch, .ireturn, .lreturn,
  .freturn, .dreturn, .areturn, .voidReturn, .getstatic, .putstatic, .getfield, .putfield,
  .invokevirtual, .invokespecial, .invokestatic, .invokeinterface, .invokedynamic, .new,
  .newarray, .anewarray, .arraylength, .athrow, .checkcast, .instanceof, .monitorenter,
  .monitorexit, .wide, .multianewarray, .ifnull, .ifnonnull, .gotoW, .jsrW]

/-- The byte and the written name of a named opcode. -/
def entry : Mnemonic → UInt8 × String
  | .nop => (0x00, "NOP")
  | .aconstNull => (0x01, "ACONST_NULL")
  | .iconstM1 => (0x02, "ICONST_M1")
  | .iconst0 => (0x03, "ICONST_0")
  | .iconst1 => (0x04, "ICONST_1")
  | .iconst2 => (0x05, "ICONST_2")
  | .iconst3 => (0x06, "ICONST_3")
  | .iconst4 => (0x07, "ICONST_4")
  | .iconst5 => (0x08, "ICONST_5")
  | .lconst0 => (0x09, "LCONST_0")
  | .lconst1 => (0x0a, "LCONST_1")
  | .fconst0 => (0x0b, "FCONST_0")
  | .fconst1 => (0x0c, "FCONST_1")
  | .fconst2 => (0x0d, "FCONST_2")
  | .dconst0 => (0x0e, "DCONST_0")
  | .dconst1 => (0x0f, "DCONST_1")
  | .bipush => (0x10, "BIPUSH")
  | .sipush => (0x11, "SIPUSH")
  | .ldc => (0x12, "LDC")
  | .ldcW => (0x13, "LDC_W")
  | .ldc2W => (0x14, "LDC2_W")
  | .iload => (0x15, "ILOAD")
  | .lload => (0x16, "LLOAD")
  | .fload => (0x17, "FLOAD")
  | .dload => (0x18, "DLOAD")
  | .aload => (0x19, "ALOAD")
  | .iaload => (0x2e, "IALOAD")
  | .laload => (0x2f, "LALOAD")
  | .faload => (0x30, "FALOAD")
  | .daload => (0x31, "DALOAD")
  | .aaload => (0x32, "AALOAD")
  | .baload => (0x33, "BALOAD")
  | .caload => (0x34, "CALOAD")
  | .saload => (0x35, "SALOAD")
  | .istore => (0x36, "ISTORE")
  | .lstore => (0x37, "LSTORE")
  | .fstore => (0x38, "FSTORE")
  | .dstore => (0x39, "DSTORE")
  | .astore => (0x3a, "ASTORE")
  | .iastore => (0x4f, "IASTORE")
  | .lastore => (0x50, "LASTORE")
  | .fastore => (0x51, "FASTORE")
  | .dastore => (0x52, "DASTORE")
  | .aastore => (0x53, "AASTORE")
  | .bastore => (0x54, "BASTORE")
  | .castore => (0x55, "CASTORE")
  | .sastore => (0x56, "SASTORE")
  | .pop => (0x57, "POP")
  | .pop2 => (0x58, "POP2")
  | .dup => (0x59, "DUP")
  | .dupX1 => (0x5a, "DUP_X1")
  | .dupX2 => (0x5b, "DUP_X2")
  | .dup2 => (0x5c, "DUP2")
  | .dup2X1 => (0x5d, "DUP2_X1")
  | .dup2X2 => (0x5e, "DUP2_X2")
  | .swap => (0x5f, "SWAP")
  | .iadd => (0x60, "IADD")
  | .ladd => (0x61, "LADD")
  | .fadd => (0x62, "FADD")
  | .dadd => (0x63, "DADD")
  | .isub => (0x64, "ISUB")
  | .lsub => (0x65, "LSUB")
  | .fsub => (0x66, "FSUB")
  | .dsub => (0x67, "DSUB")
  | .imul => (0x68, "IMUL")
  | .lmul => (0x69, "LMUL")
  | .fmul => (0x6a, "FMUL")
  | .dmul => (0x6b, "DMUL")
  | .idiv => (0x6c, "IDIV")
  | .ldiv => (0x6d, "LDIV")
  | .fdiv => (0x6e, "FDIV")
  | .ddiv => (0x6f, "DDIV")
  | .irem => (0x70, "IREM")
  | .lrem => (0x71, "LREM")
  | .frem => (0x72, "FREM")
  | .drem => (0x73, "DREM")
  | .ineg => (0x74, "INEG")
  | .lneg => (0x75, "LNEG")
  | .fneg => (0x76, "FNEG")
  | .dneg => (0x77, "DNEG")
  | .ishl => (0x78, "ISHL")
  | .lshl => (0x79, "LSHL")
  | .ishr => (0x7a, "ISHR")
  | .lshr => (0x7b, "LSHR")
  | .iushr => (0x7c, "IUSHR")
  | .lushr => (0x7d, "LUSHR")
  | .iand => (0x7e, "IAND")
  | .land => (0x7f, "LAND")
  | .ior => (0x80, "IOR")
  | .lor => (0x81, "LOR")
  | .ixor => (0x82, "IXOR")
  | .lxor => (0x83, "LXOR")
  | .iinc => (0x84, "IINC")
  | .i2l => (0x85, "I2L")
  | .i2f => (0x86, "I2F")
  | .i2d => (0x87, "I2D")
  | .l2i => (0x88, "L2I")
  | .l2f => (0x89, "L2F")
  | .l2d => (0x8a, "L2D")
  | .f2i => (0x8b, "F2I")
  | .f2l => (0x8c, "F2L")
  | .f2d => (0x8d, "F2D")
  | .d2i => (0x8e, "D2I")
  | .d2l => (0x8f, "D2L")
  | .d2f => (0x90, "D2F")
  | .i2b => (0x91, "I2B")
  | .i2c => (0x92, "I2C")
  | .i2s => (0x93, "I2S")
  | .lcmp => (0x94, "LCMP")
  | .fcmpl => (0x95, "FCMPL")
  | .fcmpg => (0x96, "FCMPG")
  | .dcmpl => (0x97, "DCMPL")
  | .dcmpg => (0x98, "DCMPG")
  | .ifeq => (0x99, "IFEQ")
  | .ifne => (0x9a, "IFNE")
  | .iflt => (0x9b, "IFLT")
  | .ifge => (0x9c, "IFGE")
  | .ifgt => (0x9d, "IFGT")
  | .ifle => (0x9e, "IFLE")
  | .ifIcmpeq => (0x9f, "IF_ICMPEQ")
  | .ifIcmpne => (0xa0, "IF_ICMPNE")
  | .ifIcmplt => (0xa1, "IF_ICMPLT")
  | .ifIcmpge => (0xa2, "IF_ICMPGE")
  | .ifIcmpgt => (0xa3, "IF_ICMPGT")
  | .ifIcmple => (0xa4, "IF_ICMPLE")
  | .ifAcmpeq => (0xa5, "IF_ACMPEQ")
  | .ifAcmpne => (0xa6, "IF_ACMPNE")
  | .goto => (0xa7, "GOTO")
  | .jsr => (0xa8, "JSR")
  | .ret => (0xa9, "RET")
  | .tableswitch => (0xaa, "TABLESWITCH")
  | .lookupswitch => (0xab, "LOOKUPSWITCH")
  | .ireturn => (0xac, "IRETURN")
  | .lreturn => (0xad, "LRETURN")
  | .freturn => (0xae, "FRETURN")
  | .dreturn => (0xaf, "DRETURN")
  | .areturn => (0xb0, "ARETURN")
  | .voidReturn => (0xb1, "RETURN")
  | .getstatic => (0xb2, "GETSTATIC")
  | .putstatic => (0xb3, "PUTSTATIC")
  | .getfield => (0xb4, "GETFIELD")
  | .putfield => (0xb5, "PUTFIELD")
  | .invokevirtual => (0xb6, "INVOKEVIRTUAL")
  | .invokespecial => (0xb7, "INVOKESPECIAL")
  | .invokestatic => (0xb8, "INVOKESTATIC")
  | .invokeinterface => (0xb9, "INVOKEINTERFACE")
  | .invokedynamic => (0xba, "INVOKEDYNAMIC")
  | .new => (0xbb, "NEW")
  | .newarray => (0xbc, "NEWARRAY")
  | .anewarray => (0xbd, "ANEWARRAY")
  | .arraylength => (0xbe, "ARRAYLENGTH")
  | .athrow => (0xbf, "ATHROW")
  | .checkcast => (0xc0, "CHECKCAST")
  | .instanceof => (0xc1, "INSTANCEOF")
  | .monitorenter => (0xc2, "MONITORENTER")
  | .monitorexit => (0xc3, "MONITOREXIT")
  | .wide => (0xc4, "WIDE")
  | .multianewarray => (0xc5, "MULTIANEWARRAY")
  | .ifnull => (0xc6, "IFNULL")
  | .ifnonnull => (0xc7, "IFNONNULL")
  | .gotoW => (0xc8, "GOTO_W")
  | .jsrW => (0xc9, "JSR_W")

def byte (m : Mnemonic) : UInt8 := m.entry.1

def text (m : Mnemonic) : String := m.entry.2

end Mnemonic

/-- An opcode byte. `named .iadd` and `unknown 0x60` are different values that share a byte; reading
a byte never gives the second. -/
inductive Opcode
  | named (m : Mnemonic)
  | unknown (byte : UInt8)
  deriving DecidableEq, Repr, Ord

/-- A name that no opcode has. -/
structure UnknownMnemonic where
  name : String
  deriving DecidableEq, Repr

def UnknownMnemonic.message (e : UnknownMnemonic) : String := "unknown mnemonic: " ++ e.name

namespace Opcode

instance : Coe Mnemonic Opcode := ⟨named⟩

def ofByte (b : UInt8) : Opcode :=
  match Mnemonic.all.find? (·.byte == b) with
  | some m => named m
  | none => unknown b

def byte : Opcode → UInt8
  | named m => m.byte
  | unknown b => b

theorem byte_ofByte (b : UInt8) : (ofByte b).byte = b := by
  unfold ofByte
  split
  · next h => simpa [byte] using List.find?_some h
  · rfl

def mnemonic? : Opcode → Option Mnemonic
  | named m => some m
  | unknown _ => none

def unknownStart : String := "UNKNOWN_0x"

def text : Opcode → String
  | named m => m.text
  | unknown b => unknownStart ++ Hex.encode [b]

/-- Reads a name, or a byte written as an unknown opcode. The byte of a named opcode gives that
opcode, so writing what was read may be shorter. -/
def ofText (name : String) : Except UnknownMnemonic Opcode :=
  match Mnemonic.all.find? (·.text == name) with
  | some m => .ok (named m)
  | none =>
    let byte? := (Text.after? unknownStart.toList name.toList).bind (Numeral.unsigned? 16)
    match byte?.filter (· < 256) with
    | some n => .ok (ofByte (UInt8.ofNat n))
    | none => .error ⟨name⟩

end Opcode

end BytecodeMutation
