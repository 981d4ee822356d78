import BytecodeMutation.Mutation.Table

/-!
The eleven tables of the catalog: one for each arithmetic operator and one for each relation, with
a row for each opcode that it replaces.
-/
namespace BytecodeMutation

/-- Rows with one description. -/
def Substitution.rows (description : String) (pairs : List (Mnemonic × Mnemonic)) :
    List (Opcode × Substitution) :=
  pairs.map fun p => (.named p.1, ⟨.named p.2, description⟩)

open Substitution (rows)

namespace Operator

/-- What the table of an operator replaces by it. -/
def substitutions : Operator → List (Opcode × Substitution)
  | add =>
    rows "AOR: Changed - to +" [(.isub, .iadd), (.lsub, .ladd), (.fsub, .fadd), (.dsub, .dadd)] ++
    rows "AOR: Changed * to +" [(.imul, .iadd), (.lmul, .ladd), (.fmul, .fadd), (.dmul, .dadd)] ++
    rows "AOR: Changed / to +" [(.idiv, .iadd), (.ldiv, .ladd), (.fdiv, .fadd), (.ddiv, .dadd)] ++
    rows "AOR: Changed % to +" [(.irem, .iadd), (.lrem, .ladd), (.frem, .fadd), (.drem, .dadd)]
  | sub =>
    rows "AOR: Changed + to -" [(.iadd, .isub), (.ladd, .lsub), (.fadd, .fsub), (.dadd, .dsub)] ++
    rows "AOR: Changed * to -" [(.imul, .isub), (.lmul, .lsub), (.fmul, .fsub), (.dmul, .dsub)] ++
    rows "AOR: Changed / to -" [(.idiv, .isub), (.ldiv, .lsub), (.fdiv, .fsub), (.ddiv, .dsub)] ++
    rows "AOR: Changed % to -" [(.irem, .isub), (.lrem, .lsub), (.frem, .fsub), (.drem, .dsub)]
  | mul =>
    rows "AOR: Changed + to *" [(.iadd, .imul), (.ladd, .lmul), (.fadd, .fmul), (.dadd, .dmul)] ++
    rows "AOR: Changed - to *" [(.isub, .imul), (.lsub, .lmul), (.fsub, .fmul), (.dsub, .dmul)] ++
    rows "AOR: Changed / to *" [(.idiv, .imul), (.ldiv, .lmul), (.fdiv, .fmul), (.ddiv, .dmul)] ++
    rows "AOR: Changed % to *" [(.irem, .imul), (.lrem, .lmul), (.frem, .fmul), (.drem, .dmul)]
  | div =>
    rows "AOR: Changed + to /" [(.iadd, .idiv), (.ladd, .ldiv), (.fadd, .fdiv), (.dadd, .ddiv)] ++
    rows "AOR: Changed - to /" [(.isub, .idiv), (.lsub, .ldiv), (.fsub, .fdiv), (.dsub, .ddiv)] ++
    rows "AOR: Changed * to /" [(.imul, .idiv), (.lmul, .ldiv), (.fmul, .fdiv), (.dmul, .ddiv)] ++
    rows "AOR: Changed % to /" [(.irem, .idiv), (.lrem, .ldiv), (.frem, .fdiv), (.drem, .ddiv)]
  | rem =>
    rows "AOR: Changed + to %" [(.iadd, .irem), (.ladd, .lrem), (.fadd, .frem), (.dadd, .drem)] ++
    rows "AOR: Changed - to %" [(.isub, .irem), (.lsub, .lrem), (.fsub, .frem), (.dsub, .drem)] ++
    rows "AOR: Changed * to %" [(.imul, .irem), (.lmul, .lrem), (.fmul, .frem), (.dmul, .drem)] ++
    rows "AOR: Changed / to %" [(.idiv, .irem), (.ldiv, .lrem), (.fdiv, .frem), (.ddiv, .drem)]

end Operator

namespace Relation

/-- What the table of a relation replaces by it. Only the equalities reach references. -/
def substitutions : Relation → List (Opcode × Substitution)
  | eq =>
    rows "ROR: Changed > to ==" [(.ifgt, .ifeq), (.ifIcmpgt, .ifIcmpeq)] ++
    rows "ROR: Changed < to ==" [(.iflt, .ifeq), (.ifIcmplt, .ifIcmpeq)] ++
    rows "ROR: Changed >= to ==" [(.ifge, .ifeq), (.ifIcmpge, .ifIcmpeq)] ++
    rows "ROR: Changed <= to ==" [(.ifle, .ifeq), (.ifIcmple, .ifIcmpeq)] ++
    rows "ROR: Changed != to ==" [(.ifne, .ifeq), (.ifIcmpne, .ifIcmpeq),
      (.ifAcmpne, .ifAcmpeq), (.ifnonnull, .ifnull)]
  | ne =>
    rows "ROR: Changed > to !=" [(.ifgt, .ifne), (.ifIcmpgt, .ifIcmpne)] ++
    rows "ROR: Changed < to !=" [(.iflt, .ifne), (.ifIcmplt, .ifIcmpne)] ++
    rows "ROR: Changed >= to !=" [(.ifge, .ifne), (.ifIcmpge, .ifIcmpne)] ++
    rows "ROR: Changed <= to !=" [(.ifle, .ifne), (.ifIcmple, .ifIcmpne)] ++
    rows "ROR: Changed == to !=" [(.ifeq, .ifne), (.ifIcmpeq, .ifIcmpne),
      (.ifAcmpeq, .ifAcmpne), (.ifnull, .ifnonnull)]
  | ge =>
    rows "ROR: Changed > to >=" [(.ifgt, .ifge), (.ifIcmpgt, .ifIcmpge)] ++
    rows "ROR: Changed < to >=" [(.iflt, .ifge), (.ifIcmplt, .ifIcmpge)] ++
    rows "ROR: Changed != to >=" [(.ifne, .ifge), (.ifIcmpne, .ifIcmpge)] ++
    rows "ROR: Changed <= to >=" [(.ifle, .ifge), (.ifIcmple, .ifIcmpge)] ++
    rows "ROR: Changed == to >=" [(.ifeq, .ifge), (.ifIcmpeq, .ifIcmpge)]
  | gt =>
    rows "ROR: Changed >= to >" [(.ifge, .ifgt), (.ifIcmpge, .ifIcmpgt)] ++
    rows "ROR: Changed < to >" [(.iflt, .ifgt), (.ifIcmplt, .ifIcmpgt)] ++
    rows "ROR: Changed != to >" [(.ifne, .ifgt), (.ifIcmpne, .ifIcmpgt)] ++
    rows "ROR: Changed <= to >" [(.ifle, .ifgt), (.ifIcmple, .ifIcmpgt)] ++
    rows "ROR: Changed == to >" [(.ifeq, .ifgt), (.ifIcmpeq, .ifIcmpgt)]
  | le =>
    rows "ROR: Changed > to <=" [(.ifgt, .ifle), (.ifIcmpgt, .ifIcmple)] ++
    rows "ROR: Changed < to <=" [(.iflt, .ifle), (.ifIcmplt, .ifIcmple)] ++
    rows "ROR: Changed != to <=" [(.ifne, .ifle), (.ifIcmpne, .ifIcmple)] ++
    rows "ROR: Changed >= to <=" [(.ifge, .ifle), (.ifIcmpge, .ifIcmple)] ++
    rows "ROR: Changed == to <=" [(.ifeq, .ifle), (.ifIcmpeq, .ifIcmple)]
  | lt =>
    rows "ROR: Changed > to <" [(.ifgt, .iflt), (.ifIcmpgt, .ifIcmplt)] ++
    rows "ROR: Changed <= to <" [(.ifle, .iflt), (.ifIcmple, .ifIcmplt)] ++
    rows "ROR: Changed != to <" [(.ifne, .iflt), (.ifIcmpne, .ifIcmplt)] ++
    rows "ROR: Changed >= to <" [(.ifge, .iflt), (.ifIcmpge, .ifIcmplt)] ++
    rows "ROR: Changed == to <" [(.ifeq, .iflt), (.ifIcmpeq, .ifIcmplt)]

end Relation

end BytecodeMutation
