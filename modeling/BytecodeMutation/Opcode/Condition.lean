import BytecodeMutation.Opcode

/-!
The conditions that conditional branches test: a relation between two operands, where the family
says which operands are compared.
-/
namespace BytecodeMutation

inductive Relation
  | eq | ne | lt | ge | gt | le
  deriving DecidableEq, Repr, Ord

namespace Relation

def all : List Relation := [eq, ne, lt, ge, gt, le]

def symbol : Relation → String
  | eq => "=="
  | ne => "!="
  | lt => "<"
  | ge => ">="
  | gt => ">"
  | le => "<="

def isEquality : Relation → Bool
  | eq | ne => true
  | _ => false

end Relation

/-- What a conditional branch compares. Families differ in the number and type of the words that
the branch pops, so no branch is exchanged across families. -/
inductive Family
  /-- One int with zero. -/
  | zero
  /-- Two ints. -/
  | int
  /-- Two references. -/
  | reference
  /-- One reference with null. -/
  | null
  deriving DecidableEq, Repr, Ord

namespace Family

def all : List Family := [zero, int, reference, null]

/-- References are equal or not; only ints are ordered. -/
def isOrdered : Family → Bool
  | zero | int => true
  | reference | null => false

end Family

structure Comparison where
  family : Family
  relation : Relation
  deriving DecidableEq, Repr

/-- The branch that tests a comparison, if its family has the relation. -/
def Comparison.mnemonic? : Comparison → Option Mnemonic
  | ⟨.zero, .eq⟩ => some .ifeq
  | ⟨.zero, .ne⟩ => some .ifne
  | ⟨.zero, .lt⟩ => some .iflt
  | ⟨.zero, .ge⟩ => some .ifge
  | ⟨.zero, .gt⟩ => some .ifgt
  | ⟨.zero, .le⟩ => some .ifle
  | ⟨.int, .eq⟩ => some .ifIcmpeq
  | ⟨.int, .ne⟩ => some .ifIcmpne
  | ⟨.int, .lt⟩ => some .ifIcmplt
  | ⟨.int, .ge⟩ => some .ifIcmpge
  | ⟨.int, .gt⟩ => some .ifIcmpgt
  | ⟨.int, .le⟩ => some .ifIcmple
  | ⟨.reference, .eq⟩ => some .ifAcmpeq
  | ⟨.reference, .ne⟩ => some .ifAcmpne
  | ⟨.null, .eq⟩ => some .ifnull
  | ⟨.null, .ne⟩ => some .ifnonnull
  | _ => none

def Mnemonic.comparison? : Mnemonic → Option Comparison
  | .ifeq => some ⟨.zero, .eq⟩
  | .ifne => some ⟨.zero, .ne⟩
  | .iflt => some ⟨.zero, .lt⟩
  | .ifge => some ⟨.zero, .ge⟩
  | .ifgt => some ⟨.zero, .gt⟩
  | .ifle => some ⟨.zero, .le⟩
  | .ifIcmpeq => some ⟨.int, .eq⟩
  | .ifIcmpne => some ⟨.int, .ne⟩
  | .ifIcmplt => some ⟨.int, .lt⟩
  | .ifIcmpge => some ⟨.int, .ge⟩
  | .ifIcmpgt => some ⟨.int, .gt⟩
  | .ifIcmple => some ⟨.int, .le⟩
  | .ifAcmpeq => some ⟨.reference, .eq⟩
  | .ifAcmpne => some ⟨.reference, .ne⟩
  | .ifnull => some ⟨.null, .eq⟩
  | .ifnonnull => some ⟨.null, .ne⟩
  | _ => none

/-- Each comparison has at most one branch, and each conditional branch one comparison. -/
theorem Comparison.mnemonic?_eq_some_iff {c : Comparison} {m : Mnemonic} :
    c.mnemonic? = some m ↔ m.comparison? = some c := by
  constructor
  · intro h
    obtain ⟨family, relation⟩ := c
    cases family <;> cases relation <;> cases h <;> rfl
  · intro h
    cases m <;> cases h <;> rfl

def Opcode.comparison? (op : Opcode) : Option Comparison := op.mnemonic?.bind (·.comparison?)

end BytecodeMutation
