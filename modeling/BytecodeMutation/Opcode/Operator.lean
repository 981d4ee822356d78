import BytecodeMutation.Opcode.Condition

/-!
The binary arithmetic instructions: one operator on two operands of one number type.
-/
namespace BytecodeMutation

inductive Operator
  | add | sub | mul | div | rem
  deriving DecidableEq, Repr, Ord

namespace Operator

def all : List Operator := [add, sub, mul, div, rem]

def symbol : Operator → String
  | add => "+"
  | sub => "-"
  | mul => "*"
  | div => "/"
  | rem => "%"

end Operator

/-- How many stack words a value takes: one or two. -/
inductive Width
  | single | double
  deriving DecidableEq, Repr

inductive NumberType
  | int | long | float | double
  deriving DecidableEq, Repr

namespace NumberType

def all : List NumberType := [int, long, float, double]

def width : NumberType → Width
  | int | float => .single
  | long | double => .double

end NumberType

structure Arithmetic where
  operator : Operator
  type : NumberType
  deriving DecidableEq, Repr

def Arithmetic.mnemonic : Arithmetic → Mnemonic
  | ⟨.add, .int⟩ => .iadd
  | ⟨.add, .long⟩ => .ladd
  | ⟨.add, .float⟩ => .fadd
  | ⟨.add, .double⟩ => .dadd
  | ⟨.sub, .int⟩ => .isub
  | ⟨.sub, .long⟩ => .lsub
  | ⟨.sub, .float⟩ => .fsub
  | ⟨.sub, .double⟩ => .dsub
  | ⟨.mul, .int⟩ => .imul
  | ⟨.mul, .long⟩ => .lmul
  | ⟨.mul, .float⟩ => .fmul
  | ⟨.mul, .double⟩ => .dmul
  | ⟨.div, .int⟩ => .idiv
  | ⟨.div, .long⟩ => .ldiv
  | ⟨.div, .float⟩ => .fdiv
  | ⟨.div, .double⟩ => .ddiv
  | ⟨.rem, .int⟩ => .irem
  | ⟨.rem, .long⟩ => .lrem
  | ⟨.rem, .float⟩ => .frem
  | ⟨.rem, .double⟩ => .drem

def Mnemonic.arithmetic? : Mnemonic → Option Arithmetic
  | .iadd => some ⟨.add, .int⟩
  | .ladd => some ⟨.add, .long⟩
  | .fadd => some ⟨.add, .float⟩
  | .dadd => some ⟨.add, .double⟩
  | .isub => some ⟨.sub, .int⟩
  | .lsub => some ⟨.sub, .long⟩
  | .fsub => some ⟨.sub, .float⟩
  | .dsub => some ⟨.sub, .double⟩
  | .imul => some ⟨.mul, .int⟩
  | .lmul => some ⟨.mul, .long⟩
  | .fmul => some ⟨.mul, .float⟩
  | .dmul => some ⟨.mul, .double⟩
  | .idiv => some ⟨.div, .int⟩
  | .ldiv => some ⟨.div, .long⟩
  | .fdiv => some ⟨.div, .float⟩
  | .ddiv => some ⟨.div, .double⟩
  | .irem => some ⟨.rem, .int⟩
  | .lrem => some ⟨.rem, .long⟩
  | .frem => some ⟨.rem, .float⟩
  | .drem => some ⟨.rem, .double⟩
  | _ => none

theorem Arithmetic.mnemonic_eq_iff {a : Arithmetic} {m : Mnemonic} :
    a.mnemonic = m ↔ m.arithmetic? = some a := by
  constructor
  · rintro rfl
    obtain ⟨operator, type⟩ := a
    cases operator <;> cases type <;> rfl
  · intro h
    cases m <;> cases h <;> rfl

namespace Mnemonic

/-- The width of both operands of a binary arithmetic instruction. -/
def operandWidth? : Mnemonic → Option Width
  | .iadd | .isub | .imul | .idiv | .irem | .fadd | .fsub | .fmul | .fdiv | .frem => some .single
  | .ladd | .lsub | .lmul | .ldiv | .lrem | .dadd | .dsub | .dmul | .ddiv | .drem => some .double
  | _ => none

def arithmeticSymbol? : Mnemonic → Option String
  | .iadd | .ladd | .fadd | .dadd => some "+"
  | .isub | .lsub | .fsub | .dsub => some "-"
  | .imul | .lmul | .fmul | .dmul => some "*"
  | .idiv | .ldiv | .fdiv | .ddiv => some "/"
  | .irem | .lrem | .frem | .drem => some "%"
  | _ => none

theorem operandWidth?_eq (m : Mnemonic) :
    m.operandWidth? = m.arithmetic?.map (·.type.width) := by
  cases m <;> rfl

theorem arithmeticSymbol?_eq (m : Mnemonic) :
    m.arithmeticSymbol? = m.arithmetic?.map (·.operator.symbol) := by
  cases m <;> rfl

end Mnemonic

namespace Opcode

def arithmetic? (op : Opcode) : Option Arithmetic := op.mnemonic?.bind (·.arithmetic?)

def operandWidth? (op : Opcode) : Option Width := op.mnemonic?.bind (·.operandWidth?)

/-- The operator that an opcode stands for in a program's text: a relation or an arithmetic one. -/
def symbol? (op : Opcode) : Option String :=
  match op.comparison? with
  | some c => some c.relation.symbol
  | none => op.mnemonic?.bind (·.arithmeticSymbol?)

theorem operandWidth?_eq (op : Opcode) :
    op.operandWidth? = op.arithmetic?.map (·.type.width) := by
  cases op with
  | unknown b => rfl
  | named m => exact m.operandWidth?_eq

theorem operandWidth?_eq_some_iff {op : Opcode} {width : Width} :
    op.operandWidth? = some width ↔ ∃ a, op.arithmetic? = some a ∧ a.type.width = width := by
  rw [operandWidth?_eq, Option.map_eq_some_iff]

theorem symbol?_eq (op : Opcode) : op.symbol? =
    (op.comparison?.map (·.relation.symbol)).or (op.arithmetic?.map (·.operator.symbol)) := by
  cases op with
  | unknown b => rfl
  | named m =>
    cases compared : (named m).comparison? with
    | some c => simp only [symbol?, compared, Option.map_some, Option.some_or]
    | none =>
      simp only [symbol?, compared, Option.map_none, Option.none_or]
      exact m.arithmeticSymbol?_eq

end Opcode

end BytecodeMutation
