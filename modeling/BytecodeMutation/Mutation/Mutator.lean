import BytecodeMutation.Mutation.Deletion
import BytecodeMutation.Mutation.Substitutions
import BytecodeMutation.Text.Blank

/-!
The catalog of mutators: five that put an arithmetic operator in the place of the others, six that
put a relation in the place of the others, and two that delete an operand.
-/
namespace BytecodeMutation

inductive Group
  | aor | ror | aod
  deriving DecidableEq, Repr

def Group.name : Group → String
  | aor => "AOR"
  | ror => "ROR"
  | aod => "AOD"

inductive Mutator
  | operator (o : Operator)
  | relation (r : Relation)
  | deletion (operand : Operand)
  deriving DecidableEq, Repr

/-- How a mutator changes elements. -/
inductive Rule
  | substitution (kind : TableKind) (table : Table)
  | deletion (operand : Operand)
  deriving DecidableEq, Repr

def Rule.edit? : Rule → Element → Option Edit
  | substitution kind table => table.edit? kind
  | deletion operand => operand.edit?

structure UnknownMutator where
  name : String
  deriving DecidableEq, Repr

def UnknownMutator.message (e : UnknownMutator) : String := "unknown mutator: " ++ e.name

namespace Mutator

/-- The whole catalog, in the order in which candidates are listed. -/
def all : List Mutator := [
  operator .add, operator .sub, operator .mul, operator .div, operator .rem,
  relation .eq, relation .ne, relation .ge, relation .gt, relation .le, relation .lt,
  deletion .first, deletion .second]

instance : Ord Mutator := ⟨compareOn fun m => all.idxOf m⟩

/-- The identifier that candidates carry. -/
def id : Mutator → String
  | operator .add => "aor.addition"
  | operator .sub => "aor.subtraction"
  | operator .mul => "aor.multiplication"
  | operator .div => "aor.division"
  | operator .rem => "aor.modulus"
  | relation .eq => "ror.equals"
  | relation .ne => "ror.not_equal"
  | relation .ge => "ror.greater_or_equal"
  | relation .gt => "ror.greater"
  | relation .le => "ror.less_or_equal"
  | relation .lt => "ror.less"
  | deletion .first => "aod.delete_first_operand"
  | deletion .second => "aod.delete_second_operand"

/-- The name that reports show. -/
def name : Mutator → String
  | operator .add => "ADDITION_MUTATOR"
  | operator .sub => "SUBTRACTION_MUTATOR"
  | operator .mul => "MULTIPLICATION_MUTATOR"
  | operator .div => "DIVISION_MUTATOR"
  | operator .rem => "MODULUS_MUTATOR"
  | relation .eq => "EQUALS_MUTATOR"
  | relation .ne => "NOT_EQUAL_MUTATOR"
  | relation .ge => "GREATER_OR_EQUAL_MUTATOR"
  | relation .gt => "GREATER_MUTATOR"
  | relation .le => "LESS_OR_EQUAL_MUTATOR"
  | relation .lt => "LESS_MUTATOR"
  | deletion .first => "DELETE_FIRST_OPERAND"
  | deletion .second => "DELETE_SECOND_OPERAND"

def group : Mutator → Group
  | operator _ => .aor
  | relation _ => .ror
  | deletion _ => .aod

def relation? : Mutator → Option Relation
  | relation r => some r
  | _ => none

def operatorTableName : Operator → String
  | .add => "ADDITION"
  | .sub => "SUBTRACTION"
  | .mul => "MULTIPLICATION"
  | .div => "DIVISION"
  | .rem => "MODULUS"

def relationTableName : Relation → String
  | .eq => "EQUALS"
  | .ne => "NOT_EQUAL"
  | .ge => "GREATER_OR_EQUAL"
  | .gt => "GREATER"
  | .le => "LESS_OR_EQUAL"
  | .lt => "LESS"

def rule : Mutator → Rule
  | operator o => .substitution .plain ⟨operatorTableName o, o.substitutions⟩
  | relation r => .substitution .branch ⟨relationTableName r, r.substitutions⟩
  | deletion operand => .deletion operand

def edit? (m : Mutator) : Element → Option Edit := m.rule.edit?

def stage (m : Mutator) : Stage :=
  let rule := m.rule
  .ofEdit m.name m.id rule.edit?

/-- Checks the mutator's table, if it has one. -/
def validate (m : Mutator) : Except TableError Unit :=
  match m.rule with
  | .substitution kind table => table.validate kind
  | .deletion _ => .ok ()

/-- Finds a mutator by name or identifier, in any case. -/
def ofName? (name : String) : Option Mutator :=
  all.find? fun m => Text.sameIgnoringCase m.name name || Text.sameIgnoringCase m.id name

/-- The mutators that a selection names: all of them, a group, or one. Outer blanks do not
count. -/
def select (selection : String) : Except UnknownMutator (List Mutator) :=
  let selection := String.ofList (Text.trim selection.toList)
  if Text.sameIgnoringCase selection "ALL" then .ok all
  else
    let group := all.filter fun m => Text.sameIgnoringCase m.group.name selection
    if !group.isEmpty then .ok group
    else match ofName? selection with
      | some m => .ok [m]
      | none => .error ⟨selection⟩

end Mutator

end BytecodeMutation
