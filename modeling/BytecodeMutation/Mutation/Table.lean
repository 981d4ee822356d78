import BytecodeMutation.Mutation.Pipeline
import BytecodeMutation.Opcode.Operator
import BytecodeMutation.Stack.Effect

/-!
Tables that replace one opcode by another.

The same table may be read over plain instructions or over branches, which keep their target. A
table is consistent if no replacement can disturb the code around it: plain entries keep the stack
effect, branch entries compare the same operands.
-/
namespace BytecodeMutation

structure Substitution where
  replacement : Opcode
  description : String
  deriving DecidableEq, Repr

structure Table where
  name : String
  entries : List (Opcode × Substitution)
  deriving DecidableEq, Repr

/-- Which instructions a table is read over. -/
inductive TableKind
  | plain | branch
  deriving DecidableEq, Repr

inductive TableFault
  | mapsToItself (op : Opcode)
  | twice (op : Opcode)
  | noOperatorChange (op after : Opcode)
  /-- A description has to end with the two operators. -/
  | wrongDescription (op : Opcode) (description ending : String)
  | changesEffect (op after : Opcode)
  | leavesFamily (op after : Opcode)
  deriving DecidableEq, Repr

def TableFault.message : TableFault → String
  | mapsToItself op => op.text ++ " maps to itself"
  | twice op => op.text ++ " appears twice"
  | noOperatorChange op after => op.text ++ " -> " ++ after.text ++ " is not an operator change"
  | wrongDescription op description ending =>
    "description of " ++ op.text ++ " '" ++ description ++ "' does not end with '" ++ ending ++ "'"
  | changesEffect op after => op.text ++ " -> " ++ after.text ++ " changes the stack effect"
  | leavesFamily op after => op.text ++ " -> " ++ after.text ++ " leaves its comparison family"

structure TableError where
  table : String
  fault : TableFault
  deriving DecidableEq, Repr

def TableError.message (e : TableError) : String :=
  "table " ++ e.table ++ " is inconsistent: " ++ e.fault.message

namespace Table

/-- The first entry for an opcode. -/
def lookup? (t : Table) (op : Opcode) : Option Substitution :=
  (t.entries.find? (·.1 == op)).map (·.2)

/-- The two operators of a substitution, as a description has to end. -/
def ending? (op after : Opcode) : Option String := do
  return (← op.symbol?) ++ " to " ++ (← after.symbol?)

/-- Whether a replacement fits where the opcode stood. -/
def fits (kind : TableKind) (op after : Opcode) : Bool :=
  match kind with
  | .plain =>
    (Stack.opcodeEffect? op).isSome && Stack.opcodeEffect? op == Stack.opcodeEffect? after
  | .branch =>
    op.comparison?.isSome && op.comparison?.map (·.family) == after.comparison?.map (·.family)

def misfit (kind : TableKind) (op after : Opcode) : TableFault :=
  match kind with
  | .plain => .changesEffect op after
  | .branch => .leavesFamily op after

/-- What is wrong with an entry after entries for the opcodes `seen`. -/
def entryFault? (kind : TableKind) (seen : List Opcode) (op : Opcode) (s : Substitution) :
    Option TableFault :=
  if op = s.replacement then some (.mapsToItself op)
  else if op ∈ seen then some (.twice op)
  else match ending? op s.replacement with
    | none => some (.noOperatorChange op s.replacement)
    | some ending =>
      if !(ending.toList.isSuffixOf s.description.toList) then
        some (.wrongDescription op s.description ending)
      else if fits kind op s.replacement then none
      else some (misfit kind op s.replacement)

def firstFault? (kind : TableKind) (seen : List Opcode) :
    List (Opcode × Substitution) → Option TableFault
  | [] => none
  | (op, s) :: rest => (entryFault? kind seen op s).or (firstFault? kind (op :: seen) rest)

/-- Checks every entry, in order. -/
def validate (t : Table) (kind : TableKind) : Except TableError Unit :=
  match firstFault? kind [] t.entries with
  | some fault => .error ⟨t.name, fault⟩
  | none => .ok ()

/-- The edit of an element whose opcode is in the table. -/
def edit? (t : Table) : TableKind → Element → Option Edit
  | .plain, .code (.plain op) =>
    (t.lookup? op).map fun s => ⟨s.description, [.code (.plain s.replacement)]⟩
  | .branch, .code (.jump op target) =>
    (t.lookup? op).map fun s => ⟨s.description, [.code (.jump s.replacement target)]⟩
  | _, _ => none

def stage (t : Table) (kind : TableKind) (mutator : String) : Stage :=
  .ofEdit t.name mutator (t.edit? kind)

end Table

end BytecodeMutation
