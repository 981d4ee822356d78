import BytecodeMutation.Stack.Effect

/-!
Runs a body from top to bottom on a stack depth. A branch falls through.
-/
namespace BytecodeMutation.Stack

inductive DepthError
  | underflow (index : Nat) (op : Opcode) (needed available : Nat)
  | unknownEffect (index : Nat) (op : Opcode)
  deriving DecidableEq, Repr

def underflowMessage (index : Nat) (op : Opcode) (needed available : Nat) : String :=
  s!"stack underflow at instruction {index}: " ++ op.text ++
    s!" needs {needed} words, {available} available"

def DepthError.message : DepthError → String
  | underflow index op needed available => underflowMessage index op needed available
  | unknownEffect index op =>
    "stack effect of " ++ op.text ++ s!" at instruction {index} is not known"

/-- The opcode that an error names. Markers have an effect and pop nothing, so theirs is never
seen. -/
def namedOpcode (e : Element) : Opcode := e.opcode?.getD (.named .nop)

/-- The depth after the element at `index`. -/
def step (index : Nat) (depth : Nat) (e : Element) : Except DepthError Nat :=
  match effect? e with
  | none => .error (.unknownEffect index (namedOpcode e))
  | some effect =>
    if effect.pops > depth then .error (.underflow index (namedOpcode e) effect.pops depth)
    else .ok (depth - effect.pops + effect.pushes)

def depthsFrom (index depth : Nat) : Body → Except DepthError (List Nat)
  | [] => .ok []
  | e :: rest =>
    match step index depth e with
    | .error err => .error err
    | .ok next => (depthsFrom (index + 1) next rest).map (next :: ·)

/-- The depth after each element. -/
def depths (body : Body) (initial : Nat) : Except DepthError (List Nat) := depthsFrom 0 initial body

end BytecodeMutation.Stack
