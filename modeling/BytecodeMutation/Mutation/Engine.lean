import BytecodeMutation.Mutation.Mutator

/-!
The mutation engine: lists the candidates of a method, carries one out, and reports on it. The
method itself never changes.
-/
namespace BytecodeMutation

/-- What an engine is told to do. -/
structure Config where
  /-- Selections as `Mutator.select` reads them. -/
  mutators : List String := ["ALL"]
  /-- Leave out instructions on lines that no test executes. -/
  skipUncovered : Bool := true
  deriving DecidableEq, Repr

/-- The selected mutators in catalog order, each once. The first selection that names none is an
error. -/
def Config.resolve (c : Config) : Except UnknownMutator (List Mutator) := do
  let selected ← c.mutators.mapM Mutator.select
  return Mutator.all.filter fun m => selected.any (·.contains m)

/-- A candidate as reports show it. -/
structure Details where
  candidate : Candidate
  line : Option UInt32
  /-- The name of the mutator. -/
  mutator : String
  group : Group
  deriving DecidableEq, Repr

structure Engine where
  mutators : List Mutator
  skipUncovered : Bool := true
  deriving DecidableEq, Repr

namespace Engine

/-- The engine with the whole catalog. -/
def full : Engine := ⟨Mutator.all, true⟩

def ofConfig (c : Config) : Except UnknownMutator Engine := do
  return ⟨← c.resolve, c.skipUncovered⟩

/-- One mutator's pass over a method. -/
def pass (m : Mutator) (skip : Nat → Bool) (method : Method) (target : Option Candidate) :
    Body × Session :=
  Pipeline.run ⟨[m.stage], skip⟩ method.body (.start ⟨method.location, target⟩)

/-- The candidates outside the skipped indices, by mutator and then by index. -/
def enumerateSkipping (engine : Engine) (method : Method) (skip : Nat → Bool) : List Candidate :=
  engine.mutators.flatMap fun m => (pass m skip method none).2.found

def enumerate (engine : Engine) (method : Method) : List Candidate :=
  engine.enumerateSkipping method fun _ => false

/-- The first mutator that may have made a candidate in this method. -/
def mutatorFor? (engine : Engine) (method : Method) (c : Candidate) : Option Mutator :=
  if c.location = method.location then engine.mutators.find? (·.id == c.mutator) else none

/-- The body with a candidate carried out, or as it is if there is no such candidate. -/
def apply (engine : Engine) (method : Method) (c : Candidate) : Body :=
  match engine.mutatorFor? method c with
  | none => method.body
  | some m => (pass m (fun _ => false) method (some c)).1

/-- Reports on a candidate of the method. -/
def details? (engine : Engine) (method : Method) (c : Candidate) : Option Details :=
  match engine.mutatorFor? method c with
  | none => none
  | some m =>
    if (pass m (fun _ => false) method none).2.found.contains c then
      some ⟨c, method.body.lineAt? c.index, m.name, m.group⟩
    else none

/-- Every candidate with its mutant. -/
def mutants (engine : Engine) (method : Method) : List (Candidate × Body) :=
  (engine.enumerate method).map fun c => (c, engine.apply method c)

end Engine

end BytecodeMutation
