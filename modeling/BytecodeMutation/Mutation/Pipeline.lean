import BytecodeMutation.Mutation.Session

/-!
Stages that change a body element by element, and pipelines of them.

A stage is shown each element with the index that its instruction had in the unchanged body, also
when an earlier stage put several elements in its place. Elements with a skipped index go through
every stage unseen.
-/
namespace BytecodeMutation

/-- What a stage does with one element. -/
structure Visit where
  emitted : Body
  found : List Change
  deriving DecidableEq, Repr

structure Stage where
  name : String
  visit : Scope → Nat → Element → Visit

/-- A described replacement for one element. -/
structure Edit where
  description : String
  replacement : Body
  deriving DecidableEq, Repr

namespace Stage

/-- The stage that offers the edit of each element that has one, and makes it if it is selected. -/
def ofEdit (name mutator : String) (edit? : Element → Option Edit) : Stage where
  name := name
  visit scope index e :=
    match edit? e with
    | none => ⟨[e], []⟩
    | some edit =>
      let change : Change := ⟨mutator, edit.description⟩
      ⟨if scope.selects (scope.candidate index change) then edit.replacement else [e], [change]⟩

/-- What stands in the place of one element afterwards. -/
def emit (s : Stage) (skip : Nat → Bool) (scope : Scope) (p : Element × Nat) :
    List (Element × Nat) :=
  if skip p.2 then [p] else (s.visit scope p.2 p.1).emitted.map fun e => (e, p.2)

/-- Registers the changes that the stage offers for one element. -/
def register (s : Stage) (skip : Nat → Bool) (session : Session) (p : Element × Nat) : Session :=
  if skip p.2 then session else session.registerAll p.2 (s.visit session.scope p.2 p.1).found

/-- The candidates that the stage adds at one element. -/
def find (s : Stage) (skip : Nat → Bool) (scope : Scope) (p : Element × Nat) : List Candidate :=
  if skip p.2 then [] else (s.visit scope p.2 p.1).found.map (scope.candidate p.2)

theorem register_eq (s : Stage) (skip : Nat → Bool) (session : Session) (p : Element × Nat) :
    s.register skip session p =
      { session with found := session.found ++ s.find skip session.scope p } := by
  rw [register, find]
  split
  · rw [List.append_nil]
  · exact session.registerAll_eq _ _

/-- Over a whole body, what the stage adds stands behind the earlier candidates, in order. -/
theorem foldl_register (s : Stage) (skip : Nat → Bool) (current : List (Element × Nat))
    (session : Session) : current.foldl (s.register skip) session =
      { session with found := session.found ++ current.flatMap (s.find skip session.scope) } := by
  induction current generalizing session with
  | nil => simp only [List.foldl_nil, List.flatMap_nil, List.append_nil]
  | cons p current ih =>
    rw [List.foldl_cons, ih, register_eq]
    simp only [List.append_assoc, List.flatMap_cons]

end Stage

/-- A pipeline with the set of indices that its stages do not see. -/
structure Pipeline where
  stages : List Stage
  skip : Nat → Bool

namespace Pipeline

def runFrom (skip : Nat → Bool) : List Stage → List (Element × Nat) → Session →
    List (Element × Nat) × Session
  | [], current, session => (current, session)
  | s :: rest, current, session =>
    runFrom skip rest (current.flatMap (s.emit skip session.scope))
      (current.foldl (s.register skip) session)

theorem runFrom_cons (skip : Nat → Bool) (s : Stage) (rest : List Stage)
    (current : List (Element × Nat)) (session : Session) :
    runFrom skip (s :: rest) current session =
      runFrom skip rest (current.flatMap (s.emit skip session.scope))
        { session with found :=
          session.found ++ current.flatMap (s.find skip session.scope) } := by
  rw [runFrom, s.foldl_register]

/-- Sends the whole body through one stage after the other. -/
def run (p : Pipeline) (body : Body) (session : Session) : Body × Session :=
  let (final, session) := runFrom p.skip p.stages body.zipIdx session
  (final.map (·.1), session)

end Pipeline

end BytecodeMutation
