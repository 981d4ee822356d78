import Std.Data.TreeSet
import BytecodeMutation.Coverage
import BytecodeMutation.Json.Program
import BytecodeMutation.Json.Reading

/-!
The JSON forms of candidates, engine settings and coverage.
-/
namespace BytecodeMutation
open JsonForm

instance : JsonForm Group := ofNames [("AOR", .aor), ("ROR", .ror), ("AOD", .aod)]

instance : JsonForm Operand := ofNames [("First", .first), ("Second", .second)]

instance : JsonForm Mutator := ofNames [
  ("Addition", .operator .add), ("Subtraction", .operator .sub),
  ("Multiplication", .operator .mul), ("Division", .operator .div), ("Modulus", .operator .rem),
  ("Equals", .relation .eq), ("NotEqual", .relation .ne), ("GreaterOrEqual", .relation .ge),
  ("Greater", .relation .gt), ("LessOrEqual", .relation .le), ("Less", .relation .lt),
  ("DeleteFirstOperand", .deletion .first), ("DeleteSecondOperand", .deletion .second)]

instance : JsonForm Candidate where
  toJson c := .obj [("location", toJson c.location), ("index", toJson c.index),
    ("mutator", toJson c.mutator), ("description", toJson c.description)]
  ofJson? j := do
    match ← j.record? ["location", "index", "mutator", "description"] with
    | [location, index, mutator, description] =>
      return ⟨← required location, ← required index, ← required mutator, ← required description⟩
    | _ => none

instance : JsonForm Details where
  toJson d := .obj [("id", toJson d.candidate), ("line", toJson d.line),
    ("mutator", toJson d.mutator), ("group", toJson d.group)]
  ofJson? j := do
    match ← j.record? ["id", "line", "mutator", "group"] with
    | [candidate, line, mutator, group] =>
      return ⟨← required candidate, ← optional none line, ← required mutator, ← required group⟩
    | _ => none

/-- Fields that are left out keep their defaults. -/
instance : JsonForm Config where
  toJson c := .obj [("mutators", toJson c.mutators), ("skip_uncovered", toJson c.skipUncovered)]
  ofJson? j := do
    match ← j.record? ["mutators", "skip_uncovered"] with
    | [mutators, skip] =>
      return ⟨← optional ({} : Config).mutators mutators,
        ← optional ({} : Config).skipUncovered skip⟩
    | _ => none

/-- Reads a configuration text. -/
def Config.ofText? (text : String) : Option Config := (Json.parse? text).bind ofJson?

instance : JsonForm TestRun where
  toJson t := .obj [("name", toJson t.name), ("time_ms", toJson t.milliseconds)]
  ofJson? j := do
    match ← j.record? ["name", "time_ms"] with
    | [name, milliseconds] => return ⟨← required name, ← required milliseconds⟩
    | _ => none

instance : JsonForm ClassLine where
  toJson l := .obj [("class", toJson l.className), ("line", toJson l.line)]
  ofJson? j := do
    match ← j.record? ["class", "line"] with
    | [className, line] => return ⟨← required className, ← required line⟩
    | _ => none

/-- The lines are a set, so they are read in any order and with repetitions. -/
instance : JsonForm ClassLines where
  toJson c := .obj [("name", toJson c.className), ("code_lines", toJson c.lines)]
  ofJson? j := do
    match ← j.record? ["name", "code_lines"] with
    | [className, lines] =>
      let lines : List UInt32 ← required lines
      return ⟨← required className, (Std.TreeSet.ofList lines).toList⟩
    | _ => none

end BytecodeMutation
