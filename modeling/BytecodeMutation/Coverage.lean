import Std.Data.TreeMap
import Std.Data.TreeSet
import Std.Data.HashSet
import BytecodeMutation.Coverage.Sha3
import BytecodeMutation.Mutation.Engine

/-!
Which tests execute which source lines.
-/
namespace BytecodeMutation

/-- One run of a test. -/
structure TestRun where
  name : String
  milliseconds : UInt64
  deriving DecidableEq, Repr

instance : Ord TestRun := ⟨compareLex (compareOn TestRun.name) (compareOn TestRun.milliseconds)⟩

structure ClassLine where
  className : ClassName
  line : UInt32
  deriving DecidableEq, Repr

instance : Ord ClassLine := ⟨compareLex (compareOn ClassLine.className) (compareOn ClassLine.line)⟩

/-- A class and the lines that hold its code, in ascending order. -/
structure ClassLines where
  className : ClassName
  lines : List UInt32
  deriving DecidableEq, Repr

/-- The lines of the known classes, and the tests that executed a line. -/
structure Coverage where
  declared : Std.TreeMap ClassName (Std.TreeSet UInt32)
  executed : Std.TreeMap ClassLine (Std.TreeSet TestRun)

namespace Coverage

def empty : Coverage := ⟨∅, ∅⟩

/-- Declares lines of a class without a test for them. -/
def declare (c : Coverage) (className : ClassName) (lines : List UInt32) : Coverage :=
  { c with declared :=
      c.declared.insert className ((c.declared.getD className ∅).insertMany lines) }

/-- Notes that a test executed a line, which thereby is a line of its class. -/
def record (c : Coverage) (test : TestRun) (place : ClassLine) : Coverage :=
  { c.declare place.className [place.line] with
    executed := c.executed.insert place ((c.executed.getD place ∅).insert test) }

/-- The tests that executed a line, in ascending order. -/
def testsForLine (c : Coverage) (l : ClassLine) : List TestRun := (c.executed.getD l ∅).toList

def isCovered (c : Coverage) (l : ClassLine) : Bool := !(c.testsForLine l).isEmpty

/-- The lines of the known classes among `names`. -/
def classLines (c : Coverage) (names : List ClassName) : List ClassLines :=
  names.filterMap fun name => c.declared[name]?.map fun lines => ⟨name, lines.toList⟩

/-- The number of lines of these classes that some test executed. -/
def coveredLines (c : Coverage) (names : List ClassName) : Nat :=
  (c.executed.toList.filter fun (l, tests) => names.contains l.className && !tests.isEmpty).length

/-- The tests that executed any line of a class, in ascending order. -/
def testsForClass (c : Coverage) (name : ClassName) : List TestRun :=
  let tests := (c.executed.toList.filter fun (l, _) => l.className == name).flatMap (·.2.toList)
  (Std.TreeSet.ofList tests).toList

/-- The names in ascending order, each followed by a zero byte. -/
def spelledNames (names : Std.TreeSet String) : List UInt8 :=
  names.toList.flatMap fun name => Hex.utf8 name.toList ++ [0]

/-- The names of the tests that executed some line of a class. -/
def testNames (c : Coverage) (name : ClassName) : Std.TreeSet String :=
  Std.TreeSet.ofList ((c.testsForClass name).map (·.name))

/-- A digest of the names of the tests for a class. -/
def fingerprint (c : Coverage) (name : ClassName) : List UInt8 :=
  Sha3.digest256 (spelledNames (c.testNames name))

end Coverage

/-- The indices from `index` on that lie on a line without tests. `dark` says whether the line
before them is one. -/
def uncoveredFrom (tests : ClassLine → List TestRun) (className : ClassName) (index : Nat)
    (dark : Bool) : Body → List Nat
  | [] => []
  | e :: rest =>
    let dark := match e with
      | .line n => (tests ⟨className, n⟩).isEmpty
      | _ => dark
    let later := uncoveredFrom tests className (index + 1) dark rest
    if dark then index :: later else later

/-- The indices of a method that lie on a line without tests. What stands before the first line
marker has no line and is not among them. -/
def Method.uncovered (method : Method) (tests : ClassLine → List TestRun) : List Nat :=
  uncoveredFrom tests method.location.className 0 false method.body

/-- The candidates on covered lines, or all of them if the engine does not skip. -/
def Engine.enumerateCovered (engine : Engine) (method : Method)
    (tests : ClassLine → List TestRun) : List Candidate :=
  if engine.skipUncovered then
    let dark := Std.HashSet.ofList (method.uncovered tests)
    engine.enumerateSkipping method dark.contains
  else engine.enumerate method

end BytecodeMutation
