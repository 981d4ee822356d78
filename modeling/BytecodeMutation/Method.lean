import BytecodeMutation.Instruction

/-!
Classes, methods and their bodies.
-/
namespace BytecodeMutation

/-- A class name in the form that class files use, with slashes between its parts. -/
structure ClassName where
  internal : String
  deriving DecidableEq, Repr

instance : Ord ClassName := ⟨compareOn ClassName.internal⟩

namespace ClassName

/-- Reads a name with dots or slashes. -/
def ofText (name : String) : ClassName := ⟨name.map fun c => if c = '.' then '/' else c⟩

/-- The name with dots, as programs write it. -/
def text (c : ClassName) : String := c.internal.map fun c => if c = '/' then '.' else c

end ClassName

/-- Overloads differ in the descriptor alone. -/
structure MethodName where
  name : String
  descriptor : String
  deriving DecidableEq, Repr, Ord

def MethodName.text (m : MethodName) : String := m.name ++ m.descriptor

structure Location where
  className : ClassName
  method : MethodName
  deriving DecidableEq, Repr, Ord

def Location.text (l : Location) : String := l.className.text ++ "::" ++ l.method.text

structure Method where
  location : Location
  body : Body
  deriving DecidableEq, Repr

/-- The line of the last line marker up to `index`. -/
def Body.lineAt? (body : Body) (index : Nat) : Option UInt32 :=
  (body.take (index + 1)).reverse.findSome? fun
    | .line n => some n
    | _ => none

end BytecodeMutation
