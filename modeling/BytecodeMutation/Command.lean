import BytecodeMutation.Command.Words
import BytecodeMutation.Text.Numeral

/-!
The commands: `decode` prints a body, `enumerate` lists the candidates of a method, and `apply`
carries one out.
-/
namespace BytecodeMutation

/-- The method that a command works on. -/
structure Subject where
  /-- Code in hexadecimal, or a file. -/
  input : String
  className : String := "Unknown"
  name : String := "method"
  descriptor : String := "()V"
  deriving DecidableEq, Repr

/-- The mutators that a command uses. A selection replaces that of the configuration. -/
structure Choice where
  config : Option String := none
  mutators : Option String := none
  deriving DecidableEq, Repr

/-- The candidate that a command carries out: the first of its mutator at its index, or the one
with the description. -/
structure Pick where
  mutator : String
  index : Nat
  description : Option String := none
  deriving DecidableEq, Repr

inductive Command
  | decode (input : String)
  | enumerate (subject : Subject) (choice : Choice) (json : Bool)
  | apply (subject : Subject) (choice : Choice) (pick : Pick) (hex : Bool)
  deriving DecidableEq, Repr

namespace Command

def subjectOptions : List String := ["class", "method", "descriptor"]

def choiceOptions : List String := ["config", "mutators"]

def pickOptions : List String := ["mutator", "index", "description"]

/-- Sorted words with the only plain one among them. -/
def wordsWithInput? (valued flags : List String) (words : List String) :
    Option (String × Words) := do
  let ws ← sortWords valued flags words
  match ws.plain with
  | [input] => if ws.isSingle then return (input, ws) else none
  | _ => none

def subject (input : String) (ws : Words) : Subject :=
  let start : Subject := { input }
  { input
    className := (ws.value? "class").getD start.className
    name := (ws.value? "method").getD start.name
    descriptor := (ws.value? "descriptor").getD start.descriptor }

def choice (ws : Words) : Choice := ⟨ws.value? "config", ws.value? "mutators"⟩

def pick? (ws : Words) : Option Pick := do
  let mutator ← ws.value? "mutator"
  let index ← (← ws.value? "index").toList |> Numeral.word? 64
  return ⟨mutator, index, ws.value? "description"⟩

/-- The command that the words of a command line give. -/
def ofWords? : List String → Option Command
  | "decode" :: words => do
    let (input, _) ← wordsWithInput? [] [] words
    return decode input
  | "enumerate" :: words => do
    let (input, ws) ← wordsWithInput? (subjectOptions ++ choiceOptions) ["json"] words
    return enumerate (subject input ws) (choice ws) (ws.has "json")
  | "apply" :: words => do
    let (input, ws) ←
      wordsWithInput? (subjectOptions ++ choiceOptions ++ pickOptions) ["hex"] words
    return apply (subject input ws) (choice ws) (← pick? ws) (ws.has "hex")
  | _ => none

/-- Every file that a command may look at. -/
def paths : Command → List String
  | decode input => [input]
  | enumerate subject choice _ => subject.input :: choice.config.toList
  | apply subject choice _ _ => subject.input :: choice.config.toList

end Command

end BytecodeMutation
