import BytecodeMutation.Code.Writing
import BytecodeMutation.Command
import BytecodeMutation.Files
import BytecodeMutation.Json.Printing
import BytecodeMutation.Listing.Reading

/-!
What the commands print. A method is loaded before its mutators are chosen, and both before a
candidate is looked for.
-/
namespace BytecodeMutation

inductive CommandError
  | code (e : CodeFileError)
  | listing (e : ListingError)
  | reading (e : ReadError)
  | writing (e : WriteError)
  | config (e : ConfigFileError)
  | mutator (e : UnknownMutator)
  /-- The file of a listing holds no text. -/
  | file (fault : FileFault)
  | noSuchMutation (name : String) (index : Nat)
  deriving DecidableEq, Repr

def CommandError.message : CommandError → String
  | code e => "core error: " ++ e.message
  | listing e => "core error: " ++ e.message
  | reading e => "core error: " ++ e.message
  | writing e => "core error: " ++ e.message
  | config e => "engine error: " ++ e.message
  | mutator e => "engine error: " ++ e.message
  | file fault => "file error: " ++ fault.message
  | noSuchMutation name index => "no " ++ name ++ s!" mutation at instruction {index}"

/-- Whether a path names an assembly file: its last part is more than the extension. -/
def isListingPath (path : String) : Bool :=
  let name := (path.toList.splitOn '/').getLast?.getD []
  ".asm".toList.isSuffixOf name && name.length > 4

namespace Files

/-- The bytes of an input that is no listing. -/
def inputBytes (files : Files) (input : String) (isFile : Bool) :
    Except CodeFileError (List UInt8) :=
  if isFile then files.code input else (Hex.read input).mapError .spelling

/-- The body of an input: a listing in an `asm` file, hexadecimal in any other file, or the
hexadecimal itself. What begins with `0x` is no file. -/
def body (files : Files) (input : String) : Except CommandError Body :=
  let isFile := (Text.after? ['0', 'x'] input.toList).isNone && (files input).isSome
  if isFile && isListingPath input then
    match files.text input with
    | .error fault => .error (.file fault)
    | .ok s => (Listing.read s).mapError .listing
  else
    match files.inputBytes input isFile with
    | .error e => .error (.code e)
    | .ok bytes => (Code.read ⟨bytes, []⟩).mapError .reading

end Files

def Subject.method (files : Files) (s : Subject) : Except CommandError Method := do
  return ⟨⟨.ofText s.className, ⟨s.name, s.descriptor⟩⟩, ← files.body s.input⟩

namespace Choice

/-- The selections in a list with commas. -/
def selections (text : String) : List String :=
  ((text.toList.splitOn ',').map Text.trim).filterMap fun cs =>
    if cs.isEmpty then none else some (String.ofList cs)

/-- A configuration file is read even if its selections are replaced. -/
def settings (files : Files) (c : Choice) : Except ConfigFileError Config :=
  let stored := match c.config with
    | some path => files.config path
    | none => .ok {}
  match c.mutators with
  | none => stored
  | some text => stored.map fun config => { config with mutators := selections text }

def engine (files : Files) (c : Choice) : Except CommandError Engine :=
  match c.settings files with
  | .error e => .error (.config e)
  | .ok config => (Engine.ofConfig config).mapError .mutator

end Choice

/-- What is reported on a method: every candidate. -/
def Engine.report (engine : Engine) (method : Method) : List Details :=
  (engine.enumerate method).filterMap (engine.details? method)

def alignRight (width : Nat) (s : String) : String := String.ofList (s.toList.leftpad width ' ')

def alignLeft (width : Nat) (s : String) : String := String.ofList (s.toList.rightpad width ' ')

/-- One row of a report. -/
def Details.row (d : Details) : String :=
  let line := match d.line with
    | some n => Numeral.decimal n.toNat
    | none => "-"
  alignRight 5 (Numeral.decimal d.candidate.index) ++ " " ++ alignRight 6 line ++ "  " ++
    alignLeft 26 d.mutator ++ " " ++ d.candidate.description ++ "\n"

/-- A report as a table below a line that counts its rows. -/
def reportTable (location : Location) (report : List Details) : String :=
  location.text ++ s!": {report.length} mutations\n" ++ String.join (report.map Details.row)

namespace Pick

/-- Whether a pick means a candidate, given the mutator that it names. -/
def means (p : Pick) (m : Mutator) (c : Candidate) : Bool :=
  c.mutator == m.id && c.index == p.index && p.description.all (· == c.description)

/-- The first candidate that a pick means. -/
def find? (p : Pick) (candidates : List Candidate) : Option Candidate :=
  (Mutator.ofName? p.mutator).bind fun m => candidates.find? (p.means m)

def mutant (p : Pick) (engine : Engine) (method : Method) : Except CommandError Body :=
  match p.find? (engine.enumerate method) with
  | some c => .ok (engine.apply method c)
  | none => .error (.noSuchMutation p.mutator p.index)

end Pick

/-- The text that a command prints. -/
def Command.run (files : Files) : Command → Except CommandError String
  | decode input => (files.body input).map Body.listing
  | enumerate subject choice json => do
    let method ← subject.method files
    let engine ← choice.engine files
    let report := engine.report method
    return if json then (toJson report).pretty ++ "\n" else reportTable method.location report
  | apply subject choice pick hex => do
    let method ← subject.method files
    let engine ← choice.engine files
    let mutant ← pick.mutant engine method
    if hex then
      let code ← mutant.write.mapError .writing
      return "0x" ++ Hex.encode code.bytes ++ "\n"
    else return Body.listing mutant

end BytecodeMutation
