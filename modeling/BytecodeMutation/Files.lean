import BytecodeMutation.Hex
import BytecodeMutation.Json.Mutation

/-!
Files that hold code in hexadecimal or a configuration.
-/
namespace BytecodeMutation

inductive FileContent
  | text (s : String)
  /-- Bytes that are not UTF-8. -/
  | binary
  deriving DecidableEq, Repr

/-- The content of each file that exists. -/
abbrev Files := String → Option FileContent

/-- Why a file has no text. -/
inductive FileFault
  | missing
  | notText
  deriving DecidableEq, Repr

def FileFault.message : FileFault → String
  | missing => "No such file or directory (os error 2)"
  | notText => "stream did not contain valid UTF-8"

def Files.text (files : Files) (path : String) : Except FileFault String :=
  match files path with
  | some (.text s) => .ok s
  | some .binary => .error .notText
  | none => .error .missing

inductive CodeFileError
  | unreadable (path : String) (fault : FileFault)
  | spelling (fault : Hex.Fault)
  deriving DecidableEq, Repr

def CodeFileError.message : CodeFileError → String
  | unreadable path fault => "could not read file '" ++ path ++ "': " ++ fault.message
  | spelling fault => fault.message

/-- The bytes that a file spells. -/
def Files.code (files : Files) (path : String) : Except CodeFileError (List UInt8) :=
  match files.text path with
  | .error fault => .error (.unreadable path fault)
  | .ok s => (Hex.read s).mapError .spelling

inductive ConfigFileError
  | unreadable (path : String) (fault : FileFault)
  | malformed
  deriving DecidableEq, Repr

def ConfigFileError.message : ConfigFileError → String
  | unreadable path fault => "could not read config '" ++ path ++ "': " ++ fault.message
  | malformed => "invalid engine config"

/-- The configuration in a file. -/
def Files.config (files : Files) (path : String) : Except ConfigFileError Config :=
  match files.text path with
  | .error fault => .error (.unreadable path fault)
  | .ok s =>
    match Config.ofText? s with
    | some c => .ok c
    | none => .error .malformed

end BytecodeMutation
