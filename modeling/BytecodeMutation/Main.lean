import BytecodeMutation.Command.Run

/-!
The command line: reads the files that a command names, runs it and prints what it says.
-/
namespace BytecodeMutation

def usage : String := "usage: bytecode-mutation (decode | enumerate | apply) <input> [options]"

/-- What a file holds, if it can be read. -/
def fileContent? (path : String) : IO (Option FileContent) := do
  try
    let bytes ← IO.FS.readBinFile path
    match String.fromUTF8? bytes with
    | some s => return some (.text s)
    | none => return some .binary
  catch _ => return none

end BytecodeMutation

open BytecodeMutation in
def main (args : List String) : IO UInt32 := do
  match Command.ofWords? args with
  | none =>
    IO.eprintln usage
    return 2
  | some command =>
    let contents ← command.paths.mapM fun path => return (path, ← fileContent? path)
    match command.run fun path => (contents.lookup path).join with
    | .ok text =>
      IO.print text
      return 0
    | .error e =>
      IO.eprintln e.message
      return 1
