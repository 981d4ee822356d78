import BytecodeMutation.Text.Blank

/-!
The words of a command line. A word with two leading dashes is an option, whose value follows
behind an equals sign or as the next word; a flag has no value. The word `--` ends the options.
-/
namespace BytecodeMutation.Command

/-- The words that are no options, and the options with their values. -/
structure Words where
  plain : List String
  options : List (String × String)
  flags : List String
  deriving DecidableEq, Repr

/-- Whether a word can be a value. One that begins with a dash cannot, unless it is nothing else. -/
def isValue (word : String) : Bool := word == "-" || word.toList.head? != some '-'

/-- The name of an option and the value behind its equals sign. -/
def option? (word : String) : Option (String × Option String) :=
  (Text.after? ['-', '-'] word.toList).map fun cs =>
    match Text.cut? '=' cs with
    | some (name, value) => (String.ofList name, some (String.ofList value))
    | none => (String.ofList cs, none)

/-- Sorts words, given the names of the options that take a value and of the flags. -/
def sortWords (valued flags : List String) : List String → Option Words
  | [] => some ⟨[], [], []⟩
  | "--" :: rest => some ⟨rest, [], []⟩
  | word :: rest =>
    match option? word with
    | none =>
      if isValue word then
        (sortWords valued flags rest).map fun ws => { ws with plain := word :: ws.plain }
      else none
    | some (name, some value) =>
      if name ∈ valued then
        (sortWords valued flags rest).map fun ws =>
          { ws with options := (name, value) :: ws.options }
      else none
    | some (name, none) =>
      if name ∈ flags then
        (sortWords valued flags rest).map fun ws => { ws with flags := name :: ws.flags }
      else if name ∈ valued then
        match rest with
        | value :: rest =>
          if isValue value then
            (sortWords valued flags rest).map fun ws =>
              { ws with options := (name, value) :: ws.options }
          else none
        | [] => none
      else none

namespace Words

/-- Whether no option and no flag is given twice. -/
def isSingle (ws : Words) : Bool := decide ((ws.options.map (·.1) ++ ws.flags).Nodup)

def value? (ws : Words) (name : String) : Option String := ws.options.lookup name

def has (ws : Words) (flag : String) : Bool := ws.flags.contains flag

end Words

end BytecodeMutation.Command
