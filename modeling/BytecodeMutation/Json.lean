/-!
JSON values.
-/
namespace BytecodeMutation

inductive Json
  | null
  | bool (b : Bool)
  | int (n : Int)
  /-- A number written with a fraction or an exponent, or as minus zero. -/
  | real (literal : String)
  | str (s : String)
  /-- A string, or an object with a name, that holds half of a surrogate pair. It can be passed over
  but not read. -/
  | halfPair
  | arr (items : List Json)
  /-- The fields as written, also when a name comes twice. -/
  | obj (fields : List (String × Json))
  deriving Inhabited, Repr

namespace Json

/-- The value of a field that is there once. -/
def field? (name : String) : Json → Option Json
  | obj fields =>
    match fields.filter (·.1 == name) with
    | [f] => some f.2
    | _ => none
  | _ => none

/-- A variant of an enumeration: its name alone, or an object with the name as its only field. -/
def variant? : Json → Option (String × Option Json)
  | str s => some (s, none)
  | obj [(name, payload)] => some (name, some payload)
  | _ => none

/-- The fields of a record, in the order of `names`. A record may be an object, with fields of other
names passed over and none of these names twice, or an array of the fields in order. -/
def record? (names : List String) : Json → Option (List (Option Json))
  | obj fields => names.mapM fun name =>
    match fields.filter (·.1 == name) with
    | [] => some none
    | [f] => some (some f.2)
    | _ => none
  | arr items =>
    if items.length ≤ names.length then
      some (items.map some ++ List.replicate (names.length - items.length) none)
    else none
  | _ => none

end Json

end BytecodeMutation
