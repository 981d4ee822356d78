import BytecodeMutation.Code.Reading
import BytecodeMutation.Json.Form
import BytecodeMutation.Method
import BytecodeMutation.Opcode.Operator

/-!
The JSON forms of opcodes, bodies and code.
-/
namespace BytecodeMutation
open JsonForm

instance : JsonForm Relation := ofNames
  [("Eq", .eq), ("Ne", .ne), ("Lt", .lt), ("Ge", .ge), ("Gt", .gt), ("Le", .le)]

instance : JsonForm Family := ofNames
  [("Zero", .zero), ("Int", .int), ("Reference", .reference), ("Null", .null)]

instance : JsonForm Width := ofNames [("Single", .single), ("Double", .double)]

instance : JsonForm Comparison where
  toJson c := .obj [("family", toJson c.family), ("relation", toJson c.relation)]
  ofJson? j := do
    match ← j.record? ["family", "relation"] with
    | [family, relation] => return ⟨← required family, ← required relation⟩
    | _ => none

/-- A named opcode is its name. -/
instance : JsonForm Opcode where
  toJson
    | .named m => .str m.text
    | .unknown b => .obj [("UNKNOWN", toJson b)]
  ofJson? j := do
    let (name, payload) ← j.variant?
    if name = "UNKNOWN" then return .unknown (← required payload)
    else match payload with
      | none | some .null => (Mnemonic.all.find? (·.text == name)).map .named
      | _ => none

instance : JsonForm Label where
  toJson l := toJson l.number
  ofJson? j := (ofJson? j).map Label.mk

/-- Bytes are a string of digits, and are read as an input is. -/
def bytesToJson (bytes : List UInt8) : Json := .str (Hex.encode bytes)

def bytesOfJson? : Json → Option (List UInt8)
  | .str s => (Hex.read s).toOption
  | _ => none

namespace Element

def form : Element → String × Json
  | label l => ("Label", toJson l)
  | line n => ("Line", toJson n)
  | code (.plain op) => ("Insn", toJson op)
  | code (.access op slot) => ("Var", toJson (op, slot))
  | code (.immediate op v) => ("Int", toJson (op, v))
  | code (.jump op t) => ("Jump", toJson (op, t))
  | code (.increment slot d) => ("Iinc", toJson (slot, d))
  | code (.constant op bs) => ("Raw", .arr [toJson op, bytesToJson bs])
  | code (.tableSwitch low t ts) =>
    ("TableSwitch", .obj [("low", toJson low), ("default", toJson t), ("targets", toJson ts)])
  | code (.lookupSwitch t ps) =>
    ("LookupSwitch", .obj [("default", toJson t), ("pairs", toJson ps)])

def readConstant? : Json → Option Element
  | .arr [op, bs] => return .code (.constant (← ofJson? op) (← bytesOfJson? bs))
  | _ => none

def readTableSwitch? (j : Json) : Option Element := do
  match ← j.record? ["low", "default", "targets"] with
  | [low, t, ts] => return .code (.tableSwitch (← required low) (← required t) (← required ts))
  | _ => none

def readLookupSwitch? (j : Json) : Option Element := do
  match ← j.record? ["default", "pairs"] with
  | [t, ps] => return .code (.lookupSwitch (← required t) (← required ps))
  | _ => none

def ofForm? (name : String) (payload : Json) : Option Element :=
  match name with
  | "Label" => (ofJson? payload).map label
  | "Line" => (ofJson? payload).map line
  | "Insn" => (ofJson? payload).map fun op => code (.plain op)
  | "Var" => (ofJson? payload).map fun (op, slot) => code (.access op slot)
  | "Int" => (ofJson? payload).map fun (op, v) => code (.immediate op v)
  | "Jump" => (ofJson? payload).map fun (op, t) => code (.jump op t)
  | "Iinc" => (ofJson? payload).map fun (slot, d) => code (.increment slot d)
  | "Raw" => readConstant? payload
  | "TableSwitch" => readTableSwitch? payload
  | "LookupSwitch" => readLookupSwitch? payload
  | _ => none

end Element

instance : JsonForm Element where
  toJson e := .obj [e.form]
  ofJson? j := do
    match ← j.variant? with
    | (name, some payload) => Element.ofForm? name payload
    | _ => none

instance : JsonForm LineEntry where
  toJson e := .obj [("start_pc", toJson e.start), ("line", toJson e.line)]
  ofJson? j := do
    match ← j.record? ["start_pc", "line"] with
    | [start, line] => return ⟨← required start, ← required line⟩
    | _ => none

instance : JsonForm Code where
  toJson c := .obj [("code", bytesToJson c.bytes), ("line_numbers", toJson c.lines)]
  ofJson? j := do
    match ← j.record? ["code", "line_numbers"] with
    | [code, lines] => return ⟨← code.bind bytesOfJson?, ← required lines⟩
    | _ => none

/-- A class name is taken as it is, dots and all. -/
instance : JsonForm ClassName where
  toJson c := .str c.internal
  ofJson? j := (ofJson? j).map ClassName.mk

instance : JsonForm MethodName where
  toJson m := .obj [("name", toJson m.name), ("descriptor", toJson m.descriptor)]
  ofJson? j := do
    match ← j.record? ["name", "descriptor"] with
    | [name, descriptor] => return ⟨← required name, ← required descriptor⟩
    | _ => none

instance : JsonForm Location where
  toJson l := .obj [("class", toJson l.className), ("method", toJson l.method)]
  ofJson? j := do
    match ← j.record? ["class", "method"] with
    | [className, method] => return ⟨← required className, ← required method⟩
    | _ => none

instance : JsonForm Method where
  toJson m := .obj [("location", toJson m.location), ("instructions", toJson m.body)]
  ofJson? j := do
    match ← j.record? ["location", "instructions"] with
    | [location, body] => return ⟨← required location, ← required body⟩
    | _ => none

end BytecodeMutation
