import BytecodeMutation.Instruction

/-!
The assembly listing of a body: one element a line, labels at the margin and all else indented.
-/
namespace BytecodeMutation
open Numeral

def Instruction.text : Instruction Label → String
  | plain op => op.text
  | access op slot => op.text ++ " " ++ decimal slot.toNat
  | immediate op v => op.text ++ " " ++ signedDecimal v.toInt
  | jump op t => op.text ++ " " ++ t.text
  | increment slot d =>
    Mnemonic.iinc.text ++ " " ++ decimal slot.toNat ++ " " ++ signedDecimal d.toInt
  | constant op [] => op.text
  | constant op bs => op.text ++ " " ++ Hex.encode bs
  | tableSwitch low t ts =>
    Mnemonic.tableswitch.text ++ " " ++ signedDecimal low.toInt ++
      String.join (ts.map fun t => " " ++ t.text) ++ " default:" ++ t.text
  | lookupSwitch t ps =>
    Mnemonic.lookupswitch.text ++
      String.join (ps.map fun p => " " ++ signedDecimal p.1.toInt ++ ":" ++ p.2.text) ++
      " default:" ++ t.text

namespace Element

def text : Element → String
  | label l => l.text ++ ":"
  | line n => "LINE " ++ decimal n.toNat
  | code i => i.text

def indent : Element → String
  | label _ => ""
  | _ => "    "

end Element

def Body.listing (body : Body) : String :=
  String.join (body.map fun e => e.indent ++ e.text ++ "\n")

end BytecodeMutation
