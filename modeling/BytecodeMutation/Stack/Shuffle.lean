import BytecodeMutation.Stack.Depth

/-!
The opcodes that only move words, on a stack of given words with the top at the end of the list.
-/
namespace BytecodeMutation.Stack

inductive ShuffleError
  | underflow (op : Opcode) (needed available : Nat)
  | unsupported (op : Opcode)
  deriving DecidableEq, Repr

def ShuffleError.message : ShuffleError → String
  | underflow op needed available => underflowMessage 0 op needed available
  | unsupported op => "unsupported opcode: " ++ op.text

/-- What an opcode does to the top of the stack. -/
inductive Move
  | drop (count : Nat)
  | swap
  /-- Repeats the upper `count` words below the `skipped` words under them. -/
  | duplicate (count skipped : Nat)
  deriving DecidableEq, Repr

def move? : Opcode → Option Move
  | .named .pop => some (.drop 1)
  | .named .pop2 => some (.drop 2)
  | .named .swap => some .swap
  | .named .dup => some (.duplicate 1 0)
  | .named .dupX1 => some (.duplicate 1 1)
  | .named .dupX2 => some (.duplicate 1 2)
  | .named .dup2 => some (.duplicate 2 0)
  | .named .dup2X1 => some (.duplicate 2 1)
  | .named .dup2X2 => some (.duplicate 2 2)
  | _ => none

namespace Move

/-- The words that a move touches. -/
def needed : Move → Nat
  | drop n => n
  | swap => 2
  | duplicate n m => n + m

variable {α : Type}

/-- The new top of the stack in place of exactly the words that the move touches. -/
def run : Move → List α → List α
  | drop _, _ => []
  | swap, ws => ws.drop 1 ++ ws.take 1
  | duplicate _ m, ws => ws.drop m ++ ws

end Move

/-- Moves words as `op` says. -/
def shuffle {α : Type} (op : Opcode) (words : List α) : Except ShuffleError (List α) :=
  match move? op with
  | none => .error (.unsupported op)
  | some move =>
    if words.length < move.needed then .error (.underflow op move.needed words.length)
    else
      let rest := words.length - move.needed
      .ok (words.take rest ++ move.run (words.drop rest))

end BytecodeMutation.Stack
