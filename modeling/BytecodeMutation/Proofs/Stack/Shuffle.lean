import BytecodeMutation.Stack.Shuffle

/-!
Stack opcodes on concrete words. An opcode that moves words looks at as many of the upper ones as
it needs and leaves those under them alone.
-/
namespace BytecodeMutation.Stack

variable {α : Type}

/-- Moves words as the opcodes say, one after the other. -/
def shuffleAll (ops : List Opcode) (words : List α) : Except ShuffleError (List α) :=
  ops.foldlM (fun words op => shuffle op words) words

theorem shuffleAll_cons_of_ok {op : Opcode} {ops : List Opcode} {words next : List α}
    (h : shuffle op words = .ok next) : shuffleAll (op :: ops) words = shuffleAll ops next := by
  rw [shuffleAll, List.foldlM_cons, h]
  rfl

theorem shuffle_append {op : Opcode} {move : Move} (known : move? op = some move)
    (below : List α) {top : List α} (exact : top.length = move.needed) :
    shuffle op (below ++ top) = .ok (below ++ move.run top) := by
  have rest : below.length + top.length - move.needed = below.length := by omega
  have enough : ¬ below.length + top.length < move.needed := by omega
  simp only [shuffle, known, List.length_append, rest, if_neg enough, List.take_left,
    List.drop_left]

end BytecodeMutation.Stack
