import Mathlib.Data.List.Basic
import BytecodeMutation.Proofs.Stack.Shuffle

/-!
Words in an array that is changed in place, the top at its end. The words that are needed are
counted before any of them moves, so an opcode that fails leaves the array as it was; else the array
then holds what `shuffle` gives.
-/
namespace BytecodeMutation.Stack

variable {α : Type}

/-- The words that an opcode asks for. -/
def needed? : Opcode → Option Nat
  | .named .pop | .named .dup => some 1
  | .named .pop2 | .named .dup2 | .named .swap | .named .dupX1 => some 2
  | .named .dupX2 | .named .dup2X1 => some 3
  | .named .dup2X2 => some 4
  | _ => none

/-- How many of the upper words an opcode repeats, and below how many more. -/
def repeated : Opcode → Nat × Nat
  | .named .dup => (1, 0)
  | .named .dupX1 => (1, 1)
  | .named .dupX2 => (1, 2)
  | .named .dup2 => (2, 0)
  | .named .dup2X1 => (2, 1)
  | _ => (2, 2)

/-- Puts words in at an index. -/
def splice (words : Array α) (index : Nat) (new : Array α) : Array α :=
  words.take index ++ new ++ words.drop index

/-- The array after an opcode that has the words it needs. -/
def moved (op : Opcode) (words : Array α) : Array α :=
  let size := words.size
  match op with
  | .named .pop => words.pop
  | .named .pop2 => words.take (size - 2)
  | .named .swap => words.swapIfInBounds (size - 1) (size - 2)
  | _ =>
    let (copied, skipped) := repeated op
    splice words (size - copied - skipped) (words.drop (size - copied))

/-- Moves words of an array as `op` says. The array outlives an error. -/
def shuffleInPlace (op : Opcode) : ExceptT ShuffleError (StateM (Array α)) Unit := do
  match needed? op with
  | none => throw (.unsupported op)
  | some needed =>
    let words ← get
    if words.size < needed then throw (.underflow op needed words.size)
    else set (moved op words)

theorem needed?_eq (op : Opcode) : needed? op = (move? op).map Move.needed := by
  unfold move?
  split <;> simp_all [needed?, Move.needed]

theorem splice_append (below : List α) {top : List α} {n m : Nat} (exact : top.length = n + m) :
    let words := (below ++ top).toArray
    splice words (words.size - n - m) (words.drop (words.size - n)) =
      (below ++ (top.drop m ++ top)).toArray := by
  intro words
  have size : words.size = below.length + (n + m) := by
    rw [List.size_toArray, List.length_append, exact]
  have index : words.size - n - m = below.length := by omega
  have start : words.size - n = below.length + m := by omega
  have all : List.length top - m ≤ below.length + top.length - (below.length + m) := by omega
  apply Array.toList_inj.mp
  rw [splice, index, start]
  simp [words, List.take_of_length_le, all]

theorem moved_append {op : Opcode} {move : Move} (known : move? op = some move) (below : List α)
    {top : List α} (exact : top.length = move.needed) :
    moved op (below ++ top).toArray = (below ++ move.run top).toArray := by
  unfold move? at known
  split at known <;> cases known
  · obtain ⟨a, rfl⟩ := List.length_eq_one_iff.mp exact
    simp [moved, Move.run]
  · obtain ⟨a, b, rfl⟩ := List.length_eq_two.mp exact
    simp [moved, Move.run]
  · obtain ⟨a, b, rfl⟩ := List.length_eq_two.mp exact
    have swapped : (below ++ [a, b]).toArray.swapIfInBounds (below.length + 1) below.length =
        (below ++ [b, a]).toArray := by
      apply Array.toList_inj.mp
      simp [Array.swapIfInBounds]
    simpa [moved, Move.run] using swapped
  all_goals exact splice_append below exact

theorem run_shuffleInPlace_eq (op : Opcode) (words : Array α) :
    (shuffleInPlace op).run.run words =
      match needed? op with
      | none => (.error (.unsupported op), words)
      | some needed =>
        if words.size < needed then (.error (.underflow op needed words.size), words)
        else (.ok (), moved op words) := by
  unfold shuffleInPlace
  cases needed? op with
  | none => rfl
  | some needed =>
    change (if words.size < needed then
        (throw (.underflow op needed words.size) : ExceptT ShuffleError (StateM (Array α)) Unit)
      else set (moved op words)).run.run words = _
    by_cases short : words.size < needed
    · simp only [if_pos short]
      rfl
    · simp only [if_neg short]
      rfl

/-- An opcode changes an array to what `shuffle` gives, or leaves it as it is. -/
theorem run_shuffleInPlace (op : Opcode) (words : List α) :
    (shuffleInPlace op).run.run words.toArray =
      match shuffle op words with
      | .ok next => (.ok (), next.toArray)
      | .error fault => (.error fault, words.toArray) := by
  rw [run_shuffleInPlace_eq, needed?_eq]
  cases known : move? op with
  | none =>
    simp only [shuffle, known]
    rfl
  | some move =>
    by_cases short : words.length < move.needed
    · simp only [shuffle, known, if_pos short, Option.map_some, List.size_toArray]
    · have parts : words.take (words.length - move.needed) ++
          words.drop (words.length - move.needed) = words := List.take_append_drop _ words
      have exact : (words.drop (words.length - move.needed)).length = move.needed := by
        rw [List.length_drop]
        omega
      have next := moved_append known (words.take (words.length - move.needed)) exact
      rw [parts] at next
      simp only [shuffle, known, if_neg short, Option.map_some, List.size_toArray, next]

end BytecodeMutation.Stack
