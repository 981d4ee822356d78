import BytecodeMutation.Proofs.Stack.Depth
import BytecodeMutation.Proofs.Stack.InPlace

/-!
Words against depths. The opcodes that only move words need as many as their effect takes, and leave
as many as it gives back. So a sequence of them keeps the words at the depth that a body of the same
opcodes has, and lacks words where that body does.
-/
namespace BytecodeMutation.Stack

/-- The opcodes that repeat upper words: how many they repeat, and below how many more. -/
def duplications : List (Mnemonic × Nat × Nat) :=
  [(.dup, 1, 0), (.dupX1, 1, 1), (.dupX2, 1, 2), (.dup2, 2, 0), (.dup2X1, 2, 1), (.dup2X2, 2, 2)]

/-- The opcodes that only move words. -/
def movers : List Mnemonic := [.pop, .pop2, .swap] ++ duplications.map (·.1)

/-- The number of words that a move leaves in place of those that it touches. -/
def Move.left : Move → Nat
  | drop _ => 0
  | swap => 2
  | duplicate n m => n + (n + m)

variable {α : Type} {op : Opcode} {move : Move} {words next : List α} {fault : ShuffleError}

theorem Move.length_run {top : List α} (exact : top.length = move.needed) :
    (move.run top).length = move.left := by
  cases move with
  | drop n => rfl
  | swap =>
    obtain ⟨a, b, rfl⟩ := List.length_eq_two.mp exact
    rfl
  | duplicate n m =>
    rw [Move.needed] at exact
    rw [Move.run, Move.left, List.length_append, List.length_drop, exact]
    omega

theorem isSome_move?_iff : (move? op).isSome ↔ ∃ m ∈ movers, op = .named m := by
  constructor
  · intro known
    unfold move? at known
    split at known
    all_goals first | exact ⟨_, by decide, rfl⟩ | cases known
  · rintro ⟨m, member, rfl⟩
    revert m
    decide

theorem move?_duplication {m : Mnemonic} {copied skipped : Nat}
    (h : (m, copied, skipped) ∈ duplications) :
    move? (.named m) = some (.duplicate copied skipped) := by
  simp only [duplications, List.mem_cons, Prod.mk.injEq, List.not_mem_nil, or_false] at h
  rcases h with ⟨rfl, rfl, rfl⟩ | ⟨rfl, rfl, rfl⟩ | ⟨rfl, rfl, rfl⟩ | ⟨rfl, rfl, rfl⟩ |
    ⟨rfl, rfl, rfl⟩ | ⟨rfl, rfl, rfl⟩ <;> rfl

/-- What a move needs and leaves is what the effect of its opcode pops and pushes. -/
theorem opcodeEffect?_of_move (known : move? op = some move) :
    opcodeEffect? op = some ⟨move.needed, move.left⟩ := by
  unfold move? at known
  split at known <;> cases known <;> rfl

theorem shuffle_eq_ok_iff : shuffle op words = .ok next ↔
    ∃ move, move? op = some move ∧ move.needed ≤ words.length ∧
      next = words.take (words.length - move.needed) ++
        move.run (words.drop (words.length - move.needed)) := by
  unfold shuffle
  cases move? op with
  | none => simp
  | some move =>
    by_cases short : words.length < move.needed
    · simp [short, Nat.not_le.mpr short]
    · simp [short, Nat.not_lt.mp short, eq_comm]

theorem shuffle_eq_error_iff : shuffle op words = .error fault ↔
    move? op = none ∧ fault = .unsupported op ∨
      ∃ move, move? op = some move ∧ words.length < move.needed ∧
        fault = .underflow op move.needed words.length := by
  unfold shuffle
  cases move? op with
  | none => simp [eq_comm]
  | some move =>
    by_cases short : words.length < move.needed
    · simp [short, eq_comm]
    · simp [short]

/-- The words after each opcode, or the error of the first opcode that fails, with its place. -/
def trailFrom (index : Nat) (words : List α) :
    List Opcode → Except (Nat × ShuffleError) (List (List α))
  | [] => .ok []
  | op :: ops =>
    match shuffle op words with
    | .error fault => .error (index, fault)
    | .ok next => (trailFrom (index + 1) next ops).map (next :: ·)

def trail (ops : List Opcode) (words : List α) : Except (Nat × ShuffleError) (List (List α)) :=
  trailFrom 0 words ops

/-- The body of these opcodes, none of which has an operand. -/
def plainBody (ops : List Opcode) : Body := ops.map fun op => .code (.plain op)

/-- One opcode takes the depth of the words along. -/
theorem step_of_shuffle (index : Nat) (known : move? op = some move) (words : List α) :
    (∃ next, shuffle op words = .ok next ∧
      step index words.length (.code (.plain op)) = .ok next.length) ∨
    shuffle op words = .error (.underflow op move.needed words.length) ∧
      step index words.length (.code (.plain op)) =
        .error (.underflow index op move.needed words.length) := by
  have effect : effect? (.code (.plain op)) = some ⟨move.needed, move.left⟩ :=
    opcodeEffect?_of_move known
  by_cases short : words.length < move.needed
  · refine .inr ⟨shuffle_eq_error_iff.mpr (.inr ⟨move, known, short, rfl⟩), ?_⟩
    simp only [step, effect, gt_iff_lt, if_pos short]
    rfl
  · have enough := Nat.not_lt.mp short
    refine .inl ⟨_, shuffle_eq_ok_iff.mpr ⟨move, known, enough, rfl⟩, ?_⟩
    refine step_eq_ok_iff.mpr ⟨_, effect, enough, ?_⟩
    have exact : (words.drop (words.length - move.needed)).length = move.needed := by
      rw [List.length_drop]
      omega
    rw [List.length_append, Move.length_run exact, List.length_take]
    dsimp only
    omega

/-- Two runs that come to the same depths, or lack the same words in the same place. -/
inductive Alike : Except (Nat × ShuffleError) (List (List α)) → Except DepthError (List Nat) → Prop
  | ok (reached : List (List α)) : Alike (.ok reached) (.ok (reached.map List.length))
  | short (index : Nat) (op : Opcode) (needed available : Nat) :
      Alike (.error (index, .underflow op needed available))
        (.error (.underflow index op needed available))

theorem Alike.cons {x : Except (Nat × ShuffleError) (List (List α))}
    {y : Except DepthError (List Nat)} (h : Alike x y) (next : List α) :
    Alike (x.map (next :: ·)) (y.map (next.length :: ·)) := by
  cases h with
  | ok reached => exact .ok (next :: reached)
  | short index op needed available => exact .short index op needed available

theorem alike_from {ops : List Opcode} (known : ∀ op ∈ ops, (move? op).isSome) (index : Nat)
    (words : List α) :
    Alike (trailFrom index words ops) (depthsFrom index words.length (plainBody ops)) := by
  induction ops generalizing index words with
  | nil => exact .ok []
  | cons op ops ih =>
    obtain ⟨first, others⟩ := List.forall_mem_cons.mp known
    obtain ⟨move, first⟩ := Option.isSome_iff_exists.mp first
    rw [trailFrom, plainBody, List.map_cons, depthsFrom]
    rcases step_of_shuffle index first words with ⟨next, shuffled, stepped⟩ | ⟨short, stops⟩
    · rw [shuffled, stepped]
      exact (ih others (index + 1) next).cons next
    · rw [short, stops]
      exact .short _ _ _ _

theorem shuffle_duplication {m : Mnemonic} {copied skipped : Nat}
    (h : (m, copied, skipped) ∈ duplications) (rest : List α) {under top : List α}
    (hu : under.length = skipped) (ht : top.length = copied) :
    shuffle (.named m) (rest ++ under ++ top) = .ok (rest ++ top ++ under ++ top) := by
  have exact : (under ++ top).length = (Move.duplicate copied skipped).needed := by
    rw [List.length_append, hu, ht, Nat.add_comm, Move.needed]
  rw [List.append_assoc, shuffle_append (move?_duplication h) rest exact, Move.run,
    List.drop_left' hu]
  simp only [List.append_assoc]

/-- What stack opcodes do to words is what their effects say of the depth. A sequence of them brings
the words to the depths of a body of the same opcodes, or both lack the same words in the same
place. An opcode that fails, for want of words or because it moves none, leaves all words as they
are. One that succeeds touches just the words that its effect pops, and leaves as many as that
pushes; a swap exchanges two words, and the duplicating ones put the upper words below those that
they skip. -/
theorem shuffle_agrees (ops : List Opcode) (words : List α) :
    ((∀ op ∈ ops, ∃ m ∈ movers, op = .named m) →
      Alike (trail ops words) (depths (plainBody ops) words.length)) ∧
    (∀ op, (∀ m ∈ movers, op ≠ .named m) → shuffle op words = .error (.unsupported op)) ∧
    (∀ op fault, shuffle op words = .error fault →
      (shuffleInPlace op).run.run words.toArray = (.error fault, words.toArray) ∧
      ((∀ m ∈ movers, op ≠ .named m) ∧ fault = .unsupported op ∨
        ∃ effect, opcodeEffect? op = some effect ∧ words.length < effect.pops ∧
          fault = .underflow op effect.pops words.length)) ∧
    (∀ op next, shuffle op words = .ok next →
      (shuffleInPlace op).run.run words.toArray = (.ok (), next.toArray) ∧
      ∃ effect top, opcodeEffect? op = some effect ∧ effect.pops ≤ words.length ∧
        next = words.take (words.length - effect.pops) ++ top ∧ top.length = effect.pushes) ∧
    (∀ (rest : List α) a b, words = rest ++ [a, b] →
      shuffle (.named .swap) words = .ok (rest ++ [b, a])) ∧
    ∀ m copied skipped, (m, copied, skipped) ∈ duplications → ∀ rest under top : List α,
      under.length = skipped → top.length = copied → words = rest ++ under ++ top →
      shuffle (.named m) words = .ok (rest ++ top ++ under ++ top) := by
  have foreign (op : Opcode) : move? op = none ↔ ∀ m ∈ movers, op ≠ .named m := by
    rw [← Option.not_isSome_iff_eq_none, isSome_move?_iff]
    simp only [not_exists, not_and, ne_eq]
  refine ⟨?_, ?_, ?_, ?_, ?_, ?_⟩
  · intro only
    exact alike_from (fun op member => isSome_move?_iff.mpr (only op member)) 0 words
  · intro op other
    exact shuffle_eq_error_iff.mpr (.inl ⟨(foreign op).mpr other, rfl⟩)
  · intro op fault fails
    refine ⟨by rw [run_shuffleInPlace, fails], ?_⟩
    rcases shuffle_eq_error_iff.mp fails with ⟨none, rfl⟩ | ⟨move, known, short, rfl⟩
    · exact .inl ⟨(foreign op).mp none, rfl⟩
    · exact .inr ⟨_, opcodeEffect?_of_move known, short, rfl⟩
  · intro op next moves
    refine ⟨by rw [run_shuffleInPlace, moves], ?_⟩
    obtain ⟨move, known, enough, rfl⟩ := shuffle_eq_ok_iff.mp moves
    refine ⟨_, _, opcodeEffect?_of_move known, enough, rfl, Move.length_run ?_⟩
    rw [List.length_drop]
    omega
  · rintro rest a b rfl
    have known : move? (.named .swap) = some .swap := rfl
    exact shuffle_append known rest rfl
  · rintro m copied skipped listed rest under top hu ht rfl
    exact shuffle_duplication listed rest hu ht

/-- Three words, which the last opcode finds to be one too few. -/
theorem shuffle_agrees_short :
    let ops : List Opcode := [.named .dup2X1, .named .swap, .named .pop2, .named .dup2X2]
    let words := ['a', 'b', 'c']
    (∀ op ∈ ops, ∃ m ∈ movers, op = .named m) ∧
      trail (ops.take 3) words =
        .ok [['b', 'c', 'a', 'b', 'c'], ['b', 'c', 'a', 'c', 'b'], ['b', 'c', 'a']] ∧
      Alike (trail ops words) (depths (plainBody ops) 3) ∧
      trail ops words = .error (3, .underflow (.named .dup2X2) 4 3) ∧
      (shuffleInPlace (.named .dup2X2)).run.run ['b', 'c', 'a'].toArray =
        (.error (.underflow (.named .dup2X2) 4 3), ['b', 'c', 'a'].toArray) ∧
      shuffle (.named .dup2X1) words = .ok ['b', 'c', 'a', 'b', 'c'] := by
  intro ops words
  have only : ∀ op ∈ ops, ∃ m ∈ movers, op = .named m := by
    simp [ops, movers, duplications]
  have fails : shuffle (.named .dup2X2) ['b', 'c', 'a'] =
      .error (.underflow (.named .dup2X2) 4 3) := rfl
  obtain ⟨alike, -, -, -, -, duplicates⟩ := shuffle_agrees ops words
  obtain ⟨-, -, kept, -⟩ := shuffle_agrees ops ['b', 'c', 'a']
  refine ⟨only, by decide, alike only, by decide, (kept _ _ fails).1, ?_⟩
  exact duplicates .dup2X1 2 1 (by decide) [] ['a'] ['b', 'c'] rfl rfl rfl

end BytecodeMutation.Stack
