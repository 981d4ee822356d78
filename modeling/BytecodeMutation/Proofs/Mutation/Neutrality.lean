import BytecodeMutation.Proofs.Mutation.Application
import BytecodeMutation.Proofs.Stack.Depth
import BytecodeMutation.Proofs.Stack.Shuffle

/-!
Deletions and the stack. What takes the place of an arithmetic instruction finds the same words,
leaves the operand that is not deleted, and makes the stack as deep as the result would have. So the
rest of the method runs as before.
-/
namespace BytecodeMutation

/-- The number of stack words of a value. -/
def Width.words : Width → Nat
  | single => 1
  | double => 2

/-- Arithmetic takes two operands and leaves a result, all of one width. -/
theorem Opcode.effect_of_operandWidth {op : Opcode} {width : Width}
    (h : op.operandWidth? = some width) :
    Stack.opcodeEffect? op = some ⟨2 * width.words, width.words⟩ := by
  obtain ⟨a, was, rfl⟩ := operandWidth?_eq_some_iff.mp h
  obtain rfl := arithmetic?_eq_some_iff.mp was
  obtain ⟨operator, type⟩ := a
  cases operator <;> cases type <;> rfl

namespace Operand

/-- What stands in the place of an instruction with operands of the given width. -/
def emitted (o : Operand) (width : Width) : Body :=
  (o.replacement width).map fun m => .code (.plain (.named m))

/-- The operand that is not deleted. -/
def kept {α : Type} : Operand → α → α → α
  | first, _, b => b
  | second, a, _ => a

/-- No two-word value is swapped in one step, so deleting the first of two needs room for a copy of
the second. Every other deletion only takes words away. -/
def Peaks (o : Operand) (width : Width) (before : Nat) (depths : List Nat) : Prop :=
  if o = .first ∧ width = .double then depths.max? = some (before + 2)
  else ∀ depth ∈ depths, depth ≤ before

theorem runs_emitted (o : Operand) (width : Width) {before : Nat}
    (enough : 2 * width.words ≤ before) :
    ∃ depths, Stack.Runs before (o.emitted width) depths ∧
      depths.getLast? = some (before - 2 * width.words + width.words) ∧
      o.Peaks width before depths := by
  have step {m : Mnemonic} {pops pushes depth next : Nat} {body : Body} {depths : List Nat}
      (known : Stack.mnemonicEffect? m = some ⟨pops, pushes⟩) (deep : pops ≤ depth)
      (rest : Stack.Runs next body depths) (same : depth - pops + pushes = next) :
      Stack.Runs depth (.code (.plain (.named m)) :: body) (next :: depths) := by
    subst same
    exact .cons (e := .code (.plain (.named m))) known deep rest
  obtain ⟨rest, rfl⟩ := Nat.exists_eq_add_of_le' enough
  cases width with
  | single =>
    cases o with
    | first =>
      refine ⟨[rest + 2, rest + 1], step (m := .swap) rfl ?_ (step (m := .pop) rfl ?_ .nil ?_) ?_,
        ?_, ?_⟩
      all_goals simp [Width.words, Peaks]
    | second =>
      refine ⟨[rest + 1], step (m := .pop) rfl ?_ .nil ?_, ?_, ?_⟩
      all_goals simp [Width.words, Peaks]
  | double =>
    cases o with
    | first =>
      refine ⟨[rest + 6, rest + 4, rest + 2], step (m := .dup2X2) rfl ?_
        (step (m := .pop2) rfl ?_ (step (m := .pop2) rfl ?_ .nil ?_) ?_) ?_, ?_, ?_⟩
      all_goals simp [Width.words, Peaks]
    | second =>
      refine ⟨[rest + 2], step (m := .pop2) rfl ?_ .nil ?_, ?_, ?_⟩
      all_goals simp [Width.words, Peaks]

theorem shuffleAll_replacement {α : Type} (o : Operand) {width : Width} (below a b : List α)
    (ha : a.length = width.words) (hb : b.length = width.words) :
    Stack.shuffleAll ((o.replacement width).map .named) (below ++ a ++ b) =
      .ok (below ++ o.kept a b) := by
  have drop {m : Mnemonic} {n : Nat} {ops : List Opcode} {below top : List α}
      (known : Stack.move? (.named m) = some (.drop n)) (exact : top.length = n) :
      Stack.shuffleAll (.named m :: ops) (below ++ top) = Stack.shuffleAll ops below := by
    apply Stack.shuffleAll_cons_of_ok
    rw [Stack.shuffle_append known below exact, Stack.Move.run, List.append_nil]
  cases width with
  | single =>
    change a.length = 1 at ha
    change b.length = 1 at hb
    cases o with
    | first =>
      have swapped : Stack.shuffle (.named .swap) (below ++ (a ++ b)) =
          .ok (below ++ b ++ a) := by
        rw [Stack.shuffle_append rfl, Stack.Move.run, List.drop_left' ha, List.take_left' ha,
          List.append_assoc]
        rw [List.length_append, ha, hb, Stack.Move.needed]
      rw [List.append_assoc, replacement, List.map_cons, Stack.shuffleAll_cons_of_ok swapped]
      exact drop rfl ha
    | second => exact drop rfl hb
  | double =>
    change a.length = 2 at ha
    change b.length = 2 at hb
    cases o with
    | first =>
      have copied : Stack.shuffle (.named .dup2X2) (below ++ (a ++ b)) =
          .ok (below ++ b ++ a ++ b) := by
        rw [Stack.shuffle_append rfl, Stack.Move.run, List.drop_left' ha]
        · simp only [List.append_assoc]
        · rw [List.length_append, ha, hb, Stack.Move.needed]
      rw [List.append_assoc, replacement, List.map_cons, Stack.shuffleAll_cons_of_ok copied]
      exact (drop rfl hb).trans (drop rfl ha)
    | second => exact drop rfl hb

end Operand

namespace Engine

variable {engine : Engine} {method : Method} {c : Candidate} {operand : Operand}

theorem apply_deletion (listed : c ∈ engine.enumerate method)
    (named : (Mutator.deletion operand).id = c.mutator) :
    ∃ op width, method.body[c.index]? = some (.code (.plain op)) ∧
      op.operandWidth? = some width ∧
      engine.apply method c =
        method.body.take c.index ++ operand.emitted width ++ method.body.drop (c.index + 1) := by
  obtain ⟨m, -, named', e, x, site, offers, -, carried⟩ := apply_of_mem listed
  obtain rfl := Mutator.id_injective (named.trans named'.symm)
  have found := Mutator.edit?_eq_some_iff.mpr offers
  change operand.edit? e = some x at found
  unfold Operand.edit? at found
  split at found
  · next op =>
    obtain ⟨width, sized, rfl⟩ := Option.map_eq_some_iff.mp found
    exact ⟨op, width, site, sized, carried⟩
  · cases found

/-- Deleting an operand leaves the stack as deep as the arithmetic would, and all depths before and
after as they are. On the way the stack is no deeper than before the instruction, but for the copy
of the second operand that deleting the first of two-word operands makes. On the words themselves it
leaves just the other operand. -/
theorem deletion_neutral (listed : c ∈ engine.enumerate method)
    (named : (Mutator.deletion operand).id = c.mutator) :
    ∃ op width, method.body[c.index]? = some (.code (.plain op)) ∧
      op.operandWidth? = some width ∧
      engine.apply method c =
        method.body.take c.index ++ operand.emitted width ++ method.body.drop (c.index + 1) ∧
      (∀ initial depths, Stack.depths method.body initial = .ok depths →
        ∃ before inner, (initial :: depths)[c.index]? = some before ∧
          Stack.depths (engine.apply method c) initial =
            .ok (depths.take c.index ++ inner ++ depths.drop (c.index + 1)) ∧
          inner.length = (operand.emitted width).length ∧
          inner.getLast? = depths[c.index]? ∧
          operand.Peaks width before inner) ∧
      ∀ (α : Type) (below a b : List α), a.length = width.words → b.length = width.words →
        Stack.shuffleAll ((operand.replacement width).map .named) (below ++ a ++ b) =
          .ok (below ++ operand.kept a b) := by
  obtain ⟨op, width, site, sized, carried⟩ := apply_deletion listed named
  refine ⟨op, width, site, sized, carried, ?_,
    fun α below a b => operand.shuffleAll_replacement below a b⟩
  intro initial depths run
  obtain ⟨within, here⟩ := List.getElem?_eq_some_iff.mp site
  have parts : method.body =
      method.body.take c.index ++ .code (.plain op) :: method.body.drop (c.index + 1) := by
    rw [← here, ← List.drop_eq_getElem_cons within, List.take_append_drop]
  rw [Stack.depths_eq_ok_iff, parts] at run
  obtain ⟨first, rest, front, back, rfl⟩ := run.of_append
  have length : first.length = c.index := by
    rw [front.length_eq, List.length_take_of_le (Nat.le_of_lt within)]
  cases back with
  | @cons _ _ effect _ later known enough behind =>
    have arithmetic : Stack.opcodeEffect? op = some effect := known
    cases arithmetic.symm.trans (Opcode.effect_of_operandWidth sized)
    obtain ⟨inner, runs, ends, peaks⟩ := operand.runs_emitted width enough
    have final : Stack.lastDepth (Stack.lastDepth initial first) inner =
        Stack.lastDepth initial first - 2 * width.words + width.words := by
      rw [Stack.lastDepth, ends, Option.getD_some]
    rw [← final] at behind
    refine ⟨Stack.lastDepth initial first, inner, ?_, ?_, runs.length_eq, ?_, peaks⟩
    · rw [← length]
      exact Stack.getElem?_cons_append _ _ _
    · have others (next : Nat) : (first ++ next :: later).drop (c.index + 1) = later := by
        rw [← length]
        exact List.drop_length_add_append 1
      rw [carried, Stack.depths_eq_ok_iff, List.take_left' length, others, List.append_assoc,
        List.append_assoc]
      exact front.append (runs.append behind)
    · rw [ends, ← length]
      simp

/-- Deleting the first operand of a long addition, which is copied out of the way. -/
theorem deletion_neutral_long :
    let method : Method := ⟨⟨⟨"Calc"⟩, ⟨"run", "(JJ)J"⟩⟩, [.line 7,
      .code (.access (.named .lload) 0), .code (.access (.named .lload) 2),
      .code (.plain (.named .ladd)), .code (.plain (.named .lreturn))]⟩
    let engine : Engine := ⟨[.deletion .first], true⟩
    let c : Candidate := ⟨method.location, 3, "aod.delete_first_operand",
      "AOD: Removed the first operand from an arithmetic expression"⟩
    c ∈ engine.enumerate method ∧
      Stack.depths method.body 1 = .ok [1, 3, 5, 3, 1] ∧
      (∃ inner, Stack.depths (engine.apply method c) 1 = .ok ([1, 3, 5] ++ inner ++ [1]) ∧
        inner.length = 3 ∧ inner.getLast? = some 3 ∧ inner.max? = some 7) ∧
      Stack.shuffleAll [.named .dup2X2, .named .pop2, .named .pop2] ["w", "a", "a", "b", "b"] =
        .ok ["w", "b", "b"] := by
  intro method engine c
  have listed : c ∈ engine.enumerate method := by decide
  have run : Stack.depths method.body 1 = .ok [1, 3, 5, 3, 1] := by decide
  have named : (Mutator.deletion .first).id = c.mutator := rfl
  obtain ⟨op, width, site, sized, -, depths, words⟩ := deletion_neutral listed named
  cases site
  cases sized
  obtain ⟨before, inner, deep, mutant, length, last, peak⟩ := depths 1 _ run
  cases deep
  exact ⟨listed, run, ⟨inner, mutant, length, last, peak⟩,
    words String ["w"] ["a", "a"] ["b", "b"] rfl rfl⟩

end Engine

end BytecodeMutation
