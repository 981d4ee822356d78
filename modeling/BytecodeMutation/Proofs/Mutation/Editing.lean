import Mathlib
import BytecodeMutation.Proofs.Body.Layout
import BytecodeMutation.Proofs.Mutation.Pass

/-!
What mutators do to a body. An edit puts instructions in the place of one instruction, with the same
targets in the same order, and leaves all markers where they are.
-/
namespace BytecodeMutation

namespace Instruction

variable {τ σ : Type}

/-- A bound on the bytes of an instruction, and of whatever takes its place. -/
def weight : Instruction τ → Nat
  | plain op => if op.operandWidth?.isSome then 3 else 1
  | access .. => 4
  | immediate .. => 3
  | jump .. => 5
  | increment .. => 6
  | constant _ bs => 1 + bs.length
  | tableSwitch _ _ ts => 16 + 4 * ts.length
  | lookupSwitch _ ps => 12 + 8 * ps.length

@[simp] theorem weight_map (f : τ → σ) (i : Instruction τ) : (i.map f).weight = i.weight := by
  cases i <;> simp [map, weight]

end Instruction

/-- Instructions that may take the place of an instruction. -/
structure Replaces (is : List (Instruction Label)) (i : Instruction Label) : Prop where
  nonempty : is ≠ []
  targets : is.flatMap (·.targets) = i.targets
  own : ∀ op, .plain op ∈ is → op.isAlias = false
  weight : (is.map (·.weight)).sum ≤ i.weight

/-- The body after edits of some of its elements. -/
inductive Edited (edit? : Element → Option Edit) : Body → Body → Prop
  | nil : Edited edit? [] []
  | keep (e : Element) {body edited} (rest : Edited edit? body edited) :
      Edited edit? (e :: body) (e :: edited)
  | edit {e x body edited} (offered : edit? e = some x) (rest : Edited edit? body edited) :
      Edited edit? (e :: body) (x.replacement ++ edited)

namespace Mutator

/-- Arithmetic is as heavy as what deletes an operand of it. -/
theorem weight_arithmetic {op : Opcode} {a : Arithmetic} (h : op.arithmetic? = some a) :
    (Instruction.plain op : Instruction Label).weight = 3 := by
  simp [Instruction.weight, Opcode.operandWidth?_eq, h]

/-- A single plain instruction in the place of arithmetic. -/
theorem replaces_plain {before : Opcode} {a : Arithmetic} (was : before.arithmetic? = some a)
    (m : Mnemonic) : Replaces [.plain (.named m)] (.plain before) := by
  refine ⟨List.cons_ne_nil _ _, rfl, ?_, ?_⟩
  · intro op hop
    cases List.mem_singleton.mp hop
    rfl
  · rw [weight_arithmetic was, List.map_singleton, List.sum_singleton, Instruction.weight]
    split <;> omega

theorem replaces_of_offers {m : Mutator} {e : Element} {x : Edit} (h : Offers m e x) :
    ∃ i is, e = .code i ∧ x.replacement = is.map .code ∧ Replaces is i := by
  cases h with
  | @operator o before after a was other becomes =>
    obtain rfl := Opcode.arithmetic?_eq_some_iff.mp becomes
    exact ⟨_, [_], rfl, rfl, replaces_plain was _⟩
  | @relation r before after c target was other becomes =>
    refine ⟨_, [.jump after target], rfl, rfl, List.cons_ne_nil _ _, rfl, ?_, Nat.le_refl 5⟩
    intro op hop
    cases List.mem_singleton.mp hop
  | firstSingle was narrow =>
    refine ⟨_, [.plain (.named .swap), .plain (.named .pop)], rfl, rfl, List.cons_ne_nil _ _, rfl,
      ?_, ?_⟩
    · intro op hop
      simp only [List.mem_cons, Instruction.plain.injEq, List.not_mem_nil, or_false] at hop
      rcases hop with rfl | rfl <;> rfl
    · rw [weight_arithmetic was]
      decide
  | firstDouble was wide =>
    refine ⟨_, [.plain (.named .dup2X2), .plain (.named .pop2), .plain (.named .pop2)], rfl, rfl,
      List.cons_ne_nil _ _, rfl, ?_, ?_⟩
    · intro op hop
      simp only [List.mem_cons, Instruction.plain.injEq, List.not_mem_nil, or_false] at hop
      rcases hop with rfl | rfl | rfl <;> rfl
    · rw [weight_arithmetic was]
      decide
  | secondSingle was narrow | secondDouble was wide =>
    exact ⟨_, [_], rfl, rfl, replaces_plain was _⟩

theorem replaces_of_edit {m : Mutator} {e : Element} {x : Edit} (h : m.edit? e = some x) :
    ∃ i is, e = .code i ∧ x.replacement = is.map .code ∧ Replaces is i :=
  replaces_of_offers (edit?_eq_some_iff.mp h)

end Mutator

theorem edited_emit (name mutator : String) (edit? : Element → Option Edit) (scope : Scope)
    (n : Nat) (body : Body) : Edited edit? body ((body.zipIdx n).flatMap fun p =>
      ((Stage.ofEdit name mutator edit?).visit scope p.2 p.1).emitted) := by
  induction body generalizing n with
  | nil => exact .nil
  | cons e body ih =>
    rw [List.zipIdx_cons, List.flatMap_cons]
    cases offered : edit? e with
    | none =>
      simp only [Stage.ofEdit, offered]
      exact .keep e (ih (n + 1))
    | some x =>
      simp only [Stage.ofEdit, offered]
      split
      · exact .edit offered (ih (n + 1))
      · exact .keep e (ih (n + 1))

theorem edited_pass (m : Mutator) (method : Method) (target : Option Candidate) :
    Edited m.edit? method.body (Engine.pass m (fun _ => false) method target).1 := by
  have emitted := edited_emit m.name m.id m.edit? ⟨method.location, target⟩ 0 method.body
  rw [Engine.body_pass]
  exact emitted

/-- A mutant is the method's body after edits of one mutator, or the body itself. -/
theorem edited_apply (engine : Engine) (method : Method) (c : Candidate) :
    engine.apply method c = method.body ∨
      ∃ m : Mutator, Edited m.edit? method.body (engine.apply method c) := by
  rw [Engine.apply]
  split
  · exact .inl rfl
  · next m _ => exact .inr ⟨m, edited_pass m method (some c)⟩

end BytecodeMutation
