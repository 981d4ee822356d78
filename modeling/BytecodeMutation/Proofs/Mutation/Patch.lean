import Mathlib
import BytecodeMutation.Proofs.Body.Twin
import BytecodeMutation.Proofs.Mutation.Application

/-!
Mutants that are patches of the code. A mutator that puts one opcode in the place of another one
changes no size and no operand, so the code of its mutants is that of the method but for one byte.
-/
namespace BytecodeMutation

theorem Opcode.byte_ne {op op' : Opcode} {m m' : Mnemonic} (was : op = .named m)
    (becomes : op' = .named m') (other : op ≠ op') : op.byte ≠ op'.byte := by
  subst was becomes
  intro same
  rw [byte_named, byte_named] at same
  exact other (congrArg Opcode.named (Mnemonic.byte_injective same))

/-- Except where the first operand is deleted, one instruction takes the place of another one. -/
theorem Offers.twin {m : Mutator} {e : Element} {x : Edit} (h : Offers m e x)
    (exchanges : m.group = .aor ∨ m.group = .ror ∨ m = .deletion .second) :
    ∃ e', x.replacement = [e'] ∧ Element.Twin e e' := by
  cases h with
  | @operator o before after a was other becomes =>
    refine ⟨_, rfl, .code (.plain (Opcode.shape_of_arithmetic was)
      (Opcode.shape_of_arithmetic becomes) ?_)⟩
    apply Opcode.byte_ne (Opcode.arithmetic?_eq_some_iff.mp was)
      (Opcode.arithmetic?_eq_some_iff.mp becomes)
    rintro rfl
    have same := Option.some.inj (was.symm.trans becomes)
    exact other (congrArg Arithmetic.operator same)
  | @relation r before after c target was other becomes =>
    obtain ⟨m, old, -⟩ := Opcode.comparison?_eq_some_iff.mp was
    obtain ⟨m', new, -⟩ := Opcode.comparison?_eq_some_iff.mp becomes
    refine ⟨_, rfl, .code (.jump (Opcode.shape_of_comparison was)
      (Opcode.shape_of_comparison becomes) (Opcode.byte_ne old new ?_) target)⟩
    rintro rfl
    have same := Option.some.inj (was.symm.trans becomes)
    exact other (congrArg Comparison.relation same)
  | firstSingle | firstDouble => rcases exchanges with group | group | deletion <;> contradiction
  | secondSingle was | secondDouble was =>
    refine ⟨_, rfl, .code (.plain (Opcode.shape_of_arithmetic was) rfl ?_)⟩
    apply Opcode.byte_ne (Opcode.arithmetic?_eq_some_iff.mp was) rfl
    rintro rfl
    cases was

namespace Engine

/-- A mutant with one opcode in the place of another one cannot be written for the same reason as
the method, or it has the same lines and code that differs in one byte, the first of the
instruction. -/
theorem write_apply {engine : Engine} {method : Method} {c : Candidate} {m : Mutator}
    (listed : c ∈ engine.enumerate method) (named : m.id = c.mutator)
    (exchanges : m.group = .aor ∨ m.group = .ror ∨ m = .deletion .second) :
    (∃ e, method.body.write = .error e ∧ (engine.apply method c).write = .error e) ∨
      ∃ (code mutated : Code) (i : Instruction Label) (pc : Nat),
        method.body.write = .ok code ∧ (engine.apply method c).write = .ok mutated ∧
        mutated.lines = code.lines ∧ mutated.bytes.length = code.bytes.length ∧
        (Body.located 0 method.body)[c.index]? = some (pc, .code i) ∧
        ∀ k, mutated.bytes[k]? ≠ code.bytes[k]? ↔ k = pc := by
  obtain ⟨m', -, named', e, x, site, offers, -, carried⟩ := apply_of_mem listed
  obtain rfl := Mutator.id_injective (named.trans named'.symm)
  obtain ⟨e', replacement, twin⟩ := offers.twin exchanges
  have differ := DifferAt.of_replace site twin
  rw [← replacement, ← carried] at differ
  cases twin with
  | @code i i' _ =>
    have agree := Body.agree_write differ
    generalize method.body.write = before at agree ⊢
    generalize (engine.apply method c).write = after at agree ⊢
    cases agree with
    | error fault => exact .inl ⟨fault, rfl, rfl⟩
    | @ok code mutated related =>
      obtain ⟨lines, patched⟩ := related
      exact .inr ⟨code, mutated, i, _, rfl, rfl, lines, patched.length_eq,
        Body.getElem?_located site, fun _ => patched.getElem?_ne_iff⟩

/-- A long subtraction in the place of an addition in a loop. -/
theorem write_apply_loop :
    let method : Method := ⟨⟨⟨"Calc"⟩, ⟨"run", "(IJ)J"⟩⟩, [.line 4,
      .code (.access (.named .lload) 1), .label ⟨0⟩, .code (.plain (.named .ladd)),
      .code (.jump (.named .goto) ⟨0⟩)]⟩
    let engine : Engine := ⟨[.relation .ge, .operator .sub], true⟩
    let c : Candidate := ⟨method.location, 3, "aor.subtraction", "AOR: Changed + to -"⟩
    let code : Code := ⟨[0x1f, 0x61, 0xa7, 0xff, 0xff], [⟨0, 4⟩]⟩
    c ∈ engine.enumerate method ∧ method.body.write = .ok code ∧
      ∃ mutated, (engine.apply method c).write = .ok mutated ∧ mutated.lines = code.lines ∧
        ∀ k, mutated.bytes[k]? ≠ code.bytes[k]? ↔ k = 1 := by
  intro method engine c code
  have listed : c ∈ engine.enumerate method := by decide
  have written : method.body.write = .ok code := by cbv
  refine ⟨listed, written, ?_⟩
  have named : (Mutator.operator .sub).id = c.mutator := by decide
  rcases write_apply listed named (.inl rfl) with ⟨e, fails, -⟩ |
    ⟨code', mutated, i, pc, first, second, lines, -, located, patched⟩
  · rw [written] at fails
    cases fails
  · rw [written] at first
    cases first
    cases located
    exact ⟨mutated, second, lines, patched⟩

end Engine

end BytecodeMutation
