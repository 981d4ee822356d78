import BytecodeMutation.Proofs.Body.Shift
import BytecodeMutation.Proofs.Mutation.Neutrality

/-!
Mutants that are longer than the method. Deleting a first operand takes one or two bytes more than
the arithmetic did. Up to the next switch everything moves by just these bytes, and behind it
everything moves by no word or by one.
-/
namespace BytecodeMutation
open Instruction (endOf)

namespace Operand

theorem length_emitted_first (width : Width) :
    (first.emitted width).length = 1 + width.words := by
  cases width <;> rfl

theorem endOf_emitted_first (pc : Nat) (width : Width) :
    endOf pc (Body.instructions (first.emitted width)) = pc + 1 + width.words := by
  cases width <;> rfl

end Operand

/-- Arithmetic takes one byte. -/
theorem Opcode.size_of_operandWidth {op : Opcode} {width : Width}
    (h : op.operandWidth? = some width) (pc : Nat) : (Element.code (.plain op)).size pc = 1 := by
  obtain ⟨a, was, -⟩ := operandWidth?_eq_some_iff.mp h
  simp only [Element.size, Instruction.size, shape_of_arithmetic was]
  rfl

namespace Engine
open Body (located hasSwitch)

variable {engine : Engine} {method : Method} {c : Candidate}

/-- In the layout of a mutant without the first operand all elements before the site keep their
offsets. Those behind it up to and with the next switch move by the width of the operand in bytes,
and all others by one number, no word or one, however many switches there are. So the code becomes
longer by the width if no switch follows, and else by that number. -/
theorem located_deletion (listed : c ∈ engine.enumerate method)
    (named : (Mutator.deletion .first).id = c.mutator) :
    ∃ op width, method.body[c.index]? = some (.code (.plain op)) ∧
      op.operandWidth? = some width ∧
      (located 0 (engine.apply method c)).length =
        (located 0 method.body).length + width.words ∧
      (∀ j < c.index, (located 0 (engine.apply method c))[j]? = (located 0 method.body)[j]?) ∧
      ∃ far, (far = 0 ∨ far = 4) ∧
        (∀ j pc e, c.index < j → (located 0 method.body)[j]? = some (pc, e) →
          (located 0 (engine.apply method c))[j + width.words]? =
            some (pc + if hasSwitch ((method.body.take j).drop (c.index + 1)) then far
              else width.words, e)) ∧
        ∀ code mutated, method.body.write = .ok code →
          (engine.apply method c).write = .ok mutated →
          mutated.bytes.length = code.bytes.length +
            if hasSwitch (method.body.drop (c.index + 1)) then far else width.words := by
  obtain ⟨op, width, site, sized, carried⟩ := apply_deletion listed named
  obtain ⟨before, after, parts, place⟩ := exists_parts site
  rw [parts, ← place, splice_parts] at carried
  have short : width.words ≤ 4 := by cases width <;> decide
  have larger (pc : Nat) : endOf pc (Body.instructions (Operand.first.emitted width)) =
      pc + (Element.code (.plain op)).size pc + width.words := by
    rw [Operand.endOf_emitted_first, Opcode.size_of_operandWidth sized]
  obtain ⟨far, words, moved, total⟩ := Body.exists_spliced_shift before after short
    (Operand.length_emitted_first width) larger
  rw [← carried, ← parts] at moved total
  have behind : method.body.drop (c.index + 1) = after := by
    rw [parts, ← place, List.drop_length_add_append]
    rfl
  refine ⟨op, width, site, sized, ?_, ?_, far, words, ?_, ?_⟩
  · simp only [carried, parts, Body.length_located, List.length_append, List.length_cons,
      Operand.length_emitted_first]
    omega
  · intro j earlier
    rw [← place, ← Body.length_located 0 before] at earlier
    rw [carried, parts, List.append_assoc, Body.located_append 0 before,
      Body.located_append 0 before,
      List.getElem?_append_left earlier, List.getElem?_append_left earlier]
  · intro j pc e later here
    obtain ⟨n, rfl⟩ : ∃ n, j = c.index + 1 + n := Nat.exists_eq_add_of_le later
    rw [List.drop_take, behind, Nat.add_sub_cancel_left]
    rw [← place] at here ⊢
    exact moved n pc e here
  · intro code mutated written written'
    rw [Body.length_of_write written, Body.length_of_write written', behind]
    exact total

/-- The first of two switches has no padding before the deletion and three bytes afterwards. -/
theorem located_deletion_switches :
    let method : Method := ⟨⟨⟨"Calc"⟩, ⟨"pick", "(II)I"⟩⟩, [.code (.access (.named .iload) 0),
      .code (.access (.named .iload) 1), .code (.plain (.named .iadd)),
      .code (.lookupSwitch ⟨0⟩ []), .label ⟨0⟩, .code (.lookupSwitch ⟨0⟩ []),
      .code (.plain (.named .ireturn))]⟩
    let engine : Engine := ⟨[.deletion .first], true⟩
    let c : Candidate := ⟨method.location, 2, "aod.delete_first_operand",
      "AOD: Removed the first operand from an arithmetic expression"⟩
    let code : Code := ⟨[0x1a, 0x1b, 0x60, 0xab, 0x00, 0x00, 0x00, 0x09, 0x00, 0x00, 0x00, 0x00,
      0xab, 0x00, 0x00, 0x00, 0x00, 0x00, 0x00, 0x00, 0x00, 0x00, 0x00, 0x00, 0xac], []⟩
    c ∈ engine.enumerate method ∧ method.body.write = .ok code ∧
      (located 0 (engine.apply method c))[4]? = some (4, .code (.lookupSwitch ⟨0⟩ [])) ∧
      (located 0 (engine.apply method c))[7]? = some (28, .code (.plain (.named .ireturn))) ∧
      ∃ mutated, (engine.apply method c).write = .ok mutated ∧
        mutated.bytes.length = code.bytes.length + 4 := by
  intro method engine c code
  have listed : c ∈ engine.enumerate method := by decide
  have named : (Mutator.deletion .first).id = c.mutator := rfl
  obtain ⟨op, width, site, sized, -, -, far, -, moved, total⟩ := located_deletion listed named
  cases site
  cases sized
  have switch : (located 0 (engine.apply method c))[4]? =
      some (4, .code (.lookupSwitch ⟨0⟩ [])) := moved 3 3 _ (by decide) rfl
  have leave : (located 0 (engine.apply method c))[7]? =
      some (24 + far, .code (.plain (.named .ireturn))) := moved 6 24 _ (by decide) rfl
  -- the layout of this mutant tells which of the two numbers it is
  have last : (located 0 (engine.apply method c))[7]? =
      some (28, .code (.plain (.named .ireturn))) := by decide
  obtain rfl : far = 4 := by
    have same := leave.symm.trans last
    simp only [Option.some.injEq, Prod.mk.injEq, and_true] at same
    omega
  have written : method.body.write = .ok code := by cbv
  have written' : (engine.apply method c).write = .ok ⟨[0x1a, 0x1b, 0x5f, 0x57, 0xab, 0x00, 0x00,
      0x00, 0x00, 0x00, 0x00, 0x0c, 0x00, 0x00, 0x00, 0x00, 0xab, 0x00, 0x00, 0x00, 0x00, 0x00,
      0x00, 0x00, 0x00, 0x00, 0x00, 0x00, 0xac], []⟩ := by cbv
  exact ⟨listed, written, switch, leave, _, written', total code _ written written'⟩

end Engine

end BytecodeMutation
