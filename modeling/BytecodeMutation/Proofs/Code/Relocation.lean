import BytecodeMutation.Proofs.Body.Extent
import BytecodeMutation.Proofs.Code.Displacement

/-!
The layout of code that was read. Shorter spellings only pull instructions towards the start, and
where the padding of a switch grows it fills room that was won before the switch. So no instruction
ends up behind the place that it was read from, and what is written is no longer than what was read.
-/
namespace BytecodeMutation
open Instruction (Spelling endOf placed)
open BigEndian

/-- Laid out from an offset that is not behind theirs, no instructions move back. -/
theorem Split.relocated {pc pc' : Nat} {bytes : List UInt8} {located : List (Nat × Instruction Int)}
    (h : Split pc bytes located) (down : pc' ≤ pc) :
    List.Forall₂ (fun p q => q.1 ≤ p.1 ∧ q.2 = p.2) located (placed pc' (located.map (·.2))) ∧
      endOf pc' (located.map (·.2)) ≤ pc + bytes.length := by
  refine ⟨?_, by have := (h.displacement down).1; omega⟩
  induction h generalizing pc' with
  | nil => exact .nil
  | @cons pc bs i rest located first _ ih =>
    have next : pc' + i.size pc' ≤ pc + bs.length := by
      have := (first.displacement down).1
      omega
    exact .cons ⟨down, rfl⟩ (ih next)

/-- Every instruction that was read is laid out at or before the offset that it was read from. So
the layout ends within the code, and writing it back never makes the code longer. -/
theorem layout_le_of_read {code : Code} {body : Body} (read : code.read = .ok body) :
    ∃ located, readInstructions 0 code.bytes = .ok located ∧
      (∃ label : Int → Label, List.Forall₂ (fun p q => q.1 ≤ p.1 ∧ q.2 = p.2.map label) located
        ((Body.located 0 body).filterMap Body.placedInstruction?)) ∧
      body.size ≤ code.bytes.length ∧
      ∀ written, body.write = .ok written → written.bytes.length ≤ code.bytes.length := by
  obtain ⟨located, split, -, rfl⟩ := Code.read_eq_ok_iff.mp read
  obtain ⟨moved, within⟩ := split.relocated (Nat.le_refl 0)
  have total : (bodyOf located code.lines).size ≤ code.bytes.length := by
    rwa [Body.size_eq, instructions_bodyOf, Instruction.endOf_map, ← Nat.zero_add code.bytes.length]
  refine ⟨located, split.readInstructions, ⟨fun t => labelFor located t.toNat, ?_⟩, total, ?_⟩
  · rw [Body.placedInstructions, instructions_bodyOf, Instruction.placed_map,
      List.forall₂_map_right_iff]
    apply moved.imp
    rintro p q ⟨before, same⟩
    exact ⟨before, by rw [same]⟩
  · intro written h
    rwa [Body.length_of_write h]

/-- The shorter load makes room for one more byte of padding. -/
theorem layout_le_of_read_switch :
    let code : Code := ⟨[0x15, 0x00, 0xab, 0x00, 0xff, 0xff, 0xff, 0xfe, 0x00, 0x00, 0x00, 0x00,
      0xb1], []⟩
    let body : Body := [.label ⟨0⟩, .code (.access (.named .iload) 0), .code (.lookupSwitch ⟨0⟩ []),
      .code (.plain (.named .voidReturn))]
    code.read = .ok body ∧ body.size ≤ code.bytes.length ∧
      (Body.located 0 body).filterMap Body.placedInstruction? =
        [(0, .access (.named .iload) 0), (1, .lookupSwitch ⟨0⟩ []),
          (12, .plain (.named .voidReturn))] := by
  intro code body
  have load : Spelling 0 [0x15, 0x00] (.access (.named .iload) 0) := @Spelling.access 0 .iload rfl 0
  have switch : Spelling 2 (0xab :: ([0x00] ++ wordBytes [-2, 0])) (.lookupSwitch 0 []) :=
    @Spelling.lookupSwitch 2 [0x00] rfl (-2) 0 [] rfl
  have leave : Spelling 12 [0xb1] (.plain (.named .voidReturn)) :=
    @Spelling.plain 12 (.named .voidReturn) rfl rfl
  have split : Split 0 code.bytes _ := .cons load (.cons switch (.cons leave (.nil 13)))
  have landing : Landing [(0, .access (.named .iload) 0), (2, .lookupSwitch 0 []),
      (12, .plain (.named .voidReturn))] := by simp [Landing, Instruction.targets]
  have read : code.read = .ok body := Code.read_eq_ok_iff.mpr ⟨_, split, landing, rfl⟩
  obtain ⟨-, -, -, total, -⟩ := layout_le_of_read read
  exact ⟨read, total, rfl⟩

end BytecodeMutation
