import BytecodeMutation.Proofs.Body.Layout

/-!
How many bytes a body takes. The layout puts every element behind the sizes of the ones before it,
and each instruction is written in as many bytes as its size says.
-/
namespace BytecodeMutation

/-- What is written ends where the layout does. -/
theorem Instruction.Emitted.length_eq {pc : Nat} {is : List (Instruction Target)}
    {bytes : List UInt8} (h : Emitted pc is bytes) : pc + bytes.length = endOf pc is := by
  induction h with
  | nil pc => rfl
  | cons first _ ih => rw [endOf, ← ih, ← length_of_write first, List.length_append, Nat.add_assoc]

namespace Body
open Instruction (endOf)

/-- The sum of the sizes of all elements, each at its own place. -/
def size (body : Body) : Nat := body.foldl (fun pc e => pc + e.size pc) 0

theorem foldl_size (pc : Nat) (body : Body) :
    body.foldl (fun pc e => pc + e.size pc) pc = endOf pc body.instructions := by
  induction body generalizing pc with
  | nil => rfl
  | cons e body ih => cases e <;> exact ih _

theorem size_eq (body : Body) : body.size = endOf 0 body.instructions := foldl_size 0 body

theorem length_of_write {body : Body} {code : Code} (written : body.write = .ok code) :
    code.bytes.length = body.size := by
  obtain ⟨-, emitted, -⟩ := write_eq_ok_iff.mp written
  have total := emitted.length_eq
  rwa [resolved, Instruction.endOf_map, Nat.zero_add, ← size_eq] at total

end Body

end BytecodeMutation
