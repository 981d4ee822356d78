import BytecodeMutation.Proofs.Body.Layout
import BytecodeMutation.Proofs.Code.WriteBack

/-!
Written code against read code. What is written splits into the instructions of the layout and is
canonical. In the other direction, canonical code is what its own instructions are written as.
-/
namespace BytecodeMutation
open Instruction (Spelling Emitted placed endOf)
open BigEndian

namespace Instruction.Spelling

variable {pc : Nat} {bs : List UInt8} {i : Instruction Int}

/-- A spelling takes at least the bytes that the layout reserves for its instruction, and no more
if it is canonical. -/
theorem size_bounds (h : Spelling pc bs i) :
    i.size pc ≤ bs.length ∧ ∀ rest, CanonicalAt pc (bs ++ rest) → bs.length ≤ i.size pc := by
  have rigid (same : i.size pc = bs.length) :
      i.size pc ≤ bs.length ∧ ∀ rest, CanonicalAt pc (bs ++ rest) → bs.length ≤ i.size pc :=
    ⟨Nat.le_of_eq same, fun _ _ => Nat.le_of_eq same.symm⟩
  cases h with
  | implicit names =>
    obtain ⟨-, -, low, other⟩ := implicit?_spec names
    exact rigid (by simp [size, low, other])
  | plain bare own => exact rigid (by simp [size, bare, Shape.length?])
  | @access m shape slot =>
    have small := slot.toNat_lt
    have narrow : ¬ 255 < slot.toNat := by omega
    by_cases short : slot.toNat ≤ 3 ∧ m ≠ .ret
    · have one : (Instruction.access (.named m) slot.toUInt16 : Instruction Int).size pc = 1 := by
        simp [size, short]
      rw [one]
      constructor
      · simp
      · intro rest canonical
        have := canonical.explicit m slot rest shape short.2 rfl
        omega
    · have two : (Instruction.access (.named m) slot.toUInt16 : Instruction Int).size pc = 2 := by
        simp [size, shape, Shape.length?, short, narrow]
      exact rigid two
  | @wideAccess m shape slot =>
    simp only [size, Opcode.shape_named, shape, Shape.length?]
    constructor
    · split
      · simp
      · split <;> simp
    · intro rest canonical
      have high := canonical.wideAccess m slot rest shape (by simp)
      have other : ¬ slot.toNat ≤ 3 := by omega
      simp [other, high]
  | increment slot delta =>
    have small := slot.toNat_lt
    have lower := delta.le_toInt
    have upper := delta.toInt_lt
    have narrow : isWideIncrement slot.toUInt16 delta.toInt16 = false := by
      simp [isWideIncrement]; omega
    exact rigid (by simp [size, narrow])
  | wideIncrement slot delta =>
    simp only [size]
    constructor
    · split <;> simp
    · intro rest canonical
      have large := canonical.wideIncrement slot delta rest (by simp)
      have wide : isWideIncrement slot delta = true := by
        simp only [isWideIncrement, Bool.or_eq_true, decide_eq_true_eq]
        omega
      simp [wide]
  | constant shape => exact rigid (by simp only [size, List.length_cons]; omega)
  | tableSwitch padded => exact rigid (by simp [size, padded]; omega)
  | lookupSwitch padded => exact rigid (by simp [size, padded]; omega)
  | signedByte shape | unsignedByte shape => exact rigid (by simp [size, shape, Shape.length?])
  | signedShort shape | branch16 shape | branch32 shape =>
    exact rigid (by simp [size, shape, Shape.length?])

theorem size_eq {rest : List UInt8} (h : Spelling pc bs i)
    (canonical : CanonicalAt pc (bs ++ rest)) : i.size pc = bs.length :=
  Nat.le_antisymm h.size_bounds.1 (h.size_bounds.2 rest canonical)

end Instruction.Spelling

/-- The instructions of the bytes from `pc` on have canonical spellings. -/
def CanonicalFrom (pc : Nat) (bytes : List UInt8) {τ : Type}
    (located : List (Nat × Instruction τ)) : Prop :=
  ∀ p ∈ located, CanonicalAt p.1 (bytes.drop (p.1 - pc))

theorem canonicalFrom_cons_iff {pc : Nat} {bs rest : List UInt8} {τ : Type} {i : Instruction τ}
    {located : List (Nat × Instruction τ)} (after : ∀ p ∈ located, pc + bs.length ≤ p.1) :
    CanonicalFrom pc (bs ++ rest) ((pc, i) :: located) ↔
      CanonicalAt pc (bs ++ rest) ∧ CanonicalFrom (pc + bs.length) rest located := by
  simp only [CanonicalFrom, List.forall_mem_cons, Nat.sub_self, List.drop_zero]
  refine and_congr_right fun _ => forall₂_congr fun p hp => ?_
  have := after p hp
  rw [List.drop_append, List.drop_eq_nil_of_le (by omega), List.nil_append, Nat.sub_sub]

namespace Instruction.Emitted

variable {pc : Nat} {is : List (Instruction Target)} {bytes : List UInt8}

/-- Written code splits into the instructions of the layout, and it is canonical. -/
theorem split (h : Emitted pc is bytes) (own : ∀ op, .plain op ∈ is → op.isAlias = false) :
    Split pc bytes (placed pc (is.map fun i => i.map fun t => (t.offset : Int))) ∧
      CanonicalFrom pc bytes (placed pc (is.map fun i => i.map fun t => (t.offset : Int))) ∧
      pc + bytes.length = endOf pc is := by
  induction h with
  | nil pc => exact ⟨.nil pc, nofun, rfl⟩
  | @cons pc i is bs rest first _ ih =>
    have emission := emission_of_write (fun op eq => own op (eq ▸ List.mem_cons_self)) first
    obtain ⟨others, canonical, length⟩ := ih fun op member => own op (List.mem_cons_of_mem i member)
    have size : bs.length = i.size pc := emission.length.trans (size_map _ _ _)
    rw [← size] at others canonical length
    refine ⟨?_, ?_, ?_⟩
    · refine .cons emission.spelled ?_
      rwa [size_map, ← size]
    · rw [List.map_cons, placed, size_map, ← size]
      exact (canonicalFrom_cons_iff le_of_mem_placed).mpr ⟨emission.canonical rest, canonical⟩
    · rw [endOf, ← size, ← length, List.length_append]
      omega

end Instruction.Emitted

namespace Split

variable {pc : Nat} {bytes : List UInt8} {located : List (Nat × Instruction Int)}

/-- Instructions of canonical code keep their offsets. -/
theorem placed_eq (h : Split pc bytes located) (canonical : CanonicalFrom pc bytes located) :
    placed pc (located.map (·.2)) = located := by
  induction h with
  | nil pc => rfl
  | @cons pc bs i rest located first others ih =>
    obtain ⟨here, later⟩ :=
      (canonicalFrom_cons_iff fun p hp => (others.offset_bounds p hp).1).mp canonical
    rw [List.map_cons, placed, first.size_eq here, ih later]

/-- Canonical code is what its instructions are written as, wherever their targets stay. -/
theorem emitted (h : Split pc bytes located) (short : bytes.length < 4294967296)
    (canonical : CanonicalFrom pc bytes located) (f : Int → Target)
    (exact : ∀ p ∈ located, ∀ t ∈ p.2.targets, ((f t).offset : Int) = t) :
    Emitted pc (located.map fun p => p.2.map f) bytes := by
  induction h with
  | nil pc => exact .nil pc
  | @cons pc bs i rest located first others ih =>
    obtain ⟨here, later⟩ :=
      (canonicalFrom_cons_iff fun p hp => (others.offset_bounds p hp).1).mp canonical
    rw [List.length_append] at short
    obtain ⟨exactFirst, exactOthers⟩ := List.forall_mem_cons.mp exact
    refine .cons (first.write (by omega) here f exactFirst) ?_
    rw [Instruction.size_map, first.size_eq here]
    exact ih (by omega) later exactOthers

end Split

end BytecodeMutation
