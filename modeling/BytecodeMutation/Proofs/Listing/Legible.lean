import BytecodeMutation.Proofs.Mutation.Writability
import BytecodeMutation.Proofs.Opcode.Name

/-!
Legible bodies. Only an instruction whose operands are of the kind that its opcode takes, and whose
opcode is the one that its name stands for, can be told from its text. Whatever is read from code or
from a listing is legible, and mutations keep it so.
-/
namespace BytecodeMutation

namespace Instruction

/-- Of two instructions that are written alike only one is legible. -/
structure Legible {τ : Type} (i : Instruction τ) : Prop where
  shaped : i.Shaped
  /-- The opcode of a plain instruction is not unknown with the byte of a named one. -/
  own : ∀ op, i = .plain op → op.IsOwn

variable {τ σ : Type}

theorem Legible.map {i : Instruction τ} (h : i.Legible) (f : τ → σ) : (i.map f).Legible := by
  refine ⟨h.shaped.map f, fun op same => h.own op ?_⟩
  cases i <;> cases same
  rfl

/-- Only a plain instruction can have an opcode without a name. -/
theorem Legible.isOwn_opcode {i : Instruction τ} (h : i.Legible) : i.opcode.IsOwn := by
  have shaped := h.shaped
  cases i with
  | plain op => exact h.own op rfl
  | access op slot =>
    have shape : op.shape = .slot := shaped
    exact Opcode.isOwn_of_shape (by simp [opcode, shape])
  | immediate op v =>
    apply Opcode.isOwn_of_shape
    rcases shaped with shape | shape | shape <;> simp [opcode, shape]
  | jump op t =>
    apply Opcode.isOwn_of_shape
    rcases shaped with shape | shape <;> simp [opcode, shape]
  | constant op bs =>
    have shape : op.shape = .constant bs.length := shaped
    exact Opcode.isOwn_of_shape (by simp [opcode, shape])
  | increment | tableSwitch | lookupSwitch => exact Opcode.isOwn_named _

theorem Spelling.legible {pc : Nat} {bs : List UInt8} {i : Instruction Int}
    (h : Spelling pc bs i) : i.Legible := by
  cases h with
  | implicit names => exact ⟨(implicit?_spec names).2.1, fun _ same => nomatch same⟩
  | plain bare own =>
    refine ⟨bare, ?_⟩
    rintro _ ⟨⟩
    exact Opcode.isOwn_iff.mpr ((Opcode.isAlias_eq_false_iff _).mp own).1
  | access shape | wideAccess shape => exact ⟨shape, fun _ same => nomatch same⟩
  | signedByte shape => exact ⟨.inl shape, fun _ same => nomatch same⟩
  | unsignedByte shape => exact ⟨.inr (.inl shape), fun _ same => nomatch same⟩
  | signedShort shape => exact ⟨.inr (.inr shape), fun _ same => nomatch same⟩
  | branch16 shape => exact ⟨.inl shape, fun _ same => nomatch same⟩
  | branch32 shape => exact ⟨.inr shape, fun _ same => nomatch same⟩
  | constant shape => exact ⟨shape, fun _ same => nomatch same⟩
  | increment | wideIncrement | tableSwitch | lookupSwitch =>
    exact ⟨trivial, fun _ same => nomatch same⟩

end Instruction

def Body.Legible (body : Body) : Prop := ∀ i, .code i ∈ body → i.Legible

theorem legible_of_read {code : Code} {body : Body} (read : code.read = .ok body) :
    body.Legible := by
  obtain ⟨located, split, -, rfl⟩ := Code.read_eq_ok_iff.mp read
  intro i hi
  have listed := Body.mem_instructions.mpr hi
  rw [instructions_bodyOf, List.map_map] at listed
  obtain ⟨p, hp, rfl⟩ := List.mem_map.mp listed
  obtain ⟨bs, spelled, -⟩ := split.spelling p hp
  exact spelled.legible.map _

namespace Listing

theorem legible_of_read {text : String} {body : Body} (h : read text = .ok body) :
    body.Legible := by
  intro i hi
  obtain ⟨line, parsed⟩ := exists_element_of_read h _ hi
  obtain ⟨name, op, operands, named, instruction⟩ := exists_of_element parsed
  obtain ⟨rfl, shaped⟩ := of_instruction instruction
  refine ⟨shaped, ?_⟩
  rintro op rfl
  exact Opcode.isOwn_of_ofText named

end Listing

/-- Only named opcodes are offered. -/
theorem Offers.exists_named {m : Mutator} {e : Element} {x : Edit} (h : Offers m e x)
    {i : Instruction Label} (offered : .code i ∈ x.replacement) :
    ∃ named : Mnemonic, i.opcode = .named named := by
  cases h with
  | operator was other becomes =>
    cases List.mem_singleton.mp offered
    exact ⟨_, Opcode.arithmetic?_eq_some_iff.mp becomes⟩
  | relation was other becomes =>
    cases List.mem_singleton.mp offered
    obtain ⟨after, named, -⟩ := Opcode.comparison?_eq_some_iff.mp becomes
    exact ⟨after, named⟩
  | firstSingle was narrow | firstDouble was wide =>
    simp only [List.mem_cons, Element.code.injEq, List.not_mem_nil, or_false] at offered
    rcases offered with rfl | rfl | rfl <;> exact ⟨_, rfl⟩
  | secondSingle was narrow | secondDouble was wide =>
    cases List.mem_singleton.mp offered
    exact ⟨_, rfl⟩

theorem Offers.legible {m : Mutator} {e : Element} {x : Edit} (h : Offers m e x)
    {i : Instruction Label} (offered : .code i ∈ x.replacement) : i.Legible := by
  refine ⟨(h.wellFormed offered).shaped, ?_⟩
  rintro op rfl
  obtain ⟨named, rfl⟩ := h.exists_named offered
  exact Opcode.isOwn_named named

theorem Derived.legible {body mutant : Body} (h : Derived body mutant) (first : body.Legible) :
    mutant.Legible :=
  h.forall_of_offered first fun _ _ _ offers _ added => offers.legible added

end BytecodeMutation
