import BytecodeMutation.Proofs.Body.Obstacle
import BytecodeMutation.Proofs.Listing.Shaped
import BytecodeMutation.Proofs.Mutation.Application
import BytecodeMutation.Proofs.Mutation.Survival

/-!
Which faults writing a mutant may find. Mutators offer only well-formed instructions, and a method
that was read from code keeps its labels and stays small, so a 16-bit branch that is too far from
its target is all that can go wrong. In a method that was read from a listing other faults may have
been there from the start, but no opcode ever has operands of the wrong kind.
-/
namespace BytecodeMutation

/-- The bodies that carrying out any values leads to, one after the other, whether or not they are
candidates. -/
inductive Derived (body : Body) : Body → Prop
  | start : Derived body body
  | next {mutant : Body} (earlier : Derived body mutant) (engine : Engine) (location : Location)
      (c : Candidate) : Derived body (engine.apply ⟨location, mutant⟩ c)

/-- What no engine lists changes nothing, so mutations are all that counts. -/
theorem Derived.mutated {body mutant : Body} (h : Derived body mutant) : Mutated body mutant := by
  induction h with
  | start => exact .start
  | @next mutant _ engine location c ih =>
    by_cases listed : c ∈ engine.enumerate ⟨location, mutant⟩
    · exact .next ih engine location listed
    · rw [Engine.apply_of_not_mem listed]
      exact ih

/-- Only well-formed instructions are offered. -/
theorem Offers.wellFormed {m : Mutator} {e : Element} {x : Edit} (h : Offers m e x)
    {i : Instruction Label} (offered : .code i ∈ x.replacement) : i.WellFormed := by
  have plain (m : Mnemonic) (bare : m.shape = .bare) :
      (Instruction.plain (.named m) : Instruction Label).WellFormed := ⟨bare, trivial⟩
  cases h with
  | operator was other becomes =>
    cases List.mem_singleton.mp offered
    exact ⟨Opcode.shape_of_arithmetic becomes, trivial⟩
  | relation was other becomes =>
    cases List.mem_singleton.mp offered
    exact ⟨.inl (Opcode.shape_of_comparison becomes), trivial⟩
  | firstSingle was narrow =>
    simp only [List.mem_cons, Element.code.injEq, List.not_mem_nil, or_false] at offered
    rcases offered with rfl | rfl
    · exact plain _ rfl
    · exact plain _ rfl
  | firstDouble was wide =>
    simp only [List.mem_cons, Element.code.injEq, List.not_mem_nil, or_false] at offered
    rcases offered with rfl | rfl | rfl
    · exact plain _ rfl
    · exact plain _ rfl
    · exact plain _ rfl
  | secondSingle was narrow | secondDouble was wide =>
    cases List.mem_singleton.mp offered
    exact plain _ rfl

namespace Engine

/-- A mutation adds nothing but what its mutator offers. -/
theorem mem_apply {engine : Engine} {method : Method} {c : Candidate} {e : Element}
    (h : e ∈ engine.apply method c) :
    e ∈ method.body ∨ ∃ m e' x, Offers m e' x ∧ e ∈ x.replacement := by
  by_cases listed : c ∈ engine.enumerate method
  · obtain ⟨m, -, -, e', x, -, offers, -, carried⟩ := apply_of_mem listed
    rw [carried] at h
    rcases List.mem_append.mp h with before | after
    · rcases List.mem_append.mp before with kept | offered
      · exact .inl (List.mem_of_mem_take kept)
      · exact .inr ⟨m, e', x, offers, offered⟩
    · exact .inl (List.mem_of_mem_drop after)
  · rw [apply_of_not_mem listed] at h
    exact .inl h

end Engine

/-- What holds of the instructions of a body, and of those that mutators offer, holds of those of
all bodies derived from it. -/
theorem Derived.forall_of_offered {p : Instruction Label → Prop} {body mutant : Body}
    (h : Derived body mutant) (first : ∀ i, .code i ∈ body → p i)
    (offered : ∀ m e x, Offers m e x → ∀ i, .code i ∈ x.replacement → p i) :
    ∀ i, .code i ∈ mutant → p i := by
  induction h with
  | start => exact first
  | next _ engine location c ih =>
    intro i hi
    rcases Engine.mem_apply hi with kept | ⟨m, e, x, offers, added⟩
    · exact ih i kept
    · exact offered m e x offers i added

/-- What holds of the instructions of a body, and of well-formed ones, holds of those of all bodies
derived from it. -/
theorem Derived.forall_instructions {p : Instruction Label → Prop} {body mutant : Body}
    (h : Derived body mutant) (first : ∀ i, .code i ∈ body → p i)
    (wellFormed : ∀ i, i.WellFormed → p i) : ∀ i, .code i ∈ mutant → p i :=
  h.forall_of_offered first fun _ _ _ offers i added => wellFormed i (offers.wellFormed added)

namespace Instruction

variable {τ : Type}

/-- Operands of the right kind take no more bytes than the weight allows for. -/
theorem Shaped.size_le_weight {i : Instruction τ} (h : i.Shaped) (pc : Nat) :
    i.size pc ≤ i.weight := by
  cases i with
  | plain op =>
    have shape : op.shape = .bare := h
    simp only [size, weight, shape, Shape.length?, Option.getD_some]
    split <;> omega
  | access op slot =>
    have shape : op.shape = .slot := h
    simp only [size, weight, shape, Shape.length?, Option.getD_some]
    split
    · omega
    · split <;> omega
  | immediate op v =>
    simp only [Shaped] at h
    rcases h with shape | shape | shape <;> simp [size, weight, shape, Shape.length?]
  | jump op t =>
    simp only [Shaped] at h
    rcases h with shape | shape <;> simp [size, weight, shape, Shape.length?]
  | increment slot delta =>
    simp only [size, weight]
    split <;> omega
  | constant op bs => exact Nat.le_refl _
  | tableSwitch low t ts =>
    have := switchPadding_lt pc
    simp only [size, weight]
    omega
  | lookupSwitch t ps =>
    have := switchPadding_lt pc
    simp only [size, weight]
    omega

theorem endOf_le_weight {is : List (Instruction τ)} (shaped : ∀ i ∈ is, i.Shaped) (pc : Nat) :
    endOf pc is ≤ pc + (is.map (·.weight)).sum := by
  induction is generalizing pc with
  | nil => exact Nat.le_refl pc
  | cons i is ih =>
    obtain ⟨here, later⟩ := List.forall_mem_cons.mp shaped
    have first := here.size_le_weight pc
    have others := ih later (pc + i.size pc)
    rw [endOf, List.map_cons, List.sum_cons]
    omega

end Instruction

/-- No offset is beyond the weight of the body. -/
theorem Body.start_le_weight {body : Body} (shaped : ∀ i, .code i ∈ body → i.Shaped) (g : Nat) :
    body.start g ≤ (body.instructions.map (·.weight)).sum := by
  have before : ∀ i ∈ body.instructions.take g, i.Shaped := fun i hi =>
    shaped i (Body.mem_instructions.mp (List.mem_of_mem_take hi))
  have bound := Instruction.endOf_le_weight before 0
  have parts := congrArg (fun is : List (Instruction Label) => (is.map (·.weight)).sum)
    (List.take_append_drop g body.instructions)
  simp only [List.map_append, List.sum_append] at parts
  rw [Body.start]
  omega

theorem Block.Sturdy.start_le {bs : List Block} (h : Block.Sturdy bs)
    (shaped : ∀ i, .code i ∈ Body.ofBlocks bs → i.Shaped) (g : Nat) :
    (Body.ofBlocks bs).start g ≤ 6 * 65535 := by
  have bound := Body.start_le_weight shaped g
  rw [Body.instructions_ofBlocks, List.map_map] at bound
  exact Nat.le_trans bound h.light

theorem wellFormed_of_read {code : Code} {body : Body} (read : code.read = .ok body)
    (short : code.bytes.length ≤ 65535) : ∀ i, .code i ∈ body → i.WellFormed := by
  obtain ⟨located, split, -, rfl⟩ := Code.read_eq_ok_iff.mp read
  intro i hi
  have listed := Body.mem_instructions.mpr hi
  rw [instructions_bodyOf, List.map_map] at listed
  obtain ⟨p, hp, rfl⟩ := List.mem_map.mp listed
  obtain ⟨bs, spelled, within⟩ := split.spelling p hp
  exact (spelled.wellFormed (by omega)).map _

/-- However often a method that was read from code is mutated, it can be written, unless a 16-bit
branch has come too far from its target. A method that was read from a listing never gets an opcode
with operands of the wrong kind. -/
theorem write_of_derived :
    (∀ (code : Code) (body mutant : Body), code.read = .ok body → code.bytes.length ≤ 65535 →
      Derived body mutant →
      (∃ written, mutant.write = .ok written) ∨
        ∃ g l distance, mutant.OutOfReach g l distance ∧
          mutant.write = .error (.branchOutOfRange (mutant.start g) l distance)) ∧
    ∀ (text : String) (body mutant : Body), Listing.read text = .ok body → Derived body mutant →
      ∀ op, mutant.write ≠ .error (.unsupported op) := by
  constructor
  · intro code body mutant read short derived
    have wellFormed := derived.forall_instructions (wellFormed_of_read read short) fun _ h => h
    obtain ⟨bs, rfl, sturdy⟩ := derived.mutated.sturdy (sturdy_of_read read short)
    apply Body.write_or_far wellFormed (Body.defined_ofBlocks sturdy.tidy)
    intro g
    have light := sturdy.start_le (fun i hi => (wellFormed i hi).shaped) g
    omega
  · intro text body mutant read derived
    have shaped := derived.forall_instructions (Listing.shaped_of_read read) fun _ h => h.shaped
    exact Body.write_ne_unsupported shaped

/-- A value out of range comes in by a listing only, and stays while other places are mutated. -/
theorem write_of_derived_bipush :
    let body : Body := [.code (.immediate (.named .bipush) 300), .code (.plain (.named .iadd))]
    let mutant : Body := [.code (.immediate (.named .bipush) 300), .code (.plain (.named .isub))]
    let read : Body := [.code (.immediate (.named .bipush) 44), .code (.plain (.named .iadd))]
    let mutated : Body := [.code (.immediate (.named .bipush) 44), .code (.plain (.named .isub))]
    Listing.read "BIPUSH 300\nIADD" = .ok body ∧
      Derived body mutant ∧
      mutant.write = .error (.operandOutOfRange (.named .bipush) 300) ∧
      (∀ op, mutant.write ≠ .error (.unsupported op)) ∧
      (⟨[0x10, 44, 0x60], []⟩ : Code).read = .ok read ∧
      Derived read mutated ∧
      ∃ written, mutated.write = .ok written := by
  intro body mutant read mutated
  let engine : Engine := ⟨[.operator .sub, .deletion .first], true⟩
  let location : Location := ⟨⟨"Calc"⟩, ⟨"run", "()V"⟩⟩
  obtain ⟨fromCode, fromListing⟩ := write_of_derived
  have parsed : Listing.read "BIPUSH 300\nIADD" = .ok body := by decide +kernel
  have derived : Derived body mutant :=
    .next .start engine location ⟨location, 1, "aor.subtraction", "AOR: Changed + to -"⟩
  have refused : mutant.write = .error (.operandOutOfRange (.named .bipush) 300) := by cbv
  have code : (⟨[0x10, 44, 0x60], []⟩ : Code).read = .ok read := by
    have written : read.write = .ok ⟨[0x10, 44, 0x60], []⟩ := by cbv
    have own : read.Unaliased := by
      intro op hop
      have named : op = .named .iadd := by simpa [read] using hop
      rw [named]
      rfl
    exact Body.read_of_write written (by decide) own (Body.inside_iff.mpr (by decide))
  have derived' : Derived read mutated :=
    .next .start engine location ⟨location, 1, "aor.subtraction", "AOR: Changed + to -"⟩
  have writable : ∃ written, mutated.write = .ok written := by
    rcases fromCode _ read mutated code (by decide) derived' with written | ⟨g, l, _, reach, -⟩
    · exact written
    · obtain ⟨op, branch, -⟩ := reach.branch
      have jump : (.jump op l : Instruction Label) ∈ mutated.instructions :=
        List.mem_of_getElem? branch
      simp [mutated, Body.instructions, Element.instruction?] at jump
  exact ⟨parsed, derived, refused, fromListing _ body mutant parsed derived, code, derived',
    writable⟩

end BytecodeMutation
