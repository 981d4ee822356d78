import BytecodeMutation.Proofs.Body.Tidy
import BytecodeMutation.Proofs.Mutation.Editing

/-!
Mutants survive being written and read. Edits keep a body tidy, and their number is no concern: an
instruction is replaced by light ones, so even the mutants of mutants of the largest method stay
far below the sizes at which an offset or a label would wrap around.
-/
namespace BytecodeMutation
open Instruction (Spelling)

namespace Instruction.Spelling

/-- The weight of an instruction against the bytes that it is read from. -/
theorem weight_bounds {pc : Nat} {bs : List UInt8} {i : Instruction Int} (h : Spelling pc bs i) :
    bs.length ≤ i.weight ∧ i.weight ≤ 6 * bs.length := by
  cases h with
  | plain bare own => simp only [weight, List.length_singleton]; split <;> omega
  | tableSwitch padded =>
    have := switchPadding_lt pc
    simp [weight, padded]; omega
  | lookupSwitch padded =>
    have := switchPadding_lt pc
    simp [weight, padded]; omega
  | constant shape => simp [weight]; omega
  | _ => simp [weight]

end Instruction.Spelling

theorem Split.weight_bounds {pc : Nat} {bytes : List UInt8} {located : List (Nat × Instruction Int)}
    (h : Split pc bytes located) :
    bytes.length ≤ (located.map (·.2.weight)).sum ∧
      (located.map (·.2.weight)).sum ≤ 6 * bytes.length := by
  induction h with
  | nil => exact ⟨Nat.le_refl 0, Nat.le_refl 0⟩
  | cons first _ ih =>
    have := first.weight_bounds
    simp only [List.length_append, List.map_cons, List.sum_cons]
    omega

namespace Block

/-- An instruction without markers. -/
def bare (i : Instruction Label) : Block := ⟨none, [], i⟩

/-- What reading establishes and edits keep. -/
structure Sturdy (bs : List Block) : Prop where
  tidy : Tidy bs
  own : ∀ op, .plain op ∈ bs.map (·.code) → op.isAlias = false
  light : (bs.map (·.code.weight)).sum ≤ 6 * 65535

/-- Blocks before and after edits of their instructions. -/
structure Keeps (bs bs' : List Block) : Prop where
  labels : labels bs' = labels bs
  targets : targets bs' = targets bs
  own : ∀ op, .plain op ∈ bs'.map (·.code) → .plain op ∈ bs.map (·.code) ∨ op.isAlias = false
  weight : (bs'.map (·.code.weight)).sum ≤ (bs.map (·.code.weight)).sum

theorem Sturdy.of_keeps {bs bs' : List Block} (h : Sturdy bs) (keeps : Keeps bs bs') :
    Sturdy bs' := by
  obtain ⟨⟨few, numbered, used⟩, own, light⟩ := h
  refine ⟨⟨?_, ?_, ?_⟩, ?_, Nat.le_trans keeps.weight light⟩
  · rwa [keeps.labels]
  · rwa [keeps.labels]
  · rwa [keeps.labels, keeps.targets]
  · intro op hop
    rcases keeps.own op hop with old | new
    · exact own op old
    · exact new

theorem Keeps.cons {bs bs' : List Block} (h : Keeps bs bs') (b : Block) :
    Keeps (b :: bs) (b :: bs') where
  labels := by
    have kept := h.labels
    simp only [Block.labels] at kept ⊢
    rw [List.filterMap_cons, List.filterMap_cons, kept]
  targets := congrArg (b.code.targets ++ ·) h.targets
  own op hop := by
    rcases List.mem_cons.mp hop with here | later
    · exact .inl (List.mem_cons.mpr (.inl here))
    · exact (h.own op later).imp_left (List.mem_cons_of_mem _)
  weight := Nat.add_le_add_left h.weight _

/-- The first of the new instructions keeps the markers. -/
theorem Keeps.replace {bs bs' : List Block} (h : Keeps bs bs') (b : Block)
    {i : Instruction Label} {is : List (Instruction Label)} (replaces : Replaces (i :: is) b.code) :
    Keeps (b :: bs) (⟨b.label?, b.lines, i⟩ :: (is.map bare ++ bs')) where
  labels := by
    have kept := h.labels
    have none : (is.map bare).filterMap (·.label?) = [] := by
      rw [List.filterMap_map]
      exact List.filterMap_eq_nil_iff.mpr fun _ _ => rfl
    simp only [Block.labels] at kept ⊢
    rw [List.filterMap_cons, List.filterMap_cons, List.filterMap_append, none, List.nil_append,
      kept]
  targets := by
    have moved : (is.map bare).flatMap (·.code.targets) = is.flatMap (·.targets) :=
      List.flatMap_map ..
    have kept := h.targets
    simp only [Block.targets] at kept ⊢
    rw [List.flatMap_cons, List.flatMap_cons, List.flatMap_append, moved, kept, ← List.append_assoc,
      ← replaces.targets, List.flatMap_cons]
  own op hop := by
    rw [List.map_cons, List.map_append, List.map_map, ← List.cons_append] at hop
    rcases List.mem_append.mp hop with new | old
    · refine .inr (replaces.own op ?_)
      simpa [bare] using new
    · exact (h.own op old).imp_left (List.mem_cons_of_mem _)
  weight := by
    have light := replaces.weight
    have rest := h.weight
    simp only [List.map_cons, List.map_append, List.map_map, List.sum_cons, List.sum_append,
      Function.comp_def, bare] at light ⊢
    omega

end Block

section
variable {m : Mutator} {body edited : Body} {bs : List Block}

theorem edited_markers {markers : List Element} (unseen : ∀ e ∈ markers, m.edit? e = none)
    (h : Edited m.edit? (markers ++ body) edited) :
    ∃ rest, edited = markers ++ rest ∧ Edited m.edit? body rest := by
  induction markers generalizing edited with
  | nil => exact ⟨edited, rfl, h⟩
  | cons e markers ih =>
    obtain ⟨here, later⟩ := List.forall_mem_cons.mp unseen
    cases h with
    | keep _ rest =>
      obtain ⟨tail, rfl, others⟩ := ih later rest
      exact ⟨tail, rfl, others⟩
    | edit offered _ =>
      rw [here] at offered
      cases offered

theorem ofBlocks_bare (is : List (Instruction Label)) (bs : List Block) :
    Body.ofBlocks (is.map Block.bare ++ bs) = is.map .code ++ Body.ofBlocks bs := by
  induction is with
  | nil => rfl
  | cons i is ih => exact congrArg (.code i :: ·) ih

/-- An edited body still consists of blocks. -/
theorem edited_ofBlocks (h : Edited m.edit? (.ofBlocks bs) edited) :
    ∃ bs', edited = .ofBlocks bs' ∧ Block.Keeps bs bs' := by
  induction bs generalizing edited with
  | nil =>
    cases h
    exact ⟨[], rfl, rfl, rfl, nofun, Nat.le_refl 0⟩
  | cons b bs ih =>
    have unseen : ∀ e ∈ b.label?.toList.map Element.label ++ b.lines.map .line,
        m.edit? e = none := by
      intro e he
      apply Option.eq_none_iff_forall_ne_some.mpr
      intro x offered
      obtain ⟨i, is, rfl, -⟩ := Mutator.replaces_of_edit offered
      simp at he
    rw [Body.ofBlocks_cons, ← List.append_assoc] at h
    obtain ⟨tail, rfl, others⟩ := edited_markers unseen h
    cases others with
    | keep _ rest =>
      obtain ⟨bs', rfl, keeps⟩ := ih rest
      refine ⟨b :: bs', ?_, keeps.cons b⟩
      rw [Body.ofBlocks_cons, List.append_assoc]
    | edit offered rest =>
      obtain ⟨bs', rfl, keeps⟩ := ih rest
      obtain ⟨_, is, same, replacement, replaces⟩ := Mutator.replaces_of_edit offered
      cases same
      cases is with
      | nil => exact absurd rfl replaces.nonempty
      | cons i is =>
        refine ⟨_, ?_, keeps.replace b replaces⟩
        rw [Body.ofBlocks_cons, ofBlocks_bare, replacement, List.append_assoc]
        rfl

end

/-- Bodies that some number of mutations lead to, each of them a candidate of the body before. -/
inductive Mutated (body : Body) : Body → Prop
  | start : Mutated body body
  | next {mutant : Body} (earlier : Mutated body mutant) (engine : Engine) (location : Location)
      {c : Candidate} (listed : c ∈ engine.enumerate ⟨location, mutant⟩) :
      Mutated body (engine.apply ⟨location, mutant⟩ c)

section
variable {code : Code} {body mutant : Body} {bs : List Block}

theorem sturdy_of_read (read : code.read = .ok body) (short : code.bytes.length ≤ 65535) :
    ∃ bs, body = .ofBlocks bs ∧ Block.Sturdy bs := by
  obtain ⟨located, split, landing, rfl⟩ := Code.read_eq_ok_iff.mp read
  refine ⟨_, rfl, tidy_blockAt (split.sound landing (by omega)) _, ?_, ?_⟩
  · intro op hop
    rw [← Body.instructions_ofBlocks] at hop
    exact Body.unaliased_bodyOf split code.lines op (Body.mem_instructions.mp hop)
  · have bound := split.weight_bounds.2
    have same : ((located.map (blockAt located code.lines)).map (·.code.weight)).sum =
        (located.map (·.2.weight)).sum := by
      rw [List.map_map]
      congr 1
      exact List.map_congr_left fun p _ => Instruction.weight_map _ _
    omega

theorem Mutated.sturdy (h : Mutated body mutant)
    (first : ∃ bs, body = .ofBlocks bs ∧ Block.Sturdy bs) :
    ∃ bs, mutant = .ofBlocks bs ∧ Block.Sturdy bs := by
  induction h with
  | start => exact first
  | next _ engine location listed ih =>
    obtain ⟨bs, rfl, sturdy⟩ := ih
    rcases edited_apply engine ⟨location, .ofBlocks bs⟩ _ with same | ⟨m, edited⟩
    · exact ⟨bs, same, sturdy⟩
    · obtain ⟨bs', same, keeps⟩ := edited_ofBlocks edited
      exact ⟨bs', same, sturdy.of_keeps keeps⟩

/-- Sturdy blocks come back as they were written. -/
theorem Block.Sturdy.read_of_write (h : Block.Sturdy bs)
    (written : (Body.ofBlocks bs).write = .ok code) : code.read = .ok (.ofBlocks bs) := by
  have own : (Body.ofBlocks bs).Unaliased := by
    intro op hop
    apply h.own
    rw [← Body.instructions_ofBlocks]
    exact Body.mem_instructions.mpr hop
  have short : code.bytes.length < 4294967296 := by
    -- the body is no heavier than the method that was read first, so no offset wraps around
    have bound := (Body.split_of_write written own).1.weight_bounds.1
    have same : ((Body.ofBlocks bs).layout.map (·.2.weight)).sum =
        (bs.map (·.code.weight)).sum := by
      have dropped : ((Body.ofBlocks bs).instructions.zipIdx.map (·.1)).map (·.weight) =
          bs.map (·.code.weight) := by
        rw [List.zipIdx_map_fst, Body.instructions_ofBlocks, List.map_map]
        rfl
      rw [Body.layout, ← dropped, List.map_map, List.map_map]
      congr 1
      exact List.map_congr_left fun p _ => Instruction.weight_map _ _
    have light := h.light
    omega
  rw [Body.read_of_write written short own (Body.inside_ofBlocks h.tidy),
    Body.normalForm_ofBlocks h.tidy]

/-- A mutant of a method that was read comes back as it is when it is written and read again, and so
does a mutant of a mutant. -/
theorem read_of_write_mutated (read : code.read = .ok body) (short : code.bytes.length ≤ 65535)
    (h : Mutated body mutant) {mutated : Code} (written : mutant.write = .ok mutated) :
    mutated.read = .ok mutant := by
  obtain ⟨bs, rfl, sturdy⟩ := h.sturdy (sturdy_of_read read short)
  exact sturdy.read_of_write written

/-- Deleting an operand makes room for two instructions in a loop, and the branch goes back by one
byte more. -/
theorem read_of_write_deletion :
    let before : Body := [.label ⟨0⟩, .code (.access (.named .iload) 0),
      .code (.access (.named .iload) 1), .code (.plain (.named .iadd)),
      .code (.jump (.named .goto) ⟨0⟩)]
    let after : Body := [.label ⟨0⟩, .code (.access (.named .iload) 0),
      .code (.access (.named .iload) 1), .code (.plain (.named .swap)),
      .code (.plain (.named .pop)), .code (.jump (.named .goto) ⟨0⟩)]
    (⟨[0x1a, 0x1b, 0x60, 0xa7, 0xff, 0xfd], []⟩ : Code).read = .ok before ∧
      Mutated before after ∧
      after.write = .ok ⟨[0x1a, 0x1b, 0x5f, 0x57, 0xa7, 0xff, 0xfc], []⟩ ∧
      (⟨[0x1a, 0x1b, 0x5f, 0x57, 0xa7, 0xff, 0xfc], []⟩ : Code).read = .ok after := by
  intro before after
  have written : before.write = .ok ⟨[0x1a, 0x1b, 0x60, 0xa7, 0xff, 0xfd], []⟩ := by cbv
  have own : before.Unaliased := by
    intro op hop
    have named : op = .named .iadd := by simpa [before] using hop
    rw [named]
    rfl
  have read := Body.read_of_write written (by decide) own (Body.inside_iff.mpr (by decide))
  have mutated : Mutated before after := by
    let location : Location := ⟨⟨"Calc"⟩, ⟨"run", "(II)I"⟩⟩
    have listed : (⟨location, 3, "aod.delete_first_operand",
        "AOD: Removed the first operand from an arithmetic expression"⟩ : Candidate) ∈
          (⟨[.deletion .first], true⟩ : Engine).enumerate ⟨location, before⟩ := by decide
    exact .next .start _ location listed
  have rewritten : after.write = .ok ⟨[0x1a, 0x1b, 0x5f, 0x57, 0xa7, 0xff, 0xfc], []⟩ := by cbv
  exact ⟨read, mutated, rewritten, read_of_write_mutated read (by decide) mutated rewritten⟩

end

end BytecodeMutation
