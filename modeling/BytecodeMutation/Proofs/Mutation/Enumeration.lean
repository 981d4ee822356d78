import BytecodeMutation.Proofs.Mutation.Pass
import BytecodeMutation.Proofs.Traversal

/-!
Enumeration. An engine lists, mutator after mutator and by ascending index, one candidate for each
element that the mutator applies to. A configured engine lists them in the order of the catalog, so
no candidate comes twice.
-/
namespace BytecodeMutation

namespace Candidate

/-- The place of a candidate's mutator in the catalog. -/
def rank (c : Candidate) : Nat := Mutator.all.findIdx (·.id == c.mutator)

/-- By mutator, in catalog order, and then by index. -/
def Before (c d : Candidate) : Prop := c.rank < d.rank ∨ c.rank = d.rank ∧ c.index < d.index

theorem Before.ne {c d : Candidate} (h : Before c d) : c ≠ d := by
  rintro rfl
  unfold Before at h
  omega

end Candidate

namespace Engine

variable {method : Method}

theorem enumerate_eq (engine : Engine) (method : Method) :
    engine.enumerate method = engine.mutators.flatMap fun m => m.candidates method := by
  apply List.flatMap_congr
  intro m _
  rw [found_pass]
  exact List.filter_true _

theorem mem_enumerate {engine : Engine} {c : Candidate} :
    c ∈ engine.enumerate method ↔ ∃ m ∈ engine.mutators, c ∈ m.candidates method := by
  rw [enumerate_eq, List.mem_flatMap]

/-- A configured engine holds mutators of the catalog, in its order. -/
theorem sublist_of_ofConfig {config : Config} {engine : Engine}
    (configured : ofConfig config = .ok engine) : engine.mutators.Sublist Mutator.all := by
  obtain ⟨mutators, resolved, built⟩ := bind_eq_ok_iff.mp configured
  obtain ⟨selected, -, kept⟩ := bind_eq_ok_iff.mp resolved
  obtain rfl := pure_eq_ok_iff.mp built
  obtain rfl := pure_eq_ok_iff.mp kept
  exact List.filter_sublist

/-- The catalog is ordered by rank. -/
theorem ranks_ascending :
    Mutator.all.Pairwise fun m m' => Mutator.all.findIdx (·.id == m.id) <
      Mutator.all.findIdx (·.id == m'.id) := by decide

theorem enumerate_ordered {engine : Engine} (ordered : engine.mutators.Sublist Mutator.all)
    (method : Method) : (engine.enumerate method).Pairwise Candidate.Before := by
  rw [enumerate_eq, List.pairwise_flatMap]
  constructor
  · intro m _
    apply (m.candidates_ascending method).imp_of_mem
    intro c d hc hd before
    refine .inr ⟨?_, before⟩
    rw [Candidate.rank, Candidate.rank, (Mutator.mem_candidates.mp hc).2.1,
      (Mutator.mem_candidates.mp hd).2.1]
  · apply (ranks_ascending.sublist ordered).imp
    intro m m' before c hc d hd
    refine .inl ?_
    rw [Candidate.rank, Candidate.rank, (Mutator.mem_candidates.mp hc).2.1,
      (Mutator.mem_candidates.mp hd).2.1]
    exact before

/-- Enumeration lists exactly the elements that each mutator applies to, by mutator and then by
index. A configured engine lists them in strictly ascending order. -/
theorem enumerate_eq_flatMap (method : Method) :
    (∀ engine : Engine, engine.enumerate method = engine.mutators.flatMap fun m =>
      method.body.zipIdx.filterMap fun p =>
        (m.description? p.1).map fun d => ⟨method.location, p.2, m.id, d⟩) ∧
    ∀ config engine, ofConfig config = .ok engine →
      (engine.enumerate method).Pairwise Candidate.Before ∧ (engine.enumerate method).Nodup := by
  refine ⟨fun engine => enumerate_eq engine method, ?_⟩
  intro config engine configured
  have ordered := enumerate_ordered (sublist_of_ofConfig configured) method
  exact ⟨ordered, ordered.imp Candidate.Before.ne⟩

/-- Selections in any order, and twice, give the candidates in catalog order, each once. -/
theorem enumerate_selected :
    let method : Method := ⟨⟨⟨"Calc"⟩, ⟨"run", "(II)I"⟩⟩, [.label ⟨0⟩, .line 3,
      .code (.plain (.named .ladd)), .code (.jump (.named .ifnull) ⟨0⟩),
      .code (.jump (.named .ifle) ⟨0⟩)]⟩
    let engine : Engine := ⟨[.operator .sub, .relation .eq, .relation .ne, .deletion .second], true⟩
    ofConfig ⟨["delete_second_operand", "ROR.not_equal", " EQUALS_MUTATOR", "aor.subtraction",
      "ror.equals"], true⟩ = .ok engine ∧
    engine.enumerate method = [
      ⟨method.location, 2, "aor.subtraction", "AOR: Changed + to -"⟩,
      ⟨method.location, 4, "ror.equals", "ROR: Changed <= to =="⟩,
      ⟨method.location, 3, "ror.not_equal", "ROR: Changed == to !="⟩,
      ⟨method.location, 4, "ror.not_equal", "ROR: Changed <= to !="⟩,
      ⟨method.location, 2, "aod.delete_second_operand",
        "AOD: Removed the second operand from an arithmetic expression"⟩] ∧
    (engine.enumerate method).Nodup := by
  intro method engine
  have configured : ofConfig ⟨["delete_second_operand", "ROR.not_equal", " EQUALS_MUTATOR",
      "aor.subtraction", "ror.equals"], true⟩ = .ok engine := by decide +kernel
  exact ⟨configured, by decide, ((enumerate_eq_flatMap method).2 _ engine configured).2⟩

end Engine

end BytecodeMutation
