import Mathlib.Data.List.Nodup
import BytecodeMutation.Proofs.Mutation.Independence

/-!
Substitutions that are taken back. Whatever operator or relation a mutator of the catalog takes
away, another one of the same group puts back, for operands of the same type or in the same family.
As different candidates have different mutants, nothing else in the mutant gives the method again.
-/
namespace BytecodeMutation

/-- A filter that only one element of a list without repetitions passes. -/
theorem filter_eq_singleton {α : Type} [DecidableEq α] {xs : List α} {p : α → Bool} {a : α}
    (distinct : xs.Nodup) (member : a ∈ xs) (only : ∀ x ∈ xs, p x ↔ x = a) :
    xs.filter p = [a] := by
  have alike : ∀ x ∈ xs, p x = (x == a) := by
    intro x hx
    rw [Bool.eq_iff_iff, only x hx, beq_iff_eq]
  rw [List.filter_congr alike, List.filter_beq, List.count_eq_one_of_mem distinct member]
  rfl

/-- A substitution leaves one element, for which the same group offers the one that was there. -/
theorem Offers.exists_reverse {m : Mutator} {e : Element} {x : Edit} (h : Offers m e x)
    (substitutes : m.group = .aor ∨ m.group = .ror) :
    ∃ e' m' y, x.replacement = [e'] ∧ Offers m' e' y ∧ y.replacement = [e] ∧
      m'.group = m.group := by
  cases h with
  | operator was other becomes =>
    exact ⟨_, _, _, rfl, .operator becomes other.symm was, rfl, rfl⟩
  | relation was other becomes =>
    exact ⟨_, _, _, rfl, .relation becomes other.symm was, rfl, rfl⟩
  | firstSingle | firstDouble | secondSingle | secondDouble =>
    rcases substitutes with group | group <;> cases group

namespace Engine

variable {method : Method} {c : Candidate} {m : Mutator}

theorem nodup_enumerate_full (method : Method) : (full.enumerate method).Nodup :=
  (enumerate_ordered (List.Sublist.refl _) method).imp Candidate.Before.ne

/-- Among the candidates of the mutant there is one that carries the mutant back, at the same index
and of the same group. -/
theorem exists_reverse (listed : c ∈ full.enumerate method) (named : m.id = c.mutator)
    (substitutes : m.group = .aor ∨ m.group = .ror) :
    ∃ d ∈ full.enumerate (full.mutant method c),
      full.apply (full.mutant method c) d = method.body ∧ d.index = c.index ∧
        ∃ m' : Mutator, m'.id = d.mutator ∧ m'.group = m.group := by
  obtain ⟨location, body⟩ := method
  obtain ⟨m₁, member, before, e, after, x, rfl, offers, rfl⟩ := exists_site listed
  obtain rfl := Mutator.id_injective named
  obtain ⟨e', m', y, left, offers', back, group⟩ := offers.exists_reverse substitutes
  -- the mutant, cut at the element that the substitution leaves
  have mutant : full.mutant ⟨location, before ++ e :: after⟩
      ⟨location, before.length, m.id, x.description⟩ = ⟨location, before ++ e' :: after⟩ := by
    rw [mutant_of_offers member offers, left, List.append_assoc, List.singleton_append]
  rw [mutant]
  refine ⟨⟨location, before.length, m'.id, y.description⟩,
    mem_enumerate_of_offers m'.mem_all offers', ?_, rfl, m', rfl, group⟩
  rw [apply_of_offers m'.mem_all offers', back, List.append_assoc, List.singleton_append]

/-- A substitution is taken back by exactly one candidate of its mutant, at the same index and of
the same group. -/
theorem substitution_reversible (listed : c ∈ full.enumerate method) (named : m.id = c.mutator)
    (substitutes : m.group = .aor ∨ m.group = .ror) :
    ∃ d, (full.enumerate (full.mutant method c)).filter
        (fun d => full.apply (full.mutant method c) d = method.body) = [d] ∧
      d.index = c.index ∧ ∃ m' : Mutator, m'.id = d.mutator ∧ m'.group = m.group := by
  obtain ⟨d, member, restores, place, group⟩ := exists_reverse listed named substitutes
  refine ⟨d, ?_, place, group⟩
  apply filter_eq_singleton (nodup_enumerate_full _) member
  intro d' member'
  rw [decide_eq_true_eq]
  constructor
  · intro restores'
    exact eq_of_apply_eq member' member (restores'.trans restores.symm)
  · rintro rfl
    exact restores

/-- A comparison with null that is turned around, before an addition that has candidates too. -/
theorem substitution_reversible_null :
    let method : Method := ⟨⟨⟨"Calc"⟩, ⟨"run", "(II)I"⟩⟩, [.line 3, .label ⟨0⟩,
      .code (.jump (.named .ifnull) ⟨0⟩), .code (.plain (.named .iadd))]⟩
    let c : Candidate := ⟨method.location, 2, "ror.not_equal", "ROR: Changed == to !="⟩
    let d : Candidate := ⟨method.location, 2, "ror.equals", "ROR: Changed != to =="⟩
    c ∈ full.enumerate method ∧ (full.enumerate (full.mutant method c)).length = 7 ∧
      (full.enumerate (full.mutant method c)).filter
        (fun d => full.apply (full.mutant method c) d = method.body) = [d] := by
  intro method c d
  have listed : c ∈ full.enumerate method := by decide
  have count : (full.enumerate (full.mutant method c)).length = 7 := by decide
  have found : d ∈ full.enumerate (full.mutant method c) := by decide
  have restores : full.apply (full.mutant method c) d = method.body := by decide
  have named : (Mutator.relation .ne).id = c.mutator := by decide
  obtain ⟨d', only, -⟩ := substitution_reversible listed named (.inr rfl)
  have same : d ∈ [d'] := only ▸ List.mem_filter.mpr ⟨found, decide_eq_true restores⟩
  obtain rfl := List.mem_singleton.mp same
  exact ⟨listed, count, only⟩

end Engine

end BytecodeMutation
