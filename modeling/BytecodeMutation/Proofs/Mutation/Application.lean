import BytecodeMutation.Proofs.Mutation.Enumeration
import BytecodeMutation.Proofs.Traversal

/-!
Carrying out candidates. What an engine lists, what it carries out and what it reports on are the
same: a listed candidate replaces the element at its index, and any other value changes nothing and
has no report.
-/
namespace BytecodeMutation

/-- No edit puts back what it takes away. -/
theorem Offers.replacement_ne {m : Mutator} {e : Element} {x : Edit} (h : Offers m e x) :
    x.replacement ≠ [e] := by
  intro same
  cases h with
  | operator was other becomes =>
    cases same
    have kept := was.symm.trans becomes
    simp only [Option.some.injEq] at kept
    exact other (congrArg Arithmetic.operator kept)
  | relation was other becomes =>
    cases same
    have kept := was.symm.trans becomes
    simp only [Option.some.injEq] at kept
    exact other (congrArg Comparison.relation kept)
  | firstSingle | firstDouble => cases same
  | secondSingle was | secondDouble was =>
    cases same
    cases was

namespace Engine

variable {engine : Engine} {method : Method} {c : Candidate}

theorem mutatorFor?_eq_some_iff {m : Mutator} :
    engine.mutatorFor? method c = some m ↔
      c.location = method.location ∧ m ∈ engine.mutators ∧ m.id = c.mutator := by
  unfold mutatorFor?
  split
  · next here =>
    rw [find?_eq_some_iff_of_unique, beq_iff_eq]
    · exact (and_iff_right here).symm
    · intro _ named m' _ named'
      exact Mutator.id_injective ((eq_of_beq named').trans (eq_of_beq named).symm)
  · next elsewhere => simp [elsewhere]

theorem exists_mutator (listed : c ∈ engine.enumerate method) :
    ∃ m ∈ engine.mutators, m.id = c.mutator ∧ engine.mutatorFor? method c = some m ∧
      c ∈ m.candidates method := by
  obtain ⟨m, member, found⟩ := mem_enumerate.mp listed
  obtain ⟨here, named, -⟩ := Mutator.mem_candidates.mp found
  exact ⟨m, member, named.symm, mutatorFor?_eq_some_iff.mpr ⟨here, member, named.symm⟩, found⟩

theorem not_mem_candidates {m : Mutator} (unlisted : c ∉ engine.enumerate method)
    (responsible : engine.mutatorFor? method c = some m) : c ∉ m.candidates method := by
  intro found
  exact unlisted (mem_enumerate.mpr ⟨m, (mutatorFor?_eq_some_iff.mp responsible).2.1, found⟩)

/-- What is not listed changes nothing. -/
theorem apply_of_not_mem (unlisted : c ∉ engine.enumerate method) :
    engine.apply method c = method.body := by
  unfold apply
  split
  · rfl
  · next m responsible => exact pass_of_not_mem (not_mem_candidates unlisted responsible)

theorem apply_of_mem (listed : c ∈ engine.enumerate method) :
    ∃ m ∈ engine.mutators, m.id = c.mutator ∧ ∃ e x, method.body[c.index]? = some e ∧
      Offers m e x ∧ x.description = c.description ∧
      engine.apply method c =
        method.body.take c.index ++ x.replacement ++ method.body.drop (c.index + 1) := by
  obtain ⟨m, member, named, responsible, found⟩ := exists_mutator listed
  obtain ⟨e, x, site, offers, described, carried⟩ := pass_of_mem found
  refine ⟨m, member, named, e, x, site, offers, described, ?_⟩
  rw [← carried]
  simp only [apply, responsible]

theorem details?_eq (responsible : engine.mutatorFor? method c = some m) :
    engine.details? method c = if c ∈ m.candidates method then
      some ⟨c, method.body.lineAt? c.index, m.name, m.group⟩ else none := by
  simp only [details?, responsible, found_pass, Bool.not_false, List.filter_true,
    List.contains_iff_mem]

theorem details?_of_mem (listed : c ∈ engine.enumerate method) :
    ∃ m ∈ engine.mutators, m.id = c.mutator ∧
      engine.details? method c = some ⟨c, method.body.lineAt? c.index, m.name, m.group⟩ := by
  obtain ⟨m, member, named, responsible, found⟩ := exists_mutator listed
  exact ⟨m, member, named, (details?_eq responsible).trans (if_pos found)⟩

theorem details?_of_not_mem (unlisted : c ∉ engine.enumerate method) :
    engine.details? method c = none := by
  cases responsible : engine.mutatorFor? method c with
  | none => simp only [details?, responsible]
  | some m => rw [details?_eq responsible, if_neg (not_mem_candidates unlisted responsible)]

theorem ne_of_replaced {body : Body} {i : Nat} {e : Element} {is : Body}
    (site : body[i]? = some e) (other : is ≠ [e]) :
    body.take i ++ is ++ body.drop (i + 1) ≠ body := by
  intro same
  obtain ⟨within, rfl⟩ := List.getElem?_eq_some_iff.mp site
  have parts : body.take i ++ [body[i]] ++ body.drop (i + 1) = body := by simp
  have equal := same.trans parts.symm
  rw [List.append_left_inj, List.append_right_inj] at equal
  exact other equal

/-- A listed candidate replaces the element at its index by what its mutator offers there, which is
something else, and is reported on. Any other value changes nothing and has no report. -/
theorem apply_and_details (engine : Engine) (method : Method) (c : Candidate) :
    (c ∈ engine.enumerate method →
      ∃ m ∈ engine.mutators, m.id = c.mutator ∧ ∃ e x, method.body[c.index]? = some e ∧
        Offers m e x ∧ x.description = c.description ∧
        engine.apply method c =
          method.body.take c.index ++ x.replacement ++ method.body.drop (c.index + 1) ∧
        engine.apply method c ≠ method.body ∧
        engine.details? method c =
          some ⟨c, method.body.lineAt? c.index, m.name, m.group⟩) ∧
    (c ∉ engine.enumerate method →
      engine.apply method c = method.body ∧ engine.details? method c = none) := by
  refine ⟨?_, fun unlisted => ⟨apply_of_not_mem unlisted, details?_of_not_mem unlisted⟩⟩
  intro listed
  obtain ⟨m, member, named, e, x, site, offers, described, carried⟩ := apply_of_mem listed
  obtain ⟨m', -, named', responsible, found⟩ := exists_mutator listed
  obtain rfl := Mutator.id_injective (named.trans named'.symm)
  refine ⟨m, member, named, e, x, site, offers, described, carried, ?_, ?_⟩
  · rw [carried]
    exact ne_of_replaced site offers.replacement_ne
  · rw [details?_eq responsible, if_pos found]

/-- Deleting the first operand of a long addition, and a forged description at the same place. -/
theorem apply_and_details_long :
    let method : Method := ⟨⟨⟨"Calc"⟩, ⟨"run", "(JJ)J"⟩⟩, [.line 7,
      .code (.plain (.named .ladd)), .label ⟨0⟩, .code (.jump (.named .goto) ⟨0⟩)]⟩
    let engine : Engine := ⟨[.relation .eq, .deletion .first, .deletion .first], false⟩
    let c : Candidate := ⟨method.location, 1, "aod.delete_first_operand",
      "AOD: Removed the first operand from an arithmetic expression"⟩
    let forged : Candidate := { c with description := "AOR: Changed + to -" }
    (c ∈ engine.enumerate method ∧
      engine.apply method c = [.line 7, .code (.plain (.named .dup2X2)),
        .code (.plain (.named .pop2)), .code (.plain (.named .pop2)), .label ⟨0⟩,
        .code (.jump (.named .goto) ⟨0⟩)] ∧
      engine.details? method c = some ⟨c, some 7, "DELETE_FIRST_OPERAND", .aod⟩) ∧
    forged ∉ engine.enumerate method ∧ engine.apply method forged = method.body := by
  intro method engine c forged
  have listed : c ∈ engine.enumerate method := by decide
  have unlisted : forged ∉ engine.enumerate method := by decide
  obtain ⟨m, member, named, -, -, -, -, -, -, -, report⟩ :=
    (apply_and_details engine method c).1 listed
  obtain rfl : m = .deletion .first := Mutator.id_injective named
  exact ⟨⟨listed, by decide, report⟩, unlisted,
    ((apply_and_details engine method forged).2 unlisted).1⟩

end Engine

end BytecodeMutation
