import Mathlib.Data.List.Nodup
import BytecodeMutation.Proofs.Mutation.Application
import BytecodeMutation.Proofs.Mutation.Enumeration

/-!
Different candidates have different mutants. A replacement never begins with the instruction that
it replaces, so two mutants already differ where the first of their candidates stands; and at one
place every mutator leaves something else.
-/
namespace BytecodeMutation

/-- The mutator that leaves these instructions in the place of one. -/
def Mutator.leaving? : Body → Option Mutator
  | [.code (.plain op)] =>
    match op.arithmetic? with
    | some a => some (operator a.operator)
    | none => some (deletion .second)
  | [.code (.jump op _)] => op.comparison?.map fun c => relation c.relation
  | _ => some (deletion .first)

namespace Offers

variable {m m' : Mutator} {e : Element} {x y : Edit}

/-- A replacement begins with something else than what it replaces. -/
theorem exists_head_ne (h : Offers m e x) : ∃ e' is, x.replacement = e' :: is ∧ e' ≠ e := by
  cases h with
  | operator was other becomes =>
    refine ⟨_, _, rfl, ?_⟩
    rintro ⟨⟩
    exact other (congrArg Arithmetic.operator (Option.some.inj (was.symm.trans becomes)))
  | relation was other becomes =>
    refine ⟨_, _, rfl, ?_⟩
    rintro ⟨⟩
    exact other (congrArg Comparison.relation (Option.some.inj (was.symm.trans becomes)))
  | firstSingle was | firstDouble was | secondSingle was | secondDouble was =>
    refine ⟨_, _, rfl, ?_⟩
    rintro ⟨⟩
    cases was

theorem leaving?_eq (h : Offers m e x) : Mutator.leaving? x.replacement = some m := by
  cases h with
  | operator was other becomes => simp only [Mutator.leaving?, becomes]
  | relation was other becomes => simp only [Mutator.leaving?, becomes, Option.map_some]
  | firstSingle | firstDouble | secondSingle | secondDouble => rfl

/-- At one place no two edits leave the same. -/
theorem eq_of_replacement (h : Offers m e x) (h' : Offers m' e y)
    (same : x.replacement = y.replacement) : m = m' ∧ x = y := by
  obtain rfl : m = m' := Option.some.inj (by rw [← h.leaving?_eq, same, h'.leaving?_eq])
  have once := (Mutator.edit?_eq_some_iff.mpr h).symm.trans (Mutator.edit?_eq_some_iff.mpr h')
  exact ⟨rfl, Option.some.inj once⟩

end Offers

namespace Engine

section
variable {body is is' : Body} {i j : Nat} {e e' : Element}

theorem getElem?_replaced (site : body[i]? = some e) :
    (body.take i ++ (e' :: is) ++ body.drop (i + 1))[i]? = some e' := by
  have within := (List.getElem?_eq_some_iff.mp site).1
  have length : (body.take i).length = i := List.length_take_of_le (Nat.le_of_lt within)
  rw [List.append_assoc, List.getElem?_append_right (by omega), length, Nat.sub_self]
  rfl

theorem getElem?_replaced_of_lt (before : i < j) (site : body[j]? = some e) :
    (body.take j ++ is ++ body.drop (j + 1))[i]? = body[i]? := by
  have within := (List.getElem?_eq_some_iff.mp site).1
  have length : (body.take j).length = j := List.length_take_of_le (Nat.le_of_lt within)
  rw [List.append_assoc, List.getElem?_append_left (by omega), List.getElem?_take_of_lt before]

/-- Where the earlier of two replacements begins, the other one has changed nothing. -/
theorem le_of_replaced {d : Element} (site : body[i]? = some e) (site' : body[j]? = some e')
    (other : d ≠ e) (same : body.take i ++ (d :: is) ++ body.drop (i + 1) =
      body.take j ++ is' ++ body.drop (j + 1)) : j ≤ i := by
  apply Nat.le_of_not_lt
  intro before
  have here := congrArg (·[i]?) same
  simp only [getElem?_replaced site, getElem?_replaced_of_lt before site', site] at here
  exact other (Option.some.inj here)

end

variable {engine : Engine} {method : Method} {c d : Candidate}

theorem apply_ne (listed : c ∈ engine.enumerate method) : engine.apply method c ≠ method.body := by
  obtain ⟨m, -, -, e, x, site, offers, -, carried⟩ := apply_of_mem listed
  rw [carried]
  exact ne_of_replaced site offers.replacement_ne

theorem location_eq (listed : c ∈ engine.enumerate method) : c.location = method.location := by
  obtain ⟨m, -, found⟩ := mem_enumerate.mp listed
  exact (Mutator.mem_candidates.mp found).1

/-- Two candidates with the same mutant are one. -/
theorem eq_of_apply_eq (hc : c ∈ engine.enumerate method) (hd : d ∈ engine.enumerate method)
    (same : engine.apply method c = engine.apply method d) : c = d := by
  obtain ⟨m, -, named, e, x, site, offers, described, carried⟩ := apply_of_mem hc
  obtain ⟨m', -, named', e', x', site', offers', described', carried'⟩ := apply_of_mem hd
  rw [carried, carried'] at same
  obtain ⟨i, is, starts, other⟩ := offers.exists_head_ne
  obtain ⟨i', is', starts', other'⟩ := offers'.exists_head_ne
  have place : c.index = d.index := by
    apply Nat.le_antisymm
    · rw [starts'] at same
      exact le_of_replaced site' site other' same.symm
    · rw [starts] at same
      exact le_of_replaced site site' other same
  rw [place] at site same
  obtain rfl := Option.some.inj (site.symm.trans site')
  rw [List.append_left_inj, List.append_right_inj] at same
  obtain ⟨rfl, rfl⟩ := offers.eq_of_replacement offers' same
  have here : c.location = d.location := (location_eq hc).trans (location_eq hd).symm
  cases c
  cases d
  rw [Candidate.mk.injEq]
  exact ⟨here, place, named.symm.trans named', described.symm.trans described'⟩

/-- The mutants are what the candidates are carried out to, in order. Different candidates have
different ones, and none is the method itself. So the mutants of a configured engine are all
different. -/
theorem mutants_distinct (engine : Engine) (method : Method) :
    (engine.mutants method =
      (engine.enumerate method).map fun c => (c, engine.apply method c)) ∧
    (∀ c ∈ engine.enumerate method, ∀ d ∈ engine.enumerate method,
      engine.apply method c = engine.apply method d → c = d) ∧
    (∀ c ∈ engine.enumerate method, engine.apply method c ≠ method.body) ∧
    ∀ config, ofConfig config = .ok engine →
      ((engine.mutants method).map (·.2)).Nodup ∧
        method.body ∉ (engine.mutants method).map (·.2) := by
  have streams : (engine.mutants method).map (·.2) =
      (engine.enumerate method).map (engine.apply method) := by
    rw [mutants, List.map_map]
    rfl
  refine ⟨rfl, fun c hc d hd => eq_of_apply_eq hc hd, fun c hc => apply_ne hc, ?_⟩
  intro config configured
  have ordered := enumerate_ordered (sublist_of_ofConfig configured) method
  rw [streams]
  constructor
  · apply List.Nodup.map_on fun c hc d hd => eq_of_apply_eq hc hd
    exact ordered.imp Candidate.Before.ne
  · intro original
    obtain ⟨c, listed, same⟩ := List.mem_map.mp original
    exact apply_ne listed same

/-- Two additions in a row: deleting an operand of the one or the other moves the same opcodes. -/
theorem mutants_distinct_row :
    let method : Method := ⟨⟨⟨"Calc"⟩, ⟨"run", "(III)I"⟩⟩,
      [.code (.plain (.named .iadd)), .code (.plain (.named .iadd))]⟩
    let engine : Engine := ⟨[.deletion .first, .deletion .second], true⟩
    let c : Candidate := ⟨method.location, 0, "aod.delete_first_operand",
      "AOD: Removed the first operand from an arithmetic expression"⟩
    let d : Candidate := { c with index := 1 }
    ofConfig ⟨["aod"], true⟩ = .ok engine ∧ c ∈ engine.enumerate method ∧
      d ∈ engine.enumerate method ∧ engine.apply method c ≠ engine.apply method d ∧
      engine.apply method c ≠ method.body ∧
      (engine.mutants method).map (·.1) = engine.enumerate method ∧
      (engine.mutants method).length = 4 ∧ ((engine.mutants method).map (·.2)).Nodup := by
  intro method engine c d
  obtain ⟨paired, injective, fresh, configured⟩ := mutants_distinct engine method
  have resolved : ofConfig ⟨["aod"], true⟩ = .ok engine := by decide +kernel
  have hc : c ∈ engine.enumerate method := by decide
  have hd : d ∈ engine.enumerate method := by decide
  have different : c ≠ d := by decide
  refine ⟨resolved, hc, hd, fun same => different (injective c hc d hd same), fresh c hc, ?_, ?_,
    (configured _ resolved).1⟩
  · rw [paired, List.map_map]
    exact List.map_id _
  · rw [paired, List.length_map]
    rfl

end Engine

end BytecodeMutation
