import Mathlib.Data.List.Basic
import Mathlib.Data.List.Nodup
import BytecodeMutation.Proofs.Mutation.Offer

/-!
One mutator's pass over a method. It registers a candidate for each element that the mutator
applies to, with or without a target, and changes the element that the target names, if there is
one.
-/
namespace BytecodeMutation

namespace Mutator

theorem mem_all (m : Mutator) : m ∈ all := by
  cases m with
  | operator o => cases o <;> decide
  | relation r => cases r <;> decide
  | deletion operand => cases operand <;> decide

theorem nodup_ids : (all.map id).Nodup := by decide

theorem id_injective {m m' : Mutator} (h : m.id = m'.id) : m = m' :=
  List.inj_on_of_nodup_map nodup_ids (mem_all m) (mem_all m') h

/-- The candidates of one mutator in a method, by index. -/
def candidates (m : Mutator) (method : Method) : List Candidate :=
  method.body.zipIdx.filterMap fun p =>
    (m.description? p.1).map fun d => ⟨method.location, p.2, m.id, d⟩

theorem mem_candidates {m : Mutator} {method : Method} {c : Candidate} :
    c ∈ m.candidates method ↔ c.location = method.location ∧ c.mutator = m.id ∧
      ∃ e, method.body[c.index]? = some e ∧ m.description? e = some c.description := by
  obtain ⟨location, index, mutator, description⟩ := c
  simp only [candidates, List.mem_filterMap, Prod.exists, List.mem_zipIdx_iff_getElem?,
    Option.map_eq_some_iff, Candidate.mk.injEq]
  constructor
  · rintro ⟨e, i, here, d, applies, rfl, rfl, rfl, rfl⟩
    exact ⟨rfl, rfl, e, here, applies⟩
  · rintro ⟨rfl, rfl, e, here, applies⟩
    exact ⟨e, index, here, description, applies, rfl, rfl, rfl, rfl⟩

theorem candidates_ascending (m : Mutator) (method : Method) :
    (m.candidates method).Pairwise (·.index < ·.index) := by
  have indices : (method.body.zipIdx.map (·.2)).Pairwise (· < ·) := by
    rw [List.zipIdx_map_snd]
    exact List.pairwise_lt_range'
  rw [List.pairwise_map] at indices
  rw [candidates, List.pairwise_filterMap]
  apply indices.imp
  intro p q before c hc d hd
  obtain ⟨_, -, rfl⟩ := Option.map_eq_some_iff.mp hc
  obtain ⟨_, -, rfl⟩ := Option.map_eq_some_iff.mp hd
  exact before

section
variable {m : Mutator} {scope : Scope} {i : Nat} {e : Element}

theorem visit_of_none (h : m.edit? e = none) : m.stage.visit scope i e = ⟨[e], []⟩ := by
  unfold edit? at h
  simp only [stage, Stage.ofEdit, h]

theorem visit_of_edit {x : Edit} (h : m.edit? e = some x) : m.stage.visit scope i e =
    ⟨if scope.selects ⟨scope.location, i, m.id, x.description⟩ then x.replacement else [e],
      [⟨m.id, x.description⟩]⟩ := by
  unfold edit? at h
  simp only [stage, Stage.ofEdit, h, Scope.candidate]
  rfl

end

end Mutator

section
variable {α : Type} {f : α × Nat → List α} {xs : List α}

theorem flatMap_zipIdx_eq_self {n : Nat} (h : ∀ p ∈ xs.zipIdx n, f p = [p.1]) :
    (xs.zipIdx n).flatMap f = xs := by
  rw [List.flatMap_congr h, ← List.map_eq_flatMap, List.zipIdx_map_fst]

/-- A pass that changes the element at one index only. -/
theorem flatMap_zipIdx_eq_replace {i : Nat} {a : α} (here : xs[i]? = some a)
    (others : ∀ p ∈ xs.zipIdx, p.2 ≠ i → f p = [p.1]) :
    xs.zipIdx.flatMap f = xs.take i ++ f (a, i) ++ xs.drop (i + 1) := by
  obtain ⟨within, rfl⟩ := List.getElem?_eq_some_iff.mp here
  have length : (xs.take i).length = i := List.length_take_of_le (Nat.le_of_lt within)
  have parts : xs.zipIdx =
      (xs.take i).zipIdx ++ (xs[i], i) :: (xs.drop (i + 1)).zipIdx (i + 1) := by
    conv => lhs; rw [← List.take_append_drop i xs, List.drop_eq_getElem_cons within]
    rw [List.zipIdx_append, List.zipIdx_cons, length, Nat.zero_add]
  rw [parts] at others
  rw [parts, List.flatMap_append, List.flatMap_cons, ← List.append_assoc]
  congr 2
  · apply flatMap_zipIdx_eq_self
    intro p hp
    have before := (List.mem_zipIdx hp).2.1
    exact others p (List.mem_append_left _ hp) (by omega)
  · apply flatMap_zipIdx_eq_self
    intro p hp
    have after := (List.mem_zipIdx hp).1
    exact others p (List.mem_append_right _ (List.mem_cons_of_mem _ hp)) (by omega)

end

namespace Engine

variable {m : Mutator} {method : Method} {c : Candidate}

/-- A pass registers the candidates of its mutator outside the skipped indices, with or without a
target. -/
theorem found_pass (m : Mutator) (skip : Nat → Bool) (method : Method)
    (target : Option Candidate) :
    (pass m skip method target).2.found =
      (m.candidates method).filter fun c => !skip c.index := by
  have registered : (pass m skip method target).2.found =
      method.body.zipIdx.flatMap (m.stage.find skip ⟨method.location, target⟩) := by
    rw [pass, Pipeline.run, Pipeline.runFrom_cons]
    rfl
  rw [registered, Mutator.candidates, List.filterMap_eq_flatMap_toList, List.filter_flatMap]
  apply List.flatMap_congr
  intro p _
  rw [← m.map_description_edit?]
  unfold Stage.find
  cases offered : m.edit? p.1 with
  | none => simp [Mutator.visit_of_none offered]
  | some x =>
    cases skipped : skip p.2 <;> simp [Mutator.visit_of_edit offered, Scope.candidate, skipped]

theorem body_pass (m : Mutator) (method : Method) (target : Option Candidate) :
    (pass m (fun _ => false) method target).1 = method.body.zipIdx.flatMap fun p =>
      (m.stage.visit ⟨method.location, target⟩ p.2 p.1).emitted := by
  simp only [pass, Pipeline.run, Pipeline.runFrom, Session.start, List.map_flatMap, Stage.emit,
    Bool.false_eq_true, if_false, List.map_map]
  exact List.flatMap_congr fun p _ => List.map_id _

/-- Away from the target a pass changes nothing. -/
theorem emitted_of_ne {p : Element × Nat}
    (other : ∀ x, m.edit? p.1 = some x → ⟨method.location, p.2, m.id, x.description⟩ ≠ c) :
    (m.stage.visit ⟨method.location, some c⟩ p.2 p.1).emitted = [p.1] := by
  cases offered : m.edit? p.1 with
  | none => rw [Mutator.visit_of_none offered]
  | some x =>
    have unselected : (c == (⟨method.location, p.2, m.id, x.description⟩ : Candidate)) = false :=
      beq_eq_false_iff_ne.mpr (other x offered).symm
    simp only [Mutator.visit_of_edit offered, Scope.selects, unselected, Bool.false_eq_true,
      if_false]

theorem pass_of_not_mem (absent : c ∉ m.candidates method) :
    (pass m (fun _ => false) method (some c)).1 = method.body := by
  rw [body_pass]
  apply flatMap_zipIdx_eq_self
  rintro ⟨e, i⟩ visited
  apply emitted_of_ne
  rintro x offered rfl
  refine absent (Mutator.mem_candidates.mpr ⟨rfl, rfl, e, ?_, ?_⟩)
  · exact List.mem_zipIdx_iff_getElem?.mp visited
  · rw [← m.map_description_edit?, offered]
    rfl

/-- A target that is a candidate is carried out at its index, and nowhere else. -/
theorem pass_of_mem (listed : c ∈ m.candidates method) :
    ∃ e x, method.body[c.index]? = some e ∧ Offers m e x ∧ x.description = c.description ∧
      (pass m (fun _ => false) method (some c)).1 =
        method.body.take c.index ++ x.replacement ++ method.body.drop (c.index + 1) := by
  obtain ⟨here, named, e, site, described⟩ := Mutator.mem_candidates.mp listed
  obtain ⟨x, offers, same⟩ := Mutator.description?_eq_some_iff.mp described
  refine ⟨e, x, site, offers, same, ?_⟩
  have emitted : (m.stage.visit ⟨method.location, some c⟩ c.index e).emitted = x.replacement := by
    have selected : c = ⟨method.location, c.index, m.id, x.description⟩ := by
      rw [← here, ← named, same]
    rw [Mutator.visit_of_edit (Mutator.edit?_eq_some_iff.mpr offers)]
    exact if_pos (beq_iff_eq.mpr selected)
  rw [body_pass, flatMap_zipIdx_eq_replace site, emitted]
  intro p _ elsewhere
  apply emitted_of_ne
  rintro x - rfl
  exact elsewhere rfl

end Engine

end BytecodeMutation
