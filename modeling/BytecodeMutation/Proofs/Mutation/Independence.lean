import BytecodeMutation.Proofs.Body.Splice
import BytecodeMutation.Proofs.Mutation.Distinct
import BytecodeMutation.Proofs.Mutation.Neutrality

/-!
Mutations at different sites. Carrying one out leaves the others as they are, but that the ones
behind it move by as many indices as its replacement is longer. So two of them may be carried out in
either order.
-/
namespace BytecodeMutation

/-- A candidate that stands `k` indices further on. -/
def Candidate.moved (k : Nat) (c : Candidate) : Candidate := { c with index := c.index + k }

/-- The method with a candidate carried out. -/
def Engine.mutant (engine : Engine) (method : Method) (c : Candidate) : Method :=
  { method with body := engine.apply method c }

theorem Offers.exists_length {m : Mutator} {e : Element} {x : Edit} (h : Offers m e x) :
    ∃ k ≤ 2, x.replacement.length = 1 + k := by
  cases h with
  | operator | relation | secondSingle | secondDouble => exact ⟨0, by omega, rfl⟩
  | firstSingle => exact ⟨1, by omega, rfl⟩
  | firstDouble => exact ⟨2, by omega, rfl⟩

/-- What takes the place of an instruction whose operand is deleted. -/
theorem Offers.exists_emitted {o : Operand} {e : Element} {x : Edit}
    (h : Offers (.deletion o) e x) : ∃ width, x.replacement = o.emitted width := by
  cases h with
  | firstSingle | secondSingle => exact ⟨.single, rfl⟩
  | firstDouble | secondDouble => exact ⟨.double, rfl⟩

namespace Mutator

/-- The candidates of one mutator in elements with indices from `n` on. -/
def candidatesFrom (m : Mutator) (location : Location) (n : Nat) (body : Body) : List Candidate :=
  (body.zipIdx n).filterMap fun p =>
    (m.description? p.1).map fun d => ⟨location, p.2, m.id, d⟩

variable {m : Mutator} {location : Location}

theorem candidatesFrom_append (n : Nat) (xs ys : Body) :
    m.candidatesFrom location n (xs ++ ys) =
      m.candidatesFrom location n xs ++ m.candidatesFrom location (n + xs.length) ys := by
  rw [candidatesFrom, List.zipIdx_append, List.filterMap_append]
  rfl

theorem candidatesFrom_add (n k : Nat) (body : Body) :
    m.candidatesFrom location (n + k) body =
      (m.candidatesFrom location n body).map (Candidate.moved k) := by
  rw [candidatesFrom, candidatesFrom, Nat.add_comm n k, ← List.map_snd_add_zipIdx_eq_zipIdx,
    List.filterMap_map, List.map_filterMap]
  apply List.filterMap_congr
  intro p _
  rw [Option.map_map]
  rfl

theorem index_bounds {n : Nat} {body : Body} {c : Candidate}
    (h : c ∈ m.candidatesFrom location n body) : n ≤ c.index ∧ c.index < n + body.length := by
  obtain ⟨p, visited, made⟩ := List.mem_filterMap.mp h
  obtain ⟨d, -, rfl⟩ := Option.map_eq_some_iff.mp made
  exact ⟨List.le_snd_of_mem_zipIdx visited, List.snd_lt_add_of_mem_zipIdx visited⟩

theorem candidates_append (before is after : Body) :
    m.candidates ⟨location, before ++ is ++ after⟩ =
      m.candidatesFrom location 0 before ++ m.candidatesFrom location before.length is ++
        m.candidatesFrom location (before.length + is.length) after := by
  change m.candidatesFrom location 0 _ = _
  rw [candidatesFrom_append, candidatesFrom_append, Nat.zero_add, Nat.zero_add, List.length_append]

/-- The candidates outside of a block are those outside of the element in whose place it stands. -/
theorem candidates_spliced {before after is : Body} {e : Element} {k : Nat}
    (longer : is.length = 1 + k) :
    (m.candidates ⟨location, before ++ is ++ after⟩).filter
        (fun c => c.index < before.length ∨ before.length + k < c.index) =
      ((m.candidates ⟨location, before ++ [e] ++ after⟩).filter (·.index ≠ before.length)).map
        fun c => if before.length < c.index then c.moved k else c := by
  let left := m.candidatesFrom location 0 before
  let right := m.candidatesFrom location (before.length + 1) after
  have early (c : Candidate) (h : c ∈ left) : c.index < before.length := by
    have := (index_bounds h).2
    omega
  have late (c : Candidate) (h : c ∈ right) : before.length < c.index := (index_bounds h).1
  have moved : m.candidatesFrom location (before.length + is.length) after =
      right.map (Candidate.moved k) := by
    rw [longer, ← Nat.add_assoc, candidatesFrom_add]
  have outside : (m.candidates ⟨location, before ++ is ++ after⟩).filter
      (fun c => c.index < before.length ∨ before.length + k < c.index) =
        left ++ right.map (Candidate.moved k) := by
    rw [candidates_append, moved]
    apply filter_around
    · intro c h
      exact decide_eq_true (.inl (early c h))
    · intro c h
      have := index_bounds h
      simp only [decide_eq_true_eq]
      omega
    · intro c h
      obtain ⟨d, hd, rfl⟩ := List.mem_map.mp h
      exact decide_eq_true (.inr (Nat.add_lt_add_right (late d hd) k))
  have others : (m.candidates ⟨location, before ++ [e] ++ after⟩).filter
      (·.index ≠ before.length) = left ++ right := by
    rw [candidates_append]
    apply filter_around
    · intro c h
      exact decide_eq_true (Nat.ne_of_lt (early c h))
    · intro c h
      have := index_bounds h
      simp only [List.length_singleton, decide_eq_true_eq] at this ⊢
      omega
    · intro c h
      exact decide_eq_true (Nat.ne_of_gt (late c h))
  rw [outside, others, List.map_append]
  congr 1
  · conv => lhs; rw [← List.map_id left]
    apply List.map_congr_left
    intro c h
    exact (if_neg (Nat.not_lt_of_lt (early c h))).symm
  · apply List.map_congr_left
    intro c h
    exact (if_pos (late c h)).symm

end Mutator

/-- What deletes an operand only moves words, and no mutator applies to that. -/
theorem Operand.description?_emitted {o : Operand} {width : Width} {e : Element}
    (h : e ∈ o.emitted width) (m : Mutator) : m.description? e = none := by
  obtain ⟨i, emitted, rfl⟩ := List.mem_map.mp h
  have moves : (Opcode.named i).arithmetic? = none := by
    cases o <;> cases width <;>
      simp only [replacement, List.mem_cons, List.not_mem_nil, or_false] at emitted
    all_goals rcases emitted with rfl | rfl | rfl <;> rfl
  cases m <;> simp [Mutator.description?, moves]

namespace Engine

variable {engine : Engine} {location : Location} {before after : Body} {e : Element} {m : Mutator}
  {x : Edit} {method : Method} {c : Candidate}

/-- A candidate with the site at which it was found. -/
theorem exists_site (listed : c ∈ engine.enumerate method) :
    ∃ m ∈ engine.mutators, ∃ before e after x, method.body = before ++ e :: after ∧
      Offers m e x ∧ c = ⟨method.location, before.length, m.id, x.description⟩ := by
  obtain ⟨m, member, named, e, x, site, offers, described, -⟩ := apply_of_mem listed
  obtain ⟨before, after, parts, place⟩ := exists_parts site
  refine ⟨m, member, before, e, after, x, parts, offers, ?_⟩
  rw [place, named, described, ← location_eq listed]

theorem mem_enumerate_of_offers (member : m ∈ engine.mutators) (offers : Offers m e x) :
    (⟨location, before.length, m.id, x.description⟩ : Candidate) ∈
      engine.enumerate ⟨location, before ++ e :: after⟩ := by
  refine mem_enumerate.mpr ⟨m, member, Mutator.mem_candidates.mpr ⟨rfl, rfl, e, ?_, ?_⟩⟩
  · exact getElem?_length_add before (e :: after) 0
  · exact Mutator.description?_eq_some_iff.mpr ⟨x, offers, rfl⟩

theorem apply_of_offers (member : m ∈ engine.mutators) (offers : Offers m e x) :
    engine.apply ⟨location, before ++ e :: after⟩
        ⟨location, before.length, m.id, x.description⟩ =
      before ++ x.replacement ++ after := by
  have listed : (⟨location, before.length, m.id, x.description⟩ : Candidate) ∈
      engine.enumerate ⟨location, before ++ e :: after⟩ := mem_enumerate_of_offers member offers
  obtain ⟨m', -, named, e', x', site, offers', -, carried⟩ := apply_of_mem listed
  obtain rfl := Mutator.id_injective named
  cases (getElem?_length_add before (e :: after) 0).symm.trans site
  cases (Mutator.edit?_eq_some_iff.mpr offers).symm.trans (Mutator.edit?_eq_some_iff.mpr offers')
  rw [carried]
  exact splice_parts before after x.replacement e

theorem mutant_of_offers (member : m ∈ engine.mutators) (offers : Offers m e x) :
    engine.mutant ⟨location, before ++ e :: after⟩
        ⟨location, before.length, m.id, x.description⟩ =
      ⟨location, before ++ x.replacement ++ after⟩ := by
  rw [mutant, apply_of_offers member offers]

/-- What is offered at two sites can be carried out at the one and then at the other. -/
theorem apply_comm {between : Body} {m' : Mutator} {e' : Element} {y : Edit} {k : Nat}
    (member : m ∈ engine.mutators) (offers : Offers m e x) (member' : m' ∈ engine.mutators)
    (offers' : Offers m' e' y) (longer : x.replacement.length = 1 + k) :
    let method : Method := ⟨location, before ++ e :: (between ++ e' :: after)⟩
    let c : Candidate := ⟨location, before.length, m.id, x.description⟩
    let d : Candidate := ⟨location, (before ++ e :: between).length, m'.id, y.description⟩
    c ∈ engine.enumerate (engine.mutant method d) ∧
      d.moved k ∈ engine.enumerate (engine.mutant method c) ∧
      engine.apply (engine.mutant method c) (d.moved k) =
        engine.apply (engine.mutant method d) c := by
  intro method c d
  have regroup : method = ⟨location, (before ++ e :: between) ++ e' :: after⟩ := by
    simp only [method, List.append_assoc, List.cons_append]
  -- the two methods with one mutation each, cut at the site that is left in them
  have first : engine.mutant method c =
      ⟨location, (before ++ x.replacement ++ between) ++ e' :: after⟩ := by
    rw [mutant_of_offers member offers, ← List.append_assoc]
  have second : engine.mutant method d =
      ⟨location, before ++ e :: (between ++ y.replacement ++ after)⟩ := by
    rw [regroup, mutant_of_offers member' offers']
    simp only [List.append_assoc, List.cons_append]
  have place : d.moved k =
      ⟨location, (before ++ x.replacement ++ between).length, m'.id, y.description⟩ := by
    simp only [d, Candidate.moved, List.length_append, List.length_cons, longer, Candidate.mk.injEq,
      and_true, true_and]
    omega
  rw [first, second, place]
  refine ⟨mem_enumerate_of_offers member offers, mem_enumerate_of_offers member' offers', ?_⟩
  rw [apply_of_offers member offers, apply_of_offers member' offers']
  simp only [List.append_assoc]

/-- Carrying out a candidate leaves the candidates at all other indices, those behind it moved by as
many indices as the method becomes longer, in the same order. One of them and the first candidate
may be carried out in either order. What deletes an operand is no site itself. -/
theorem mutations_independent (listed : c ∈ engine.enumerate method) :
    ∃ k ≤ 2, (engine.apply method c).length = method.body.length + k ∧
      (∀ d ∈ engine.enumerate method, c.index < d.index →
        c ∈ engine.enumerate (engine.mutant method d) ∧
        d.moved k ∈ engine.enumerate (engine.mutant method c) ∧
        engine.apply (engine.mutant method c) (d.moved k) =
          engine.apply (engine.mutant method d) c) ∧
      ((engine.enumerate (engine.mutant method c)).filter fun d =>
          d.index < c.index ∨ c.index + k < d.index) =
        ((engine.enumerate method).filter (·.index ≠ c.index)).map (fun d =>
          if c.index < d.index then d.moved k else d) ∧
      ∀ operand, (Mutator.deletion operand).id = c.mutator →
        ∀ d ∈ engine.enumerate (engine.mutant method c),
          d.index < c.index ∨ c.index + k < d.index := by
  obtain ⟨location, body⟩ := method
  obtain ⟨m, member, before, e, after, x, rfl, offers, rfl⟩ := exists_site listed
  obtain ⟨k, small, longer⟩ := offers.exists_length
  refine ⟨k, small, ?_, ?_, ?_, ?_⟩
  · rw [apply_of_offers member offers]
    simp only [List.length_append, List.length_cons, longer]
    omega
  · intro d hd later
    obtain ⟨m', member', before', e', after', y, same, offers', rfl⟩ := exists_site hd
    obtain ⟨between, rfl, rfl⟩ := exists_between same later
    exact apply_comm member offers member' offers' longer
  · rw [mutant_of_offers member offers, enumerate_eq, enumerate_eq, List.filter_flatMap,
      List.filter_flatMap, List.map_flatMap]
    apply List.flatMap_congr
    intro m' _
    rw [m'.candidates_spliced (e := e) longer, ← List.append_cons]
  · intro operand named d hd
    obtain rfl := Mutator.id_injective named
    obtain ⟨width, emitted⟩ := offers.exists_emitted
    rw [mutant_of_offers member offers, mem_enumerate] at hd
    obtain ⟨m', -, found⟩ := hd
    obtain ⟨-, -, e', site, described⟩ := Mutator.mem_candidates.mp found
    apply Classical.byContradiction
    intro inside
    dsimp only at inside
    have left : e' ∈ operand.emitted width := by
      rw [← emitted]
      exact mem_of_getElem?_inner site (by omega) (by omega)
    rw [Operand.description?_emitted left] at described
    cases described

/-- Deleting an operand of a long subtraction moves a branch behind it by two indices. -/
theorem mutations_independent_long :
    let method : Method := ⟨⟨⟨"Calc"⟩, ⟨"run", "(JJ)J"⟩⟩, [.line 3,
      .code (.plain (.named .lsub)), .label ⟨0⟩, .code (.jump (.named .ifle) ⟨0⟩),
      .code (.plain (.named .lreturn))]⟩
    let engine : Engine := ⟨[.relation .ne, .operator .add, .deletion .first], true⟩
    let c : Candidate := ⟨method.location, 1, "aod.delete_first_operand",
      "AOD: Removed the first operand from an arithmetic expression"⟩
    let d : Candidate := ⟨method.location, 3, "ror.not_equal", "ROR: Changed <= to !="⟩
    c ∈ engine.enumerate method ∧ d ∈ engine.enumerate method ∧
      engine.enumerate (engine.mutant method c) = [{ d with index := 5 }] ∧
      engine.apply (engine.mutant method c) { d with index := 5 } =
        engine.apply (engine.mutant method d) c := by
  intro method engine c d
  have listed : c ∈ engine.enumerate method := by decide
  have other : d ∈ engine.enumerate method := by decide
  obtain ⟨k, -, longer, commute, kept, nothing⟩ := mutations_independent listed
  have length : (engine.apply method c).length = 7 := by decide
  obtain rfl : k = 2 := by
    rw [length] at longer
    exact (Nat.add_left_cancel longer).symm
  have all := List.filter_eq_self.mpr fun d hd => decide_eq_true (nothing .first rfl d hd)
  rw [all] at kept
  exact ⟨listed, other, kept.trans (by decide), (commute d other (by decide)).2.2⟩

end Engine

end BytecodeMutation
