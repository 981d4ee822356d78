import BytecodeMutation.Proofs.Mutation.Enumeration
import BytecodeMutation.Proofs.Mutation.Naming

/-!
Selections. A configuration keeps the mutators of the catalog that one of its selections takes, in
the order of the catalog, so it matters which selections there are and not how they are written or
put in order. The engine that comes of it finds what the whole catalog finds, less the candidates of
the mutators that are left out.
-/
namespace BytecodeMutation

namespace Selection

/-- What a selection says: the text between its outer blanks. -/
def word (selection : String) : String := String.ofList (Text.trim selection.toList)

/-- The same in lower case. -/
def folded (selection : String) : List Char := Text.lower (word selection)

/-- Whether a selection takes a mutator: it says `ALL`, the group of the mutator, its name or its
identifier, in any case. -/
def takes (selection : String) (m : Mutator) : Bool :=
  Text.sameIgnoringCase (word selection) "ALL" ||
    Text.sameIgnoringCase m.group.name (word selection) ||
    (Text.sameIgnoringCase m.name (word selection) || Text.sameIgnoringCase m.id (word selection))

/-- Whether a selection says `ALL`, or any group, name or identifier. -/
def Known (selection : String) : Prop :=
  Text.sameIgnoringCase (word selection) "ALL" ∨
    (∃ g : Group, Text.sameIgnoringCase g.name (word selection)) ∨
    ∃ m : Mutator, m.Named (word selection)

variable {s t : String} {m : Mutator} {ms : List Mutator} {fault : UnknownMutator}

theorem takes_iff : takes s m ↔ Text.sameIgnoringCase (word s) "ALL" ∨
    Text.sameIgnoringCase m.group.name (word s) ∨ m.Named (word s) := by
  simp only [takes, Bool.or_eq_true, or_assoc, Mutator.Named]

theorem known_iff : Known s ↔ ∃ m, takes s m := by
  have member (g : Group) : ∃ m : Mutator, m.group = g := by
    cases g with
    | aor => exact ⟨.operator .add, rfl⟩
    | ror => exact ⟨.relation .eq, rfl⟩
    | aod => exact ⟨.deletion .first, rfl⟩
  constructor
  · rintro (everything | ⟨g, called⟩ | ⟨m, named⟩)
    · exact ⟨.operator .add, takes_iff.mpr (.inl everything)⟩
    · obtain ⟨m, rfl⟩ := member g
      exact ⟨m, takes_iff.mpr (.inr (.inl called))⟩
    · exact ⟨m, takes_iff.mpr (.inr (.inr named))⟩
  · rintro ⟨m, taken⟩
    rcases takes_iff.mp taken with everything | called | named
    · exact .inl everything
    · exact .inr (.inl ⟨m.group, called⟩)
    · exact .inr (.inr ⟨m, named⟩)

/-- Only what a selection says counts, and not its case. -/
theorem takes_congr (same : folded s = folded t) : takes s = takes t := by
  funext m
  rw [Bool.eq_iff_iff, takes_iff, takes_iff]
  simp only [Mutator.Named, Text.sameIgnoringCase_iff]
  rw [folded, folded] at same
  rw [same]

/-- No group is called like a mutator. -/
theorem group_not_spelled : ∀ m ∈ Mutator.all, ∀ m' ∈ Mutator.all,
    Text.lower m.group.name ∉ m'.spellings := by decide +kernel

theorem filter_all_eq : ∀ m ∈ Mutator.all, Mutator.all.filter (· == m) = [m] := by decide

/-- The mutators of a group that is called what a selection says. -/
def grouped (selection : String) : List Mutator :=
  Mutator.all.filter fun m => Text.sameIgnoringCase m.group.name (word selection)

theorem mem_grouped : m ∈ grouped s ↔ Text.sameIgnoringCase m.group.name (word s) := by
  rw [grouped, List.mem_filter]
  exact and_iff_right m.mem_all

theorem select_eq (s : String) : Mutator.select s =
    if Text.sameIgnoringCase (word s) "ALL" then .ok Mutator.all
    else if !(grouped s).isEmpty then .ok (grouped s)
    else (Mutator.ofName? (word s)).elim (.error ⟨word s⟩) fun m => .ok [m] := by
  unfold Mutator.select grouped word
  dsimp only
  cases Mutator.ofName? (String.ofList (Text.trim s.toList)) <;> rfl

/-- Everything, a group and a single mutator are tried in turn. No word stands for two of these, so
what is found first is all that the selection takes. -/
theorem select_of_known (known : Known s) :
    Mutator.select s = .ok (Mutator.all.filter (takes s)) := by
  rw [select_eq]
  by_cases everything : Text.sameIgnoringCase (word s) "ALL"
  · have all : Mutator.all.filter (takes s) = Mutator.all :=
      List.filter_eq_self.mpr fun m _ => takes_iff.mpr (.inl everything)
    rw [if_pos everything, all]
  rw [if_neg everything]
  cases empty : (grouped s).isEmpty with
  | false =>
    obtain ⟨m₀, called⟩ := List.isEmpty_eq_false_iff_exists_mem.mp empty
    rw [mem_grouped, Text.sameIgnoringCase_iff] at called
    have unnamed (m : Mutator) : ¬ m.Named (word s) := by
      rw [Mutator.named_iff, ← called]
      exact group_not_spelled m₀ m₀.mem_all m m.mem_all
    have kept : grouped s = Mutator.all.filter (takes s) := by
      apply List.filter_congr
      intro m _
      rw [Bool.eq_iff_iff, takes_iff]
      simp only [everything, unnamed, Bool.false_eq_true, false_or, or_false]
    rw [← kept]
    rfl
  | true =>
    have ungrouped (m : Mutator) : ¬ Text.sameIgnoringCase m.group.name (word s) := by
      rw [← mem_grouped, List.isEmpty_iff.mp empty]
      exact List.not_mem_nil
    obtain ⟨m, taken⟩ := known_iff.mp known
    have named : m.Named (word s) := by
      simpa only [takes_iff, everything, ungrouped, Bool.false_eq_true, false_or] using taken
    have kept : [m] = Mutator.all.filter (takes s) := by
      rw [← filter_all_eq m m.mem_all]
      apply List.filter_congr
      intro m' _
      rw [Bool.eq_iff_iff, takes_iff, beq_iff_eq]
      simp only [everything, ungrouped, Bool.false_eq_true, false_or]
      constructor
      · rintro rfl
        exact named
      · intro named'
        exact named'.unique named
    rw [Mutator.ofName?_eq_some_iff.mpr named, ← kept]
    rfl

theorem select_of_unknown (unknown : ¬ Known s) : Mutator.select s = .error ⟨word s⟩ := by
  rw [Known, not_or, not_or, not_exists, not_exists] at unknown
  obtain ⟨everything, ungrouped, unnamed⟩ := unknown
  have none : grouped s = [] := by
    apply List.eq_nil_iff_forall_not_mem.mpr
    intro m member
    exact ungrouped m.group (mem_grouped.mp member)
  have nameless : Mutator.ofName? (word s) = Option.none := by
    apply Option.eq_none_iff_forall_ne_some.mpr
    intro m found
    exact unnamed m (Mutator.ofName?_eq_some_iff.mp found)
  rw [select_eq, if_neg everything, none, nameless]
  rfl

theorem select_eq_ok_iff :
    Mutator.select s = .ok ms ↔ Known s ∧ ms = Mutator.all.filter (takes s) := by
  by_cases known : Known s
  · simp [select_of_known known, known, eq_comm]
  · simp [select_of_unknown known, known]

theorem select_eq_error_iff :
    Mutator.select s = .error fault ↔ ¬ Known s ∧ fault = ⟨word s⟩ := by
  by_cases known : Known s
  · simp [select_of_known known, known]
  · simp [select_of_unknown known, known, eq_comm]

end Selection

namespace Config

open Selection

variable {c c' : Config} {ms : List Mutator} {fault : UnknownMutator}

theorem resolve_eq_ok_iff : c.resolve = .ok ms ↔ (∀ s ∈ c.mutators, Known s) ∧
    ms = Mutator.all.filter fun m => c.mutators.any (takes · m) := by
  have step (s : String) (l : List Mutator) :
      Mutator.select s = .ok l ↔ Known s ∧ l = Mutator.all.filter (takes s) := select_eq_ok_iff
  have kept (m : Mutator) : ((c.mutators.map fun s => Mutator.all.filter (takes s)).any
      (·.contains m)) = c.mutators.any (takes · m) := by
    rw [List.any_map]
    apply List.any_congr rfl
    intro s
    rw [Bool.eq_iff_iff, Function.comp_apply, List.contains_iff_mem, List.mem_filter]
    exact and_iff_right m.mem_all
  rw [resolve, bind_eq_ok_iff]
  simp only [mapM_eq_ok_iff step, pure_eq_ok_iff]
  constructor
  · rintro ⟨selected, ⟨known, rfl⟩, rfl⟩
    exact ⟨known, by simp only [kept]⟩
  · rintro ⟨known, rfl⟩
    exact ⟨_, ⟨known, rfl⟩, by simp only [kept]⟩

theorem resolve_eq_error_iff : c.resolve = .error fault ↔ ∃ before s after,
    c.mutators = before ++ s :: after ∧ (∀ t ∈ before, Known t) ∧ ¬ Known s ∧
      fault = ⟨word s⟩ := by
  have fails : c.resolve = .error fault ↔ c.mutators.mapM Mutator.select = .error fault := by
    rw [resolve, bind_eq_error_iff]
    simp [pure_ne_error]
  have succeeds (s : String) : (∃ l, Mutator.select s = .ok l) ↔ Known s := by
    simp [select_eq_ok_iff]
  rw [fails, mapM_eq_error_iff_append]
  simp only [succeeds, select_eq_error_iff]

/-- Selections that say the same, in any order, number and case, keep the same mutators. -/
theorem resolve_congr
    (same : ∀ w, w ∈ c.mutators.map folded ↔ w ∈ c'.mutators.map folded)
    (resolved : c.resolve = .ok ms) : c'.resolve = .ok ms := by
  have counterpart {a b : Config} (same : ∀ w ∈ a.mutators.map folded, w ∈ b.mutators.map folded)
      (s : String) (hs : s ∈ a.mutators) : ∃ t ∈ b.mutators, takes t = takes s := by
    obtain ⟨t, ht, alike⟩ := List.mem_map.mp (same _ (List.mem_map_of_mem hs))
    exact ⟨t, ht, takes_congr alike⟩
  obtain ⟨known, rfl⟩ := resolve_eq_ok_iff.mp resolved
  refine resolve_eq_ok_iff.mpr ⟨?_, ?_⟩
  · intro s hs
    obtain ⟨t, ht, alike⟩ := counterpart (fun w => (same w).mpr) s hs
    rw [known_iff, ← alike, ← known_iff]
    exact known t ht
  · apply List.filter_congr
    intro m _
    rw [Bool.eq_iff_iff, List.any_eq_true, List.any_eq_true]
    constructor
    · rintro ⟨s, hs, taken⟩
      obtain ⟨t, ht, alike⟩ := counterpart (fun w => (same w).mp) s hs
      exact ⟨t, ht, by rw [alike, taken]⟩
    · rintro ⟨s, hs, taken⟩
      obtain ⟨t, ht, alike⟩ := counterpart (fun w => (same w).mpr) s hs
      exact ⟨t, ht, by rw [alike, taken]⟩

end Config

namespace Engine

theorem ofConfig_eq_ok_iff {config : Config} {engine : Engine} : ofConfig config = .ok engine ↔
    config.resolve = .ok engine.mutators ∧ engine.skipUncovered = config.skipUncovered := by
  rw [ofConfig, bind_eq_ok_iff]
  simp only [pure_eq_ok_iff]
  constructor
  · rintro ⟨ms, resolved, rfl⟩
    exact ⟨resolved, rfl⟩
  · rintro ⟨resolved, same⟩
    exact ⟨_, resolved, by rw [← same]⟩

theorem flatMap_filter_eq {α β : Type} (p : α → Bool) (f : α → List β) (xs : List α) :
    (xs.filter p).flatMap f = xs.flatMap fun x => if p x then f x else [] := by
  induction xs with
  | nil => rfl
  | cons x xs ih => cases h : p x <;> simp [h, ih]

/-- Leaving mutators of the catalog out leaves their candidates out, and no others, as a candidate
tells its mutator. -/
theorem enumerate_filter {engine : Engine} {p : Mutator → Bool}
    (kept : engine.mutators = Mutator.all.filter p) (method : Method) :
    engine.enumerate method = (full.enumerate method).filter fun c =>
      engine.mutators.any fun m => m.id == c.mutator := by
  have selected (m : Mutator) (c : Candidate) (hc : c ∈ m.candidates method) :
      (engine.mutators.any fun m => m.id == c.mutator) = p m := by
    have named := (Mutator.mem_candidates.mp hc).2.1
    rw [Bool.eq_iff_iff, List.any_eq_true, kept, named]
    constructor
    · rintro ⟨m', member, same⟩
      rw [← Mutator.id_injective (beq_iff_eq.mp same)]
      exact (List.mem_filter.mp member).2
    · intro chosen
      exact ⟨m, List.mem_filter.mpr ⟨m.mem_all, chosen⟩, beq_self_eq_true m.id⟩
  have own (m : Mutator) : (if p m then m.candidates method else []) =
      (m.candidates method).filter fun c => engine.mutators.any fun m => m.id == c.mutator := by
    rw [List.filter_congr (selected m)]
    cases p m <;> simp
  calc engine.enumerate method
      = (Mutator.all.filter p).flatMap fun m => m.candidates method := by rw [enumerate_eq, kept]
    _ = Mutator.all.flatMap fun m => if p m then m.candidates method else [] :=
        flatMap_filter_eq p _ _
    _ = (Mutator.all.flatMap fun m => m.candidates method).filter fun c =>
          engine.mutators.any fun m => m.id == c.mutator := by
        rw [List.filter_flatMap]
        simp only [own]
    _ = (full.enumerate method).filter fun c =>
          engine.mutators.any fun m => m.id == c.mutator := by rw [enumerate_eq, full]

end Engine

/-- Selections keep a part of the catalog, and nothing else. They are read if each of them says
`ALL`, a group, a name or an identifier, with blanks around it or not and in any case; the mutators
kept are then those that some selection takes, each once and in the order of the catalog. Else the
first selection that says none of these is the error. An engine made of them finds the candidates of
the whole catalog whose mutators are kept, in the same order. -/
theorem resolve_selects (config : Config) :
    ((∃ ms, config.resolve = .ok ms) ↔ ∀ s ∈ config.mutators, Selection.Known s) ∧
    (∀ ms, config.resolve = .ok ms → ms.Sublist Mutator.all ∧ ms.Nodup ∧
      ∀ m, m ∈ ms ↔ ∃ s ∈ config.mutators, Selection.takes s m) ∧
    (∀ config' : Config, (∀ w, w ∈ config.mutators.map Selection.folded ↔
        w ∈ config'.mutators.map Selection.folded) →
      ∀ ms, config.resolve = .ok ms → config'.resolve = .ok ms) ∧
    (∀ fault, config.resolve = .error fault ↔ ∃ before s after,
      config.mutators = before ++ s :: after ∧ (∀ t ∈ before, Selection.Known t) ∧
        ¬ Selection.Known s ∧ fault = ⟨Selection.word s⟩) ∧
    (∀ engine, Engine.ofConfig config = .ok engine ↔
      config.resolve = .ok engine.mutators ∧ engine.skipUncovered = config.skipUncovered) ∧
    ∀ engine, Engine.ofConfig config = .ok engine → ∀ method,
      engine.enumerate method = (Engine.full.enumerate method).filter fun c =>
        engine.mutators.any fun m => m.id == c.mutator := by
  refine ⟨?_, ?_, ?_, fun fault => Config.resolve_eq_error_iff,
    fun engine => Engine.ofConfig_eq_ok_iff, ?_⟩
  · constructor
    · rintro ⟨ms, resolved⟩
      exact (Config.resolve_eq_ok_iff.mp resolved).1
    · intro known
      exact ⟨_, Config.resolve_eq_ok_iff.mpr ⟨known, rfl⟩⟩
  · intro ms resolved
    obtain ⟨-, rfl⟩ := Config.resolve_eq_ok_iff.mp resolved
    have distinct : Mutator.all.Nodup := Mutator.nodup_ids.of_map Mutator.id
    refine ⟨List.filter_sublist, distinct.filter _, ?_⟩
    intro m
    rw [List.mem_filter, List.any_eq_true]
    exact and_iff_right m.mem_all
  · intro config' same ms resolved
    exact Config.resolve_congr same resolved
  · intro engine configured method
    obtain ⟨resolved, -⟩ := Engine.ofConfig_eq_ok_iff.mp configured
    exact Engine.enumerate_filter (Config.resolve_eq_ok_iff.mp resolved).2 method

/-- A group between blanks with one of its mutators once more, and the same in another order. -/
theorem resolve_selects_group :
    let config : Config := ⟨["\u00a0aod ", "aor.addition", "Delete_First_Operand"], false⟩
    let config' : Config := ⟨["AOR.Addition", "DELETE_FIRST_OPERAND\t", "AOD", "aOd"], true⟩
    let engine : Engine := ⟨[.operator .add, .deletion .first, .deletion .second], false⟩
    let method : Method := ⟨⟨⟨"Calc"⟩, ⟨"run", "(II)I"⟩⟩, [.code (.plain (.named .isub)),
      .code (.jump (.named .ifle) ⟨0⟩), .code (.plain (.named .dadd))]⟩
    (∀ w, w ∈ config.mutators.map Selection.folded ↔ w ∈ config'.mutators.map Selection.folded) ∧
      config.resolve = .ok engine.mutators ∧ config'.resolve = .ok engine.mutators ∧
      engine.mutators.Sublist Mutator.all ∧
      Engine.ofConfig config = .ok engine ∧
      engine.enumerate method = (Engine.full.enumerate method).filter (fun c =>
        engine.mutators.any fun m => m.id == c.mutator) ∧
      (engine.enumerate method).map (fun c => (c.mutator, c.index)) =
        [("aor.addition", 0), ("aod.delete_first_operand", 0), ("aod.delete_first_operand", 2),
          ("aod.delete_second_operand", 0), ("aod.delete_second_operand", 2)] ∧
      Config.resolve ⟨["AOR", "\nNegate ", "also unknown"], true⟩ = .error ⟨"Negate"⟩ := by
  intro config config' engine method
  have words : config.mutators.map Selection.folded =
      ["aod".toList, "aor.addition".toList, "delete_first_operand".toList] := by decide +kernel
  have words' : config'.mutators.map Selection.folded =
      ["aor.addition".toList, "delete_first_operand".toList, "aod".toList, "aod".toList] := by
    decide +kernel
  have rotated (a b d w : List Char) : w ∈ [a, b, d] ↔ w ∈ [b, d, a, a] := by
    simp only [List.mem_cons, List.mem_nil_iff]
    tauto
  have same : ∀ w, w ∈ config.mutators.map Selection.folded ↔
      w ∈ config'.mutators.map Selection.folded := by
    intro w
    rw [words, words', rotated]
  have resolved : config.resolve = .ok engine.mutators := by decide +kernel
  obtain ⟨-, kept, reordered, -, built, found⟩ := resolve_selects config
  have configured := (built engine).mpr ⟨resolved, rfl⟩
  exact ⟨same, resolved, reordered config' same _ resolved, (kept _ resolved).1, configured,
    found engine configured method, by decide +kernel, by decide +kernel⟩

end BytecodeMutation
