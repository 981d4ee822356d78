import Mathlib
import BytecodeMutation.Proofs.Coverage.Facts

/-!
What a database answers. Some answers are read off the lines of the classes and others off the runs
over all lines; where both maps hold the same facts the answers agree with each other, and they
depend on these facts alone.
-/
namespace BytecodeMutation

namespace ClassLines

/-- The lines of a class, each with its class. -/
def places (k : ClassLines) : List ClassLine := k.lines.map fun n => ⟨k.className, n⟩

theorem mem_places {k : ClassLines} {l : ClassLine} :
    l ∈ k.places ↔ k.className = l.className ∧ l.line ∈ k.lines := by
  rw [places, List.mem_map]
  constructor
  · rintro ⟨n, mem, rfl⟩
    exact ⟨rfl, mem⟩
  · rintro ⟨same, mem⟩
    exact ⟨l.line, mem, by rw [same]⟩

end ClassLines

namespace Coverage

variable {c d : Coverage} {f : Facts} {names : List ClassName} {name : ClassName} {l : ClassLine}
  {t : TestRun}

theorem mem_testsForLine : t ∈ c.testsForLine l ↔ t ∈ c.executed.getD l ∅ := Std.TreeSet.mem_toList

theorem ascending_testsForLine : Ascending (c.testsForLine l) := .toList _

theorem ascending_testsForClass : Ascending (c.testsForClass name) := .toList _

/-- The tests for a line stand in its entry, if it has one. -/
theorem mem_testsForLine_iff_exists : t ∈ c.testsForLine l ↔
    ∃ tests, (l, tests) ∈ c.executed.toList ∧ t ∈ tests.toList := by
  simp only [Std.TreeMap.mem_toList_iff_getElem?_eq_some, testsForLine,
    Std.TreeMap.getD_eq_getD_getElem?]
  cases c.executed[l]? with
  | none => simp
  | some tests => simp

theorem isCovered_iff : c.isCovered l ↔ ∃ t, t ∈ c.testsForLine l := by
  rw [isCovered, Bool.not_eq_true', List.isEmpty_eq_false_iff_exists_mem]

theorem classLines_eq : c.classLines names =
    (names.filter (· ∈ c.declared)).map fun name => ⟨name, (c.declared.getD name ∅).toList⟩ := by
  rw [classLines, ← List.filterMap_eq_map, List.filterMap_filter]
  apply List.filterMap_congr
  intro name _
  by_cases known : name ∈ c.declared
  · have stored : c.declared[name]? = some (c.declared.getD name ∅) :=
      Std.TreeMap.getElem?_eq_some_getD known
    rw [stored, if_pos (decide_eq_true known), Option.map_some, Function.comp_apply]
  · simp [known]

theorem className_mem_of_mem_classLines {k : ClassLines} (listed : k ∈ c.classLines names) :
    k.className ∈ names := by
  rw [classLines_eq] at listed
  obtain ⟨name, kept, rfl⟩ := List.mem_map.mp listed
  exact (List.mem_filter.mp kept).1

theorem mem_testsForClass : t ∈ c.testsForClass name ↔ ∃ n, t ∈ c.testsForLine ⟨name, n⟩ := by
  simp only [testsForClass, Std.TreeSet.mem_toList, Std.TreeSet.mem_ofList, List.contains_iff_mem,
    List.mem_flatMap, List.mem_filter, mem_testsForLine_iff_exists]
  constructor
  · rintro ⟨⟨⟨name', n⟩, tests⟩, ⟨stored, same⟩, mem⟩
    obtain rfl : name' = name := eq_of_beq same
    exact ⟨n, tests, stored, mem⟩
  · rintro ⟨n, tests, stored, mem⟩
    exact ⟨(⟨name, n⟩, tests), ⟨stored, beq_self_eq_true name⟩, mem⟩

/-- The lines that are counted as covered. -/
def coveredPlaces (c : Coverage) (names : List ClassName) : List ClassLine :=
  (c.executed.toList.filter fun (l, tests) => names.contains l.className && !tests.isEmpty).map
    (·.1)

theorem coveredLines_eq : c.coveredLines names = (c.coveredPlaces names).length := by
  rw [coveredPlaces, List.length_map, coveredLines]

theorem nodup_coveredPlaces : (c.coveredPlaces names).Nodup := by
  have keys : Ascending (c.executed.toList.map (·.1)) :=
    List.pairwise_map.mpr c.executed.ordered_keys_toList
  exact keys.nodup.sublist (List.filter_sublist.map _)

theorem mem_coveredPlaces :
    l ∈ c.coveredPlaces names ↔ l.className ∈ names ∧ c.isCovered l := by
  have reached (tests : Std.TreeSet TestRun) : (!tests.isEmpty) ↔ ∃ t, t ∈ tests.toList := by
    rw [← Std.TreeSet.isEmpty_toList, Bool.not_eq_true', List.isEmpty_eq_false_iff_exists_mem]
  simp only [coveredPlaces, List.mem_map, List.mem_filter, Bool.and_eq_true, List.contains_iff_mem,
    isCovered_iff, mem_testsForLine_iff_exists, reached]
  constructor
  · rintro ⟨⟨l, tests⟩, ⟨stored, wanted, t, mem⟩, rfl⟩
    exact ⟨wanted, t, tests, stored, mem⟩
  · rintro ⟨wanted, t, tests, stored, mem⟩
    exact ⟨(l, tests), ⟨stored, wanted, t, mem⟩, rfl⟩

namespace Holds

variable (h : c.Holds f)
include h

theorem mem_testsForLine : t ∈ c.testsForLine l ↔ (l, t) ∈ f.runs :=
  Coverage.mem_testsForLine.trans (h.runs l t)

theorem isCovered_iff : c.isCovered l ↔ ∃ t, (l, t) ∈ f.runs := by
  simp only [Coverage.isCovered_iff, h.mem_testsForLine]

theorem classLines_eq : c.classLines names =
    (names.filter (· ∈ f.known)).map fun name => ⟨name, (c.declared.getD name ∅).toList⟩ := by
  simp only [Coverage.classLines_eq, h.known]

theorem mem_lines_toList {n : UInt32} : n ∈ (c.declared.getD name ∅).toList ↔ ⟨name, n⟩ ∈ f.lines :=
  Std.TreeSet.mem_toList.trans (h.lines name n)

/-- A covered line is a code line of its class. -/
theorem exists_classLines (covered : c.isCovered l) (wanted : l.className ∈ names) :
    ∃ k ∈ c.classLines names, l ∈ k.places := by
  obtain ⟨t, run⟩ := h.isCovered_iff.mp covered
  have line := f.runs_lines (l, t) run
  have known := f.lines_known l line
  rw [h.classLines_eq]
  refine ⟨_, List.mem_map_of_mem (List.mem_filter.mpr ⟨wanted, decide_eq_true known⟩), ?_⟩
  exact List.mem_map.mpr ⟨l.line, h.mem_lines_toList.mpr line, rfl⟩

/-- The tests for a class are those for its code lines. -/
theorem mem_testsForClass : t ∈ c.testsForClass name ↔
    ∃ k ∈ c.classLines [name], ∃ l ∈ k.places, t ∈ c.testsForLine l := by
  rw [Coverage.mem_testsForClass]
  constructor
  · rintro ⟨n, mem⟩
    have covered := Coverage.isCovered_iff.mpr ⟨t, mem⟩
    obtain ⟨k, listed, place⟩ := h.exists_classLines covered (List.mem_singleton_self name)
    exact ⟨k, listed, ⟨name, n⟩, place, mem⟩
  · rintro ⟨k, listed, ⟨name', n⟩, place, mem⟩
    obtain ⟨same, -⟩ := ClassLines.mem_places.mp place
    have wanted := className_mem_of_mem_classLines listed
    obtain rfl : name' = name := same.symm.trans (List.mem_singleton.mp wanted)
    exact ⟨n, mem⟩

theorem coveredLines_eq_card :
    c.coveredLines names = ((f.runs.image Prod.fst).filter (·.className ∈ names)).card := by
  rw [coveredLines_eq, ← List.toFinset_card_of_nodup nodup_coveredPlaces]
  congr 1
  ext l
  rw [List.mem_toFinset, mem_coveredPlaces, h.isCovered_iff, Finset.mem_filter, and_comm]
  simp

/-- The covered lines are among the code lines of the classes, each of which is named once. -/
theorem coveredLines_le :
    c.coveredLines names ≤ ((c.classLines names.dedup).map (·.lines.length)).sum := by
  have among : c.coveredPlaces names ⊆ (c.classLines names.dedup).flatMap ClassLines.places := by
    intro l counted
    obtain ⟨wanted, covered⟩ := mem_coveredPlaces.mp counted
    obtain ⟨k, listed, place⟩ := h.exists_classLines covered (List.mem_dedup.mpr wanted)
    exact List.mem_flatMap.mpr ⟨k, listed, place⟩
  calc c.coveredLines names
      = (c.coveredPlaces names).length := coveredLines_eq
    _ ≤ ((c.classLines names.dedup).flatMap ClassLines.places).length :=
        (List.subperm_of_subset nodup_coveredPlaces among).length_le
    _ = ((c.classLines names.dedup).map (·.lines.length)).sum := by
        simp [List.length_flatMap, ClassLines.places]

/-- Databases with the same facts give the same answers. -/
theorem answers_eq (h' : d.Holds f) :
    c.classLines = d.classLines ∧ c.isCovered = d.isCovered ∧ c.testsForLine = d.testsForLine ∧
      c.testsForClass = d.testsForClass ∧ c.coveredLines = d.coveredLines ∧
      c.fingerprint = d.fingerprint := by
  have lines : c.classLines = d.classLines := by
    funext names
    rw [h.classLines_eq, h'.classLines_eq]
    apply List.map_congr_left
    intro name _
    rw [ClassLines.mk.injEq]
    refine ⟨rfl, (Ascending.toList _).eq_of_mem_iff (Ascending.toList _) ?_⟩
    intro n
    rw [h.mem_lines_toList, h'.mem_lines_toList]
  have tests : c.testsForLine = d.testsForLine := by
    funext l
    apply ascending_testsForLine.eq_of_mem_iff ascending_testsForLine
    intro t
    rw [h.mem_testsForLine, h'.mem_testsForLine]
  have classTests : c.testsForClass = d.testsForClass := by
    funext name
    apply ascending_testsForClass.eq_of_mem_iff ascending_testsForClass
    intro t
    rw [h.mem_testsForClass, h'.mem_testsForClass, lines, tests]
  refine ⟨lines, ?_, tests, classTests, ?_, ?_⟩
  · funext l
    rw [isCovered, isCovered, tests]
  · funext names
    rw [h.coveredLines_eq_card, h'.coveredLines_eq_card]
  · funext name
    rw [fingerprint, fingerprint, testNames, testNames, classTests]

end Holds

/-- What a database answers after any updates, in terms of what these say. It knows the classes that
were named, with the lines that were declared or executed; it has the tests of each line, and for a
class the tests of its lines; it counts the lines that were executed, which are lines of the
classes. The order of the updates and their repetitions make no difference. -/
theorem answers_ofUpdates (us : List Update) :
    (∀ names, ((ofUpdates us).classLines names).map (·.className) =
      names.filter (· ∈ (Facts.of us).known)) ∧
    (∀ names, ∀ k ∈ (ofUpdates us).classLines names,
      Ascending k.lines ∧ ∀ n, n ∈ k.lines ↔ ⟨k.className, n⟩ ∈ (Facts.of us).lines) ∧
    (∀ l, (ofUpdates us).isCovered l ↔ ∃ t, (l, t) ∈ (Facts.of us).runs) ∧
    (∀ l, Ascending ((ofUpdates us).testsForLine l) ∧
      ∀ t, t ∈ (ofUpdates us).testsForLine l ↔ (l, t) ∈ (Facts.of us).runs) ∧
    (∀ name, Ascending ((ofUpdates us).testsForClass name) ∧
      ∀ t, t ∈ (ofUpdates us).testsForClass name ↔
        ∃ k ∈ (ofUpdates us).classLines [name], ∃ l ∈ k.places,
          t ∈ (ofUpdates us).testsForLine l) ∧
    (∀ names, (ofUpdates us).coveredLines names =
        (((Facts.of us).runs.image Prod.fst).filter (·.className ∈ names)).card ∧
      (ofUpdates us).coveredLines names ≤
        (((ofUpdates us).classLines names.dedup).map (·.lines.length)).sum) ∧
    (∀ l, (ofUpdates us).isCovered l →
      ∃ k ∈ (ofUpdates us).classLines [l.className], l ∈ k.places) ∧
    ∀ vs, (∀ u, u ∈ us ↔ u ∈ vs) →
      (ofUpdates us).classLines = (ofUpdates vs).classLines ∧
      (ofUpdates us).isCovered = (ofUpdates vs).isCovered ∧
      (ofUpdates us).testsForLine = (ofUpdates vs).testsForLine ∧
      (ofUpdates us).testsForClass = (ofUpdates vs).testsForClass ∧
      (ofUpdates us).coveredLines = (ofUpdates vs).coveredLines ∧
      (ofUpdates us).fingerprint = (ofUpdates vs).fingerprint := by
  have h := holds_ofUpdates us
  refine ⟨?_, ?_, ?_, ?_, ?_, ?_, ?_, ?_⟩
  · intro names
    rw [h.classLines_eq, List.map_map]
    exact List.map_id _
  · intro names k listed
    rw [h.classLines_eq] at listed
    obtain ⟨name, -, rfl⟩ := List.mem_map.mp listed
    exact ⟨.toList _, fun n => h.mem_lines_toList⟩
  · intro l
    exact h.isCovered_iff
  · intro l
    exact ⟨ascending_testsForLine, fun t => h.mem_testsForLine⟩
  · intro name
    exact ⟨ascending_testsForClass, fun t => h.mem_testsForClass⟩
  · intro names
    exact ⟨h.coveredLines_eq_card, h.coveredLines_le⟩
  · intro l covered
    exact h.exists_classLines covered (List.mem_singleton_self _)
  · intro vs same
    rw [Facts.of_congr same] at h
    exact h.answers_eq (holds_ofUpdates vs)

/-- A line that is first declared and then executed, against the same updates in another order and
with one of them made twice. -/
theorem answers_ofUpdates_twice :
    let sums : ClassName := ⟨"org/Sums"⟩
    let tool : ClassName := ⟨"org/Tool"⟩
    let adds : TestRun := ⟨"adds", 3⟩
    let limits : TestRun := ⟨"limits", 1⟩
    let us : List Update := [.declare sums [12, 10], .record limits ⟨sums, 10⟩,
      .record adds ⟨tool, 7⟩, .record adds ⟨sums, 10⟩]
    let vs : List Update := [.record adds ⟨sums, 10⟩, .record adds ⟨tool, 7⟩,
      .record adds ⟨sums, 10⟩, .record limits ⟨sums, 10⟩, .declare sums [12, 10]]
    (∀ u, u ∈ us ↔ u ∈ vs) ∧ (ofUpdates us).isCovered ⟨sums, 10⟩ ∧
      (ofUpdates vs).classLines [sums, ⟨"org/Other"⟩, sums] =
        [⟨sums, [10, 12]⟩, ⟨sums, [10, 12]⟩] ∧
      (ofUpdates vs).testsForClass sums = [adds, limits] ∧
      (ofUpdates vs).coveredLines [sums, sums, tool] = 2 := by
  intro sums tool adds limits us vs
  have same : ∀ u, u ∈ us ↔ u ∈ vs := by
    intro u
    simp only [us, vs, List.mem_cons, List.mem_nil_iff]
    tauto
  obtain ⟨-, -, covered, -, -, -, -, equal⟩ := answers_ofUpdates us
  obtain ⟨lines, -, -, tests, count, -⟩ := equal vs same
  rw [← lines, ← tests, ← count]
  exact ⟨same, (covered _).mpr ⟨adds, by decide +kernel⟩, by decide +kernel, by decide +kernel,
    by decide +kernel⟩

end Coverage

end BytecodeMutation
