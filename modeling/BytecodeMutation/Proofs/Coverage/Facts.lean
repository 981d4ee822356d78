import Mathlib.Data.Finset.Image
import Mathlib.Data.Finset.Union
import BytecodeMutation.Proofs.Coverage.Ascending

/-!
What a database was told. A sequence of updates amounts to three plain sets, and the two maps of a
database hold these sets at every moment: recording a run writes to both of them.
-/
namespace BytecodeMutation

/-- One thing that a database is told. -/
inductive Update
  | declare (className : ClassName) (lines : List UInt32)
  | record (test : TestRun) (place : ClassLine)
  deriving DecidableEq, Repr

namespace Update

/-- The class that an update names. -/
def className : Update → ClassName
  | declare name _ => name
  | record _ place => place.className

/-- The code lines that an update tells of. -/
def lines : Update → List ClassLine
  | declare name lines => lines.map fun n => ⟨name, n⟩
  | record _ place => [place]

/-- The lines that an update says were executed, each with the test. -/
def runs : Update → List (ClassLine × TestRun)
  | declare _ _ => []
  | record test place => [(place, test)]

theorem className_of_mem_lines {u : Update} {l : ClassLine} (h : l ∈ u.lines) :
    l.className = u.className := by
  cases u with
  | declare name lines =>
    obtain ⟨n, -, rfl⟩ := List.mem_map.mp h
    rfl
  | record test place =>
    obtain rfl := List.mem_singleton.mp h
    rfl

theorem mem_lines_of_mem_runs {u : Update} {run : ClassLine × TestRun} (h : run ∈ u.runs) :
    run.1 ∈ u.lines := by
  cases u with
  | declare name lines => cases h
  | record test place =>
    obtain rfl := List.mem_singleton.mp h
    exact List.mem_singleton_self place

end Update

/-- Classes, their code lines, and the runs of tests over these. -/
structure Facts where
  known : Finset ClassName
  lines : Finset ClassLine
  runs : Finset (ClassLine × TestRun)
  lines_known : ∀ l ∈ lines, l.className ∈ known
  runs_lines : ∀ run ∈ runs, run.1 ∈ lines

namespace Facts

/-- What a sequence of updates says. -/
def of (us : List Update) : Facts where
  known := us.toFinset.image Update.className
  lines := us.toFinset.biUnion fun u => u.lines.toFinset
  runs := us.toFinset.biUnion fun u => u.runs.toFinset
  lines_known l h := by
    obtain ⟨u, noted, mem⟩ := Finset.mem_biUnion.mp h
    rw [Update.className_of_mem_lines (List.mem_toFinset.mp mem)]
    exact Finset.mem_image_of_mem _ noted
  runs_lines run h := by
    obtain ⟨u, noted, mem⟩ := Finset.mem_biUnion.mp h
    have := Update.mem_lines_of_mem_runs (List.mem_toFinset.mp mem)
    exact Finset.mem_biUnion.mpr ⟨u, noted, List.mem_toFinset.mpr this⟩

variable {us : List Update} {u : Update}

theorem mem_known_concat {name : ClassName} :
    name ∈ (of (us ++ [u])).known ↔ name ∈ (of us).known ∨ u.className = name := by
  simp [of, or_comm, eq_comm]

theorem mem_lines_concat {l : ClassLine} :
    l ∈ (of (us ++ [u])).lines ↔ l ∈ (of us).lines ∨ l ∈ u.lines := by
  simp [of, or_comm]

theorem mem_runs_concat {run : ClassLine × TestRun} :
    run ∈ (of (us ++ [u])).runs ↔ run ∈ (of us).runs ∨ run ∈ u.runs := by
  simp [of, or_comm]

/-- The order of the updates and their repetitions say nothing. -/
theorem of_congr {vs : List Update} (same : ∀ u, u ∈ us ↔ u ∈ vs) : of us = of vs := by
  have : us.toFinset = vs.toFinset := by
    ext u
    rw [List.mem_toFinset, List.mem_toFinset, same]
  simp only [of, this]

end Facts

namespace Coverage

variable {c : Coverage} {us : List Update}

def update (c : Coverage) : Update → Coverage
  | .declare name lines => c.declare name lines
  | .record test place => c.record test place

/-- A new database after these updates. -/
def ofUpdates (us : List Update) : Coverage := us.foldl update empty

/-- The maps hold just these facts. Whether a line without tests has an entry is left open, as no
answer depends on it. -/
structure Holds (c : Coverage) (f : Facts) : Prop where
  known : ∀ name, name ∈ c.declared ↔ name ∈ f.known
  lines : ∀ name n, n ∈ c.declared.getD name ∅ ↔ ⟨name, n⟩ ∈ f.lines
  runs : ∀ l t, t ∈ c.executed.getD l ∅ ↔ (l, t) ∈ f.runs

theorem mem_declared_declare {className name : ClassName} {lines : List UInt32} :
    name ∈ (c.declare className lines).declared ↔ name ∈ c.declared ∨ className = name := by
  rw [declare, Std.TreeMap.mem_insert, Std.LawfulEqOrd.compare_eq_iff_eq, or_comm]

theorem mem_lines_declare {className name : ClassName} {lines : List UInt32} {n : UInt32} :
    n ∈ (c.declare className lines).declared.getD name ∅ ↔
      n ∈ c.declared.getD name ∅ ∨ className = name ∧ n ∈ lines := by
  rw [declare, Std.TreeMap.getD_insert]
  by_cases same : className = name
  · simp [same, Std.TreeSet.mem_insertMany_list]
  · simp [same]

theorem mem_tests_record {test t : TestRun} {place l : ClassLine} :
    t ∈ (c.record test place).executed.getD l ∅ ↔
      t ∈ c.executed.getD l ∅ ∨ place = l ∧ test = t := by
  rw [record, Std.TreeMap.getD_insert]
  by_cases same : place = l
  · simp [same, Std.TreeSet.mem_insert, or_comm]
  · simp [same]

/-- One update brings the same facts to both maps. -/
theorem Holds.update (h : c.Holds (.of us)) (u : Update) :
    (c.update u).Holds (.of (us ++ [u])) := by
  cases u with
  | declare className lines =>
    constructor
    · intro name
      rw [Coverage.update, mem_declared_declare, h.known, Facts.mem_known_concat, Update.className]
    · intro name n
      rw [Coverage.update, mem_lines_declare, h.lines, Facts.mem_lines_concat]
      simp [Update.lines, and_comm]
    · intro l t
      rw [Facts.mem_runs_concat, ← h.runs, Update.runs, List.mem_nil_iff, or_false]
      rfl
  | record test place =>
    constructor
    · intro name
      apply mem_declared_declare.trans
      rw [h.known, Facts.mem_known_concat, Update.className]
    · intro name n
      apply mem_lines_declare.trans
      rw [h.lines, Facts.mem_lines_concat, Update.lines, List.mem_singleton, List.mem_singleton,
        ClassLine.mk.injEq, @eq_comm _ name]
    · intro l t
      rw [Coverage.update, mem_tests_record, h.runs, Facts.mem_runs_concat, Update.runs,
        List.mem_singleton, Prod.mk.injEq, eq_comm, @eq_comm _ t]

theorem holds_ofUpdates (us : List Update) : (ofUpdates us).Holds (.of us) := by
  induction us using List.reverseRecOn with
  | nil =>
    constructor
    · simp [ofUpdates, empty, Facts.of]
    · simp [ofUpdates, empty, Facts.of]
    · simp [ofUpdates, empty, Facts.of]
  | append_singleton us u ih =>
    rw [ofUpdates, List.foldl_concat]
    exact ih.update u

end Coverage

end BytecodeMutation
