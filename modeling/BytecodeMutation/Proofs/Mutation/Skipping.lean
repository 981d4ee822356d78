import BytecodeMutation.Proofs.Body.Line
import BytecodeMutation.Proofs.Mutation.Enumeration

/-!
Enumeration that leaves elements out. Skipping indices leaves out their candidates and changes
nothing else. An engine that skips what no test executes leaves out just the candidates whose line
has no tests; an element without a line is not one of these.
-/
namespace BytecodeMutation.Engine

variable (engine : Engine) (method : Method)

theorem enumerateSkipping_eq (skip : Nat → Bool) :
    engine.enumerateSkipping method skip =
      (engine.enumerate method).filter fun c => !skip c.index := by
  rw [enumerate_eq, List.filter_flatMap]
  exact List.flatMap_congr fun m _ => found_pass m skip method none

/-- A candidate stands for an element of the method, so its line is looked at in the walk. -/
theorem index_lt {c : Candidate} (listed : c ∈ engine.enumerate method) :
    c.index < method.body.length := by
  obtain ⟨m, -, found⟩ := mem_enumerate.mp listed
  obtain ⟨-, -, e, site, -⟩ := Mutator.mem_candidates.mp found
  exact (List.getElem?_eq_some_iff.mp site).1

theorem contains_uncovered (tests : ClassLine → List TestRun) {c : Candidate}
    (listed : c ∈ engine.enumerate method) :
    (Std.HashSet.ofList (method.uncovered tests)).contains c.index =
      isDark tests method.location.className (method.body.lineAt? c.index) := by
  have within := engine.index_lt method listed
  rw [Std.HashSet.contains_ofList, method.uncovered_eq, Bool.eq_iff_iff, List.contains_iff_mem,
    List.mem_filter, List.mem_range]
  exact and_iff_right within

/-- Skipping is filtering, for any indices. What is skipped for want of tests are the candidates
with a line that has none; the walk that finds these elements gives each of them the line that a
search backwards from it finds. -/
theorem enumerate_skipped :
    (∀ skip : Nat → Bool, engine.enumerateSkipping method skip =
      (engine.enumerate method).filter fun c => !skip c.index) ∧
    (∀ tests : ClassLine → List TestRun, engine.enumerateCovered method tests =
      if engine.skipUncovered then (engine.enumerate method).filter fun c =>
        (method.body.lineAt? c.index).all fun n =>
          !(tests ⟨method.location.className, n⟩).isEmpty
      else engine.enumerate method) ∧
    ∀ tests : ClassLine → List TestRun, method.uncovered tests =
      (List.range method.body.length).filter fun i =>
        (method.body.lineAt? i).any fun n => (tests ⟨method.location.className, n⟩).isEmpty := by
  refine ⟨engine.enumerateSkipping_eq method, ?_, method.uncovered_eq⟩
  intro tests
  rw [enumerateCovered]
  split
  · rw [enumerateSkipping_eq]
    apply List.filter_congr
    intro c listed
    rw [engine.contains_uncovered method tests listed, isDark]
    cases method.body.lineAt? c.index <;> rfl
  · rfl

/-- Three additions, before the first line, on a line with a test, and on one without. Skipping the
second leaves the others, and so does what no test executes. -/
theorem enumerate_skipped_line :
    let site : Location := ⟨⟨"Calc"⟩, ⟨"run", "(IIII)I"⟩⟩
    let add : Element := .code (.plain (.named .iadd))
    let method : Method := ⟨site, [add, .line 7, add, .line 8, add]⟩
    let engine : Engine := ⟨[.deletion .second], true⟩
    let tests : ClassLine → List TestRun := fun l => if l = ⟨⟨"Calc"⟩, 7⟩ then [⟨"sums", 3⟩] else []
    let c (index : Nat) : Candidate := ⟨site, index, "aod.delete_second_operand",
      "AOD: Removed the second operand from an arithmetic expression"⟩
    engine.enumerate method = [c 0, c 2, c 4] ∧
      engine.enumerateSkipping method (· = 2) = [c 0, c 4] ∧
      engine.enumerateCovered method tests = [c 0, c 2] ∧ method.uncovered tests = [3, 4] := by
  intro site add method engine tests c
  obtain ⟨skipping, covering, dark⟩ := enumerate_skipped engine method
  rw [skipping, covering, dark]
  decide

end BytecodeMutation.Engine
