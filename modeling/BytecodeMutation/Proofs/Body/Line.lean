import BytecodeMutation.Coverage

/-!
The line of an element. A search backwards for the last line marker and a walk forwards that
remembers the marker it saw last give every element the same line, so the walk over a method finds
just the elements whose line has no tests.
-/
namespace BytecodeMutation

/-- The line that begins at an element. -/
def Element.line? : Element → Option UInt32
  | .line n => some n
  | _ => none

namespace Body

variable (e : Element) (body : Body) (i : Nat)

theorem lineAt?_eq_getLast? :
    body.lineAt? i = ((body.take (i + 1)).filterMap Element.line?).getLast? := by
  rw [List.getLast?_filterMap]
  rfl

@[simp] theorem lineAt?_cons_zero : lineAt? (e :: body) 0 = e.line? := by
  cases e <;> rfl

/-- What stands in front of an element only counts if no marker stands in between. -/
@[simp] theorem lineAt?_cons_succ : lineAt? (e :: body) (i + 1) = (lineAt? body i).or e.line? := by
  simp only [lineAt?, List.take_succ_cons, List.reverse_cons, List.findSome?_append]
  cases e <;> rfl

end Body

/-- Whether a line is known and has no tests. -/
def isDark (tests : ClassLine → List TestRun) (className : ClassName) (line : Option UInt32) :
    Bool :=
  line.any fun n => (tests ⟨className, n⟩).isEmpty

section
variable (tests : ClassLine → List TestRun) (className : ClassName)

theorem uncoveredFrom_cons (start : Nat) (before : Option UInt32) (e : Element) (body : Body) :
    uncoveredFrom tests className start (isDark tests className before) (e :: body) =
      (if isDark tests className (e.line?.or before) then [start] else []) ++
        uncoveredFrom tests className (start + 1)
          (isDark tests className (e.line?.or before)) body := by
  have first (dark : Bool) (later : List Nat) : (if dark then start :: later else later) =
      (if dark then [start] else []) ++ later := by
    cases dark <;> rfl
  cases e <;> exact first _ _

/-- The walk knows of the line before it only whether it is dark, which is all that it needs. -/
theorem uncoveredFrom_eq (start : Nat) (before : Option UInt32) (body : Body) :
    uncoveredFrom tests className start (isDark tests className before) body =
      ((List.range body.length).filter fun i =>
        isDark tests className ((body.lineAt? i).or before)).map (start + ·) := by
  induction body generalizing start before with
  | nil => rfl
  | cons e body ih =>
    have shift : (start + ·) ∘ Nat.succ = (start + 1 + · : Nat → Nat) := by
      funext i
      simp only [Function.comp]
      omega
    rw [uncoveredFrom_cons, ih, List.length_cons, List.range_succ_eq_map, List.filter_cons,
      List.filter_map]
    simp only [Body.lineAt?_cons_zero, Function.comp_def, Nat.succ_eq_add_one,
      Body.lineAt?_cons_succ, Option.or_assoc]
    split
    · rw [List.map_cons, List.map_map, shift]
      rfl
    · rw [List.map_map, shift, List.nil_append]

end

/-- The indices without tests, in ascending order, are those whose line has none. -/
theorem Method.uncovered_eq (method : Method) (tests : ClassLine → List TestRun) :
    method.uncovered tests = (List.range method.body.length).filter fun i =>
      isDark tests method.location.className (method.body.lineAt? i) := by
  have walk := uncoveredFrom_eq tests method.location.className 0 none method.body
  simpa [Method.uncovered, isDark] using walk

end BytecodeMutation
