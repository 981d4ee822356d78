import BytecodeMutation.Stack.Depth

/-!
Runs that reach the end of a body. How deep the stack is after each element depends on the elements
and on the depth before them, and on nothing else, so a run splits where the body does.
-/
namespace BytecodeMutation.Stack

/-- The depths after the elements of a body that runs to its end from some depth. -/
inductive Runs : Nat → Body → List Nat → Prop
  | nil {depth : Nat} : Runs depth [] []
  | cons {depth : Nat} {e : Element} {effect : Effect} {body : Body} {depths : List Nat}
      (known : effect? e = some effect) (enough : effect.pops ≤ depth)
      (rest : Runs (depth - effect.pops + effect.pushes) body depths) :
      Runs depth (e :: body) ((depth - effect.pops + effect.pushes) :: depths)

theorem step_eq_ok_iff {index depth next : Nat} {e : Element} :
    step index depth e = .ok next ↔ ∃ effect, effect? e = some effect ∧ effect.pops ≤ depth ∧
      next = depth - effect.pops + effect.pushes := by
  unfold step
  cases effect? e with
  | none => simp
  | some effect =>
    by_cases enough : effect.pops ≤ depth
    · simp [enough, Nat.not_lt.mpr enough, eq_comm]
    · simp [enough, Nat.not_le.mp enough]

/-- The index of the first element is of no account where nothing goes wrong. -/
theorem depthsFrom_eq_ok_iff {index depth : Nat} {body : Body} {depths : List Nat} :
    depthsFrom index depth body = .ok depths ↔ Runs depth body depths := by
  induction body generalizing index depth depths with
  | nil =>
    constructor
    · intro h
      cases h
      exact .nil
    · rintro ⟨⟩
      rfl
  | cons e body ih =>
    rw [depthsFrom]
    constructor
    · intro h
      cases stepped : step index depth e with
      | error fault => rw [stepped] at h; cases h
      | ok next =>
        rw [stepped] at h
        obtain ⟨effect, known, enough, rfl⟩ := step_eq_ok_iff.mp stepped
        cases rest : depthsFrom (index + 1) (depth - effect.pops + effect.pushes) body with
        | error fault => simp only [rest] at h; cases h
        | ok later =>
          simp only [rest] at h
          cases h
          exact .cons known enough (ih.mp rest)
    · intro h
      cases h with
      | cons known enough rest =>
        rw [step_eq_ok_iff.mpr ⟨_, known, enough, rfl⟩]
        simp only [ih.mpr rest]
        rfl

theorem depths_eq_ok_iff {body : Body} {initial : Nat} {depths : List Nat} :
    Stack.depths body initial = .ok depths ↔ Runs initial body depths :=
  depthsFrom_eq_ok_iff

/-- The depth at the end of a run. -/
def lastDepth (initial : Nat) (depths : List Nat) : Nat := depths.getLast?.getD initial

@[simp] theorem lastDepth_nil (initial : Nat) : lastDepth initial [] = initial := rfl

@[simp] theorem lastDepth_cons (initial depth : Nat) (depths : List Nat) :
    lastDepth initial (depth :: depths) = lastDepth depth depths := by
  rw [lastDepth, List.getLast?_cons, Option.getD_some, lastDepth]

/-- The depth before an element is the one after the element in front of it. -/
theorem getElem?_cons_append (initial : Nat) (depths later : List Nat) :
    (initial :: (depths ++ later))[depths.length]? = some (lastDepth initial depths) := by
  induction depths generalizing initial with
  | nil => rfl
  | cons depth depths ih => simpa using ih depth

namespace Runs

variable {initial : Nat} {a b : Body} {depths later : List Nat}

theorem length_eq (h : Runs initial a depths) : depths.length = a.length := by
  induction h with
  | nil => rfl
  | cons _ _ _ ih => rw [List.length_cons, List.length_cons, ih]

theorem append (first : Runs initial a depths) (second : Runs (lastDepth initial depths) b later) :
    Runs initial (a ++ b) (depths ++ later) := by
  induction first with
  | nil => exact second
  | cons known enough _ ih => exact .cons known enough (ih (by simpa using second))

theorem of_append {all : List Nat} (h : Runs initial (a ++ b) all) : ∃ depths later,
    Runs initial a depths ∧ Runs (lastDepth initial depths) b later ∧ all = depths ++ later := by
  induction a generalizing initial all with
  | nil => exact ⟨[], all, .nil, h, rfl⟩
  | cons e a ih =>
    cases h with
    | cons known enough rest =>
      obtain ⟨depths, later, first, second, rfl⟩ := ih rest
      exact ⟨_ :: depths, later, .cons known enough first, by simpa using second, rfl⟩

end Runs

end BytecodeMutation.Stack
