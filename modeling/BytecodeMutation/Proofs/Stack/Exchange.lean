import BytecodeMutation.Stack.Depth

/-!
Bodies with the same effects. Only what an error is called depends on the opcodes, so the depths
are the same, or both runs stop at the same element for the same reason.
-/
namespace BytecodeMutation.Stack

/-- Where a run stops, and the words that were needed and available if these are why. -/
def DepthError.site : DepthError → Nat × Option (Nat × Nat)
  | underflow index _ needed available => (index, some (needed, available))
  | unknownEffect index _ => (index, none)

/-- A step, up to the opcode that its error names. -/
theorem step_congr {e e' : Element} (same : effect? e = effect? e') (index depth : Nat) :
    (step index depth e).mapError DepthError.site =
      (step index depth e').mapError DepthError.site := by
  simp only [step, same]
  cases effect? e' with
  | none => rfl
  | some effect =>
    by_cases short : effect.pops > depth
    · simp only [if_pos short]
      rfl
    · simp only [if_neg short]

theorem mapError_depthsFrom_cons (index depth : Nat) (e : Element) (body : Body) :
    (depthsFrom index depth (e :: body)).mapError DepthError.site =
      match (step index depth e).mapError DepthError.site with
      | .error site => .error site
      | .ok next =>
        ((depthsFrom (index + 1) next body).mapError DepthError.site).map (next :: ·) := by
  rw [depthsFrom]
  cases step index depth e with
  | error fault => rfl
  | ok next =>
    dsimp only [Except.mapError]
    cases depthsFrom (index + 1) next body <;> rfl

theorem depthsFrom_congr {a b : Body} (same : a.map effect? = b.map effect?) (index depth : Nat) :
    (depthsFrom index depth a).mapError DepthError.site =
      (depthsFrom index depth b).mapError DepthError.site := by
  induction a generalizing b index depth with
  | nil =>
    cases b with
    | nil => rfl
    | cons e' b => cases same
  | cons e a ih =>
    cases b with
    | nil => cases same
    | cons e' b =>
      rw [List.map_cons, List.map_cons, List.cons.injEq] at same
      rw [mapError_depthsFrom_cons, mapError_depthsFrom_cons, step_congr same.1]
      simp only [ih same.2]

theorem depths_congr {a b : Body} (same : a.map effect? = b.map effect?) (initial : Nat) :
    (depths a initial).mapError DepthError.site = (depths b initial).mapError DepthError.site :=
  depthsFrom_congr same 0 initial

end BytecodeMutation.Stack
