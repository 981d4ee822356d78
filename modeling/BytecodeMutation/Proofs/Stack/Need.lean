import BytecodeMutation.Proofs.Stack.Depth

/-!
Runs in parts and from other depths. A run over two bodies is a run over the first one and then over
the second, and what goes wrong does so at the first element that cannot be run. Deeper stacks are
no worse, so each body of known effects needs a certain depth and runs from every depth that is not
below it.
-/
namespace BytecodeMutation.Stack

/-- The same error of the same element behind `n` others. -/
def DepthError.behind (n : Nat) : DepthError → DepthError
  | underflow index op needed available => underflow (n + index) op needed available
  | unknownEffect index op => unknownEffect (n + index) op

section
variable {index depth initial n k : Nat} {e : Element} {a b body : Body} {fault : DepthError}
  {reached depths : List Nat}

theorem step_eq_error_iff : step index depth e = .error fault ↔
    effect? e = none ∧ fault = .unknownEffect index (namedOpcode e) ∨
      ∃ effect, effect? e = some effect ∧ depth < effect.pops ∧
        fault = .underflow index (namedOpcode e) effect.pops depth := by
  unfold step
  cases effect? e with
  | none => simp [eq_comm]
  | some effect =>
    by_cases short : depth < effect.pops
    · simp [short, eq_comm]
    · simp [short]

theorem step_behind (n index depth : Nat) (e : Element) :
    step (n + index) depth e = (step index depth e).mapError (.behind n) := by
  unfold step
  cases effect? e with
  | none => rfl
  | some effect =>
    by_cases short : effect.pops > depth
    · simp only [if_pos short]
      rfl
    · simp only [if_neg short]
      rfl

theorem depthsFrom_behind (n index depth : Nat) (body : Body) :
    depthsFrom (n + index) depth body = (depthsFrom index depth body).mapError (.behind n) := by
  induction body generalizing index depth with
  | nil => rfl
  | cons e body ih =>
    rw [depthsFrom, depthsFrom, step_behind]
    cases step index depth e with
    | error fault => rfl
    | ok next =>
      change (depthsFrom (n + index + 1) next body).map (next :: ·) =
        ((depthsFrom (index + 1) next body).map (next :: ·)).mapError (.behind n)
      rw [Nat.add_assoc, ih]
      cases depthsFrom (index + 1) next body <;> rfl

/-- The induction is over the first body, with the index of its first element left open. -/
theorem depthsFrom_append (index depth : Nat) (a b : Body) :
    depthsFrom index depth (a ++ b) = do
      let first ← depthsFrom index depth a
      let second ← depthsFrom (index + a.length) (lastDepth depth first) b
      return first ++ second := by
  induction a generalizing index depth with
  | nil =>
    change depthsFrom index depth b = (do return [] ++ (← depthsFrom index depth b))
    cases depthsFrom index depth b <;> rfl
  | cons e a ih =>
    rw [List.cons_append, depthsFrom, depthsFrom]
    cases step index depth e with
    | error fault => rfl
    | ok next =>
      simp only [ih, List.length_cons, Nat.add_comm a.length, ← Nat.add_assoc]
      cases depthsFrom (index + 1) next a with
      | error fault => rfl
      | ok first =>
        simp only [bind, Except.bind, Except.map, lastDepth_cons]
        cases depthsFrom (index + 1 + a.length) (lastDepth next first) b <;> rfl

theorem depths_append (a b : Body) (initial : Nat) : Stack.depths (a ++ b) initial = do
    let first ← Stack.depths a initial
    let second ← (Stack.depths b (lastDepth initial first)).mapError (.behind a.length)
    return first ++ second := by
  simp only [Stack.depths, depthsFrom_append, ← depthsFrom_behind, Nat.zero_add, Nat.add_zero]

/-- A run stops at the first element that cannot be run, with what this one reports. -/
theorem depthsFrom_eq_error_iff : depthsFrom index depth body = .error fault ↔
    ∃ before e rest reached, body = before ++ e :: rest ∧ Runs depth before reached ∧
      step (index + before.length) (lastDepth depth reached) e = .error fault := by
  constructor
  · intro stops
    induction body generalizing index depth with
    | nil => cases stops
    | cons e body ih =>
      cases stepped : step index depth e with
      | error first =>
        rw [depthsFrom, stepped] at stops
        cases stops
        exact ⟨[], e, body, [], rfl, .nil, stepped⟩
      | ok next =>
        have later : depthsFrom (index + 1) next body = .error fault := by
          rw [depthsFrom, stepped] at stops
          cases others : depthsFrom (index + 1) next body with
          | error fault' => simp only [others] at stops; exact stops
          | ok depths => simp only [others] at stops; cases stops
        obtain ⟨effect, known, enough, rfl⟩ := step_eq_ok_iff.mp stepped
        obtain ⟨before, e', rest, reached, rfl, runs, fails⟩ := ih later
        refine ⟨e :: before, e', rest, _, rfl, .cons known enough runs, ?_⟩
        rwa [lastDepth_cons, List.length_cons, Nat.add_comm before.length, ← Nat.add_assoc]
  · rintro ⟨before, e, rest, reached, rfl, runs, fails⟩
    rw [depthsFrom_append, depthsFrom_eq_ok_iff.mpr runs]
    simp only [bind, Except.bind, depthsFrom, fails]

theorem depths_eq_error_iff : Stack.depths body initial = .error fault ↔
    ∃ before e rest reached, body = before ++ e :: rest ∧
      Stack.depths before initial = .ok reached ∧
      step before.length (lastDepth initial reached) e = .error fault := by
  simp only [Stack.depths, depthsFrom_eq_error_iff, depthsFrom_eq_ok_iff, Nat.zero_add]

namespace Runs

/-- Words that lie deeper than a run reaches stay where they are. -/
theorem add (h : Runs initial body depths) (k : Nat) :
    Runs (initial + k) body (depths.map (· + k)) := by
  induction h with
  | nil => exact .nil
  | @cons depth e effect body depths known enough rest ih =>
    have same : depth - effect.pops + effect.pushes + k =
        depth + k - effect.pops + effect.pushes := by omega
    rw [same] at ih
    rw [List.map_cons, same]
    exact .cons known (by omega) ih

theorem known (h : Runs initial body depths) : ∀ e ∈ body, (effect? e).isSome := by
  induction h with
  | nil => exact nofun
  | cons known _ _ ih =>
    rw [List.forall_mem_cons, known]
    exact ⟨rfl, ih⟩

/-- Each element takes its words from those that are there. -/
theorem balance (h : Runs initial body depths) {i before after : Nat} (site : body[i]? = some e)
    (start : (initial :: depths)[i]? = some before) (stop : depths[i]? = some after) :
    ∃ effect, effect? e = some effect ∧ effect.pops ≤ before ∧
      (after : Int) = before - effect.pops + effect.pushes := by
  induction h generalizing i with
  | nil => cases site
  | @cons depth e' effect body depths known enough rest ih =>
    cases i with
    | zero =>
      cases site
      cases start
      cases stop
      exact ⟨effect, known, enough, by omega⟩
    | succ i => exact ih site start stop

end Runs

/-- From a lower depth a run stops no later. What it stops at has a known effect, as the run from
the greater depth came to the element behind it. -/
theorem underflow_of_add {j needed available : Nat} {op : Opcode}
    (h : Stack.depths body (initial + k) = .error (.underflow j op needed available)) :
    ∃ i ≤ j, ∃ op needed available,
      Stack.depths body initial = .error (.underflow i op needed available) := by
  obtain ⟨before, e, rest, reached, rfl, ran, fails⟩ := depths_eq_error_iff.mp h
  have known : ∀ e' ∈ before ++ [e], (effect? e').isSome := by
    rw [List.forall_mem_append, List.forall_mem_singleton]
    refine ⟨(depths_eq_ok_iff.mp ran).known, ?_⟩
    rcases step_eq_error_iff.mp fails with ⟨-, other⟩ | ⟨effect, found, -⟩
    · cases other
    · rw [found, Option.isSome_some]
  obtain rfl : j = before.length := by
    rcases step_eq_error_iff.mp fails with ⟨-, other⟩ | ⟨effect, -, -, same⟩
    · cases other
    · cases same
      rfl
  cases lower : Stack.depths (before ++ [e]) initial with
  | ok depths =>
    have deeper := depths_eq_ok_iff.mpr ((depths_eq_ok_iff.mp lower).add k)
    rw [depths_eq_error_iff.mpr ⟨before, e, [], reached, rfl, ran, fails⟩] at deeper
    cases deeper
  | error fault =>
    obtain ⟨before', e', rest', reached', split, ran', fails'⟩ := depths_eq_error_iff.mp lower
    have member : e' ∈ before ++ [e] := by simp [split]
    have within : before'.length ≤ before.length := by
      have := congrArg List.length split
      simp only [List.length_append, List.length_cons, List.length_nil] at this
      omega
    rcases step_eq_error_iff.mp fails' with ⟨unknown, -⟩ | ⟨effect, -, -, rfl⟩
    · have := known e' member
      rw [unknown] at this
      cases this
    · refine ⟨before'.length, within, _, _, _, depths_eq_error_iff.mpr
        ⟨before', e', rest' ++ rest, reached', ?_, ran', fails'⟩⟩
      rw [← List.cons_append, ← List.append_assoc, ← split, List.append_assoc,
        List.singleton_append]

/-- The least depth from which a body runs. What an element pushes is there for those behind it, so
only the rest of what they need counts. An element without a known effect, which no depth helps,
adds nothing. -/
def need : Body → Nat
  | [] => 0
  | e :: body =>
    match effect? e with
    | none => need body
    | some effect => effect.pops + (need body - effect.pushes)

theorem exists_runs_iff :
    (∃ depths, Runs initial body depths) ↔
      (∀ e ∈ body, (effect? e).isSome) ∧ need body ≤ initial := by
  induction body generalizing initial with
  | nil => exact ⟨fun _ => ⟨nofun, Nat.zero_le _⟩, fun _ => ⟨[], .nil⟩⟩
  | cons e body ih =>
    rw [List.forall_mem_cons, need]
    constructor
    · rintro ⟨_, h⟩
      cases h with
      | cons known enough rest =>
        obtain ⟨others, deep⟩ := ih.mp ⟨_, rest⟩
        rw [known]
        exact ⟨⟨rfl, others⟩, by dsimp only; omega⟩
    · rintro ⟨⟨known, others⟩, deep⟩
      obtain ⟨effect, known⟩ := Option.isSome_iff_exists.mp known
      rw [known] at deep
      dsimp only at deep
      have left : need body ≤ initial - effect.pops + effect.pushes := by omega
      obtain ⟨depths, rest⟩ := ih.mpr ⟨others, left⟩
      exact ⟨_, .cons known (by omega) rest⟩

end

/-- How the depths of a body depend on where it is cut and on the depth that it starts from. A cut
makes no difference but to the index of an error, and the first element that cannot be run decides.
A deeper start makes every depth deeper, or brings the run further before it lacks words; so a body
whose effects are known runs from `need` words on, and from no fewer. No element takes more words
than there are. -/
theorem depths_compositional (a b : Body) (initial k : Nat) :
    (Stack.depths (a ++ b) initial = do
      let first ← Stack.depths a initial
      let second ← (Stack.depths b (lastDepth initial first)).mapError (.behind a.length)
      return first ++ second) ∧
    (∀ fault, Stack.depths a initial = .error fault ↔
      ∃ before e rest reached, a = before ++ e :: rest ∧
        Stack.depths before initial = .ok reached ∧
        step before.length (lastDepth initial reached) e = .error fault) ∧
    (∀ depths, Stack.depths a initial = .ok depths →
      Stack.depths a (initial + k) = .ok (depths.map (· + k))) ∧
    (∀ j op needed available,
      Stack.depths a (initial + k) = .error (.underflow j op needed available) →
      ∃ i ≤ j, ∃ op needed available,
        Stack.depths a initial = .error (.underflow i op needed available)) ∧
    ((∃ depths, Stack.depths a initial = .ok depths) ↔
      (∀ e ∈ a, (effect? e).isSome) ∧ need a ≤ initial) ∧
    ∀ depths, Stack.depths a initial = .ok depths → ∀ (i : Nat) e before after, a[i]? = some e →
      (initial :: depths)[i]? = some before → depths[i]? = some after →
      ∃ effect, effect? e = some effect ∧ effect.pops ≤ before ∧
        (after : Int) = before - effect.pops + effect.pushes := by
  refine ⟨depths_append a b initial, fun fault => depths_eq_error_iff, ?_, ?_, ?_, ?_⟩
  · intro depths runs
    exact depths_eq_ok_iff.mpr ((depths_eq_ok_iff.mp runs).add k)
  · intro j op needed available short
    exact underflow_of_add short
  · simp only [depths_eq_ok_iff]
    exact exists_runs_iff
  · intro depths runs i e before after site start stop
    exact (depths_eq_ok_iff.mp runs).balance site start stop

/-- An array of three dimensions, one of which is a sum. -/
theorem depths_compositional_array :
    let a : Body := [.code (.plain (.named .iadd)), .line 7,
      .code (.constant (.named .multianewarray) [0, 4, 3])]
    let b : Body := [.code (.plain (.named .dup)), .code (.plain (.named .lcmp))]
    need a = 4 ∧ Stack.depths a 4 = .ok [3, 3, 1] ∧ Stack.depths a (4 + 2) = .ok [5, 5, 3] ∧
      Stack.depths (a ++ b) 4 = .error (.underflow 4 (.named .lcmp) 4 2) ∧
      Stack.depths a (1 + 2) = .error (.underflow 2 (.named .multianewarray) 3 2) ∧
      ∃ i ≤ 2, ∃ op needed available,
        Stack.depths a 1 = .error (.underflow i op needed available) := by
  intro a b
  have runs : Stack.depths a 4 = .ok [3, 3, 1] := rfl
  have short : Stack.depths a (1 + 2) = .error (.underflow 2 (.named .multianewarray) 3 2) :=
    rfl
  obtain ⟨parts, -, deeper, -⟩ := depths_compositional a b 4 2
  obtain ⟨-, -, -, lower, -⟩ := depths_compositional a b 1 2
  refine ⟨by decide, runs, deeper _ runs, ?_, short, lower _ _ _ _ short⟩
  rw [parts, runs]
  rfl

end BytecodeMutation.Stack
