import BytecodeMutation.Proofs.Mutation.Application

/-!
Many mutators in one pipeline. Later stages see what earlier ones put in the place of an element
under the same index, but no mutator applies to what it has left itself, and another mutator never
makes the same candidate. So under a target a pipeline does what the engine does, and so it does for
one method after the other in one session.
-/
namespace BytecodeMutation

namespace Pipeline

/-- What an element becomes on its way through the stages. -/
def through (skip : Nat → Bool) (scope : Scope) :
    List Stage → Element × Nat → List (Element × Nat)
  | [], p => [p]
  | s :: rest, p => (s.emit skip scope p).flatMap (through skip scope rest)

/-- A run leaves one block for each element. -/
theorem runFrom_eq_flatMap (skip : Nat → Bool) (stages : List Stage)
    (current : List (Element × Nat)) (session : Session) :
    (runFrom skip stages current session).1 =
      current.flatMap (through skip session.scope stages) := by
  induction stages generalizing current session with
  | nil => exact (List.flatMap_singleton' current).symm
  | cons s rest ih =>
    rw [runFrom_cons, ih, List.flatMap_assoc]
    rfl

theorem scope_runFrom (skip : Nat → Bool) (stages : List Stage) (current : List (Element × Nat))
    (session : Session) : (runFrom skip stages current session).2.scope = session.scope := by
  induction stages generalizing current session with
  | nil => rfl
  | cons s rest ih => rw [runFrom_cons, ih]

variable (p : Pipeline) (body : Body) (session : Session)

theorem run_eq_flatMap : (p.run body session).1 =
    body.zipIdx.flatMap fun q => (through p.skip session.scope p.stages q).map (·.1) := by
  have blocks := runFrom_eq_flatMap p.skip p.stages body.zipIdx session
  rw [← List.map_flatMap, ← blocks]
  rfl

theorem scope_run : (p.run body session).2.scope = session.scope :=
  scope_runFrom p.skip p.stages body.zipIdx session

/-- Runs one method after the other in the same session. -/
def runAll (p : Pipeline) : List Method → Session → List Body × Session
  | [], session => ([], session)
  | method :: rest, session =>
    let (body, session) := p.run method.body (session.enter method.location)
    let (bodies, session) := runAll p rest session
    (body :: bodies, session)

end Pipeline

/-- An edit leaves arithmetic with the mutator's operator, a condition with its relation, or stack
opcodes. No mutator applies to what it leaves. -/
theorem Offers.edit?_eq_none {m : Mutator} {e e' : Element} {x : Edit} (h : Offers m e x)
    (left : e' ∈ x.replacement) : m.edit? e' = none := by
  apply Option.eq_none_iff_forall_ne_some.mpr
  intro y offered
  have again := Mutator.edit?_eq_some_iff.mp offered
  cases h with
  | operator was other becomes =>
    cases List.mem_singleton.mp left
    cases again with
    | operator was' other' becomes' =>
      cases becomes.symm.trans was'
      exact other' rfl
  | relation was other becomes =>
    cases List.mem_singleton.mp left
    cases again with
    | relation was' other' becomes' =>
      cases becomes.symm.trans was'
      exact other' rfl
  | firstSingle =>
    simp only [List.mem_cons, List.not_mem_nil, or_false] at left
    rcases left with rfl | rfl <;> cases offered
  | firstDouble =>
    simp only [List.mem_cons, List.not_mem_nil, or_false] at left
    rcases left with rfl | rfl | rfl <;> cases offered
  | secondSingle | secondDouble =>
    cases List.mem_singleton.mp left
    cases offered

namespace Mutator

/-- The candidate is what the mutator offers for an element of the method. -/
def Hits (m : Mutator) (method : Method) (c : Candidate) (p : Element × Nat) : Prop :=
  ∃ x, m.edit? p.1 = some x ∧ ⟨method.location, p.2, m.id, x.description⟩ = c

section
variable {m m' : Mutator} {ms : List Mutator} {method : Method} {c : Candidate}
  {p q : Element × Nat} {x : Edit} {skip : Nat → Bool}

theorem Hits.index_eq (h : m.Hits method c p) : p.2 = c.index := by
  obtain ⟨x, -, rfl⟩ := h
  rfl

/-- A candidate belongs to one mutator. -/
theorem Hits.unique (h : m.Hits method c p) (h' : m'.Hits method c q) : m = m' := by
  obtain ⟨x, -, rfl⟩ := h
  obtain ⟨y, -, names⟩ := h'
  exact (id_injective (congrArg Candidate.mutator names)).symm

theorem Hits.mutatorFor?_eq {engine : Engine} (h : m.Hits method c p)
    (member : m ∈ engine.mutators) : engine.mutatorFor? method c = some m := by
  obtain ⟨x, -, rfl⟩ := h
  exact Engine.mutatorFor?_eq_some_iff.mpr ⟨rfl, member, rfl⟩

theorem emit_of_missed (missed : skip p.2 ∨ ¬ m.Hits method c p) :
    m.stage.emit skip ⟨method.location, some c⟩ p = [p] := by
  rw [Stage.emit]
  by_cases skipped : skip p.2
  · rw [if_pos skipped]
  · have other := missed.resolve_left skipped
    rw [if_neg skipped, Engine.emitted_of_ne fun x offered names => other ⟨x, offered, names⟩]
    rfl

theorem emit_of_offered (shown : ¬ skip p.2) (offered : m.edit? p.1 = some x)
    (names : ⟨method.location, p.2, m.id, x.description⟩ = c) :
    m.stage.emit skip ⟨method.location, some c⟩ p = x.replacement.map fun e => (e, p.2) := by
  subst names
  simp [Stage.emit, shown, visit_of_edit offered, Scope.selects]

/-- What the target does not name passes all stages. -/
theorem through_of_missed (missed : ∀ m ∈ ms, skip p.2 ∨ ¬ m.Hits method c p) :
    Pipeline.through skip ⟨method.location, some c⟩ (ms.map (·.stage)) p = [p] := by
  induction ms with
  | nil => rfl
  | cons m ms ih =>
    obtain ⟨here, later⟩ := List.forall_mem_cons.mp missed
    rw [List.map_cons, Pipeline.through, emit_of_missed here, List.flatMap_singleton, ih later]

/-- What the target names is replaced by the first stage of its mutator, and what that leaves
passes the others. -/
theorem through_of_offered (shown : ¬ skip p.2) (offered : m.edit? p.1 = some x)
    (names : ⟨method.location, p.2, m.id, x.description⟩ = c) (member : m ∈ ms) :
    Pipeline.through skip ⟨method.location, some c⟩ (ms.map (·.stage)) p =
      x.replacement.map fun e => (e, p.2) := by
  have hit : m.Hits method c p := ⟨x, offered, names⟩
  induction ms with
  | nil => exact absurd member List.not_mem_nil
  | cons m' ms ih =>
    rw [List.map_cons, Pipeline.through]
    by_cases same : m = m'
    · subst same
      have settled : ∀ e ∈ x.replacement, Pipeline.through skip ⟨method.location, some c⟩
          (ms.map (·.stage)) (e, p.2) = [(e, p.2)] := by
        intro e left
        apply through_of_missed
        intro m' _
        right
        intro again
        -- only the mutator of the target could hit once more, and it does not apply here
        obtain rfl := hit.unique again
        obtain ⟨y, offered', -⟩ := again
        have none := (edit?_eq_some_iff.mp offered).edit?_eq_none left
        cases none.symm.trans offered'
      rw [emit_of_offered shown offered names, List.flatMap_map, List.flatMap_congr settled,
        ← List.map_eq_flatMap]
    · have missed : ¬ m'.Hits method c p := fun again => same (hit.unique again)
      rw [emit_of_missed (.inr missed), List.flatMap_singleton]
      exact ih ((List.mem_cons.mp member).resolve_left same)

end

end Mutator

namespace Engine

variable (engine : Engine) (skip : Nat → Bool) (c : Candidate)

/-- All mutators of an engine in one pipeline carry out a target as the engine does, unless its
index is skipped. -/
theorem run_eq_apply (method : Method) (found : List Candidate) :
    (Pipeline.run ⟨engine.mutators.map (·.stage), skip⟩ method.body
        ⟨⟨method.location, some c⟩, found⟩).1 =
      if skip c.index then method.body else engine.apply method c := by
  have missed (h : ∀ p ∈ method.body.zipIdx, ∀ m ∈ engine.mutators,
      skip p.2 ∨ ¬ m.Hits method c p) :
      (Pipeline.run ⟨engine.mutators.map (·.stage), skip⟩ method.body
        ⟨⟨method.location, some c⟩, found⟩).1 = method.body := by
    rw [Pipeline.run_eq_flatMap]
    apply flatMap_zipIdx_eq_self
    intro p visited
    rw [Mutator.through_of_missed (h p visited), List.map_singleton]
  by_cases skipped : skip c.index
  · rw [if_pos skipped]
    apply missed
    intro p _ m _
    by_cases here : p.2 = c.index
    · exact .inl (here ▸ skipped)
    · exact .inr fun hit => here hit.index_eq
  rw [if_neg skipped, apply]
  cases responsible : engine.mutatorFor? method c with
  | none =>
    apply missed
    intro p _ m member
    right
    intro hit
    cases responsible.symm.trans (hit.mutatorFor?_eq member)
  | some m =>
    have member := (mutatorFor?_eq_some_iff.mp responsible).2.1
    dsimp only
    rw [pass, Pipeline.run_eq_flatMap, Pipeline.run_eq_flatMap]
    apply List.flatMap_congr
    intro p _
    congr 1
    change _ = Pipeline.through (fun _ => false) ⟨method.location, some c⟩ ([m].map (·.stage)) p
    by_cases hit : m.Hits method c p
    · obtain ⟨x, offered, names⟩ := hit
      have shown : ¬ skip p.2 := by rwa [← names] at skipped
      rw [Mutator.through_of_offered shown offered names member,
        Mutator.through_of_offered Bool.false_ne_true offered names List.mem_cons_self]
    · rw [Mutator.through_of_missed, Mutator.through_of_missed]
      · intro m' member'
        exact .inr (List.mem_singleton.mp member' ▸ hit)
      · intro m' member'
        right
        intro hit'
        obtain rfl := Option.some.inj (responsible.symm.trans (hit'.mutatorFor?_eq member'))
        exact hit hit'

theorem runAll_eq_map (methods : List Method) (location : Location) (found : List Candidate) :
    (Pipeline.runAll ⟨engine.mutators.map (·.stage), skip⟩ methods
        ⟨⟨location, some c⟩, found⟩).1 =
      methods.map fun method => if skip c.index then method.body else engine.apply method c := by
  induction methods generalizing location found with
  | nil => rfl
  | cons method rest ih =>
    let p : Pipeline := ⟨engine.mutators.map (·.stage), skip⟩
    let session : Session := ⟨⟨method.location, some c⟩, found⟩
    have scope : (p.run method.body session).2.scope = ⟨method.location, some c⟩ :=
      p.scope_run method.body session
    have later : (p.run method.body session).2 =
        ⟨⟨method.location, some c⟩, (p.run method.body session).2.found⟩ := by rw [← scope]
    have first := run_eq_apply engine skip c method found
    rw [List.map_cons, ← first, ← ih method.location, ← later]
    rfl

/-- Under a target, the mutators of an engine in one pipeline, in any order and any number of times,
do what the engine does, or nothing if the index is skipped. In one session this holds of every
method, whatever has been found before. -/
theorem run_targeted :
    (∀ method : Method, (Pipeline.run ⟨engine.mutators.map (·.stage), skip⟩ method.body
        (.start ⟨method.location, some c⟩)).1 =
      if skip c.index then method.body else engine.apply method c) ∧
    ∀ methods location found, (Pipeline.runAll ⟨engine.mutators.map (·.stage), skip⟩ methods
        ⟨⟨location, some c⟩, found⟩).1 =
      methods.map fun method => if skip c.index then method.body else engine.apply method c :=
  ⟨fun method => run_eq_apply engine skip c method [], runAll_eq_map engine skip c⟩

/-- The second of two additions becomes a subtraction, with the mutator twice in the pipeline and
another one in between. It is carried out in each method of its name, and nothing else is. -/
theorem run_targeted_second :
    let site : Location := ⟨⟨"Calc"⟩, ⟨"run", "(III)I"⟩⟩
    let add : Element := .code (.plain (.named .iadd))
    let sub : Element := .code (.plain (.named .isub))
    let stages := [Mutator.operator .sub, .deletion .second, .operator .sub].map (·.stage)
    let c : Candidate := ⟨site, 1, "aor.subtraction", "AOR: Changed + to -"⟩
    let other : Location := ⟨⟨"Calc"⟩, ⟨"run", "(II)I"⟩⟩
    (Pipeline.run ⟨stages, fun _ => false⟩ [add, add] (.start ⟨site, some c⟩)).1 = [add, sub] ∧
      (Pipeline.run ⟨stages, (· = 1)⟩ [add, add] (.start ⟨site, some c⟩)).1 = [add, add] ∧
      (Pipeline.runAll ⟨stages, fun _ => false⟩
        [⟨site, [add, add]⟩, ⟨other, [add, add]⟩, ⟨site, [sub, add]⟩] ⟨⟨other, some c⟩, [c]⟩).1 =
        [[add, sub], [add, add], [sub, sub]] := by
  intro site add sub stages c other
  let engine : Engine := ⟨[.operator .sub, .deletion .second, .operator .sub], true⟩
  obtain ⟨shown, batch⟩ := run_targeted engine (fun _ => false) c
  have skipped := (run_targeted engine (· = 1) c).1 ⟨site, [add, add]⟩
  refine ⟨(shown ⟨site, [add, add]⟩).trans ?_, skipped.trans ?_, (batch _ _ _).trans ?_⟩
  · decide
  · decide
  · decide

end Engine

end BytecodeMutation
