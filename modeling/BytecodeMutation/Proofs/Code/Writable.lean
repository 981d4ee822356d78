import BytecodeMutation.Proofs.Code.WellFormed

/-!
Which instructions can be written, and what is reported of the others. A well-formed instruction
can be written where every target is within the reach of its bytes. Any other one has an obstacle:
the first of kind, value and distance that is not as it should be.
-/
namespace BytecodeMutation

/-- The distances that a branch of a shape can go. -/
def Shape.Spans : Shape → Int → Prop
  | .branch16, d => -32768 ≤ d ∧ d ≤ 32767
  | .branch32, d => -2147483648 ≤ d ∧ d ≤ 2147483647
  | _, _ => False

namespace Instruction

section
variable {τ : Type}

/-- No target is too far away. A switch has room for as much as a branch of 32 bits. -/
def Reaches (distance : τ → Int) : Instruction τ → Prop
  | jump op t => op.shape.Spans (distance t)
  | tableSwitch _ t ts => ∀ u ∈ t :: ts, Shape.branch32.Spans (distance u)
  | lookupSwitch t ps => ∀ u ∈ t :: ps.map (·.2), Shape.branch32.Spans (distance u)
  | _ => True

/-- An instruction that can be written where its targets are this far away. -/
structure Writable (distance : τ → Int) (i : Instruction τ) : Prop extends i.WellFormed where
  reaches : i.Reaches distance

end

/-- What keeps the instruction at offset `pc` from being written, with the report of it. -/
inductive Obstacle (pc : Nat) (distance : Label → Int) : Instruction Label → WriteError → Prop
  | kind {i} (wrong : ¬ i.Shaped) : Obstacle pc distance i (.unsupported i.opcode)
  | value {op v} (kind : (immediate op v : Instruction Label).Shaped)
      (outside : ¬ op.shape.Holds v.toInt) :
      Obstacle pc distance (immediate op v) (.operandOutOfRange op v)
  | distance {op l} (kind : (jump op l).Shaped) (far : ¬ op.shape.Spans (distance l)) :
      Obstacle pc distance (jump op l) (.branchOutOfRange pc l (distance l))
  | table {low l ls} (bad : ¬ (tableSwitch low l ls).Writable distance) :
      Obstacle pc distance (tableSwitch low l ls) (.malformedSwitch pc)
  | lookup {l ps} (bad : ¬ (lookupSwitch l ps).Writable distance) :
      Obstacle pc distance (lookupSwitch l ps) (.malformedSwitch pc)

theorem writable_or_obstacle (pc : Nat) (distance : Label → Int) (i : Instruction Label) :
    i.Writable distance ∨ ∃ e, Obstacle pc distance i e := by
  by_cases kind : i.Shaped
  · cases i with
    | plain | access | increment | constant => exact .inl ⟨⟨kind, trivial⟩, trivial⟩
    | immediate op v =>
      by_cases holds : op.shape.Holds v.toInt
      · exact .inl ⟨⟨kind, holds⟩, trivial⟩
      · exact .inr ⟨_, .value kind holds⟩
    | jump op l =>
      by_cases near : op.shape.Spans (distance l)
      · exact .inl ⟨⟨kind, trivial⟩, near⟩
      · exact .inr ⟨_, .distance kind near⟩
    | tableSwitch low l ls =>
      by_cases good : (tableSwitch low l ls).Writable distance
      · exact .inl good
      · exact .inr ⟨_, .table good⟩
    | lookupSwitch l ps =>
      by_cases good : (lookupSwitch l ps).Writable distance
      · exact .inl good
      · exact .inr ⟨_, .lookup good⟩
  · exact .inr ⟨_, .kind kind⟩

section
variable {pc : Nat} {i : Instruction Label} {e : WriteError}
  {resolve : Label → Target} {distance : Label → Int}

theorem near_iff (away : ∀ l, ((resolve l).offset : Int) - pc = distance l) {l : Label} :
    Near pc (resolve l) ↔ Shape.branch32.Spans (distance l) := by
  rw [Near, away]
  rfl

theorem writeTableSwitch_resolve (away : ∀ l, ((resolve l).offset : Int) - pc = distance l)
    {low : Int32} {l : Label} {ls : List Label} :
    (∃ bs, writeTableSwitch pc low (resolve l) (ls.map resolve) = .ok bs) ↔
      (tableSwitch low l ls).Writable distance := by
  have reaches : (∀ t ∈ resolve l :: ls.map resolve, Near pc t) ↔
      (tableSwitch low l ls).Reaches distance := by
    simp only [Reaches, List.forall_mem_cons, List.forall_mem_map, near_iff away]
  simp only [writeTableSwitch_eq_ok_iff, exists_and_left, exists_eq, and_true, reaches, ne_eq,
    List.map_eq_nil_iff, List.length_map]
  constructor
  · rintro ⟨nonempty, few, top, near⟩
    exact ⟨⟨trivial, nonempty, few, top⟩, near⟩
  · rintro ⟨⟨-, nonempty, few, top⟩, near⟩
    exact ⟨nonempty, few, top, near⟩

theorem writeLookupSwitch_resolve (away : ∀ l, ((resolve l).offset : Int) - pc = distance l)
    {l : Label} {ps : List (Int32 × Label)} :
    (∃ bs, writeLookupSwitch pc (resolve l) (ps.map fun p => (p.1, resolve p.2)) = .ok bs) ↔
      (lookupSwitch l ps).Writable distance := by
  have reaches : (∀ t ∈ resolve l :: (ps.map fun p => (p.1, resolve p.2)).map (·.2), Near pc t) ↔
      (lookupSwitch l ps).Reaches distance := by
    simp only [Reaches, List.forall_mem_cons, List.forall_mem_map, near_iff away]
  simp only [writeLookupSwitch_eq_ok_iff, exists_and_left, exists_eq, and_true, reaches,
    List.length_map]
  constructor
  · rintro ⟨few, near⟩
    exact ⟨⟨trivial, few⟩, near⟩
  · rintro ⟨⟨-, few⟩, near⟩
    exact ⟨few, near⟩

theorem Writable.write (away : ∀ l, ((resolve l).offset : Int) - pc = distance l)
    (h : i.Writable distance) : ∃ bs, (i.map resolve).write pc = .ok bs := by
  obtain ⟨⟨shaped, fits⟩, reaches⟩ := h
  cases i with
  | plain | access | constant => exact ⟨_, if_pos shaped⟩
  | increment => exact ⟨_, rfl⟩
  | immediate op v =>
    simp only [Shaped] at shaped
    simp only [Fits] at fits
    rcases shaped with shape | shape | shape
    all_goals
      rw [shape] at fits
      simp only [map, Instruction.write, writeImmediate, shape]
      exact ⟨_, if_pos fits⟩
  | jump op l =>
    simp only [Shaped] at shaped
    simp only [Reaches, ← away] at reaches
    rcases shaped with shape | shape
    all_goals
      rw [shape] at reaches
      simp only [map, Instruction.write, writeJump, shape]
      exact ⟨_, if_pos reaches⟩
  | tableSwitch low l ls => exact (writeTableSwitch_resolve away).mpr ⟨⟨shaped, fits⟩, reaches⟩
  | lookupSwitch l ps => exact (writeLookupSwitch_resolve away).mpr ⟨⟨shaped, fits⟩, reaches⟩

theorem Obstacle.write (own : ∀ l, (resolve l).label = l)
    (away : ∀ l, ((resolve l).offset : Int) - pc = distance l) (h : Obstacle pc distance i e) :
    (i.map resolve).write pc = .error e := by
  cases h with
  | kind wrong =>
    cases i with
    | plain | access | constant => exact if_neg wrong
    | increment | tableSwitch | lookupSwitch => exact absurd trivial wrong
    | immediate op v =>
      simp only [Shaped, not_or] at wrong
      simp only [map, Instruction.write, writeImmediate]
      split
      · next shape => exact absurd shape wrong.1
      · next shape => exact absurd shape wrong.2.1
      · next shape => exact absurd shape wrong.2.2
      · rfl
    | jump op l =>
      simp only [Shaped, not_or] at wrong
      simp only [map, Instruction.write, writeJump]
      split
      · next shape => exact absurd shape wrong.1
      · next shape => exact absurd shape wrong.2
      · rfl
  | value kind outside =>
    simp only [Shaped] at kind
    rcases kind with shape | shape | shape
    all_goals
      rw [shape] at outside
      simp only [map, Instruction.write, writeImmediate, shape]
      exact if_neg outside
  | distance kind far =>
    simp only [Shaped] at kind
    rcases kind with shape | shape
    all_goals
      rw [shape] at far
      simp only [map, Instruction.write, writeJump, shape, own, away]
      exact if_neg far
  | @table low l ls bad =>
    cases written : (map resolve (tableSwitch low l ls)).write pc with
    | ok bs => exact absurd ((writeTableSwitch_resolve away).mp ⟨bs, written⟩) bad
    | error e => rw [writeTableSwitch_eq_error written]
  | @lookup l ps bad =>
    cases written : (map resolve (lookupSwitch l ps)).write pc with
    | ok bs => exact absurd ((writeLookupSwitch_resolve away).mp ⟨bs, written⟩) bad
    | error e => rw [writeLookupSwitch_eq_error written]

theorem exists_write_iff (own : ∀ l, (resolve l).label = l)
    (away : ∀ l, ((resolve l).offset : Int) - pc = distance l) :
    (∃ bs, (i.map resolve).write pc = .ok bs) ↔ i.Writable distance := by
  constructor
  · rintro ⟨bs, written⟩
    rcases writable_or_obstacle pc distance i with writable | ⟨e, obstacle⟩
    · exact writable
    · cases written.symm.trans (obstacle.write own away)
  · exact Writable.write away

theorem write_map_eq_error_iff (own : ∀ l, (resolve l).label = l)
    (away : ∀ l, ((resolve l).offset : Int) - pc = distance l) :
    (i.map resolve).write pc = .error e ↔ Obstacle pc distance i e := by
  constructor
  · intro fails
    rcases writable_or_obstacle pc distance i with writable | ⟨e', obstacle⟩
    · obtain ⟨bs, written⟩ := writable.write away
      cases fails.symm.trans written
    · cases fails.symm.trans (obstacle.write own away)
      exact obstacle
  · exact Obstacle.write own away

end

end BytecodeMutation.Instruction
