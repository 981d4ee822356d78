import BytecodeMutation.Proofs.Mutation.Stages

/-!
Runs of arbitrary stages. Whatever the stages put in the place of an element keeps its index, so a
run leaves one block for each element, and every stage finds its candidates in the order of the
unchanged body. What was found before stays in front.
-/
namespace BytecodeMutation

/-- Blocks of elements with the key of what they stand for are in the order of what they stand
for. -/
theorem pairwise_flatMap_of_key {α β : Type} {key : α → Nat} {key' : β → Nat} {f : α → List β}
    {xs : List α} (sorted : xs.Pairwise (key · ≤ key ·))
    (kept : ∀ x ∈ xs, ∀ y ∈ f x, key' y = key x) : (xs.flatMap f).Pairwise (key' · ≤ key' ·) := by
  rw [List.pairwise_flatMap]
  constructor
  · intro x hx
    apply List.pairwise_of_forall_mem_list
    intro y hy z hz
    exact Nat.le_of_eq ((kept x hx y hy).trans (kept x hx z hz).symm)
  · apply sorted.imp_of_mem
    intro x x' hx hx' before y hy z hz
    rw [kept x hx y hy, kept x' hx' z hz]
    exact before

namespace Stage

variable {s : Stage} {skip : Nat → Bool} {scope : Scope} {p q : Element × Nat} {c : Candidate}

theorem index_of_mem_emit (h : q ∈ s.emit skip scope p) : q.2 = p.2 := by
  rw [emit] at h
  split at h
  · rw [List.mem_singleton.mp h]
  · obtain ⟨e, -, rfl⟩ := List.mem_map.mp h
    rfl

theorem of_mem_find (h : c ∈ s.find skip scope p) : c.index = p.2 ∧ ¬ skip p.2 := by
  rw [find] at h
  split at h
  · cases h
  · next shown =>
    obtain ⟨change, -, rfl⟩ := List.mem_map.mp h
    exact ⟨rfl, shown⟩

end Stage

namespace Pipeline

variable {skip : Nat → Bool} {scope : Scope} {stages : List Stage} {p q : Element × Nat}

theorem index_of_mem_through (h : q ∈ through skip scope stages p) : q.2 = p.2 := by
  induction stages generalizing p with
  | nil => rw [List.mem_singleton.mp h]
  | cons s rest ih =>
    obtain ⟨r, emitted, later⟩ := List.mem_flatMap.mp h
    rw [ih later, Stage.index_of_mem_emit emitted]

theorem through_of_skipped (skipped : skip p.2) : through skip scope stages p = [p] := by
  induction stages with
  | nil => rfl
  | cons s rest ih => rw [through, Stage.emit, if_pos skipped, List.flatMap_singleton, ih]

theorem runFrom_append (skip : Nat → Bool) (earlier later : List Stage)
    (current : List (Element × Nat)) (session : Session) :
    runFrom skip (earlier ++ later) current session =
      runFrom skip later (runFrom skip earlier current session).1
        (runFrom skip earlier current session).2 := by
  induction earlier generalizing current session with
  | nil => rfl
  | cons s earlier ih => rw [List.cons_append, runFrom, ih, runFrom]

section
variable (p : Pipeline) (scope : Scope) (body : Body)

/-- The elements that the first `k` stages leave, each with the index of the one it stands for. -/
def leftBy (k : Nat) : List (Element × Nat) :=
  body.zipIdx.flatMap (through p.skip scope (p.stages.take k))

/-- The candidates that the stage behind `k` others adds. -/
def addedBy (k : Nat) : List Candidate :=
  p.stages[k]?.toList.flatMap fun s => (p.leftBy scope body k).flatMap (s.find p.skip scope)

theorem leftBy_sorted (k : Nat) : (p.leftBy scope body k).Pairwise (·.2 ≤ ·.2) := by
  have indices : (body.zipIdx.map (·.2)).Pairwise (· ≤ ·) := by
    rw [List.zipIdx_map_snd]
    exact List.pairwise_le_range'
  rw [List.pairwise_map] at indices
  exact pairwise_flatMap_of_key indices fun _ _ _ => index_of_mem_through

theorem addedBy_sorted (k : Nat) : (p.addedBy scope body k).Pairwise (·.index ≤ ·.index) := by
  rw [addedBy]
  cases p.stages[k]? with
  | none => exact .nil
  | some s =>
    rw [Option.toList_some, List.flatMap_singleton]
    exact pairwise_flatMap_of_key (p.leftBy_sorted scope body k) fun _ _ _ h =>
      (Stage.of_mem_find h).1

theorem of_mem_addedBy {k : Nat} {c : Candidate} (h : c ∈ p.addedBy scope body k) :
    c.index < body.length ∧ ¬ p.skip c.index := by
  obtain ⟨s, -, found⟩ := List.mem_flatMap.mp h
  obtain ⟨q, left, found⟩ := List.mem_flatMap.mp found
  obtain ⟨r, visited, block⟩ := List.mem_flatMap.mp left
  obtain ⟨place, shown⟩ := Stage.of_mem_find found
  refine ⟨?_, place ▸ shown⟩
  rw [place, index_of_mem_through block, ← Nat.zero_add body.length]
  exact List.snd_lt_add_of_mem_zipIdx visited

variable (session : Session)

/-- After `k` stages their candidates stand behind the earlier ones. -/
theorem found_runFrom (k : Nat) :
    (runFrom p.skip (p.stages.take k) body.zipIdx session).2.found =
      session.found ++ (List.range k).flatMap (p.addedBy session.scope body) := by
  induction k with
  | zero => exact (List.append_nil _).symm
  | succ k ih =>
    rw [List.take_add_one, runFrom_append, List.range_succ, List.flatMap_append,
      List.flatMap_singleton, ← List.append_assoc, ← ih, addedBy]
    cases p.stages[k]? with
    | none => exact (List.append_nil _).symm
    | some s =>
      have left := runFrom_eq_flatMap p.skip (p.stages.take k) body.zipIdx session
      have scope := scope_runFrom p.skip (p.stages.take k) body.zipIdx session
      rw [Option.toList_some, List.flatMap_singleton, leftBy, ← left, ← scope, runFrom_cons]
      rfl

/-- A run leaves one block for each element, in order: what the element becomes when it and whatever
stands for it goes through the stages one after the other. Blocks keep the index of their element,
and one with a skipped index is just that element. The candidates from before stay in front, and
those that a stage adds are in the order of the unchanged body, at indices that it has and that are
not skipped. -/
theorem run_blocks :
    (p.run body session).1 = (body.zipIdx.map fun q =>
      (through p.skip session.scope p.stages q).map (·.1)).flatten ∧
    (∀ q, ∀ r ∈ through p.skip session.scope p.stages q, r.2 = q.2) ∧
    (∀ q : Element × Nat, p.skip q.2 → through p.skip session.scope p.stages q = [q]) ∧
    (p.run body session).2 = ⟨session.scope, session.found ++
      (List.range p.stages.length).flatMap (p.addedBy session.scope body)⟩ ∧
    ∀ k, (run ⟨p.stages.take (k + 1), p.skip⟩ body session).2.found =
        (run ⟨p.stages.take k, p.skip⟩ body session).2.found ++ p.addedBy session.scope body k ∧
      (p.addedBy session.scope body k).Pairwise (·.index ≤ ·.index) ∧
      ∀ c ∈ p.addedBy session.scope body k, c.index < body.length ∧ ¬ p.skip c.index := by
  have found (k : Nat) : (run ⟨p.stages.take k, p.skip⟩ body session).2.found =
      session.found ++ (List.range k).flatMap (p.addedBy session.scope body) :=
    p.found_runFrom body session k
  refine ⟨?_, fun _ _ => index_of_mem_through, fun _ => through_of_skipped, ?_, ?_⟩
  · rw [run_eq_flatMap, List.flatMap_def]
  · have all := found p.stages.length
    rw [List.take_length] at all
    rw [← all, ← p.scope_run body session]
  · intro k
    refine ⟨?_, p.addedBy_sorted session.scope body k,
      fun _ => p.of_mem_addedBy session.scope body⟩
    rw [found, found, List.range_succ, List.flatMap_append, List.flatMap_singleton,
      List.append_assoc]

/-- A stage that doubles `NOP` twice in a row, with the last instruction skipped. -/
theorem run_blocks_doubled :
    let nop : Element := .code (.plain (.named .nop))
    let zero : Element := .code (.plain (.named .iconst0))
    let double : Stage := ⟨"NopDoubler", fun _ _ e =>
      if e = nop then ⟨[e, e], [⟨"test.nop", "doubled"⟩]⟩ else ⟨[e], []⟩⟩
    let p : Pipeline := ⟨[double, double], fun i => i == 2⟩
    let location : Location := ⟨⟨"T"⟩, ⟨"m", "()V"⟩⟩
    let c : Candidate := ⟨location, 0, "test.nop", "doubled"⟩
    let session : Session := ⟨⟨location, none⟩, [{ c with index := 7 }]⟩
    (p.run [nop, zero, nop] session).1 = [nop, nop, nop, nop, zero, nop] ∧
      through p.skip session.scope p.stages (nop, 2) = [(nop, 2)] ∧
      p.addedBy session.scope [nop, zero, nop] 1 = [c, c] ∧
      (p.run [nop, zero, nop] session).2.found = [{ c with index := 7 }, c, c, c] ∧
      0 < 3 ∧ ¬ p.skip 0 := by
  intro nop zero double p location c session
  obtain ⟨blocks, -, skipped, found, added⟩ := run_blocks p [nop, zero, nop] session
  have second : p.addedBy session.scope [nop, zero, nop] 1 = [c, c] := by decide
  have bounds := (added 1).2.2 c (by rw [second]; exact List.mem_cons_self)
  exact ⟨blocks.trans (by decide), skipped (nop, 2) rfl, second,
    (congrArg Session.found found).trans (by decide), bounds⟩

end

end Pipeline

end BytecodeMutation
