import BytecodeMutation.Proofs.Body.Block
import BytecodeMutation.Proofs.Code.Split

/-!
From located instructions to a body. `Code.read_eq_ok_iff` says that code is read as the blocks of
its instructions, if every target is the offset of an instruction.
-/
namespace BytecodeMutation

section
variable {located : List (Nat × Instruction Int)}

/-- The offsets that are targets, in code order. -/
def targetedOffsets (located : List (Nat × Instruction Int)) : List Nat :=
  (located.map (·.1)).filter fun pc => (pc : Int) ∈ located.flatMap (·.2.targets)

/-- The label of a target: its rank among the targeted offsets. -/
def labelFor (located : List (Nat × Instruction Int)) (pc : Nat) : Label :=
  ⟨UInt32.ofNat ((targetedOffsets located).countP (· < pc))⟩

def linesAt (lines : List LineEntry) (pc : Nat) : List UInt32 :=
  (lines.filter (·.start.toNat = pc)).map (·.line)

/-- The block that a located instruction is read as. -/
def blockAt (located : List (Nat × Instruction Int)) (lines : List LineEntry)
    (p : Nat × Instruction Int) : Block where
  label? := if p.1 ∈ targetedOffsets located then some (labelFor located p.1) else none
  lines := linesAt lines p.1
  code := p.2.map fun t => labelFor located t.toNat

/-- The body that located instructions are read as. -/
def bodyOf (located : List (Nat × Instruction Int)) (lines : List LineEntry) : Body :=
  .ofBlocks (located.map (blockAt located lines))

/-- The offset of the instruction with index `g` when the instructions are written anew. -/
def newOffset (located : List (Nat × Instruction Int)) (g : Nat) : Nat :=
  Instruction.endOf 0 ((located.map (·.2)).take g)

/-- What a target is written as. -/
def newTarget (located : List (Nat × Instruction Int)) (lines : List LineEntry) (t : Int) :
    Target :=
  (bodyOf located lines).resolve (labelFor located t.toNat)

/-- Every target is the offset of an instruction. -/
def Landing (located : List (Nat × Instruction Int)) : Prop :=
  ∀ p ∈ located, ∀ t ∈ p.2.targets, ∃ q ∈ located, (q.1 : Int) = t

/-- Located instructions that are read as a body, few enough for their labels to be distinct. -/
structure Sound (located : List (Nat × Instruction Int)) : Prop where
  ascending : (located.map (·.1)).Pairwise (· < ·)
  landing : Landing located
  few : located.length ≤ 4294967296

theorem Split.sound {bytes : List UInt8} (h : Split 0 bytes located) (landing : Landing located)
    (short : bytes.length < 4294967296) : Sound located :=
  ⟨h.ascending, landing, Nat.le_of_lt (Nat.lt_of_le_of_lt h.length_le short)⟩

theorem mem_targetedOffsets {pc : Nat} :
    pc ∈ targetedOffsets located ↔
      (∃ q ∈ located, q.1 = pc) ∧ ∃ p ∈ located, (pc : Int) ∈ p.2.targets := by
  simp only [targetedOffsets, List.mem_filter, List.mem_map, List.mem_flatMap, decide_eq_true_eq]

theorem Landing.mem_targetedOffsets (landing : Landing located) {p : Nat × Instruction Int}
    (hp : p ∈ located) {t : Int} (ht : t ∈ p.2.targets) :
    0 ≤ t ∧ t.toNat ∈ targetedOffsets located := by
  obtain ⟨q, hq, rfl⟩ := landing p hp t ht
  exact ⟨by omega, BytecodeMutation.mem_targetedOffsets.mpr ⟨⟨q, hq, rfl⟩, p, hp, ht⟩⟩

/-- In an ascending list the rank of an element is its index. -/
theorem countP_lt_getElem {xs : List Nat} (ascending : xs.Pairwise (· < ·)) {i : Nat}
    (within : i < xs.length) : xs.countP (· < xs[i]) = i := by
  induction xs generalizing i with
  | nil => exact absurd within (Nat.not_lt_zero i)
  | cons x xs ih =>
    obtain ⟨first, others⟩ := List.pairwise_cons.mp ascending
    cases i with
    | zero =>
      have none : xs.countP (· < x) = 0 := by
        apply List.countP_eq_zero.mpr
        intro y hy
        have := first y hy
        simp only [decide_eq_true_eq]
        omega
      simp [none]
    | succ i =>
      have less := first _ (List.getElem_mem (Nat.lt_of_succ_lt_succ within))
      simp [ih others (Nat.lt_of_succ_lt_succ within), less]

theorem getD_linesByStart (lines : List LineEntry) (pc : Nat) :
    (linesByStart lines).getD pc [] = linesAt lines pc := by
  induction lines with
  | nil => simp [linesByStart, linesAt]
  | cons e lines ih =>
    have unfolded : linesByStart (e :: lines) = (linesByStart lines).insert e.start.toNat
      (e.line :: (linesByStart lines).getD e.start.toNat []) := rfl
    rw [unfolded, Std.HashMap.getD_insert]
    by_cases here : e.start.toNat = pc
    · simp [here, ih, linesAt]
    · simp [here, ih, linesAt]

theorem getElem?_labelsByOffset (ascending : (located.map (·.1)).Pairwise (· < ·))
    (landing : Landing located) (pc : Nat) :
    (labelsByOffset located)[pc]? =
      if pc ∈ targetedOffsets located then some (labelFor located pc) else none := by
  have offsets : (located.map (·.1)).filter (Std.HashSet.ofList
      (located.flatMap fun p => p.2.targets.map Int.toNat)).contains =
        targetedOffsets located := by
    apply List.filter_congr
    intro pc _
    rw [Std.HashSet.contains_ofList, Bool.eq_iff_iff, List.contains_iff_mem, decide_eq_true_eq]
    simp only [List.mem_flatMap, List.mem_map]
    constructor
    · rintro ⟨p, hp, t, ht, rfl⟩
      have positive := (landing.mem_targetedOffsets hp ht).1
      exact ⟨p, hp, by rwa [Int.toNat_of_nonneg positive]⟩
    · rintro ⟨p, hp, ht⟩
      exact ⟨p, hp, _, ht, Int.toNat_natCast pc⟩
  have sorted : (targetedOffsets located).Pairwise (· < ·) := ascending.sublist List.filter_sublist
  simp only [labelsByOffset, offsets]
  split
  · next member =>
    obtain ⟨i, within, rfl⟩ := List.getElem_of_mem member
    refine Std.HashMap.getElem?_ofList_of_mem (beq_self_eq_true _) ?_ ?_
    · have keys : ((targetedOffsets located).zipIdx.map (·.1)).Pairwise (· < ·) := by
        rwa [List.zipIdx_map_fst]
      rw [List.pairwise_map] at keys ⊢
      exact keys.imp fun less => beq_eq_false_iff_ne.mpr (Nat.ne_of_lt less)
    · rw [labelFor, countP_lt_getElem sorted within]
      refine List.mem_map.mpr ⟨((targetedOffsets located)[i], i), ?_, rfl⟩
      exact List.mem_zipIdx_iff_getElem?.mpr (List.getElem?_eq_getElem within)
  · next absent =>
    apply Std.HashMap.getElem?_ofList_of_contains_eq_false
    have keys : ((targetedOffsets located).zipIdx.map fun p =>
        (p.1, (⟨UInt32.ofNat p.2⟩ : Label))).map Prod.fst = targetedOffsets located := by
      rw [List.map_map]
      exact List.zipIdx_map_fst 0 _
    rw [keys, ← Bool.not_eq_true, List.contains_iff_mem]
    exact absent

/-- A target is tested against the set of offsets. -/
theorem contains_starts {t : Int} :
    (decide (0 ≤ t) && (Std.HashSet.ofList (located.map (·.1))).contains t.toNat) = true ↔
      ∃ q ∈ located, (q.1 : Int) = t := by
  simp only [Std.HashSet.contains_ofList, Bool.and_eq_true, decide_eq_true_eq,
    List.contains_iff_mem, List.mem_map]
  constructor
  · rintro ⟨positive, q, hq, same⟩
    exact ⟨q, hq, by omega⟩
  · rintro ⟨q, hq, rfl⟩
    exact ⟨by omega, q, hq, by omega⟩

theorem findSome?_strayTarget (located : List (Nat × Instruction Int)) :
    located.findSome? (strayTarget? (Std.HashSet.ofList (located.map (·.1)))) = none ↔
      Landing located := by
  simp only [List.findSome?_eq_none_iff, strayTarget?, Option.map_eq_none_iff, List.find?_eq_none,
    Bool.not_eq_true', Bool.not_eq_false, contains_starts, Landing]

theorem marked_eq (ascending : (located.map (·.1)).Pairwise (· < ·)) (landing : Landing located)
    (lines : List LineEntry) {p : Nat × Instruction Int} (hp : p ∈ located) :
    marked (labelsByOffset located) (linesByStart lines) p.1 p.2 =
      (blockAt located lines p).elements := by
  have code : p.2.map (fun t => (labelsByOffset located).getD t.toNat default) =
      p.2.map fun t => labelFor located t.toNat := by
    apply Instruction.map_congr
    intro t ht
    rw [Std.HashMap.getD_eq_getD_getElem?, getElem?_labelsByOffset ascending landing,
      if_pos (landing.mem_targetedOffsets hp ht).2]
    rfl
  rw [marked, getElem?_labelsByOffset ascending landing, getD_linesByStart, code]
  simp only [Block.elements, blockAt]
  split <;> rfl

theorem labels_blockAt (located : List (Nat × Instruction Int)) (lines : List LineEntry) :
    Block.labels (located.map (blockAt located lines)) =
      (targetedOffsets located).map (labelFor located) := by
  have kept : (located.map (·.1)).filter (· ∈ targetedOffsets located) =
      targetedOffsets located := by
    apply List.filter_congr
    intro pc hpc
    simp only [targetedOffsets, List.mem_filter, hpc, true_and, decide_eq_true_eq]
  have listed : Block.labels (located.map (blockAt located lines)) =
      ((located.map (·.1)).filter (· ∈ targetedOffsets located)).map (labelFor located) := by
    rw [Block.labels, List.filterMap_map, List.filter_map, List.map_map, ← List.filterMap_eq_map,
      List.filterMap_filter]
    apply List.filterMap_congr
    intro p _
    by_cases targeted : p.1 ∈ targetedOffsets located <;> simp [blockAt, targeted]
  rw [listed, kept]

/-- Code is read as a body whose labels count up. -/
theorem tidy_blockAt (sound : Sound located) (lines : List LineEntry) :
    Block.Tidy (located.map (blockAt located lines)) := by
  have sorted : (targetedOffsets located).Pairwise (· < ·) :=
    sound.ascending.sublist List.filter_sublist
  refine ⟨?_, ?_, ?_⟩
  · have filtered : (targetedOffsets located).length ≤ (located.map (·.1)).length :=
      List.length_filter_le _ _
    rw [labels_blockAt, List.length_map]
    rw [List.length_map] at filtered
    exact Nat.le_trans filtered sound.few
  · rw [labels_blockAt, List.length_map]
    apply List.ext_getElem (by simp)
    intro i within _
    rw [List.length_map] at within
    simp only [List.getElem_map, List.getElem_range, labelFor, countP_lt_getElem sorted within]
  · intro l
    rw [labels_blockAt]
    simp only [List.mem_map, Block.targets, List.mem_flatMap]
    constructor
    · rintro ⟨pc, targeted, rfl⟩
      obtain ⟨-, p, hp, ht⟩ := mem_targetedOffsets.mp targeted
      refine ⟨_, ⟨p, hp, rfl⟩, ?_⟩
      rw [blockAt, Instruction.targets_map]
      exact List.mem_map_of_mem ht
    · rintro ⟨_, ⟨p, hp, rfl⟩, hl⟩
      rw [blockAt, Instruction.targets_map] at hl
      obtain ⟨t, ht, rfl⟩ := List.mem_map.mp hl
      exact ⟨t.toNat, (sound.landing.mem_targetedOffsets hp ht).2, rfl⟩

theorem instructions_bodyOf (located : List (Nat × Instruction Int)) (lines : List LineEntry) :
    (bodyOf located lines).instructions =
      (located.map (·.2)).map fun i => i.map fun t => labelFor located t.toNat := by
  rw [bodyOf, Body.instructions_ofBlocks, List.map_map, List.map_map]
  rfl

/-- The label of a targeted instruction stands right before it. -/
theorem gap?_bodyOf (sound : Sound located) (lines : List LineEntry) {g : Nat}
    {p : Nat × Instruction Int} (here : located[g]? = some p)
    (targeted : p.1 ∈ targetedOffsets located) :
    Body.gap? (labelFor located p.1) (bodyOf located lines) = some g := by
  have distinct := (tidy_blockAt sound lines).nodup
  refine (Body.gap?_ofBlocks distinct).mpr ⟨blockAt located lines p, ?_, if_pos targeted⟩
  rw [List.getElem?_map, here]
  rfl

/-- A target is written as the offset that its instruction has in the new layout. -/
theorem newTarget_eq (sound : Sound located) (lines : List LineEntry) {g : Nat}
    {p : Nat × Instruction Int} (here : located[g]? = some p)
    (targeted : p.1 ∈ targetedOffsets located) :
    newTarget located lines p.1 = ⟨labelFor located p.1, newOffset located g⟩ := by
  rw [newTarget, Int.toNat_natCast, Body.resolve, gap?_bodyOf sound lines here targeted, Body.start,
    instructions_bodyOf, ← List.map_take, Instruction.endOf_map]
  rfl

theorem exists_targeted (sound : Sound located) {p : Nat × Instruction Int} (hp : p ∈ located)
    {t : Int} (ht : t ∈ p.2.targets) :
    ∃ (g : Nat) (q : Nat × Instruction Int), located[g]? = some q ∧ (q.1 : Int) = t ∧
      q.1 ∈ targetedOffsets located := by
  have targeted := (sound.landing.mem_targetedOffsets hp ht).2
  obtain ⟨q, hq, rfl⟩ := sound.landing p hp t ht
  obtain ⟨g, here⟩ := List.getElem?_of_mem hq
  exact ⟨g, q, here, rfl, targeted⟩

theorem defined_bodyOf (sound : Sound located) (lines : List LineEntry) :
    ∀ l ∈ (bodyOf located lines).targets, (Body.gap? l (bodyOf located lines)).isSome :=
  Body.defined_ofBlocks (tidy_blockAt sound lines)

end

theorem Code.read_eq_ok_iff {code : Code} {body : Body} :
    code.read = .ok body ↔
      ∃ located, Split 0 code.bytes located ∧ Landing located ∧
        body = bodyOf located code.lines := by
  simp only [← readInstructions_eq_ok_iff, Code.read]
  cases found : readInstructions 0 code.bytes with
  | error e => simp
  | ok located =>
    have ascending := (readInstructions_eq_ok_iff.mp found).ascending
    simp only [Except.ok.injEq, exists_eq_left']
    cases stray : located.findSome? (strayTarget? (.ofList (located.map (·.1)))) with
    | some e =>
      have astray : ¬ Landing located := by
        intro landing
        rw [(findSome?_strayTarget located).mpr landing] at stray
        cases stray
      simp [astray]
    | none =>
      have landing := (findSome?_strayTarget located).mp stray
      have blocks : (located.flatMap fun p =>
          marked (labelsByOffset located) (linesByStart code.lines) p.1 p.2) =
            bodyOf located code.lines := by
        rw [bodyOf, Body.ofBlocks, List.flatMap_map]
        exact List.flatMap_congr fun p hp => marked_eq ascending landing code.lines hp
      simp only [blocks, landing, true_and, Except.ok.injEq, eq_comm]

end BytecodeMutation
