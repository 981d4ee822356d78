import BytecodeMutation.Proofs.Body.Normal

/-!
Tidy bodies are their own normal form: labels count up in code order, each one is referred to, and
every marker stands before an instruction. So writing and reading gives such a body back as it is.
-/
namespace BytecodeMutation.Body

section
variable {bs : List Block}

theorem linesIn_ofBlocks {g : Nat} {b : Block} (here : bs[g]? = some b) :
    (ofBlocks bs).linesIn g = b.lines := by
  have unmarked (c : Block) (rest : List Block) (k : Nat) : (ofBlocks (c :: rest)).linesIn k =
      linesIn (c.lines.map .line ++ .code c.code :: ofBlocks rest) k := by
    rw [ofBlocks_cons]
    cases c.label? <;> rfl
  induction bs generalizing g with
  | nil => cases here
  | cons c rest ih =>
    rw [unmarked]
    cases g with
    | zero =>
      cases here
      induction b.lines with
      | nil => rfl
      | cons n ns found => exact congrArg (n :: ·) found
    | succ g =>
      rw [← ih here]
      induction c.lines with
      | nil => rfl
      | cons n ns found => exact found

theorem mem_gaps_ofBlocks (tidy : Block.Tidy bs) {g : Nat} {b : Block} (here : bs[g]? = some b) :
    g ∈ (ofBlocks bs).gaps ↔ b.label?.isSome := by
  rw [mem_gaps, targets_ofBlocks]
  constructor
  · rintro ⟨l, -, found⟩
    obtain ⟨b', here', label⟩ := (gap?_ofBlocks tidy.nodup).mp found
    cases here.symm.trans here'
    simp [label]
  · intro some
    obtain ⟨l, label⟩ := Option.isSome_iff_exists.mp some
    refine ⟨l, (tidy.used l).mp ?_, (gap?_ofBlocks tidy.nodup).mpr ⟨b, here, label⟩⟩
    exact List.mem_filterMap.mpr ⟨b, List.mem_of_getElem? here, label⟩

/-- As many labels stand before an instruction as gaps before it are referred to. -/
theorem length_labels_take (tidy : Block.Tidy bs) {g : Nat} (within : g ≤ bs.length) :
    (Block.labels (bs.take g)).length = (List.range g).countP (· ∈ (ofBlocks bs).gaps) := by
  induction g with
  | zero => rfl
  | succ g ih =>
    have here := List.getElem?_eq_getElem (Nat.lt_of_succ_le within)
    have member := mem_gaps_ofBlocks tidy here
    rw [List.range_succ, List.countP_append, ← ih (Nat.le_of_succ_le within), List.take_add_one,
      here, Block.labels, List.filterMap_append, List.length_append]
    congr 1
    cases label : bs[g].label? <;> simp_all

/-- The label of a block is the label of its gap. -/
theorem gapLabel_ofBlocks (tidy : Block.Tidy bs) {g : Nat} {b : Block} {l : Label}
    (here : bs[g]? = some b) (label : b.label? = some l) : (ofBlocks bs).gapLabel g = l := by
  obtain ⟨within, same⟩ := List.getElem?_eq_some_iff.mp here
  have parts : Block.labels bs =
      Block.labels (bs.take g) ++ l :: Block.labels (bs.drop (g + 1)) := by
    conv => lhs; rw [← List.take_append_drop g bs, List.drop_eq_getElem_cons within]
    rw [Block.labels, List.filterMap_append, same, List.filterMap_cons_some label]
    rfl
  -- labels count up, so the label is the number of labels before it
  have index : (Block.labels bs)[(Block.labels (bs.take g)).length]? = some l := by simp [parts]
  rw [tidy.numbered, List.getElem?_map] at index
  obtain ⟨k, hk, rfl⟩ := Option.map_eq_some_iff.mp index
  obtain ⟨_, rfl⟩ := List.getElem?_eq_some_iff.mp hk
  rw [List.getElem_range, length_labels_take tidy (Nat.le_of_lt within), gapLabel]

theorem rename_ofBlocks (tidy : Block.Tidy bs) {l : Label} (target : l ∈ Block.targets bs) :
    (ofBlocks bs).rename l = l := by
  obtain ⟨g, b, here, label, found⟩ := exists_gap tidy target
  rw [rename, found]
  exact gapLabel_ofBlocks tidy here label

/-- A tidy body is its own normal form. -/
theorem normalForm_ofBlocks (tidy : Block.Tidy bs) : (ofBlocks bs).normalForm = ofBlocks bs := by
  have blocks : (bs.map (·.code)).zipIdx.map (ofBlocks bs).normalBlock = bs := by
    apply List.ext_getElem?
    intro g
    rw [List.getElem?_map, List.getElem?_zipIdx, List.getElem?_map]
    cases here : bs[g]? with
    | none => rfl
    | some b =>
      have targets : ∀ l ∈ b.code.targets, l ∈ Block.targets bs := fun l hl =>
        List.mem_flatMap.mpr ⟨b, List.mem_of_getElem? here, hl⟩
      have code := Instruction.map_id_of fun l hl => rename_ofBlocks tidy (targets l hl)
      have member := mem_gaps_ofBlocks tidy here
      have label : (if g ∈ (ofBlocks bs).gaps then some ((ofBlocks bs).gapLabel g) else none) =
          b.label? := by
        cases label : b.label? with
        | none => rw [if_neg (by simp [member, label])]
        | some l => rw [if_pos (by simp [member, label]), gapLabel_ofBlocks tidy here label]
      simp only [Option.map_some, normalBlock, Nat.zero_add, label, code, linesIn_ofBlocks here]
  rw [normalForm, instructions_ofBlocks, blocks]

theorem inside_ofBlocks (tidy : Block.Tidy bs) : (ofBlocks bs).Inside := by
  intro l _ g found
  obtain ⟨b, here, -⟩ := (gap?_ofBlocks tidy.nodup).mp found
  rw [instructions_ofBlocks, List.length_map]
  exact (List.getElem?_eq_some_iff.mp here).1

end

end BytecodeMutation.Body
