import BytecodeMutation.Proofs.Code.Marking

/-!
The markers of a body that was read. Its labels count up from zero in code order, and each one is
there because a branch or switch goes to the instruction behind it. Every line entry that begins at
an instruction stands before it, in table order, and there are no other markers.
-/
namespace BytecodeMutation
open Instruction (Spelling)
open BigEndian

namespace Body

/-- The labels that a body places, in order. -/
def labels (body : Body) : List Label :=
  body.filterMap fun
    | .label l => some l
    | _ => none

theorem labels_ofBlocks (bs : List Block) : (ofBlocks bs).labels = Block.labels bs := by
  have lines (ns : List UInt32) (body : Body) : labels (ns.map .line ++ body) = labels body := by
    induction ns with
    | nil => rfl
    | cons n ns ih => exact ih
  induction bs with
  | nil => rfl
  | cons b bs ih =>
    rw [ofBlocks_cons, Block.labels, List.filterMap_cons, ← Block.labels, ← ih]
    cases b.label? with
    | none => exact lines b.lines (.code b.code :: ofBlocks bs)
    | some l => exact congrArg (l :: ·) (lines b.lines (.code b.code :: ofBlocks bs))

end Body

/-- Blocks stand for located instructions, one block each. -/
structure Marks (lines : List LineEntry) (located : List (Nat × Instruction Int))
    (label : Int → Label) (blocks : List Block) : Prop where
  codes : blocks.map (·.code) = located.map fun p => p.2.map label
  /-- The lines that begin at the offset of the instruction, in table order. -/
  lines : blocks.map (·.lines) =
    located.map fun p => (lines.filter (·.start.toNat = p.1)).map (·.line)
  /-- A target is called by the label of the block that stands for its instruction. -/
  labels : ∀ p ∈ located, ∀ distance : Int, p.1 + distance ∈ p.2.targets →
    ∃ (g : Nat) (q : Nat × Instruction Int) (b : Block), located[g]? = some q ∧
      (q.1 : Int) = p.1 + distance ∧ blocks[g]? = some b ∧
      b.label? = some (label (p.1 + distance))

theorem marks_blockAt {located : List (Nat × Instruction Int)} (sound : Sound located)
    (lines : List LineEntry) :
    Marks lines located (fun t => labelFor located t.toNat)
      (located.map (blockAt located lines)) where
  codes := by
    rw [List.map_map]
    rfl
  lines := by
    rw [List.map_map]
    rfl
  labels := by
    intro p hp distance ht
    obtain ⟨g, q, here, offset, targeted⟩ := exists_targeted sound hp ht
    refine ⟨g, q, blockAt located lines q, here, offset, ?_, ?_⟩
    · rw [List.getElem?_map, here, Option.map_some]
    · rw [blockAt, if_pos targeted, ← offset, Int.toNat_natCast]

/-- The labels of a body that was read are the first ones in order, and just those that are
referred to. Apart from its instructions the body holds nothing but them and the lines of its
blocks. -/
theorem markers_of_read {code : Code} {body : Body} (read : code.read = .ok body)
    (short : code.bytes.length < 4294967296) :
    body.labels.map (·.number.toNat) = List.range body.labels.length ∧
      (∀ l, l ∈ body.labels ↔ l ∈ body.targets) ∧
      ∃ (located : List (Nat × Instruction Int)) (label : Int → Label) (blocks : List Block),
        Split 0 code.bytes located ∧ body = .ofBlocks blocks ∧
          Marks code.lines located label blocks := by
  obtain ⟨located, split, landing, rfl⟩ := Code.read_eq_ok_iff.mp read
  have sound := split.sound landing short
  have tidy := tidy_blockAt sound code.lines
  rw [bodyOf, Body.labels_ofBlocks, Body.targets_ofBlocks]
  exact ⟨tidy.numbers, tidy.used, located, _, _, split, rfl, marks_blockAt sound code.lines⟩

/-- A branch back, a switch with a repeated target, two lines of one instruction that are not in
order, and a line that begins inside an instruction. -/
theorem markers_of_read_switch :
    let code : Code := ⟨[0x00, 0xa7, 0xff, 0xff, 0xab, 0x00, 0x00, 0x00, 0x00, 0x00, 0x00, 0x14,
      0x00, 0x00, 0x00, 0x01, 0x00, 0x00, 0x00, 0x05, 0x00, 0x00, 0x00, 0x14, 0xb1],
      [⟨24, 9⟩, ⟨0, 1⟩, ⟨24, 7⟩, ⟨2, 5⟩]⟩
    let body : Body := [.label ⟨0⟩, .line 1, .code (.plain (.named .nop)),
      .code (.jump (.named .goto) ⟨0⟩), .code (.lookupSwitch ⟨1⟩ [(5, ⟨1⟩)]), .label ⟨1⟩, .line 9,
      .line 7, .code (.plain (.named .voidReturn))]
    code.read = .ok body ∧ code.bytes.length < 4294967296 ∧
      body.labels.map (·.number.toNat) = List.range body.labels.length ∧
      ∀ l, l ∈ body.labels ↔ l ∈ body.targets := by
  intro code body
  have start : Spelling 0 [0x00] (.plain (.named .nop)) :=
    @Spelling.plain 0 (.named .nop) rfl rfl
  have back : Spelling 1 [0xa7, 0xff, 0xff] (.jump (.named .goto) 0) := by
    have spelled := @Spelling.branch16 1 .goto rfl (-1)
    exact spelled
  have switch : Spelling 4 (0xab :: ([0x00, 0x00, 0x00] ++ wordBytes [20, 1, 5, 20]))
      (.lookupSwitch 24 [(5, 24)]) :=
    @Spelling.lookupSwitch 4 [0x00, 0x00, 0x00] rfl 20 1 [(5, 20)] rfl
  have leave : Spelling 24 [0xb1] (.plain (.named .voidReturn)) :=
    @Spelling.plain 24 (.named .voidReturn) rfl rfl
  have split : Split 0 code.bytes _ := .cons start (.cons back (.cons switch
    (.cons leave (.nil 25))))
  have landing : Landing [(0, .plain (.named .nop)), (1, .jump (.named .goto) 0),
      (4, .lookupSwitch 24 [(5, 24)]), (24, .plain (.named .voidReturn))] := by
    simp [Landing, Instruction.targets]
  have read : code.read = .ok body := Code.read_eq_ok_iff.mpr ⟨_, split, landing, rfl⟩
  have short : code.bytes.length < 4294967296 := by decide
  obtain ⟨numbers, used, -⟩ := markers_of_read read short
  exact ⟨read, short, numbers, used⟩

end BytecodeMutation
