import BytecodeMutation.Proofs.Body.Line
import BytecodeMutation.Proofs.Body.Splice
import BytecodeMutation.Proofs.Code.RoundTrip
import BytecodeMutation.Proofs.Mutation.Application
import BytecodeMutation.Proofs.Mutation.Editing

/-!
Lines and the line table. Reading code collects the table offset by offset and puts it between the
instructions, where the line of an instruction is found again by a search backwards. What is found
is what the table itself says of the offset, in whatever order its entries stand.
-/
namespace BytecodeMutation

/-- The entry of the line table for an offset: of those that begin at an instruction and not behind
the offset, the last one with the greatest start. -/
def Code.entryAt? (code : Code) (pc : Nat) : Option LineEntry :=
  latest? (·.start.toNat)
    (code.lines.filter fun e => e.start.toNat ∈ code.starts ∧ e.start.toNat ≤ pc)

namespace Body

theorem filterMap_line?_elements (b : Block) : b.elements.filterMap Element.line? = b.lines := by
  have markers : (b.label?.toList.map Element.label).filterMap Element.line? = [] := by
    cases b.label? <;> rfl
  have numbers : (b.lines.map Element.line).filterMap Element.line? = b.lines := by
    rw [List.filterMap_map]
    exact List.filterMap_some
  rw [Block.elements, List.filterMap_append, List.filterMap_append, markers, numbers]
  exact List.append_nil _

theorem filterMap_line?_ofBlocks (bs : List Block) :
    (ofBlocks bs).filterMap Element.line? = bs.flatMap (·.lines) := by
  rw [ofBlocks, List.filterMap_flatMap]
  exact List.flatMap_congr fun b _ => filterMap_line?_elements b

/-- An instruction of a body made of blocks ends one of them. -/
theorem exists_blocks {bs : List Block} {before after : Body} {i : Instruction Label}
    (parts : ofBlocks bs = before ++ .code i :: after) :
    ∃ done b rest, bs = done ++ b :: rest ∧ b.code = i ∧
      before ++ [.code i] = ofBlocks (done ++ [b]) := by
  induction bs generalizing before with
  | nil => simp [ofBlocks] at parts
  | cons b bs ih =>
    let markers : Body := b.label?.toList.map .label ++ b.lines.map .line
    have first : ofBlocks (b :: bs) = markers ++ .code b.code :: ofBlocks bs := by
      rw [ofBlocks_cons, List.append_assoc]
    have single : ofBlocks [b] = markers ++ [.code b.code] := List.append_nil _
    rw [first] at parts
    -- no marker of the first block is the instruction: it is that block's own or stands behind it
    rcases Nat.lt_trichotomy before.length markers.length with inside | same | behind
    · obtain ⟨between, split, -⟩ := exists_between parts.symm inside
      have marker : Element.code i ∈ markers := by rw [split]; simp
      simp [markers] at marker
    · obtain ⟨rfl, rest⟩ := List.append_inj parts.symm same
      cases rest
      exact ⟨[], b, bs, rfl, rfl, single.symm⟩
    · obtain ⟨between, rfl, rest⟩ := exists_between parts behind
      obtain ⟨done, b', rest', rfl, code, upTo⟩ := ih rest
      refine ⟨b :: done, b', rest', rfl, code, ?_⟩
      rw [List.append_assoc, List.cons_append, upTo, List.cons_append, ofBlocks_cons,
        List.append_assoc]

end Body

/-- An instruction of a body that was read, with the blocks up to it. -/
theorem exists_located {located : List (Nat × Instruction Int)} {lines : List LineEntry}
    {before after : Body} {i : Instruction Label}
    (parts : bodyOf located lines = before ++ .code i :: after) :
    ∃ early p late, located = early ++ p :: late ∧
      i = p.2.map (fun t => labelFor located t.toNat) ∧
      before.instructions.length = early.length ∧
      before ++ [.code i] = .ofBlocks ((early ++ [p]).map (blockAt located lines)) := by
  obtain ⟨done, b, rest, blocks, rfl, upTo⟩ := Body.exists_blocks parts
  obtain ⟨early, later, same, rfl, tail⟩ := List.map_eq_append_iff.mp blocks
  obtain ⟨p, late, rfl, rfl, -⟩ := List.map_eq_cons_iff.mp tail
  refine ⟨early, p, late, same, rfl, ?_, by rw [upTo, List.map_append, List.map_singleton]⟩
  have lengths := congrArg (fun body => (Body.instructions body).length) upTo
  simp only [Body.instructions_append, Body.instructions_code, Body.instructions_ofBlocks,
    List.length_append, List.length_map, List.length_cons] at lengths
  exact Nat.succ.inj lengths

namespace Split

variable {code : Code} {located : List (Nat × Instruction Int)}

/-- The entry for an instruction is the last one that was collected up to it. -/
theorem entryAt?_eq {early late : List (Nat × Instruction Int)} {p : Nat × Instruction Int}
    (split : Split 0 code.bytes (early ++ p :: late)) :
    code.entryAt? p.1 = (((early ++ [p]).map (·.1)).flatMap fun pc =>
      code.lines.filter (·.start.toNat = pc)).getLast? := by
  have ascending := split.ascending
  rw [List.map_append, List.map_cons] at ascending
  have shorter : (early ++ [p]).Sublist (early ++ p :: late) :=
    List.Sublist.append_left (List.singleton_sublist.mpr List.mem_cons_self) early
  rw [getLast?_flatMap_filter _ (split.ascending.sublist (shorter.map _)), Code.entryAt?,
    split.starts, List.map_append, List.map_append, List.map_cons]
  congr 1
  apply List.filter_congr
  intro e _
  rw [Bool.eq_iff_iff, decide_eq_true_eq, decide_eq_true_eq]
  exact (mem_append_singleton_iff ascending).symm

/-- The line of an instruction is the one in the table for the offset that it was read from. -/
theorem lineAt?_bodyOf (split : Split 0 code.bytes located) {body : Body}
    (same : body = bodyOf located code.lines) {n : Nat} {i : Instruction Label}
    (site : body[n]? = some (.code i)) :
    ∃ p, located[(Body.instructions (body.take n)).length]? = some p ∧
      i = p.2.map (fun t => labelFor located t.toNat) ∧
      body.lineAt? n = (code.entryAt? p.1).map (·.line) := by
  obtain ⟨before, after, parts, rfl⟩ := exists_parts site
  obtain ⟨early, p, late, rfl, read, count, upTo⟩ := exists_located (same.symm.trans parts)
  refine ⟨p, ?_, read, ?_⟩
  · rw [parts, List.take_left, count]
    exact getElem?_length_add early (p :: late) 0
  · rw [Body.lineAt?_eq_getLast?, parts, List.take_length_add_append, List.take_succ_cons,
      List.take_zero, upTo, Body.filterMap_line?_ofBlocks, split.entryAt?_eq, ← List.getLast?_map,
      List.flatMap_map, List.flatMap_map, List.map_flatMap]
    rfl

end Split

/-- Every instruction of a body that was read comes from the instruction of the code with the same
number of others before it. Its line is the one in the table for the offset of that instruction, and
a report on a mutation there shows it. -/
theorem lines_of_read {code : Code} {body : Body} (read : code.read = .ok body) :
    ∃ (located : List (Nat × Instruction Int)) (label : Int → Label),
      readInstructions 0 code.bytes = .ok located ∧
      body.instructions = located.map (fun p => p.2.map label) ∧
      (∀ n i, body[n]? = some (.code i) →
        ∃ p, located[(Body.instructions (body.take n)).length]? = some p ∧ i = p.2.map label ∧
          body.lineAt? n = (code.entryAt? p.1).map (·.line)) ∧
      ∀ (engine : Engine) (location : Location), ∀ c ∈ engine.enumerate ⟨location, body⟩,
        ∃ p d, located[(Body.instructions (body.take c.index)).length]? = some p ∧
          body[c.index]? = some (.code (p.2.map label)) ∧
          engine.details? ⟨location, body⟩ c = some d ∧
          d.line = (code.entryAt? p.1).map (·.line) := by
  obtain ⟨located, split, -, same⟩ := Code.read_eq_ok_iff.mp read
  refine ⟨located, fun t => labelFor located t.toNat, split.readInstructions, ?_,
    fun n i site => split.lineAt?_bodyOf same site, ?_⟩
  · rw [same, instructions_bodyOf, List.map_map]
    rfl
  · intro engine location c listed
    obtain ⟨m, -, -, e, x, site, offers, -⟩ := Engine.apply_of_mem listed
    obtain ⟨i, -, rfl, -⟩ := Mutator.replaces_of_offers offers
    obtain ⟨p, here, rfl, line⟩ := split.lineAt?_bodyOf same site
    obtain ⟨m, -, -, report⟩ := Engine.details?_of_mem listed
    exact ⟨p, _, here, site, report, line⟩

/-- A table that is not in order, with two entries for a wide load and one inside it. -/
theorem lines_of_read_unordered :
    let code : Code := ⟨[0x1a, 0xc4, 0x15, 0x01, 0x00, 0x60, 0xac],
      [⟨6, 2⟩, ⟨1, 7⟩, ⟨3, 8⟩, ⟨1, 4⟩]⟩
    let body : Body := [.code (.access (.named .iload) 0), .line 7, .line 4,
      .code (.access (.named .iload) 256), .code (.plain (.named .iadd)), .line 2,
      .code (.plain (.named .ireturn))]
    let location : Location := ⟨⟨"Calc"⟩, ⟨"add", "(I)I"⟩⟩
    let c : Candidate := ⟨location, 4, "aor.subtraction", "AOR: Changed + to -"⟩
    code.read = .ok body ∧ c ∈ Engine.full.enumerate ⟨location, body⟩ ∧
      body.lineAt? 0 = none ∧
      ∃ d, Engine.full.details? ⟨location, body⟩ c = some d ∧ d.line = some 4 := by
  intro code body location c
  have split : readInstructions 0 code.bytes = .ok [(0, .access (.named .iload) 0),
      (1, .access (.named .iload) 256), (5, .plain (.named .iadd)),
      (6, .plain (.named .ireturn))] := by cbv
  have landing : Landing [(0, .access (.named .iload) 0), (1, .access (.named .iload) 256),
      (5, .plain (.named .iadd)), (6, .plain (.named .ireturn))] := by
    simp [Landing, Instruction.targets]
  have read : code.read = .ok body :=
    Code.read_eq_ok_iff.mpr ⟨_, split_of_readInstructions split, landing, rfl⟩
  have listed : c ∈ Engine.full.enumerate ⟨location, body⟩ := by decide
  have starts : code.starts = [0, 1, 5, 6] := by simp only [Code.starts, split]; rfl
  have first : code.entryAt? 0 = none := by rw [Code.entryAt?, starts]; decide
  have addition : code.entryAt? 5 = some ⟨1, 4⟩ := by rw [Code.entryAt?, starts]; decide
  obtain ⟨located, label, found, -, lines, reports⟩ := lines_of_read read
  obtain rfl := Except.ok.inj (found.symm.trans split)
  obtain ⟨p, here, -, none⟩ := lines 0 _ rfl
  obtain ⟨q, d, there, -, report, line⟩ := reports Engine.full location c listed
  cases here
  cases there
  rw [first] at none
  rw [addition] at line
  exact ⟨read, listed, none, d, report, line⟩

end BytecodeMutation
