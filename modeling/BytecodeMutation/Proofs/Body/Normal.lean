import Mathlib
import BytecodeMutation.Proofs.Code.Emitted
import BytecodeMutation.Proofs.Code.Marking

/-!
The normal form of a body, which is what comes back when its code is read. Code has no labels and
no place for a marker behind its last instruction, so the normal form forgets how labels were
numbered, the ones that nothing refers to, and which of several labels of one place was meant.
-/
namespace BytecodeMutation.Body
open Instruction (endOf placed Emitted endOf_take_lt endOf_take_inj endOf_take_lt_iff)

/-- The lines before the instruction with index `g`, behind the instruction before it. -/
def linesIn : Body → Nat → List UInt32
  | [], _ => []
  | .code _ :: _, 0 => []
  | .code _ :: rest, g + 1 => linesIn rest g
  | .line n :: rest, 0 => n :: linesIn rest 0
  | .line _ :: rest, g + 1 => linesIn rest (g + 1)
  | .label _ :: rest, g => linesIn rest g

/-- The gaps that branches and switches refer to. -/
def gaps (body : Body) : List Nat := body.targets.filterMap fun l => gap? l body

/-- The label of a gap: its rank among the gaps that are referred to. -/
def gapLabel (body : Body) (g : Nat) : Label :=
  ⟨UInt32.ofNat ((List.range g).countP (· ∈ body.gaps))⟩

def rename (body : Body) (l : Label) : Label := body.gapLabel ((gap? l body).getD 0)

/-- An instruction and its index, with the markers that it keeps. -/
def normalBlock (body : Body) (p : Instruction Label × Nat) : Block where
  label? := if p.2 ∈ body.gaps then some (body.gapLabel p.2) else none
  lines := body.linesIn p.2
  code := p.1.map body.rename

def normalForm (body : Body) : Body := ofBlocks (body.instructions.zipIdx.map body.normalBlock)

/-- No label that is referred to stands behind the last instruction. -/
def Inside (body : Body) : Prop :=
  ∀ l ∈ body.targets, ∀ g, gap? l body = some g → g < body.instructions.length

/-- No opcode is an alias. -/
def Unaliased (body : Body) : Prop := ∀ op, .code (.plain op) ∈ body → op.isAlias = false

/-- The instructions of a body at the offsets that they are written to. -/
def layout (body : Body) : List (Nat × Instruction Int) :=
  body.instructions.zipIdx.map fun p =>
    (body.start p.2, p.1.map fun l => ((body.resolve l).offset : Int))

theorem mem_gaps {body : Body} {g : Nat} :
    g ∈ body.gaps ↔ ∃ l ∈ body.targets, gap? l body = some g :=
  List.mem_filterMap

theorem le_start_lineEntries {pc : Nat} {body : Body}
    (short : endOf pc body.instructions < 4294967296) :
    ∀ e ∈ lineEntries pc body, pc ≤ e.start.toNat := by
  induction body generalizing pc with
  | nil => exact nofun
  | cons e body ih =>
    cases e with
    | code i =>
      intro entry member
      exact Nat.le_trans (Nat.le_add_right pc _) (ih short entry member)
    | label l => exact ih short
    | line n =>
      refine List.forall_mem_cons.mpr ⟨?_, ih short⟩
      have := @Instruction.le_endOf _ pc (instructions body)
      rw [instructions_line] at short
      exact Nat.le_of_eq (UInt32.toNat_ofNat_of_lt' (by simp only [UInt32.size]; omega)).symm

theorem linesAt_cons (e : LineEntry) (lines : List LineEntry) (pc : Nat) :
    linesAt (e :: lines) pc =
      if e.start.toNat = pc then e.line :: linesAt lines pc else linesAt lines pc := by
  by_cases here : e.start.toNat = pc <;> simp [linesAt, here]

theorem linesAt_lineEntries {pc : Nat} {body : Body}
    (short : endOf pc body.instructions < 4294967296) {g : Nat}
    (within : g ≤ body.instructions.length) :
    linesAt (lineEntries pc body) (endOf pc (body.instructions.take g)) = body.linesIn g := by
  induction body generalizing pc g with
  | nil => rfl
  | cons e body ih =>
    cases e with
    | label l => exact ih short within
    | code i =>
      cases g with
      | zero =>
        have positive := Instruction.size_pos pc i
        apply List.map_eq_nil_iff.mpr
        apply List.filter_eq_nil_iff.mpr
        intro entry member
        have later := @le_start_lineEntries (pc + i.size pc) body short entry member
        have here : endOf pc ((instructions (.code i :: body)).take 0) = pc := rfl
        rw [here, decide_eq_true_eq]
        omega
      | succ g => exact ih short (Nat.le_of_succ_le_succ within)
    | line n =>
      have small := @Instruction.le_endOf _ pc (instructions body)
      have entry : (UInt32.ofNat pc).toNat = pc := by
        rw [instructions_line] at short
        exact UInt32.toNat_ofNat_of_lt' (by simp only [UInt32.size]; omega)
      have found := ih short within
      have first : lineEntries pc (.line n :: body) =
          ⟨UInt32.ofNat pc, n⟩ :: lineEntries pc body := rfl
      rw [first, linesAt_cons, entry, instructions_line, found]
      cases g with
      | zero => exact if_pos rfl
      | succ g =>
        have above := @endOf_take_lt _ pc _ _ _ (Nat.zero_lt_succ g) within
        exact if_neg (Nat.ne_of_lt above)

section
variable {body : Body} {code : Code}

theorem start_inj {g k : Nat} (hg : g ≤ body.instructions.length)
    (hk : k ≤ body.instructions.length) : body.start g = body.start k ↔ g = k :=
  endOf_take_inj hg hk

theorem placed_resolved (body : Body) :
    placed 0 (body.resolved.map fun i => i.map fun t => (t.offset : Int)) = body.layout := by
  apply List.ext_getElem?
  intro g
  rw [Instruction.getElem?_placed, ← List.map_take, Instruction.endOf_map, resolved, layout,
    ← List.map_take, Instruction.endOf_map]
  simp only [List.getElem?_map, List.getElem?_zipIdx, Option.map_map, Function.comp_def,
    Instruction.map_map, start, Nat.zero_add]

theorem mem_layout {p : Nat × Instruction Int} :
    p ∈ body.layout ↔ ∃ g i, body.instructions[g]? = some i ∧
      p = (body.start g, i.map fun l => ((body.resolve l).offset : Int)) := by
  simp only [layout, List.mem_map, Prod.exists, List.mem_zipIdx_iff_getElem?]
  constructor
  · rintro ⟨i, g, hi, same⟩
    exact ⟨g, i, hi, same.symm⟩
  · rintro ⟨g, i, hi, same⟩
    exact ⟨i, g, hi, same.symm⟩

theorem map_fst_layout (body : Body) :
    body.layout.map (·.1) = (List.range body.instructions.length).map body.start := by
  have indices : body.instructions.zipIdx.map (·.2) = List.range body.instructions.length := by
    rw [List.range_eq_range']
    exact List.zipIdx_map_snd 0 _
  rw [layout, ← indices, List.map_map, List.map_map]
  rfl

/-- The targets of the layout are the offsets of the gaps that are referred to. -/
theorem mem_targets_layout (defined : ∀ l ∈ body.targets, (gap? l body).isSome) {t : Int} :
    t ∈ body.layout.flatMap (·.2.targets) ↔ ∃ g ∈ body.gaps, (body.start g : Int) = t := by
  have resolved {l : Label} {g : Nat} (found : gap? l body = some g) :
      (body.resolve l).offset = body.start g := by rw [resolve, found]; rfl
  rw [List.mem_flatMap]
  constructor
  · rintro ⟨p, hp, ht⟩
    obtain ⟨k, i, hi, rfl⟩ := mem_layout.mp hp
    rw [Instruction.targets_map] at ht
    obtain ⟨l, hl, rfl⟩ := List.mem_map.mp ht
    have target : l ∈ body.targets := by
      rw [targets_eq]
      exact List.mem_flatMap.mpr ⟨i, List.mem_of_getElem? hi, hl⟩
    obtain ⟨g, found⟩ := Option.isSome_iff_exists.mp (defined l target)
    exact ⟨g, mem_gaps.mpr ⟨l, target, found⟩, by rw [resolved found]⟩
  · rintro ⟨g, hg, rfl⟩
    obtain ⟨l, target, found⟩ := mem_gaps.mp hg
    rw [targets_eq] at target
    obtain ⟨i, hi, hl⟩ := List.mem_flatMap.mp target
    obtain ⟨k, hk⟩ := List.getElem?_of_mem hi
    refine ⟨_, mem_layout.mpr ⟨k, i, hk, rfl⟩, ?_⟩
    rw [Instruction.targets_map, ← resolved found]
    exact List.mem_map_of_mem hl

theorem le_length_of_mem_gaps {g : Nat} (h : g ∈ body.gaps) : g ≤ body.instructions.length := by
  obtain ⟨l, -, found⟩ := mem_gaps.mp h
  exact gap?_le_length found

theorem inside_iff : body.Inside ↔ ∀ g ∈ body.gaps, g < body.instructions.length := by
  simp only [Inside, mem_gaps]
  constructor
  · rintro h g ⟨l, hl, found⟩
    exact h l hl g found
  · intro h l hl g found
    exact h g ⟨l, hl, found⟩

theorem landing_layout (defined : ∀ l ∈ body.targets, (gap? l body).isSome) :
    Landing body.layout ↔ body.Inside := by
  have reached {g : Nat} (hg : g ∈ body.gaps) :
      (∃ q ∈ body.layout, (q.1 : Int) = body.start g) ↔ g < body.instructions.length := by
    have listed : (∃ q ∈ body.layout, (q.1 : Int) = body.start g) ↔
        body.start g ∈ body.layout.map (·.1) := by simp only [List.mem_map, Int.natCast_inj]
    rw [listed, map_fst_layout, List.mem_map]
    constructor
    · rintro ⟨k, hk, same⟩
      have hk := List.mem_range.mp hk
      rwa [← (start_inj (Nat.le_of_lt hk) (le_length_of_mem_gaps hg)).mp same]
    · intro within
      exact ⟨g, List.mem_range.mpr within, rfl⟩
  rw [inside_iff]
  constructor
  · intro landing g hg
    obtain ⟨p, hp, ht⟩ := List.mem_flatMap.mp ((mem_targets_layout defined).mpr ⟨g, hg, rfl⟩)
    exact (reached hg).mp (landing p hp _ ht)
  · intro inside p hp t ht
    obtain ⟨g, hg, rfl⟩ := (mem_targets_layout defined).mp (List.mem_flatMap.mpr ⟨p, hp, ht⟩)
    exact (reached hg).mpr (inside g hg)

theorem targetedOffsets_layout (defined : ∀ l ∈ body.targets, (gap? l body).isSome) :
    targetedOffsets body.layout =
      ((List.range body.instructions.length).filter (· ∈ body.gaps)).map body.start := by
  rw [targetedOffsets, map_fst_layout, List.filter_map]
  congr 1
  apply List.filter_congr
  intro k hk
  have hk := List.mem_range.mp hk
  simp only [Function.comp, mem_targets_layout defined, decide_eq_decide]
  constructor
  · rintro ⟨g, hg, same⟩
    rwa [← (start_inj (le_length_of_mem_gaps hg) (Nat.le_of_lt hk)).mp (by omega)]
  · intro hk
    exact ⟨k, hk, rfl⟩

theorem labelFor_layout (defined : ∀ l ∈ body.targets, (gap? l body).isSome) {g : Nat}
    (within : g ≤ body.instructions.length) :
    labelFor body.layout (body.start g) = body.gapLabel g := by
  have before {k : Nat} (hk : k ∈ List.range body.instructions.length) :
      body.start k < body.start g ↔ k < g :=
    endOf_take_lt_iff (Nat.le_of_lt (List.mem_range.mp hk)) within
  obtain ⟨d, total⟩ := Nat.exists_eq_add_of_le within
  have counted : (List.range body.instructions.length).countP
      (fun k => decide (k < g) && decide (k ∈ body.gaps)) =
        (List.range g).countP (· ∈ body.gaps) := by
    have beyond : ((List.range d).map (g + ·)).countP
        (fun k => decide (k < g) && decide (k ∈ body.gaps)) = 0 := by
      apply List.countP_eq_zero.mpr
      intro k hk
      obtain ⟨j, -, rfl⟩ := List.mem_map.mp hk
      have after : ¬ g + j < g := by omega
      simp [after]
    rw [total, List.range_add, List.countP_append, beyond, Nat.add_zero]
    apply List.countP_congr
    intro k hk
    simp [List.mem_range.mp hk]
  rw [labelFor, gapLabel, ← counted, targetedOffsets_layout defined, List.countP_map,
    List.countP_filter]
  congr 2
  apply List.countP_congr
  intro k hk
  simp only [Function.comp, Bool.and_eq_true, decide_eq_true_eq, before hk]

theorem bodyOf_layout (defined : ∀ l ∈ body.targets, (gap? l body).isSome) (inside : body.Inside)
    (short : endOf 0 body.instructions < 4294967296) :
    bodyOf body.layout (lineEntries 0 body) = body.normalForm := by
  have blocks : (body.instructions.zipIdx.map fun p =>
      (body.start p.2, p.1.map fun l => ((body.resolve l).offset : Int))).map
        (blockAt body.layout (lineEntries 0 body)) =
      body.instructions.zipIdx.map body.normalBlock := by
    rw [List.map_map]
    apply List.map_congr_left
    rintro ⟨i, g⟩ hp
    have hi := List.mem_zipIdx_iff_getElem?.mp hp
    have within : g < body.instructions.length := (List.getElem?_eq_some_iff.mp hi).1
    have label := labelFor_layout defined (Nat.le_of_lt within)
    have targeted : body.start g ∈ targetedOffsets body.layout ↔ g ∈ body.gaps := by
      rw [targetedOffsets_layout defined, List.mem_map]
      constructor
      · rintro ⟨k, hk, same⟩
        obtain ⟨hk, member⟩ := List.mem_filter.mp hk
        have hk := List.mem_range.mp hk
        rw [← (start_inj (Nat.le_of_lt hk) (Nat.le_of_lt within)).mp same]
        exact of_decide_eq_true member
      · intro member
        exact ⟨g, List.mem_filter.mpr ⟨List.mem_range.mpr within, decide_eq_true member⟩, rfl⟩
    have lines : linesAt (lineEntries 0 body) (body.start g) = body.linesIn g :=
      linesAt_lineEntries short (Nat.le_of_lt within)
    have renamed : (i.map fun l => ((body.resolve l).offset : Int)).map
        (fun t => labelFor body.layout t.toNat) = i.map body.rename := by
      rw [Instruction.map_map]
      apply Instruction.map_congr
      intro l hl
      have target : l ∈ body.targets := by
        rw [targets_eq]
        exact List.mem_flatMap.mpr ⟨i, List.mem_of_getElem? hi, hl⟩
      obtain ⟨k, found⟩ := Option.isSome_iff_exists.mp (defined l target)
      rw [Int.toNat_natCast, resolve, rename, found]
      exact labelFor_layout defined (Nat.le_of_lt (inside l target k found))
    simp only [Function.comp, blockAt, normalBlock, label, lines, renamed, targeted]
  exact congrArg ofBlocks blocks

/-- Written code splits into the layout of the body. -/
theorem split_of_write (written : body.write = .ok code) (own : body.Unaliased) :
    Split 0 code.bytes body.layout ∧ CanonicalFrom 0 code.bytes body.layout ∧
      code.bytes.length = endOf 0 body.instructions := by
  obtain ⟨-, emitted, -⟩ := write_eq_ok_iff.mp written
  have unaliased : ∀ op, .plain op ∈ body.resolved → op.isAlias = false := by
    intro op hop
    obtain ⟨i, hi, same⟩ := List.mem_map.mp hop
    apply own op
    cases i with
    | plain op' =>
      cases same
      exact mem_instructions.mp hi
    | _ => cases same
  obtain ⟨split, canonical, length⟩ := emitted.split unaliased
  rw [placed_resolved] at split canonical
  rw [resolved, Instruction.endOf_map, Nat.zero_add] at length
  exact ⟨split, canonical, length⟩

theorem canonical_of_write (written : body.write = .ok code) (own : body.Unaliased) :
    Canonical code.bytes := by
  obtain ⟨split, canonical, -⟩ := split_of_write written own
  intro located found
  rw [(readInstructions_eq_ok_iff.mp found).unique split]
  exact canonical

/-- Nothing is read as an alias. -/
theorem unaliased_bodyOf {bytes : List UInt8} {located : List (Nat × Instruction Int)}
    (split : Split 0 bytes located) (lines : List LineEntry) :
    (bodyOf located lines).Unaliased := by
  intro op hop
  have read := mem_instructions.mpr hop
  rw [instructions_bodyOf, List.map_map] at read
  obtain ⟨p, hp, same⟩ := List.mem_map.mp read
  obtain ⟨bs, spelled, -⟩ := split.spelling p hp
  have plain : p.2 = .plain op := by
    cases h : p.2 <;> simp_all [Instruction.map]
  rw [plain] at spelled
  cases spelled with
  | plain bare own => exact own

/-- Written code is read as the normal form. -/
theorem read_of_write (written : body.write = .ok code) (short : code.bytes.length < 4294967296)
    (own : body.Unaliased) (inside : body.Inside) : code.read = .ok body.normalForm := by
  obtain ⟨defined, -, lines⟩ := write_eq_ok_iff.mp written
  obtain ⟨split, -, length⟩ := split_of_write written own
  refine Code.read_eq_ok_iff.mpr ⟨body.layout, split, (landing_layout defined).mpr inside, ?_⟩
  rw [lines, bodyOf_layout defined inside (length ▸ short)]

/-- The code of a body is read as its normal form, unless an opcode is an alias or a branch leaves
the code at its end. -/
theorem read_write_iff (written : body.write = .ok code) (short : code.bytes.length < 4294967296) :
    code.read = .ok body.normalForm ↔ body.Unaliased ∧ body.Inside := by
  constructor
  · intro back
    obtain ⟨defined, -, -⟩ := write_eq_ok_iff.mp written
    obtain ⟨located, split, landing, same⟩ := Code.read_eq_ok_iff.mp back
    have own : body.Unaliased := by
      intro op hop
      have kept : .plain op ∈ body.normalForm.instructions := by
        rw [normalForm, instructions_ofBlocks, List.map_map]
        obtain ⟨g, hg⟩ := List.getElem?_of_mem (mem_instructions.mpr hop)
        exact List.mem_map.mpr ⟨(.plain op, g), List.mem_zipIdx_iff_getElem?.mpr hg, rfl⟩
      rw [same] at kept
      exact unaliased_bodyOf split _ op (mem_instructions.mp kept)
    have layout := (split_of_write written own).1.unique split
    exact ⟨own, (landing_layout defined).mp (layout ▸ landing)⟩
  · rintro ⟨own, inside⟩
    exact read_of_write written short own inside

/-- The label means its last placement, and the line behind the last instruction is lost. -/
theorem read_write_loop :
    let body : Body := [.label ⟨5⟩, .line 7, .code (.plain (.named .nop)), .label ⟨5⟩, .label ⟨3⟩,
      .code (.jump (.named .goto) ⟨5⟩), .line 9]
    let code : Code := ⟨[0x00, 0xa7, 0x00, 0x00], [⟨0, 7⟩, ⟨4, 9⟩]⟩
    body.write = .ok code ∧ code.bytes.length < 4294967296 ∧
      code.read = .ok [.line 7, .code (.plain (.named .nop)), .label ⟨0⟩,
        .code (.jump (.named .goto) ⟨0⟩)] := by
  intro body code
  have written : body.write = .ok code := by cbv
  have short : code.bytes.length < 4294967296 := by decide
  have own : body.Unaliased := by
    intro op hop
    have named : op = .named .nop := by simpa [body] using hop
    rw [named]
    rfl
  have inside : body.Inside := inside_iff.mpr (by decide)
  exact ⟨written, short, (read_write_iff written short).mpr ⟨own, inside⟩⟩

end

end BytecodeMutation.Body
