import Mathlib.Data.List.Nodup
import BytecodeMutation.Proofs.Body.Layout

/-!
Bodies made of blocks: every instruction has at most one label before it, then its lines, and no
marker stands behind the last instruction. Bodies that are read from code are of this form.
-/
namespace BytecodeMutation
open Instruction (placed)

/-- One instruction of a body with the markers before it. -/
structure Block where
  label? : Option Label
  lines : List UInt32
  code : Instruction Label
  deriving DecidableEq, Repr

namespace Block

def elements (b : Block) : Body :=
  b.label?.toList.map .label ++ b.lines.map .line ++ [.code b.code]

/-- The labels that blocks place, in order. -/
def labels (bs : List Block) : List Label := bs.filterMap (·.label?)

def targets (bs : List Block) : List Label := bs.flatMap (·.code.targets)

/-- The labels count up from zero, and they are just the ones that are referred to. -/
structure Tidy (bs : List Block) : Prop where
  few : (labels bs).length ≤ 4294967296
  numbered : labels bs = (List.range (labels bs).length).map fun n => ⟨UInt32.ofNat n⟩
  used : ∀ l, l ∈ labels bs ↔ l ∈ targets bs

/-- As numbers, the labels are just the first ones. -/
theorem Tidy.numbers {bs : List Block} (h : Tidy bs) :
    (labels bs).map (·.number.toNat) = List.range (labels bs).length := by
  conv => lhs; rw [h.numbered, List.map_map]
  conv => rhs; rw [← List.map_id (List.range _)]
  apply List.map_congr_left
  intro n hn
  have few := h.few
  have hn := List.mem_range.mp hn
  exact UInt32.toNat_ofNat_of_lt' (by simp only [UInt32.size]; omega)

theorem Tidy.nodup {bs : List Block} (h : Tidy bs) : (labels bs).Nodup := by
  apply List.Nodup.of_map (·.number.toNat)
  rw [h.numbers]
  exact List.nodup_range

end Block

namespace Body

def ofBlocks (bs : List Block) : Body := bs.flatMap Block.elements

section
variable {l : Label} {b : Block} {bs : List Block}

theorem ofBlocks_cons (b : Block) (bs : List Block) :
    ofBlocks (b :: bs) =
      b.label?.toList.map .label ++ (b.lines.map .line ++ .code b.code :: ofBlocks bs) := by
  simp [ofBlocks, Block.elements]

theorem instructions_lines (ns : List UInt32) (body : Body) :
    instructions (ns.map .line ++ body) = instructions body := by
  induction ns with
  | nil => rfl
  | cons n ns ih => exact ih

@[simp] theorem instructions_ofBlocks (bs : List Block) :
    (ofBlocks bs).instructions = bs.map (·.code) := by
  induction bs with
  | nil => rfl
  | cons b bs ih =>
    rw [ofBlocks_cons, List.map_cons, ← ih]
    cases b.label? <;> simp [instructions_lines]

@[simp] theorem targets_ofBlocks (bs : List Block) : (ofBlocks bs).targets = Block.targets bs := by
  rw [targets_eq, instructions_ofBlocks, List.flatMap_map, Block.targets]

theorem gap?_lines (ns : List UInt32) (body : Body) :
    gap? l (ns.map .line ++ body) = gap? l body := by
  induction ns with
  | nil => rfl
  | cons n ns ih => exact ih

theorem gap?_ofBlocks_cons (b : Block) (bs : List Block) :
    gap? l (ofBlocks (b :: bs)) = ((gap? l (ofBlocks bs)).map (· + 1)).or
      (if b.label? = some l then some 0 else none) := by
  rw [ofBlocks_cons]
  cases h : b.label? with
  | none => simp [gap?_lines, gap?]
  | some l' => simp [gap?_lines, gap?]

/-- A label of distinct labels stands where its block is. -/
theorem gap?_ofBlocks (distinct : (Block.labels bs).Nodup) {g : Nat} :
    gap? l (ofBlocks bs) = some g ↔ ∃ b, bs[g]? = some b ∧ b.label? = some l := by
  induction bs generalizing g with
  | nil => simp [ofBlocks, gap?]
  | cons b bs ih =>
    have others : (Block.labels bs).Nodup :=
      distinct.sublist ((List.sublist_cons_self b bs).filterMap _)
    -- the last placement counts, so the label must not come again
    have absent (here : b.label? = some l) : gap? l (ofBlocks bs) = none := by
      apply Option.eq_none_iff_forall_ne_some.mpr
      intro k found
      obtain ⟨b', placed, label⟩ := (ih others).mp found
      have member : l ∈ Block.labels bs :=
        List.mem_filterMap.mpr ⟨b', List.mem_of_getElem? placed, label⟩
      rw [Block.labels, List.filterMap_cons_some here] at distinct
      exact (List.nodup_cons.mp distinct).1 member
    rw [gap?_ofBlocks_cons]
    cases g with
    | zero =>
      by_cases here : b.label? = some l
      · simp [here, absent here]
      · simp [here]
    | succ g =>
      rw [List.getElem?_cons_succ, ← ih others]
      by_cases here : b.label? = some l
      · simp [here, absent here]
      · simp [here]

/-- Tidy blocks place every label that they refer to. -/
theorem exists_gap (tidy : Block.Tidy bs) (target : l ∈ Block.targets bs) :
    ∃ g b, bs[g]? = some b ∧ b.label? = some l ∧ gap? l (ofBlocks bs) = some g := by
  obtain ⟨b, member, label⟩ := List.mem_filterMap.mp ((tidy.used l).mpr target)
  obtain ⟨g, here⟩ := List.getElem?_of_mem member
  exact ⟨g, b, here, label, (gap?_ofBlocks tidy.nodup).mpr ⟨b, here, label⟩⟩

theorem defined_ofBlocks (tidy : Block.Tidy bs) :
    ∀ l ∈ (ofBlocks bs).targets, (gap? l (ofBlocks bs)).isSome := by
  intro l hl
  rw [targets_ofBlocks] at hl
  obtain ⟨g, -, -, -, found⟩ := exists_gap tidy hl
  rw [found]
  rfl

theorem lineEntries_lines (pc : Nat) (ns : List UInt32) (body : Body) :
    lineEntries pc (ns.map .line ++ body) =
      ns.map (fun n => ⟨UInt32.ofNat pc, n⟩) ++ lineEntries pc body := by
  induction ns with
  | nil => rfl
  | cons n ns ih => exact congrArg (⟨UInt32.ofNat pc, n⟩ :: ·) ih

theorem lineEntries_ofBlocks_cons (pc : Nat) (b : Block) (bs : List Block) :
    lineEntries pc (ofBlocks (b :: bs)) =
      b.lines.map (fun n => ⟨UInt32.ofNat pc, n⟩) ++
        lineEntries (pc + b.code.size pc) (ofBlocks bs) := by
  have markers : lineEntries pc (ofBlocks (b :: bs)) =
      lineEntries pc (b.lines.map .line ++ .code b.code :: ofBlocks bs) := by
    rw [ofBlocks_cons]
    cases b.label? <;> rfl
  rw [markers, lineEntries_lines]
  rfl

end

end Body

end BytecodeMutation
