import BytecodeMutation.Proofs.Body.Normal
import BytecodeMutation.Proofs.Sorting

/-!
Reading code and writing it back. The bytes come back exactly if they are canonical, and then the
line table comes back sorted, without the entries that sit on no instruction.
-/
namespace BytecodeMutation
open Instruction (placed endOf Emitted)

namespace Code

/-- The offsets of the instructions, if the bytes can be split into instructions. -/
def starts (code : Code) : List Nat :=
  match readInstructions 0 code.bytes with
  | .ok located => located.map (·.1)
  | .error _ => []

/-- The line entries that sit on an instruction, stably sorted by offset. -/
def keptLines (code : Code) : List LineEntry :=
  (code.lines.filter fun e => e.start.toNat ∈ code.starts).mergeSort
    fun e e' => e.start.toNat ≤ e'.start.toNat

end Code

theorem Split.starts {code : Code} {located : List (Nat × Instruction Int)}
    (split : Split 0 code.bytes located) : code.starts = located.map (·.1) := by
  simp only [Code.starts, split.readInstructions]

section
variable {bytes : List UInt8} {located : List (Nat × Instruction Int)} {lines : List LineEntry}

theorem resolved_bodyOf (located : List (Nat × Instruction Int)) (lines : List LineEntry) :
    (bodyOf located lines).resolved = located.map fun p => p.2.map (newTarget located lines) := by
  rw [Body.resolved, instructions_bodyOf, List.map_map, List.map_map]
  simp only [Function.comp_def, Instruction.map_map]
  rfl

theorem lineEntries_ofBlocks_map {pc : Nat} {f : Nat × Instruction Int → Block}
    (same : ∀ p pc, (f p).code.size pc = p.2.size pc)
    (kept : placed pc (located.map (·.2)) = located) :
    Body.lineEntries pc (.ofBlocks (located.map f)) =
      located.flatMap fun p => (f p).lines.map fun n => ⟨UInt32.ofNat p.1, n⟩ := by
  induction located generalizing pc with
  | nil => rfl
  | cons p located ih =>
    obtain ⟨here, later⟩ := List.cons.inj kept
    have offset : p.1 = pc := by rw [← here]
    rw [List.map_cons, Body.lineEntries_ofBlocks_cons, same, ih later, List.flatMap_cons, offset]

/-- The line table of canonical code comes back in code order. -/
theorem lineEntries_bodyOf (kept : placed 0 (located.map (·.2)) = located) :
    Body.lineEntries 0 (bodyOf located lines) =
      (located.map (·.1)).flatMap fun pc => lines.filter (·.start.toNat = pc) := by
  rw [bodyOf, lineEntries_ofBlocks_map (fun p pc => Instruction.size_map _ _ _) kept,
    List.flatMap_map]
  apply List.flatMap_congr
  intro p _
  rw [blockAt, linesAt, List.map_map]
  have same : ∀ e ∈ lines.filter (·.start.toNat = p.1),
      (⟨UInt32.ofNat p.1, e.line⟩ : LineEntry) = id e := by
    intro e he
    have here := of_decide_eq_true (List.mem_filter.mp he).2
    simp only [← here, UInt32.ofNat_toNat, id]
  exact (List.map_congr_left same).trans (List.map_id _)

theorem filter_covered (starts : List Nat) (lines : List LineEntry) :
    (starts.flatMap fun pc => (lines.filter fun e => e.start.toNat ∈ starts).filter
        (·.start.toNat = pc)) =
      starts.flatMap fun pc => lines.filter (·.start.toNat = pc) := by
  apply List.flatMap_congr
  intro pc hpc
  rw [List.filter_filter]
  apply List.filter_congr
  intro e _
  by_cases here : e.start.toNat = pc
  · simp [here, hpc]
  · simp [here]

end

variable {code : Code} {body : Body}

/-- Canonical code is written back as it was. -/
theorem write_of_canonical (read : code.read = .ok body) (short : code.bytes.length < 4294967296)
    (canonical : Canonical code.bytes) : body.write = .ok ⟨code.bytes, code.keptLines⟩ := by
  obtain ⟨located, split, landing, rfl⟩ := Code.read_eq_ok_iff.mp read
  have sound := split.sound landing short
  have kept := split.placed_eq (canonical located split.readInstructions)
  refine Body.write_eq_ok_iff.mpr ⟨defined_bodyOf sound _, ?_, ?_⟩
  · rw [resolved_bodyOf]
    apply split.emitted short (canonical located split.readInstructions) _
    intro p hp t ht
    obtain ⟨g, q, here, rfl, targeted⟩ := exists_targeted sound hp ht
    rw [newTarget_eq sound code.lines here targeted]
    rw [← kept, Instruction.getElem?_placed] at here
    obtain ⟨i, -, rfl⟩ := Option.map_eq_some_iff.mp here
    rfl
  · rw [lineEntries_bodyOf kept, ← filter_covered, Code.keptLines, split.starts]
    symm
    apply flatMap_filter_eq_mergeSort sound.ascending
    intro e he
    exact of_decide_eq_true (List.mem_filter.mp he).2

/-- Reading code and writing it back preserves the bytes exactly if they are canonical. Then the
line entries that sit on an instruction come back sorted. -/
theorem write_back_iff (read : code.read = .ok body) (short : code.bytes.length < 4294967296) :
    ((∃ e, body.write = .ok e ∧ e.bytes = code.bytes) ↔ Canonical code.bytes) ∧
      (Canonical code.bytes → body.write = .ok ⟨code.bytes, code.keptLines⟩) ∧
      (code.lines.Pairwise (·.start ≤ ·.start) → (∀ e ∈ code.lines, e.start.toNat ∈ code.starts) →
        code.keptLines = code.lines) := by
  have written (canonical : Canonical code.bytes) := write_of_canonical read short canonical
  refine ⟨⟨?_, fun canonical => ⟨_, written canonical, rfl⟩⟩, written, ?_⟩
  · rintro ⟨e, written, same⟩
    obtain ⟨located, split, -, rfl⟩ := Code.read_eq_ok_iff.mp read
    rw [← same]
    exact Body.canonical_of_write written (Body.unaliased_bodyOf split _)
  · intro sorted covered
    have all : code.lines.filter (fun e => e.start.toNat ∈ code.starts) = code.lines :=
      List.filter_eq_self.mpr fun e he => decide_eq_true (covered e he)
    rw [Code.keptLines, all]
    apply List.mergeSort_of_pairwise
    apply sorted.imp
    intro e e' le
    exact decide_eq_true (UInt32.le_iff_toNat_le.mp le)

theorem write_back_loop :
    let body : Body := [.line 7, .code (.access (.named .iload) 0), .label ⟨0⟩,
      .code (.jump (.named .goto) ⟨0⟩)]
    let code : Code := ⟨[0x1a, 0xa7, 0x00, 0x00], [⟨0, 7⟩]⟩
    code.read = .ok body ∧ code.bytes.length < 4294967296 ∧ Canonical code.bytes := by
  intro body code
  have written : body.write = .ok code := by cbv
  have short : code.bytes.length < 4294967296 := by decide
  have own : body.Unaliased := by simp [Body.Unaliased, body]
  have read := Body.read_of_write written short own (Body.inside_iff.mpr (by decide))
  exact ⟨read, short, (write_back_iff read short).1.mp ⟨code, written, rfl⟩⟩

end BytecodeMutation
