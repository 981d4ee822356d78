import BytecodeMutation.Proofs.Code.Spelling

/-!
Splitting a code array into instructions. `readInstructions_eq_ok_iff` says that the reader finds
exactly the way in which the bytes fall into spellings, one after the other.
-/
namespace BytecodeMutation
open Instruction (Spelling)

/-- The bytes from offset `pc` on are one spelling after the other. -/
inductive Split : Nat → List UInt8 → List (Nat × Instruction Int) → Prop
  | nil (pc : Nat) : Split pc [] []
  | cons {pc bs i rest located} (first : Spelling pc bs i)
      (others : Split (pc + bs.length) rest located) :
      Split pc (bs ++ rest) ((pc, i) :: located)

theorem split_of_readInstructions {pc : Nat} {bytes : List UInt8}
    {located : List (Nat × Instruction Int)} (h : readInstructions pc bytes = .ok located) :
    Split pc bytes located := by
  fun_induction readInstructions pc bytes generalizing located with
  | case1 pc => cases h; exact .nil pc
  | case2 => cases h
  | case3 pc b rest i n found ih =>
    obtain ⟨enough, spelled⟩ := Instruction.read_eq_ok_iff.mp found
    cases tail : readInstructions (pc + 1 + n) (rest.drop n) with
    | error e => simp [tail, Except.map] at h
    | ok others =>
      simp only [tail, Except.map, Except.ok.injEq] at h
      subst h
      have next : pc + (b :: rest.take n).length = pc + 1 + n := by
        rw [List.length_cons, List.length_take, Nat.min_eq_left enough]; omega
      have split := Split.cons spelled (next ▸ ih tail)
      rwa [List.cons_append, List.take_append_drop] at split

theorem Split.readInstructions {pc : Nat} {bytes : List UInt8}
    {located : List (Nat × Instruction Int)} (h : Split pc bytes located) :
    readInstructions pc bytes = .ok located := by
  induction h with
  | nil pc => rw [BytecodeMutation.readInstructions]
  | @cons pc bs i rest located first _ ih =>
    cases bs with
    | nil => exact absurd rfl first.ne_nil
    | cons b tail =>
      rw [List.cons_append, BytecodeMutation.readInstructions, first.read rest]
      simp only [List.drop_left]
      rw [show pc + 1 + tail.length = pc + (b :: tail).length by rw [List.length_cons]; omega, ih]
      rfl

theorem readInstructions_eq_ok_iff {pc : Nat} {bytes : List UInt8}
    {located : List (Nat × Instruction Int)} :
    readInstructions pc bytes = .ok located ↔ Split pc bytes located :=
  ⟨split_of_readInstructions, Split.readInstructions⟩

namespace Split

variable {pc : Nat} {bytes : List UInt8} {located : List (Nat × Instruction Int)}

theorem unique {located' : List (Nat × Instruction Int)} (h : Split pc bytes located)
    (h' : Split pc bytes located') : located = located' := by
  simpa only [h.readInstructions, Except.ok.injEq] using h'.readInstructions

/-- Every instruction of a split is spelled at its offset. -/
theorem spelling (h : Split pc bytes located) :
    ∀ p ∈ located, ∃ bs, Spelling p.1 bs p.2 ∧ bs.length ≤ bytes.length := by
  induction h with
  | nil => simp
  | cons first _ ih =>
    intro p hp
    rw [List.length_append]
    rcases List.mem_cons.mp hp with rfl | hp
    · exact ⟨_, first, Nat.le_add_right _ _⟩
    · obtain ⟨bs, spelled, short⟩ := ih p hp
      exact ⟨bs, spelled, Nat.le_add_left_of_le short⟩

theorem offset_bounds (h : Split pc bytes located) :
    ∀ p ∈ located, pc ≤ p.1 ∧ p.1 < pc + bytes.length := by
  induction h with
  | nil => simp
  | cons first _ ih =>
    intro p hp
    have positive := List.length_pos_iff.mpr first.ne_nil
    rw [List.length_append]
    rcases List.mem_cons.mp hp with rfl | hp
    · dsimp only; omega
    · have := ih p hp; omega

theorem length_le (h : Split pc bytes located) : located.length ≤ bytes.length := by
  induction h with
  | nil => exact Nat.le_refl 0
  | cons first _ ih =>
    have positive := List.length_pos_iff.mpr first.ne_nil
    rw [List.length_append, List.length_cons]
    omega

/-- Offsets ascend. -/
theorem ascending (h : Split pc bytes located) : (located.map (·.1)).Pairwise (· < ·) := by
  induction h with
  | nil => exact .nil
  | cons first others ih =>
    rw [List.map_cons, List.pairwise_cons]
    refine ⟨?_, ih⟩
    intro q hq
    obtain ⟨p, hp, rfl⟩ := List.mem_map.mp hq
    have positive := List.length_pos_iff.mpr first.ne_nil
    have := others.offset_bounds p hp
    omega

theorem offset_lt (h : Split pc bytes located) {g k : Nat} {p q : Nat × Instruction Int}
    (hp : located[g]? = some p) (hq : located[k]? = some q) (before : g < k) : p.1 < q.1 := by
  obtain ⟨withinG, rfl⟩ := List.getElem?_eq_some_iff.mp hp
  obtain ⟨withinK, rfl⟩ := List.getElem?_eq_some_iff.mp hq
  have offsets := List.pairwise_iff_getElem.mp h.ascending g k (by simpa) (by simpa) before
  simpa only [List.getElem_map] using offsets

end Split

end BytecodeMutation
