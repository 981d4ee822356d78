import BytecodeMutation.Proofs.Body.Obstacle
import BytecodeMutation.Proofs.Code.Writable

/-!
When a body can be written, and what is reported if it cannot. A label that stands nowhere comes
before everything else. Then the first instruction counts that is not writable at its own offset,
which is also where the bytes of the instructions before it end.
-/
namespace BytecodeMutation

namespace Body
open Instruction (placed endOf Emitted Obstacle)

variable {body : Body} {l : Label}

/-- The offset at which a label stands last. -/
def lastOffset? (body : Body) (l : Label) : Option Nat :=
  ((located 0 body).filterMap fun p => if p.2 = .label l then some p.1 else none).getLast?

/-- How far it is from an offset to a label. -/
def distance (body : Body) (pc : Nat) (l : Label) : Int := (body.lastOffset? l).getD 0 - pc

theorem lastOffset?_located (pc : Nat) (body : Body) (l : Label) :
    ((located pc body).filterMap fun p => if p.2 = .label l then some p.1 else none).getLast? =
      (gap? l body).map fun g => endOf pc (body.instructions.take g) := by
  induction body generalizing pc with
  | nil => rfl
  | cons e body ih =>
    cases e with
    | code i =>
      refine (ih _).trans ?_
      simp [gap?, Function.comp_def, endOf, Element.size]
    | line n => exact ih pc
    | label l' =>
      by_cases here : l' = l
      · subst here
        -- a later placement hides this one, here as in `gap?`
        simp only [located, List.filterMap_cons, if_true, List.getLast?_cons, Element.size,
          Nat.add_zero, ih, gap?, instructions_label]
        cases gap? l' body <;> rfl
      · have other : Element.label l' ≠ .label l := by simpa using here
        simp only [located, List.filterMap_cons, if_neg other, Element.size, Nat.add_zero, ih, gap?,
          if_neg here, Option.or_none, instructions_label]

theorem distance_eq (body : Body) (pc : Nat) (l : Label) :
    ((body.resolve l).offset : Int) - pc = body.distance pc l := by
  rw [distance, lastOffset?, lastOffset?_located, resolve]
  cases gap? l body <;> rfl

theorem isSome_gap? : (gap? l body).isSome ↔ .label l ∈ body := by
  induction body with
  | nil => simp [gap?]
  | cons e body ih =>
    cases e with
    | code i => simp [gap?, ih]
    | line n => simp [gap?, ih]
    | label l' =>
      by_cases here : l' = l
      · simp [gap?, here]
      · simp [gap?, here, Ne.symm here, ih]

theorem isMissing_eq (body : Body) : body.isMissing = fun l => decide (.label l ∉ body) := by
  funext l
  rw [isMissing, Bool.eq_iff_iff, decide_eq_true_eq, ← isSome_gap?, Option.not_isSome_iff_eq_none,
    Option.isNone_iff_eq_none]

/-- The instructions of a whole body as they are placed, each with the offsets of its targets. -/
theorem placed_resolved_eq (body : Body) :
    placed 0 body.resolved =
      ((located 0 body).filterMap placedInstruction?).map fun p => (p.1, p.2.map body.resolve) := by
  rw [placedInstructions, resolved, Instruction.placed_map]

/-- Writable instructions have bytes, and these end where the next instruction is placed. -/
theorem exists_emitted {is : List (Instruction Label)}
    {before after : List (Nat × Instruction Label)} {pc q : Nat} {i : Instruction Label}
    (h : placed pc is = before ++ (q, i) :: after)
    (writable : ∀ p ∈ before, p.2.Writable (body.distance p.1)) :
    ∃ bytes, Emitted pc (before.map fun p => p.2.map body.resolve) bytes ∧
      pc + bytes.length = q := by
  induction before generalizing pc is with
  | nil =>
    cases is with
    | nil => cases h
    | cons j is =>
      cases h
      exact ⟨[], .nil _, rfl⟩
  | cons p before ih =>
    cases is with
    | nil => cases h
    | cons j is =>
      obtain ⟨rfl, rest⟩ := List.cons.inj h
      obtain ⟨first, others⟩ := List.forall_mem_cons.mp writable
      obtain ⟨bs, written⟩ := first.write (body.distance_eq pc)
      -- its bytes are as many as the layout left for it, so the others begin where they end
      obtain ⟨bytes, emitted, ends⟩ := ih rest others
      have size : bs.length = j.size pc := by rw [Instruction.length_of_write written, j.size_map]
      refine ⟨bs ++ bytes, .cons written (by rwa [j.size_map]), ?_⟩
      rw [List.length_append]
      omega

theorem write_resolved_iff {p : Nat × Instruction Label} :
    (∃ bs, (p.2.map body.resolve).write p.1 = .ok bs) ↔ p.2.Writable (body.distance p.1) :=
  Instruction.exists_write_iff (fun _ => rfl) (body.distance_eq p.1)

theorem write_resolved_eq_error_iff {p : Nat × Instruction Label} {e : WriteError} :
    (p.2.map body.resolve).write p.1 = .error e ↔ Obstacle p.1 (body.distance p.1) p.2 e :=
  Instruction.write_map_eq_error_iff (fun _ => rfl) (body.distance_eq p.1)

theorem exists_write_iff : (∃ code, body.write = .ok code) ↔
    (∀ l ∈ body.targets, .label l ∈ body) ∧
      ∀ p ∈ (located 0 body).filterMap placedInstruction?, p.2.Writable (body.distance p.1) := by
  have pieces : (∃ pieces, (placed 0 body.resolved).mapM (fun p => p.2.write p.1) = .ok pieces) ↔
      ∀ p ∈ (located 0 body).filterMap placedInstruction?, p.2.Writable (body.distance p.1) := by
    simp only [placed_resolved_eq, exists_mapM_iff, List.forall_mem_map, write_resolved_iff]
  simp only [← isSome_gap?]
  rw [← pieces]
  constructor
  · rintro ⟨code, written⟩
    obtain ⟨defined, emitted, -⟩ := write_eq_ok_iff.mp written
    obtain ⟨all, ok, -⟩ := Instruction.emitted_iff.mp emitted
    exact ⟨defined, all, ok⟩
  · rintro ⟨defined, all, ok⟩
    have emitted := Instruction.emitted_iff.mpr ⟨all, ok, rfl⟩
    exact ⟨⟨all.flatten, body.lineEntries 0⟩, write_eq_ok_iff.mpr ⟨defined, emitted, rfl⟩⟩

/-- The layout gives the first instruction that cannot be written the offset that its bytes would
have, whatever comes behind it. -/
theorem mapM_write_eq_error_iff {e : WriteError} :
    (placed 0 body.resolved).mapM (fun p => p.2.write p.1) = .error e ↔
      ∃ before pc i after,
        (located 0 body).filterMap placedInstruction? = before ++ (pc, i) :: after ∧
        (∀ p ∈ before, p.2.Writable (body.distance p.1)) ∧
        (∃ bytes, Emitted 0 (before.map fun p => p.2.map body.resolve) bytes ∧
          bytes.length = pc) ∧
        Obstacle pc (body.distance pc) i e := by
  rw [placed_resolved_eq, mapM_eq_error_iff_append]
  constructor
  · rintro ⟨_, _, _, parts, good, bad⟩
    obtain ⟨before, rest, same, rfl, others⟩ := List.map_eq_append_iff.mp parts
    obtain ⟨⟨pc, i⟩, after, rfl, rfl, rfl⟩ := List.map_eq_cons_iff.mp others
    have writable : ∀ p ∈ before, p.2.Writable (body.distance p.1) := fun p hp =>
      write_resolved_iff.mp (good _ (List.mem_map_of_mem hp))
    obtain ⟨bytes, emitted, ends⟩ := exists_emitted (placedInstructions body ▸ same) writable
    rw [Nat.zero_add] at ends
    exact ⟨before, pc, i, after, same, writable, ⟨bytes, emitted, ends⟩,
      write_resolved_eq_error_iff.mp bad⟩
  · rintro ⟨before, pc, i, after, same, writable, -, obstacle⟩
    refine ⟨_, _, _, by rw [same, List.map_append, List.map_cons], ?_,
      write_resolved_eq_error_iff.mpr obstacle⟩
    rw [List.forall_mem_map]
    exact fun p hp => write_resolved_iff.mpr (writable p hp)

/-- A body can be written just if every label that is referred to stands somewhere and every
instruction is writable at its offset. What is reported otherwise is the first label that stands
nowhere, or else the obstacle of the first instruction that is not writable; its offset is the
number of bytes that the instructions before it are written in. -/
theorem write_outcome (body : Body) :
    ((∃ code, body.write = .ok code) ↔
      (∀ l ∈ body.targets, .label l ∈ body) ∧
        ∀ p ∈ (located 0 body).filterMap placedInstruction?,
          p.2.Writable (body.distance p.1)) ∧
    ∀ e, body.write = .error e ↔
      (∃ l, body.targets.find? (fun l => .label l ∉ body) = some l ∧ e = .undefinedLabel l) ∨
      (∀ l ∈ body.targets, .label l ∈ body) ∧
        ∃ before pc i after,
          (located 0 body).filterMap placedInstruction? = before ++ (pc, i) :: after ∧
          (∀ p ∈ before, p.2.Writable (body.distance p.1)) ∧
          (∃ bytes, Emitted 0 (before.map fun p => p.2.map body.resolve) bytes ∧
            bytes.length = pc) ∧
          Obstacle pc (body.distance pc) i e := by
  refine ⟨exists_write_iff, ?_⟩
  intro e
  rw [write_eq_error_iff, isMissing_eq, mapM_write_eq_error_iff]
  simp only [isSome_gap?]

/-- The wide load takes four bytes, and the value behind the empty table is of no account. -/
example : Body.write [.code (.access (.named .iload) 300), .code (.tableSwitch 0 ⟨7⟩ []),
    .code (.immediate (.named .bipush) 300), .label ⟨7⟩] = .error (.malformedSwitch 4) := by cbv

end Body

end BytecodeMutation
