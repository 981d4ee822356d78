import BytecodeMutation.Proofs.Body.Layout
import BytecodeMutation.Proofs.Code.WellFormed

/-!
Why a body cannot be written. The first label that is referred to and stands nowhere comes before
any other fault; then the instructions are written at the offsets of the layout, and the first one
that cannot be written is reported.
-/
namespace BytecodeMutation

namespace Instruction

variable {τ σ ε : Type}

/-- A replacement fails where the replacement of the targets, one after the other, fails. -/
theorem mapM_eq_error_iff {f : τ → Except ε σ} {i : Instruction τ} {e : ε} :
    i.mapM f = .error e ↔ i.targets.mapM f = .error e := by
  cases i with
  | plain | access | immediate | increment | constant =>
    simp only [mapM, targets, List.mapM_nil, pure_ne_error, reduceCtorEq]
  | jump | tableSwitch =>
    simp only [mapM, targets, mapM_cons_eq_error_iff, bind_eq_error_iff, pure_ne_error,
      List.mapM_nil, and_false, exists_false, or_false]
  | lookupSwitch t ps =>
    have pairs : ps.mapM (fun p => return (p.1, ← f p.2)) = .error e ↔
        (ps.map (·.2)).mapM f = .error e := by
      induction ps with
      | nil => simp [List.mapM_nil, pure_ne_error]
      | cons p ps ih =>
        rw [List.map_cons, mapM_cons_eq_error_iff, mapM_cons_eq_error_iff, ih]
        simp only [bind_eq_error_iff, bind_eq_ok_iff, pure_ne_error, and_false, exists_false,
          or_false, pure_eq_ok_iff]
        cases f p.2 <;> simp
    simp only [mapM, targets, bind_eq_error_iff, pure_ne_error, and_false, exists_false, or_false,
      pairs, mapM_cons_eq_error_iff]

end Instruction

namespace Body
open Instruction (placed)

variable {body : Body} {e : WriteError}

/-- Whether a label stands nowhere in a body. -/
def isMissing (body : Body) (l : Label) : Bool := (gap? l body).isNone

theorem mapM_target_eq_error_iff :
    (placed 0 body.instructions).mapM (fun p =>
        return (p.1, ← p.2.mapM (target (labelOffsets (located 0 body))))) = .error e ↔
      ∃ l, body.targets.find? body.isMissing = some l ∧ e = .undefinedLabel l := by
  have step (p : Nat × Instruction Label) (e : WriteError) :
      (return (p.1, ← p.2.mapM (target (labelOffsets (located 0 body)))) :
          Except WriteError (Nat × Instruction Target)) = .error e ↔
        p.2.targets.mapM (target (labelOffsets (located 0 body))) = .error e := by
    simp only [bind_eq_error_iff, pure_ne_error, and_false, exists_false, or_false,
      Instruction.mapM_eq_error_iff]
  have listed : (placed 0 body.instructions).flatMap (·.2.targets) = body.targets := by
    have kept := @Instruction.map_snd_placed _ 0 body.instructions
    rw [targets_eq, ← kept, List.flatMap_map, kept]
  rw [mapM_eq_error_iff_flatMap step, listed]
  apply mapM_eq_error_iff_find?
  · intro l present
    have placed : (gap? l body).isSome := by
      rw [isMissing, Option.isNone_eq_false_iff] at present
      exact present
    exact ⟨_, target_eq_ok_iff.mpr ⟨placed, rfl⟩⟩
  · intro l missing
    cases found : target (labelOffsets (located 0 body)) l with
    | ok t =>
      have placed := (target_eq_ok_iff.mp found).1
      rw [isMissing, Option.isNone_iff_eq_none] at missing
      rw [missing] at placed
      cases placed
    | error e =>
      unfold target at found
      split at found
      · cases found
      · exact found.symm ▸ rfl

/-- What writing a body reports. -/
theorem write_eq_error_iff :
    body.write = .error e ↔
      (∃ l, body.targets.find? body.isMissing = some l ∧ e = .undefinedLabel l) ∨
      (∀ l ∈ body.targets, (gap? l body).isSome) ∧
        (placed 0 body.resolved).mapM (fun p => p.2.write p.1) = .error e := by
  simp only [write, placedInstructions, bind_eq_error_iff, pure_ne_error, and_false, exists_false,
    or_false, mapM_target_eq_error_iff, mapM_target_eq_ok_iff]
  refine or_congr_right ⟨?_, ?_⟩
  · rintro ⟨_, ⟨defined, rfl⟩, fails⟩
    exact ⟨defined, fails⟩
  · rintro ⟨defined, fails⟩
    exact ⟨_, ⟨defined, rfl⟩, fails⟩

/-- What cannot be written has a label that stands nowhere, or an instruction that cannot be written
at its place. -/
theorem missing_or_fault (h : body.write = .error e) :
    (∃ l ∈ body.targets, gap? l body = none ∧ e = .undefinedLabel l) ∨
      ∃ (i : Instruction Label) (g : Nat), body.instructions[g]? = some i ∧
        (i.map body.resolve).write (body.start g) = .error e := by
  rcases write_eq_error_iff.mp h with ⟨l, first, same⟩ | ⟨-, fails⟩
  · have missing := List.find?_some first
    rw [isMissing, Option.isNone_iff_eq_none] at missing
    exact .inl ⟨l, List.mem_of_find?_eq_some first, missing, same⟩
  · obtain ⟨p, hp, fault⟩ := exists_eq_error_of_mapM fails
    obtain ⟨g, here⟩ := List.getElem?_of_mem hp
    rw [resolved, Instruction.placed_map, List.getElem?_map, Instruction.getElem?_placed] at here
    simp only [Option.map_map, Option.map_eq_some_iff, Function.comp_apply] at here
    obtain ⟨i, found, rfl⟩ := here
    exact .inr ⟨i, g, found, fault⟩

/-- Operands of the right kind are never refused. -/
theorem write_ne_unsupported (shaped : ∀ i, .code i ∈ body → i.Shaped) (op : Opcode) :
    body.write ≠ .error (.unsupported op) := by
  intro fails
  rcases missing_or_fault fails with ⟨l, -, -, same⟩ | ⟨i, g, here, fault⟩
  · cases same
  · have kind := shaped i (mem_instructions.mp (List.mem_of_getElem? here))
    exact (kind.map body.resolve).write_ne_unsupported op fault

/-- The instruction at index `g` is a 16-bit branch, and its label is too far away for it. -/
structure OutOfReach (body : Body) (g : Nat) (l : Label) (distance : Int) : Prop where
  branch : ∃ op, body.instructions[g]? = some (.jump op l) ∧ op.shape = .branch16
  exact : distance = (body.resolve l).offset - body.start g
  far : ¬ (-32768 ≤ distance ∧ distance ≤ 32767)

/-- Where every label stands somewhere and offsets are small, well-formed instructions can be
written, unless a 16-bit branch is too far from its target. -/
theorem write_or_far (wellFormed : ∀ i, .code i ∈ body → i.WellFormed)
    (defined : ∀ l ∈ body.targets, (gap? l body).isSome)
    (small : ∀ g, body.start g ≤ 2147483647) :
    (∃ code, body.write = .ok code) ∨
      ∃ g l distance, body.OutOfReach g l distance ∧
        body.write = .error (.branchOutOfRange (body.start g) l distance) := by
  cases written : body.write with
  | ok code => exact .inl ⟨code, rfl⟩
  | error e =>
    right
    rcases missing_or_fault written with ⟨l, target, missing, -⟩ | ⟨i, g, here, fault⟩
    · have found := defined l target
      rw [missing] at found
      cases found
    · have member := mem_instructions.mp (List.mem_of_getElem? here)
      have near : ∀ t ∈ (i.map body.resolve).targets, Instruction.Near (body.start g) t := by
        rw [Instruction.targets_map]
        intro t ht
        obtain ⟨l, -, rfl⟩ := List.mem_map.mp ht
        have own := small g
        have other := small ((gap? l body).getD 0)
        simp only [Instruction.Near, resolve]
        omega
      rcases ((wellFormed i member).map body.resolve).write_or_far near with
        ⟨bytes, ok⟩ | ⟨op, t, jump, narrow, far, reported⟩
      · rw [ok] at fault
        cases fault
      · rw [reported] at fault
        cases fault
        cases i with
        | jump op' l =>
          cases jump
          exact ⟨g, l, _, ⟨⟨_, here, narrow⟩, rfl, far⟩, rfl⟩
        | _ => cases jump

end Body

end BytecodeMutation
