import BytecodeMutation.Proofs.Code.Emission

/-!
The layout of a body. Writing gives every instruction the offset behind the ones before it, so a
label stands for the number of instructions before its last placement. `Body.write_eq_ok_iff` puts
together what writing a whole body amounts to.
-/
namespace BytecodeMutation

/-- A longer prefix goes on where a shorter one ends. -/
theorem take_eq_append {α : Type} (xs : List α) {g h : Nat} (before : g ≤ h) :
    xs.take h = xs.take g ++ (xs.take h).drop g := by
  have parts := List.take_append_drop g (xs.take h)
  rw [List.take_take, Nat.min_eq_left before] at parts
  exact parts.symm

namespace Instruction

variable {τ σ : Type} {pc : Nat}

/-- The offset behind instructions that begin at `pc`. -/
def endOf (pc : Nat) : List (Instruction τ) → Nat
  | [] => pc
  | i :: is => endOf (pc + i.size pc) is

/-- Instructions with their offsets, the first at `pc`. -/
def placed (pc : Nat) : List (Instruction τ) → List (Nat × Instruction τ)
  | [] => []
  | i :: is => (pc, i) :: placed (pc + i.size pc) is

theorem size_pos (pc : Nat) (i : Instruction τ) : 0 < i.size pc := by
  cases i with
  | access op slot =>
    simp only [size]
    split
    · omega
    · split <;> omega
  | increment slot delta => simp only [size]; split <;> omega
  | _ => simp only [size]; omega

theorem endOf_append (is js : List (Instruction τ)) :
    endOf pc (is ++ js) = endOf (endOf pc is) js := by
  induction is generalizing pc with
  | nil => rfl
  | cons i is ih => exact ih

@[simp] theorem endOf_map (f : τ → σ) (is : List (Instruction τ)) :
    endOf pc (is.map (·.map f)) = endOf pc is := by
  induction is generalizing pc with
  | nil => rfl
  | cons i is ih => simp only [List.map_cons, endOf, size_map, ih]

theorem placed_map (f : τ → σ) (is : List (Instruction τ)) :
    placed pc (is.map (·.map f)) = (placed pc is).map fun p => (p.1, p.2.map f) := by
  induction is generalizing pc with
  | nil => rfl
  | cons i is ih => simp only [List.map_cons, placed, size_map, ih]

theorem le_endOf (is : List (Instruction τ)) : pc ≤ endOf pc is := by
  induction is generalizing pc with
  | nil => exact Nat.le_refl pc
  | cons i is ih => have := @ih (pc + i.size pc); simp only [endOf]; omega

theorem endOf_lt_of_ne_nil {is : List (Instruction τ)} (nonempty : is ≠ []) : pc < endOf pc is := by
  cases is with
  | nil => exact absurd rfl nonempty
  | cons i is =>
    have positive := size_pos pc i
    have := @le_endOf _ (pc + i.size pc) is
    simp only [endOf]
    omega

/-- Later instructions have larger offsets. -/
theorem endOf_take_lt {is : List (Instruction τ)} {g h : Nat} (before : g < h)
    (within : h ≤ is.length) : endOf pc (is.take g) < endOf pc (is.take h) := by
  rw [take_eq_append is (Nat.le_of_lt before), endOf_append]
  apply endOf_lt_of_ne_nil
  rw [← List.length_pos_iff]
  simp only [List.length_drop, List.length_take]
  omega

theorem endOf_take_lt_iff {is : List (Instruction τ)} {g h : Nat} (hg : g ≤ is.length)
    (hh : h ≤ is.length) : endOf pc (is.take g) < endOf pc (is.take h) ↔ g < h := by
  constructor
  · intro less
    rcases Nat.lt_trichotomy g h with before | rfl | after
    · exact before
    · omega
    · have := @endOf_take_lt _ pc _ _ _ after hg
      omega
  · intro before
    exact endOf_take_lt before hh

theorem endOf_take_inj {is : List (Instruction τ)} {g h : Nat} (hg : g ≤ is.length)
    (hh : h ≤ is.length) : endOf pc (is.take g) = endOf pc (is.take h) ↔ g = h := by
  have less := @endOf_take_lt_iff _ pc _ _ _ hg hh
  have more := @endOf_take_lt_iff _ pc _ _ _ hh hg
  omega

theorem getElem?_placed (is : List (Instruction τ)) (g : Nat) :
    (placed pc is)[g]? = is[g]?.map fun i => (endOf pc (is.take g), i) := by
  induction is generalizing pc g with
  | nil => simp [placed]
  | cons i is ih =>
    cases g with
    | zero => simp [placed, endOf]
    | succ g => simp [placed, endOf, ih]

@[simp] theorem map_snd_placed (is : List (Instruction τ)) : (placed pc is).map (·.2) = is := by
  induction is generalizing pc with
  | nil => rfl
  | cons i is ih => simp only [placed, List.map_cons, ih]

theorem le_of_mem_placed {is : List (Instruction τ)} : ∀ p ∈ placed pc is, pc ≤ p.1 := by
  induction is generalizing pc with
  | nil => exact nofun
  | cons i is ih =>
    rw [placed, List.forall_mem_cons]
    constructor
    · exact Nat.le_refl pc
    · intro p hp
      exact Nat.le_trans (Nat.le_add_right _ _) (ih p hp)

/-- The bytes of instructions that are written one after the other, the first at `pc`. -/
inductive Emitted : Nat → List (Instruction Target) → List UInt8 → Prop
  | nil (pc : Nat) : Emitted pc [] []
  | cons {pc i is bs rest} (first : write pc i = .ok bs)
      (others : Emitted (pc + i.size pc) is rest) : Emitted pc (i :: is) (bs ++ rest)

theorem emitted_iff {is : List (Instruction Target)} {bytes : List UInt8} :
    Emitted pc is bytes ↔
      ∃ pieces, (placed pc is).mapM (fun p => p.2.write p.1) = .ok pieces ∧
        bytes = pieces.flatten := by
  constructor
  · intro h
    induction h with
    | nil pc => exact ⟨[], rfl, rfl⟩
    | @cons pc i is bs rest first _ ih =>
      obtain ⟨pieces, written, rfl⟩ := ih
      exact ⟨bs :: pieces, mapM_cons_eq_ok_iff.mpr ⟨bs, pieces, first, written, rfl⟩, rfl⟩
  · rintro ⟨pieces, written, rfl⟩
    induction is generalizing pc pieces with
    | nil =>
      simp only [placed, List.mapM_nil, pure_eq_ok_iff] at written
      subst written
      exact .nil pc
    | cons i is ih =>
      obtain ⟨bs, others, first, rest, rfl⟩ := mapM_cons_eq_ok_iff.mp written
      exact .cons first (ih others rest)

theorem mapM_eq_ok_iff {ε : Type} {f : τ → Except ε σ} {p : τ → Prop} {g : τ → σ}
    (step : ∀ x y, f x = .ok y ↔ p x ∧ y = g x) {i : Instruction τ} {j : Instruction σ} :
    i.mapM f = .ok j ↔ (∀ t ∈ i.targets, p t) ∧ j = i.map g := by
  cases i with
  | jump op t =>
    simp only [mapM, bind_eq_ok_iff, pure_eq_ok_iff, step, targets, map, List.mem_singleton,
      forall_eq]
    grind
  | tableSwitch low t ts =>
    simp only [mapM, bind_eq_ok_iff, pure_eq_ok_iff, step, targets, map, List.forall_mem_cons,
      BytecodeMutation.mapM_eq_ok_iff step]
    grind
  | lookupSwitch t ps =>
    have pair (x : Int32 × τ) (y : Int32 × σ) :
        (return (x.1, ← f x.2) : Except ε (Int32 × σ)) = .ok y ↔ p x.2 ∧ y = (x.1, g x.2) := by
      simp only [bind_eq_ok_iff, pure_eq_ok_iff, step]
      grind
    simp only [mapM, bind_eq_ok_iff, pure_eq_ok_iff, step, targets, map, List.forall_mem_cons,
      List.forall_mem_map, BytecodeMutation.mapM_eq_ok_iff pair]
    grind
  | _ => simp [mapM, targets, map, eq_comm]

end Instruction

namespace Body
open Instruction (endOf placed Emitted)

/-- The instructions of a body, without the markers. -/
def instructions (body : Body) : List (Instruction Label) := body.filterMap Element.instruction?

/-- Every label that some branch or switch refers to. -/
def targets (body : Body) : List Label := body.flatMap Element.targets

/-- How many instructions stand before the last placement of a label. -/
def gap? (l : Label) : Body → Option Nat
  | [] => none
  | .code _ :: rest => (gap? l rest).map (· + 1)
  | .line _ :: rest => gap? l rest
  | .label l' :: rest => (gap? l rest).or (if l' = l then some 0 else none)

/-- The offset of a gap, behind as many instructions. -/
def start (body : Body) (g : Nat) : Nat := endOf 0 (body.instructions.take g)

/-- A label with the offset of its gap. -/
def resolve (body : Body) (l : Label) : Target := ⟨l, body.start ((gap? l body).getD 0)⟩

/-- The instructions with the offsets that their targets have. -/
def resolved (body : Body) : List (Instruction Target) :=
  body.instructions.map fun i => i.map body.resolve

/-- The line markers of a body as a table. -/
def lineEntries (pc : Nat) (body : Body) : List LineEntry :=
  (located pc body).filterMap placedLine?

section
variable {pc : Nat} {l : Label}

@[simp] theorem instructions_code (i : Instruction Label) (body : Body) :
    instructions (.code i :: body) = i :: body.instructions := rfl

@[simp] theorem instructions_line (n : UInt32) (body : Body) :
    instructions (.line n :: body) = body.instructions := rfl

@[simp] theorem instructions_label (l : Label) (body : Body) :
    instructions (.label l :: body) = body.instructions := rfl

theorem instructions_append (xs ys : Body) :
    instructions (xs ++ ys) = xs.instructions ++ ys.instructions := List.filterMap_append

theorem mem_instructions {i : Instruction Label} {body : Body} :
    i ∈ body.instructions ↔ .code i ∈ body := by
  induction body with
  | nil => simp [instructions]
  | cons e body ih => cases e <;> simp [ih]

theorem targets_eq (body : Body) : body.targets = body.instructions.flatMap (·.targets) := by
  induction body with
  | nil => rfl
  | cons e body ih =>
    cases e <;> simp_all [targets, Element.targets]

theorem gap?_le_length {g : Nat} {body : Body} (h : gap? l body = some g) :
    g ≤ body.instructions.length := by
  induction body generalizing g with
  | nil => cases h
  | cons e body ih =>
    cases e with
    | code i =>
      obtain ⟨k, hk, rfl⟩ := Option.map_eq_some_iff.mp h
      have := ih hk
      simp only [instructions_code, List.length_cons]
      omega
    | line n => exact ih h
    | label l' =>
      simp only [gap?, Option.or_eq_some_iff] at h
      rcases h with h | ⟨-, h⟩
      · exact ih h
      · split at h
        · cases h; exact Nat.zero_le _
        · cases h

theorem placedInstructions (body : Body) :
    (located pc body).filterMap placedInstruction? = placed pc body.instructions := by
  induction body generalizing pc with
  | nil => rfl
  | cons e body ih =>
    cases e with
    | code i => exact congrArg ((pc, i) :: ·) ih
    | _ => exact ih

theorem mem_targets (pc : Nat) {body : Body} :
    l ∈ body.targets ↔ ∃ p ∈ placed pc body.instructions, l ∈ p.2.targets := by
  have listed := @Instruction.map_snd_placed _ pc body.instructions
  rw [targets_eq, ← List.mem_flatMap, ← listed, List.flatMap_map, listed]

/-- The offset recorded for a label is that of its last placement, or what was there before. -/
theorem getElem?_foldl_placed (body : Body) (m : Std.HashMap UInt32 Nat) :
    (((located pc body).filterMap placedLabel?).foldl (fun m (l, pc) => m.insert l.number pc) m
        )[l.number]? =
      ((gap? l body).map fun g => endOf pc (body.instructions.take g)).or m[l.number]? := by
  induction body generalizing pc m with
  | nil => rfl
  | cons e body ih =>
    cases e with
    | code i =>
      refine (ih m).trans ?_
      simp [gap?, Function.comp_def, endOf, Element.size]
    | line n => exact ih m
    | label l' =>
      refine (ih _).trans ?_
      simp only [gap?, instructions_label, Std.HashMap.getElem?_insert, beq_iff_eq, Element.size,
        Nat.add_zero]
      have same : l'.number = l.number ↔ l' = l := by cases l; cases l'; simp
      by_cases here : l' = l
      · cases gap? l body <;> simp [here, endOf]
      · cases gap? l body <;> simp [here, same]

theorem target_eq_ok_iff {body : Body} {t : Target} :
    target (labelOffsets (located 0 body)) l = .ok t ↔
      (gap? l body).isSome ∧ t = resolve body l := by
  rw [target, labelOffsets, getElem?_foldl_placed]
  cases h : gap? l body with
  | none => simp
  | some g => simp [resolve, start, h, eq_comm]

theorem mapM_target_eq_ok_iff {body : Body} {is : List (Nat × Instruction Target)} :
    (placed 0 body.instructions).mapM (fun p =>
        return (p.1, ← p.2.mapM (target (labelOffsets (located 0 body))))) = .ok is ↔
      (∀ l ∈ body.targets, (gap? l body).isSome) ∧
        is = placed 0 body.resolved := by
  have step (p : Nat × Instruction Label) (q : Nat × Instruction Target) :
      (return (p.1, ← p.2.mapM (target (labelOffsets (located 0 body)))) :
          Except WriteError (Nat × Instruction Target)) = .ok q ↔
        (∀ l ∈ p.2.targets, (gap? l body).isSome) ∧ q = (p.1, p.2.map body.resolve) := by
    simp only [bind_eq_ok_iff, pure_eq_ok_iff,
      Instruction.mapM_eq_ok_iff fun _ _ => target_eq_ok_iff]
    grind
  have everywhere : (∀ p ∈ placed 0 body.instructions, ∀ l ∈ p.2.targets, (gap? l body).isSome) ↔
      ∀ l ∈ body.targets, (gap? l body).isSome := by
    simp only [mem_targets 0]
    exact ⟨fun h l ⟨p, hp, hl⟩ => h p hp l hl, fun h p hp l hl => h l ⟨p, hp, hl⟩⟩
  rw [mapM_eq_ok_iff step, everywhere, resolved, Instruction.placed_map]

/-- A body without undefined labels is written instruction by instruction. -/
theorem write_of_defined {body : Body} (defined : ∀ l ∈ body.targets, (gap? l body).isSome) :
    body.write = ((placed 0 body.resolved).mapM fun p : Nat × Instruction Target =>
      p.2.write p.1).map fun pieces => ⟨pieces.flatten, lineEntries 0 body⟩ := by
  have found := mapM_target_eq_ok_iff.mpr ⟨defined, rfl⟩
  simp only [write, placedInstructions, found]
  rfl

theorem write_eq_ok_iff {body : Body} {code : Code} :
    body.write = .ok code ↔
      (∀ l ∈ body.targets, (gap? l body).isSome) ∧
        Emitted 0 body.resolved code.bytes ∧
        code.lines = lineEntries 0 body := by
  simp only [write, placedInstructions, bind_eq_ok_iff, pure_eq_ok_iff, mapM_target_eq_ok_iff,
    Instruction.emitted_iff]
  constructor
  · rintro ⟨_, ⟨defined, rfl⟩, pieces, written, rfl⟩
    exact ⟨defined, ⟨pieces, written, rfl⟩, rfl⟩
  · rintro ⟨defined, ⟨pieces, written, bytes⟩, lines⟩
    refine ⟨_, ⟨defined, rfl⟩, pieces, written, ?_⟩
    rw [← lineEntries, ← bytes, ← lines]

end

end Body

end BytecodeMutation
