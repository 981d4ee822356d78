import BytecodeMutation.Proofs.Body.Obstacle

/-!
Bodies that differ in one opcode. Where an instruction is exchanged for one of the same size with
the same operands, every offset stays, and with the offsets all that writing reports. The code then
differs in the byte of that opcode.
-/
namespace BytecodeMutation

/-- Lists that are the same but for the elements at one index, which are related. -/
inductive DifferAt {α : Type} (R : α → α → Prop) : Nat → List α → List α → Prop
  | here {a b : α} (related : R a b) (rest : List α) : DifferAt R 0 (a :: rest) (b :: rest)
  | there (a : α) {n : Nat} {xs ys : List α} (later : DifferAt R n xs ys) :
      DifferAt R (n + 1) (a :: xs) (a :: ys)

namespace DifferAt

variable {α β : Type} {R : α → α → Prop} {n : Nat} {xs ys : List α}

theorem length_eq (h : DifferAt R n xs ys) : ys.length = xs.length := by
  induction h with
  | here => rfl
  | there a _ ih => exact congrArg (· + 1) ih

theorem append_left (h : DifferAt R n xs ys) (zs : List α) :
    DifferAt R (zs.length + n) (zs ++ xs) (zs ++ ys) := by
  induction zs with
  | nil => rwa [List.length_nil, Nat.zero_add]
  | cons z zs ih =>
    rw [List.length_cons, Nat.succ_add]
    exact .there z ih

theorem append_right (h : DifferAt R n xs ys) (zs : List α) :
    DifferAt R n (xs ++ zs) (ys ++ zs) := by
  induction h with
  | here related rest => exact .here related (rest ++ zs)
  | there a _ ih => exact .there a ih

theorem map {S : β → β → Prop} {f : α → β} (h : DifferAt R n xs ys)
    (kept : ∀ a b, R a b → S (f a) (f b)) : DifferAt S n (xs.map f) (ys.map f) := by
  induction h with
  | here related rest => exact .here (kept _ _ related) (rest.map f)
  | there a _ ih => exact .there (f a) ih

theorem getElem?_ne_iff (h : DifferAt (· ≠ ·) n xs ys) {k : Nat} : ys[k]? ≠ xs[k]? ↔ k = n := by
  induction h generalizing k with
  | here other rest =>
    cases k with
    | zero => simp [other.symm]
    | succ k => simp
  | there a _ ih =>
    cases k with
    | zero => simp
    | succ k => rw [List.getElem?_cons_succ, List.getElem?_cons_succ, ih, Nat.add_right_cancel_iff]

theorem of_replace {a b : α} (here : xs[n]? = some a) (related : R a b) :
    DifferAt R n xs (xs.take n ++ [b] ++ xs.drop (n + 1)) := by
  obtain ⟨within, rfl⟩ := List.getElem?_eq_some_iff.mp here
  have length : (xs.take n).length = n := List.length_take_of_le (Nat.le_of_lt within)
  have parts : xs = xs.take n ++ xs[n] :: xs.drop (n + 1) := by simp
  have exchanged := (DifferAt.here related (xs.drop (n + 1))).append_left (xs.take n)
  rw [← parts, length, Nat.add_zero] at exchanged
  rwa [List.append_assoc]

end DifferAt

namespace Instruction

variable {τ σ : Type} {pc : Nat}

/-- Instructions that differ in their opcodes alone, and have no more than a short distance behind
them. -/
inductive Twin : Instruction τ → Instruction τ → Prop
  | plain {op op' : Opcode} (bare : op.shape = .bare) (bare' : op'.shape = .bare)
      (other : op.byte ≠ op'.byte) : Twin (plain op) (plain op')
  | jump {op op' : Opcode} (short : op.shape = .branch16) (short' : op'.shape = .branch16)
      (other : op.byte ≠ op'.byte) (t : τ) : Twin (jump op t) (jump op' t)

namespace Twin

variable {i i' : Instruction τ}

theorem size_eq (h : Twin i i') (pc : Nat) : i'.size pc = i.size pc := by
  cases h with
  | plain bare bare' => simp only [size, bare, bare']
  | jump short short' => simp only [size, short, short']

theorem targets_eq (h : Twin i i') : i'.targets = i.targets := by
  cases h <;> rfl

theorem map (h : Twin i i') (f : τ → σ) : Twin (i.map f) (i'.map f) := by
  cases h with
  | plain bare bare' other => exact .plain bare bare' other
  | jump short short' other t => exact .jump short short' other (f t)

/-- The opcode is the first byte, and nothing else depends on it. -/
theorem write {i i' : Instruction Target} (h : Twin i i') :
    Agree (DifferAt (· ≠ ·) 0) (i.write pc) (i'.write pc) := by
  cases h with
  | plain bare bare' other =>
    rw [Instruction.write, Instruction.write, if_pos bare, if_pos bare']
    exact .ok (.here other [])
  | jump short short' other t =>
    simp only [Instruction.write, writeJump, short, short']
    by_cases reach : -32768 ≤ (t.offset : Int) - pc ∧ (t.offset : Int) - pc ≤ 32767
    · rw [if_pos reach, if_pos reach]
      exact .ok (.here other _)
    · rw [if_neg reach, if_neg reach]
      exact .error _

end Twin

variable {g : Nat} {is is' : List (Instruction τ)}

theorem endOf_take_eq (h : DifferAt Twin g is is') (k : Nat) :
    endOf pc (is'.take k) = endOf pc (is.take k) := by
  induction h generalizing pc k with
  | here twin rest =>
    cases k with
    | zero => rfl
    | succ k => simp only [List.take_succ_cons, endOf, twin.size_eq]
  | there i _ ih =>
    cases k with
    | zero => rfl
    | succ k => exact ih k

/-- All pieces but one are the same, and that one begins with another byte. -/
theorem agree_pieces {is is' : List (Instruction Target)} (h : DifferAt Twin g is is') (pc : Nat) :
    Agree (fun ps ps' : List (List UInt8) =>
        DifferAt (· ≠ ·) (endOf pc (is.take g) - pc) ps.flatten ps'.flatten)
      ((placed pc is).mapM fun p => p.2.write p.1)
      ((placed pc is').mapM fun p => p.2.write p.1) := by
  induction h generalizing pc with
  | here twin rest =>
    simp only [placed, List.mapM_cons, twin.size_eq]
    apply twin.write.bind
    intro bs bs' differ
    apply (Agree.refl (R := Eq) _ fun _ _ => rfl).bind
    rintro ps _ rfl
    refine .ok ?_
    rw [List.take_zero, endOf, Nat.sub_self]
    exact differ.append_right ps.flatten
  | @there i g is is' _ ih =>
    simp only [placed, List.mapM_cons]
    have same : Agree (fun bs bs' => bs = bs' ∧ bs.length = i.size pc) (i.write pc) (i.write pc) :=
      .refl _ fun bs written => ⟨rfl, length_of_write written⟩
    apply same.bind
    rintro bs _ ⟨rfl, length⟩
    apply (ih (pc + i.size pc)).bind
    intro ps ps' differ
    refine .ok ?_
    -- a piece is as long as the layout says, so the offset counts the bytes before the change
    have offset : endOf pc ((i :: is).take (g + 1)) - pc =
        bs.length + (endOf (pc + i.size pc) (is.take g) - (pc + i.size pc)) := by
      have further := @le_endOf _ (pc + i.size pc) (is.take g)
      rw [List.take_succ_cons, endOf, length]
      omega
    rw [offset]
    exact differ.append_left bs

end Instruction

/-- Elements that are twins as instructions. -/
inductive Element.Twin : Element → Element → Prop
  | code {i i' : Instruction Label} (twin : i.Twin i') : Twin (.code i) (.code i')

namespace Body
open Instruction (endOf)

variable {n : Nat} {body body' : Body}

theorem getElem?_located {e : Element} {pc : Nat} (here : body[n]? = some e) :
    (located pc body)[n]? = some (endOf pc (instructions (body.take n)), e) := by
  induction body generalizing n pc with
  | nil => cases here
  | cons e' body ih =>
    cases n with
    | zero =>
      cases here
      rfl
    | succ n =>
      rw [located, List.getElem?_cons_succ, ih here]
      cases e' <;> rfl

theorem differAt_instructions (h : DifferAt Element.Twin n body body') :
    DifferAt Instruction.Twin (instructions (body.take n)).length body.instructions
      body'.instructions := by
  induction h with
  | here twin rest =>
    cases twin with
    | code twin => exact .here twin (instructions rest)
  | there e _ ih =>
    cases e with
    | code i => exact .there i ih
    | label | line => exact ih

theorem gap?_eq (h : DifferAt Element.Twin n body body') (l : Label) :
    gap? l body' = gap? l body := by
  induction h with
  | here twin rest =>
    cases twin
    rfl
  | there e _ ih => cases e <;> simp only [gap?, ih]

theorem targets_eq_of_differAt (h : DifferAt Element.Twin n body body') :
    body'.targets = body.targets := by
  induction h with
  | here twin rest =>
    cases twin with
    | code twin => simp only [targets, List.flatMap_cons, Element.targets, twin.targets_eq]
  | there e _ ih =>
    simp only [targets, List.flatMap_cons] at ih ⊢
    rw [ih]

theorem lineEntries_eq (h : DifferAt Element.Twin n body body') (pc : Nat) :
    lineEntries pc body' = lineEntries pc body := by
  induction h generalizing pc with
  | here twin rest =>
    cases twin with
    | code twin =>
      simp only [lineEntries, located, Element.size, twin.size_eq]
      rfl
  | there e _ ih =>
    have others := ih (pc + e.size pc)
    simp only [lineEntries, located, List.filterMap_cons] at others ⊢
    rw [others]

theorem resolve_eq (h : DifferAt Element.Twin n body body') : body'.resolve = body.resolve := by
  funext l
  rw [resolve, resolve, gap?_eq h, start, start,
    Instruction.endOf_take_eq (differAt_instructions h)]

theorem differAt_resolved (h : DifferAt Element.Twin n body body') :
    DifferAt Instruction.Twin (instructions (body.take n)).length body.resolved
      body'.resolved := by
  rw [resolved, resolved, resolve_eq h]
  exact (differAt_instructions h).map fun _ _ twin => twin.map body.resolve

theorem take_instructions (n : Nat) (body : Body) :
    body.instructions.take (instructions (body.take n)).length = instructions (body.take n) := by
  have parts : body.instructions = instructions (body.take n) ++ instructions (body.drop n) := by
    rw [← instructions_append, List.take_append_drop]
  rw [parts, List.take_left]

/-- Writing reports the same for both bodies, or gives the same lines and code that differs in the
byte of one opcode. -/
theorem agree_write (h : DifferAt Element.Twin n body body') :
    Agree (fun code code' : Code => code'.lines = code.lines ∧
        DifferAt (· ≠ ·) (endOf 0 (instructions (body.take n))) code.bytes code'.bytes)
      body.write body'.write := by
  by_cases defined : ∀ l ∈ body.targets, (gap? l body).isSome
  · have defined' : ∀ l ∈ body'.targets, (gap? l body').isSome := by
      intro l hl
      rw [targets_eq_of_differAt h] at hl
      rw [gap?_eq h]
      exact defined l hl
    have pieces := Instruction.agree_pieces (differAt_resolved h) 0
    rw [resolved, ← List.map_take, Instruction.endOf_map, take_instructions, Nat.sub_zero] at pieces
    rw [write_of_defined defined, write_of_defined defined']
    apply pieces.map
    intro ps ps' differ
    exact ⟨lineEntries_eq h 0, differ⟩
  · -- the first label that stands nowhere is the same for both
    have missing : body'.isMissing = body.isMissing := by
      funext l
      rw [isMissing, isMissing, gap?_eq h]
    obtain ⟨l, first⟩ : ∃ l, body.targets.find? body.isMissing = some l := by
      apply Option.isSome_iff_exists.mp
      rw [List.find?_isSome]
      simpa [isMissing] using defined
    have first' : body'.targets.find? body'.isMissing = some l := by
      rw [targets_eq_of_differAt h, missing, first]
    rw [write_eq_error_iff.mpr (.inl ⟨l, first, rfl⟩),
      write_eq_error_iff.mpr (.inl ⟨l, first', rfl⟩)]
    exact .error _

end Body

end BytecodeMutation
