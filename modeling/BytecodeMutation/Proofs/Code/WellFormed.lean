import BytecodeMutation.Proofs.Code.Emission

/-!
Well-formed instructions. An instruction is well-formed if its operands are of the kind that its
opcode takes and fit the bytes that they are written to. Only the distance of a target can then keep
it from being written, and if targets are not out of all reach, only that of a 16-bit branch.
-/
namespace BytecodeMutation

/-- The values that an immediate operand of a shape may have. -/
def Shape.Holds : Shape → Int → Prop
  | .signedByte, v => -128 ≤ v ∧ v ≤ 127
  | .unsignedByte, v => 0 ≤ v ∧ v ≤ 255
  | .signedShort, v => -32768 ≤ v ∧ v ≤ 32767
  | _, _ => False

namespace Instruction
open BigEndian

section
variable {τ σ : Type}

/-- The operands are of the kind that the opcode takes. -/
def Shaped : Instruction τ → Prop
  | plain op => op.shape = .bare
  | access op _ => op.shape = .slot
  | immediate op _ => op.shape = .signedByte ∨ op.shape = .unsignedByte ∨ op.shape = .signedShort
  | jump op _ => op.shape = .branch16 ∨ op.shape = .branch32
  | constant op bs => op.shape = .constant bs.length
  | increment .. | tableSwitch .. | lookupSwitch .. => True

/-- The operands fit their bytes, and the keys of a table are ints. -/
def Fits : Instruction τ → Prop
  | immediate op v => op.shape.Holds v.toInt
  | tableSwitch low _ ts =>
    ts ≠ [] ∧ ts.length ≤ 2147483647 ∧ low.toInt + ts.length - 1 ≤ 2147483647
  | lookupSwitch _ ps => ps.length ≤ 2147483647
  | _ => True

structure WellFormed (i : Instruction τ) : Prop where
  shaped : i.Shaped
  fits : i.Fits

theorem Shaped.map {i : Instruction τ} (h : i.Shaped) (f : τ → σ) : (i.map f).Shaped := by
  cases i with
  | increment | tableSwitch | lookupSwitch => exact trivial
  | plain | access | immediate | jump | constant => exact h

theorem WellFormed.map {i : Instruction τ} (h : i.WellFormed) (f : τ → σ) :
    (i.map f).WellFormed := by
  refine ⟨h.shaped.map f, ?_⟩
  have fits := h.fits
  cases i with
  | tableSwitch low t ts => simpa [Instruction.map, Fits] using fits
  | lookupSwitch t ps => simpa [Instruction.map, Fits] using fits
  | plain | access | immediate | jump | increment | constant => exact fits

end

section
variable {pc : Nat}

/-- A switch that cannot be written is reported by its offset, whatever the reason. -/
theorem switchDistance_eq_error {t : Target} {e : WriteError}
    (h : switchDistance pc t = .error e) : e = .malformedSwitch pc := by
  unfold switchDistance at h
  dsimp only at h
  split at h
  · cases h
  · cases h
    rfl

theorem writeTableSwitch_eq_error {low : Int32} {fallback : Target} {targets : List Target}
    {e : WriteError} (h : writeTableSwitch pc low fallback targets = .error e) :
    e = .malformedSwitch pc := by
  unfold writeTableSwitch at h
  dsimp only at h
  split at h
  · cases h
    rfl
  · simp only [bind_eq_error_iff, pure_ne_error, and_false, exists_false, or_false] at h
    rcases h with first | ⟨_, -, others⟩
    · exact switchDistance_eq_error first
    · obtain ⟨_, -, fails⟩ := exists_eq_error_of_mapM others
      exact switchDistance_eq_error fails

theorem writeLookupSwitch_eq_error {fallback : Target} {pairs : List (Int32 × Target)}
    {e : WriteError} (h : writeLookupSwitch pc fallback pairs = .error e) :
    e = .malformedSwitch pc := by
  unfold writeLookupSwitch at h
  split at h
  · cases h
    rfl
  · simp only [bind_eq_error_iff, pure_ne_error, and_false, exists_false, or_false] at h
    rcases h with first | ⟨_, -, others⟩
    · exact switchDistance_eq_error first
    · obtain ⟨p, -, fails⟩ := exists_eq_error_of_mapM others
      simp only [bind_eq_error_iff, pure_ne_error, and_false, exists_false, or_false] at fails
      exact switchDistance_eq_error fails

/-- No opcode is refused where the operands are of its kind. -/
theorem Shaped.write_ne_unsupported {i : Instruction Target} (h : i.Shaped) (op : Opcode) :
    i.write pc ≠ .error (.unsupported op) := by
  intro fails
  cases i with
  | plain | access | constant => cases fails.symm.trans (if_pos h)
  | immediate op' v =>
    simp only [Shaped] at h
    simp only [write, writeImmediate] at fails
    rcases h with shape | shape | shape
    all_goals
      simp only [shape] at fails
      split at fails <;> cases fails
  | jump op' t =>
    simp only [Shaped] at h
    simp only [write, writeJump] at fails
    rcases h with shape | shape
    all_goals
      simp only [shape] at fails
      split at fails <;> cases fails
  | increment => cases fails
  | tableSwitch => cases writeTableSwitch_eq_error fails
  | lookupSwitch => cases writeLookupSwitch_eq_error fails

/-- A well-formed instruction can be written anywhere, if only its targets are not too far away. -/
theorem WellFormed.write_or_far {i : Instruction Target} (h : i.WellFormed)
    (near : ∀ t ∈ i.targets, Near pc t) :
    (∃ bs, i.write pc = .ok bs) ∨
      ∃ (op : Opcode) (t : Target), i = .jump op t ∧ op.shape = .branch16 ∧
        ¬ (-32768 ≤ (t.offset : Int) - pc ∧ (t.offset : Int) - pc ≤ 32767) ∧
        i.write pc = .error (.branchOutOfRange pc t.label (t.offset - pc)) := by
  obtain ⟨shaped, fits⟩ := h
  cases i with
  | plain | access | constant => exact .inl ⟨_, if_pos shaped⟩
  | increment => exact .inl ⟨_, rfl⟩
  | immediate op v =>
    simp only [Shaped] at shaped
    simp only [Fits] at fits
    rcases shaped with shape | shape | shape
    all_goals
      rw [shape] at fits
      simp only [write, writeImmediate, shape]
      exact .inl ⟨_, if_pos fits⟩
  | jump op t =>
    have near := near t (List.mem_singleton.mpr rfl)
    simp only [Shaped] at shaped
    rcases shaped with shape | shape
    · by_cases reach : -32768 ≤ (t.offset : Int) - pc ∧ (t.offset : Int) - pc ≤ 32767
      · left
        simp only [write, writeJump, shape]
        exact ⟨_, if_pos reach⟩
      · refine .inr ⟨op, t, rfl, shape, reach, ?_⟩
        simp only [write, writeJump, shape]
        exact if_neg reach
    · left
      simp only [write, writeJump, shape]
      exact ⟨_, if_pos near⟩
  | tableSwitch low fallback targets =>
    obtain ⟨nonempty, short, top⟩ := fits
    exact .inl ⟨_, writeTableSwitch_eq_ok_iff.mpr ⟨⟨nonempty, short, top, near⟩, rfl⟩⟩
  | lookupSwitch fallback pairs =>
    exact .inl ⟨_, writeLookupSwitch_eq_ok_iff.mpr ⟨⟨fits, near⟩, rfl⟩⟩

/-- What is read is well-formed. -/
theorem Spelling.wellFormed {bs : List UInt8} {i : Instruction Int} (h : Spelling pc bs i)
    (short : bs.length < 4294967296) : i.WellFormed := by
  cases h with
  | implicit names => exact ⟨(implicit?_spec names).2.1, trivial⟩
  | plain bare => exact ⟨bare, trivial⟩
  | access shape | wideAccess shape => exact ⟨shape, trivial⟩
  | @signedByte m shape value =>
    have lower := value.le_toInt
    have upper := value.toInt_lt
    refine ⟨.inl shape, ?_⟩
    simp only [Fits, Opcode.shape_named, shape, Shape.Holds, Int8.toInt_toInt32]
    omega
  | @unsignedByte m shape value =>
    have upper := value.toNat_lt
    have plain : (Int32.ofNat value.toNat).toInt = value.toNat := Int32.toInt_ofNat_of_lt (by omega)
    refine ⟨.inr (.inl shape), ?_⟩
    simp only [Fits, Opcode.shape_named, shape, Shape.Holds, plain]
    omega
  | @signedShort m shape value =>
    have lower := value.le_toInt
    have upper := value.toInt_lt
    refine ⟨.inr (.inr shape), ?_⟩
    simp only [Fits, Opcode.shape_named, shape, Shape.Holds, Int16.toInt_toInt32]
    omega
  | branch16 shape => exact ⟨.inl shape, trivial⟩
  | branch32 shape => exact ⟨.inr shape, trivial⟩
  | increment | wideIncrement => exact ⟨trivial, trivial⟩
  | constant shape => exact ⟨shape, trivial⟩
  | tableSwitch padded fallback low high targets nonempty bounds =>
    have upper := high.toInt_lt
    simp only [List.length_cons, List.length_append, length_wordBytes] at short
    refine ⟨trivial, ?_⟩
    simp only [Fits, ne_eq, List.map_eq_nil_iff, List.length_map]
    exact ⟨nonempty, by omega, by omega⟩
  | lookupSwitch padded fallback count entries counted =>
    have upper := count.toInt_lt
    refine ⟨trivial, ?_⟩
    simp only [Fits, List.length_map]
    omega

end

end BytecodeMutation.Instruction
