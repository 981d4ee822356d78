import BytecodeMutation.Proofs.Code.Split

/-!
Canonical code: every instruction has its shortest spelling, and the padding of switches is zero.
-/
namespace BytecodeMutation
open BigEndian

/-- The instruction that begins the bytes, at offset `pc`, has its canonical spelling. -/
structure CanonicalAt (pc : Nat) (bs : List UInt8) : Prop where
  /-- A load or store of one of the variables 0 to 3 is not spelled with an index. -/
  explicit : ∀ (m : Mnemonic) (slot : UInt8) (rest : List UInt8), m.shape = .slot → m ≠ .ret →
    bs = m.byte :: slot :: rest → 3 < slot.toNat
  /-- An index of one byte is not spelled with two. -/
  wideAccess : ∀ (m : Mnemonic) (slot : UInt16) (rest : List UInt8), m.shape = .slot →
    bs = Mnemonic.wide.byte :: m.byte :: (bytes16 slot ++ rest) → 255 < slot.toNat
  /-- An increment that fits in bytes is not spelled with words. -/
  wideIncrement : ∀ (slot : UInt16) (delta : Int16) (rest : List UInt8),
    bs = Mnemonic.wide.byte :: Mnemonic.iinc.byte ::
      (bytes16 slot ++ bytes16 delta.toUInt16 ++ rest) →
    ¬ (slot.toNat ≤ 255 ∧ -128 ≤ delta.toInt ∧ delta.toInt ≤ 127)
  padding : ∀ (m : Mnemonic) (rest : List UInt8), m = .tableswitch ∨ m = .lookupswitch →
    bs = m.byte :: rest → ∀ b ∈ rest.take (switchPadding pc), b = 0

/-- Every instruction of the code has its canonical spelling. -/
def Canonical (bytes : List UInt8) : Prop :=
  ∀ located, readInstructions 0 bytes = .ok located →
    ∀ p ∈ located, CanonicalAt p.1 (bytes.drop p.1)

namespace CanonicalAt

variable {pc : Nat} {rest : List UInt8}

/-- An opcode with a single spelling. -/
theorem of_named {m : Mnemonic} (slot : m.shape ≠ .slot) (varying : m.shape ≠ .varying) :
    CanonicalAt pc (m.byte :: rest) where
  explicit m' _ _ shape _ h := by
    rw [List.cons.injEq] at h
    exact absurd (Mnemonic.byte_injective h.1 ▸ shape) slot
  wideAccess m' _ _ _ h := by
    rw [List.cons.injEq] at h
    exact absurd (Mnemonic.byte_injective h.1 ▸ rfl) varying
  wideIncrement _ _ _ h := by
    rw [List.cons.injEq] at h
    exact absurd (Mnemonic.byte_injective h.1 ▸ rfl) varying
  padding m' _ switch h := by
    rw [List.cons.injEq] at h
    have same := Mnemonic.byte_injective h.1
    rcases switch with rfl | rfl <;> exact absurd (same ▸ rfl) varying

/-- A byte that names no opcode, or an opcode and its variable. -/
theorem of_unnamed {b : UInt8} (unnamed : ∀ m : Mnemonic, b ≠ m.byte) :
    CanonicalAt pc (b :: rest) where
  explicit m _ _ _ _ h := absurd (List.cons.inj h).1 (unnamed m)
  wideAccess _ _ _ _ h := absurd (List.cons.inj h).1 (unnamed _)
  wideIncrement _ _ _ h := absurd (List.cons.inj h).1 (unnamed _)
  padding m _ _ h := absurd (List.cons.inj h).1 (unnamed m)

theorem of_access {m : Mnemonic} {slot : UInt8} (shape : m.shape = .slot)
    (high : m ≠ .ret → 3 < slot.toNat) : CanonicalAt pc (m.byte :: slot :: rest) where
  explicit m' _ _ _ other h := by
    simp only [List.cons.injEq] at h
    obtain ⟨name, rfl, -⟩ := h
    exact high (Mnemonic.byte_injective name ▸ other)
  wideAccess _ _ _ _ h := by
    rw [Mnemonic.byte_injective (List.cons.inj h).1] at shape
    cases shape
  wideIncrement _ _ _ h := by
    rw [Mnemonic.byte_injective (List.cons.inj h).1] at shape
    cases shape
  padding m' _ switch h := by
    rw [Mnemonic.byte_injective (List.cons.inj h).1] at shape
    rcases switch with rfl | rfl <;> cases shape

theorem of_wideAccess {m : Mnemonic} {slot : UInt16} (shape : m.shape = .slot)
    (high : 255 < slot.toNat) :
    CanonicalAt pc (Mnemonic.wide.byte :: m.byte :: (bytes16 slot ++ rest)) where
  explicit m' _ _ shape' _ h := by
    rw [← Mnemonic.byte_injective (List.cons.inj h).1] at shape'
    cases shape'
  wideAccess m' _ _ _ h := by
    obtain ⟨rfl, -⟩ := bytes16_injective (List.cons.inj (List.cons.inj h).2).2
    exact high
  wideIncrement _ _ _ h := by
    rw [Mnemonic.byte_injective (List.cons.inj (List.cons.inj h).2).1] at shape
    cases shape
  padding m' _ switch h := by
    have same := Mnemonic.byte_injective (List.cons.inj h).1
    rcases switch with rfl | rfl <;> cases same

theorem of_wideIncrement {slot : UInt16} {delta : Int16} (wide : isWideIncrement slot delta) :
    CanonicalAt pc (Mnemonic.wide.byte :: Mnemonic.iinc.byte ::
      (bytes16 slot ++ bytes16 delta.toUInt16 ++ rest)) where
  explicit m' _ _ shape _ h := by
    rw [← Mnemonic.byte_injective (List.cons.inj h).1] at shape
    cases shape
  wideAccess m' _ _ shape h := by
    rw [← Mnemonic.byte_injective (List.cons.inj (List.cons.inj h).2).1] at shape
    cases shape
  wideIncrement slot' delta' _ h := by
    have operands := (List.cons.inj (List.cons.inj h).2).2
    simp only [List.append_assoc] at operands
    obtain ⟨index, tail⟩ := bytes16_injective operands
    obtain ⟨word, -⟩ := bytes16_injective tail
    have same : delta = delta' := by
      rw [← Int16.toInt16_toUInt16 delta, word, Int16.toInt16_toUInt16]
    subst index same
    simp only [isWideIncrement, Bool.or_eq_true, decide_eq_true_eq] at wide
    omega
  padding m' _ switch h := by
    have same := Mnemonic.byte_injective (List.cons.inj h).1
    rcases switch with rfl | rfl <;> cases same

theorem of_switch {m : Mnemonic} (switch : m = .tableswitch ∨ m = .lookupswitch) :
    CanonicalAt pc (m.byte :: (List.replicate (switchPadding pc) 0 ++ rest)) where
  explicit m' _ _ shape _ h := by
    rw [← Mnemonic.byte_injective (List.cons.inj h).1] at shape
    rcases switch with rfl | rfl <;> cases shape
  wideAccess _ _ _ _ h := by
    have same := Mnemonic.byte_injective (List.cons.inj h).1
    rcases switch with rfl | rfl <;> cases same
  wideIncrement _ _ _ h := by
    have same := Mnemonic.byte_injective (List.cons.inj h).1
    rcases switch with rfl | rfl <;> cases same
  padding m' _ _ h b hb := by
    obtain ⟨-, rfl⟩ := List.cons.inj h
    rw [List.take_left' (List.length_replicate ..)] at hb
    exact List.eq_of_mem_replicate hb

end CanonicalAt

end BytecodeMutation
