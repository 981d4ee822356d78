import BytecodeMutation.Code.Implicit
import BytecodeMutation.Proofs.Traversal

/-!
What a byte stands for: a named opcode, a load or store together with its variable, or nothing but
itself. No byte stands for two of these.
-/
namespace BytecodeMutation

namespace Mnemonic

theorem mem_all (m : Mnemonic) : m ∈ all := by
  apply List.mem_of_getElem? (i := m.ctorIdx)
  cases m <;> rfl

/-- The named bytes, with the two gaps that loads and stores of the variables 0 to 3 fill. -/
theorem bytes_all : (all.map fun m => m.byte.toNat) =
    List.range 0x1a ++ List.range' 0x2e 13 ++ List.range' 0x4f 123 := by rfl

theorem byte_range (m : Mnemonic) : m.byte.toNat < 0x1a ∨
    0x2e ≤ m.byte.toNat ∧ m.byte.toNat < 0x3b ∨ 0x4f ≤ m.byte.toNat ∧ m.byte.toNat < 0xca := by
  have listed := List.mem_map_of_mem (f := fun m => m.byte.toNat) (mem_all m)
  simp only [bytes_all, List.mem_append, List.mem_range, List.mem_range'_1] at listed
  omega

theorem byte_injective {m m' : Mnemonic} (h : m.byte = m'.byte) : m = m' := by
  have distinct : (all.map fun m => m.byte.toNat).Nodup := by
    rw [bytes_all]
    refine List.nodup_append.mpr ⟨List.nodup_append.mpr
      ⟨List.nodup_range, List.nodup_range' 1, ?_⟩, List.nodup_range' 1, ?_⟩ <;>
      simp only [List.mem_append, List.mem_range, List.mem_range'_1] <;> omega
  obtain ⟨i, hi, rfl⟩ := List.mem_iff_getElem.mp (mem_all m)
  obtain ⟨j, hj, rfl⟩ := List.mem_iff_getElem.mp (mem_all m')
  have same : i = j := (List.getElem?_inj (by simpa using hi) distinct).mp (by simp [h, hi, hj])
  subst same; rfl

end Mnemonic

namespace Opcode

@[simp] theorem byte_named (m : Mnemonic) : byte (named m) = m.byte := rfl

@[simp] theorem shape_named (m : Mnemonic) : shape (named m) = m.shape := rfl

theorem ofByte_eq_named_iff {b : UInt8} {m : Mnemonic} : ofByte b = named m ↔ m.byte = b := by
  constructor
  · intro h; simpa [h] using byte_ofByte b
  · intro same
    have found : Mnemonic.all.find? (·.byte == b) = some m := by
      rw [find?_eq_some_iff_of_unique, beq_iff_eq]
      · exact ⟨m.mem_all, same⟩
      · intro _ _ m' _ same'
        exact Mnemonic.byte_injective ((eq_of_beq same').trans same.symm)
    rw [ofByte, found]

@[simp] theorem ofByte_byte (m : Mnemonic) : ofByte m.byte = named m := ofByte_eq_named_iff.mpr rfl

/-- Only a named opcode takes operands. -/
theorem eq_named_of_shape {op : Opcode} (h : op.shape ≠ .bare) : ∃ m, op = named m := by
  cases op with
  | named m => exact ⟨m, rfl⟩
  | unknown b => exact absurd rfl h

/-- Whether an unnamed opcode has a byte that is read as something else: as a named opcode, or as a
load or store of one of the variables 0 to 3. -/
def isAlias : Opcode → Bool
  | named _ => false
  | unknown b => Mnemonic.all.any (·.byte == b) || (0x1a ≤ b && b ≤ 0x2d) || (0x3b ≤ b && b ≤ 0x4e)

end Opcode

namespace Instruction

/-- The writer's first byte of a load is where the reader finds the four bytes of that load. -/
theorem implicitBase?_load {i : Nat} {m : Mnemonic} (h : implicitLoads[i]? = some m) :
    implicitBase? m = some (0x1a + 4 * i) ∧ m.shape = .slot ∧ m ≠ .ret := by
  rcases i with _ | _ | _ | _ | _ | i <;> cases h <;> decide

/-- The writer's first byte of a store is where the reader finds the four bytes of that store. -/
theorem implicitBase?_store {i : Nat} {m : Mnemonic} (h : implicitStores[i]? = some m) :
    implicitBase? m = some (0x3b + 4 * i) ∧ m.shape = .slot ∧ m ≠ .ret := by
  rcases i with _ | _ | _ | _ | _ | i <;> cases h <;> decide

theorem implicitAt?_isSome_iff (ms : List Mnemonic) (n : Nat) :
    (implicitAt? ms n).isSome ↔ n < 4 * ms.length := by
  simp only [implicitAt?, Option.isSome_map, ← Option.ne_none_iff_isSome, ne_eq,
    List.getElem?_eq_none_iff]
  omega

/-- The bytes from `iload_0` to `aload_3` and from `istore_0` to `astore_3`. -/
theorem implicit?_isSome_iff (b : UInt8) :
    (implicit? b).isSome ↔ 0x1a ≤ b ∧ b ≤ 0x2d ∨ 0x3b ≤ b ∧ b ≤ 0x4e := by
  simp only [implicit?, UInt8.le_iff_toNat_le, UInt8.reduceToNat]
  split
  · simp only [implicitAt?_isSome_iff, implicitLoads, List.length_cons, List.length_nil]
    omega
  · split
    · simp only [implicitAt?_isSome_iff, implicitStores, List.length_cons, List.length_nil]
      omega
    · simp only [Option.isSome_none, Bool.false_eq_true, false_iff]
      omega

@[simp] theorem implicit?_byte (m : Mnemonic) : implicit? m.byte = none := by
  have range := m.byte_range
  have named := implicit?_isSome_iff m.byte
  simp only [UInt8.le_iff_toNat_le, UInt8.reduceToNat] at named
  rw [← Option.not_isSome_iff_eq_none, named]
  omega

/-- A place in a table of loads or stores that starts where the writer says it does. -/
theorem implicitAt?_spec {ms : List Mnemonic} {first : Nat} {b : UInt8} {op : Opcode}
    {slot : UInt16} (starts : first ≤ b.toNat)
    (table : ∀ {i m}, ms[i]? = some m →
      implicitBase? m = some (first + 4 * i) ∧ m.shape = .slot ∧ m ≠ .ret)
    (h : implicitAt? ms (b.toNat - first) = some (op, slot)) :
    implicitByte? op slot = some b ∧ op.shape = .slot ∧ op ≠ .named .ret ∧ slot.toNat ≤ 3 := by
  simp only [implicitAt?, Option.map_eq_some_iff, Prod.mk.injEq] at h
  obtain ⟨m, at_, rfl, rfl⟩ := h
  obtain ⟨base, shape, notRet⟩ := table at_
  have low : (UInt16.ofNat ((b.toNat - first) % 4)).toNat = (b.toNat - first) % 4 := by
    rw [UInt16.toNat_ofNat']; omega
  have back : first + 4 * ((b.toNat - first) / 4) + (b.toNat - first) % 4 = b.toNat := by omega
  refine ⟨?_, shape, by simpa using notRet, by omega⟩
  simp only [implicitByte?, Opcode.mnemonic?, Option.bind_some, base, Option.map_some, low]
  rw [if_pos (by omega), back, UInt8.ofNat_toNat]

/-- Every implicit byte names a load or store, never `RET`, and a variable below four. -/
theorem implicit?_spec {b : UInt8} {op : Opcode} {slot : UInt16}
    (h : implicit? b = some (op, slot)) :
    implicitByte? op slot = some b ∧ op.shape = .slot ∧ op ≠ .named .ret ∧ slot.toNat ≤ 3 := by
  simp only [implicit?] at h
  split at h
  case isTrue within => exact implicitAt?_spec within.1 implicitBase?_load h
  case isFalse =>
    split at h
    case isTrue within => exact implicitAt?_spec within.1 implicitBase?_store h
    case isFalse => cases h

/-- A load or store of a variable below four has one byte, which names just that. -/
theorem implicitByte?_spec {m : Mnemonic} {slot : UInt16} (shape : m.shape = .slot)
    (low : slot.toNat ≤ 3) :
    (m = .ret ∧ implicitByte? m slot = none) ∨
      m ≠ .ret ∧ ∃ b, implicitByte? m slot = some b ∧ implicit? b = some (.named m, slot) := by
  obtain ⟨k, hk, rfl⟩ : ∃ k : Nat, k ≤ 3 ∧ slot = UInt16.ofNat k := ⟨slot.toNat, low, by simp⟩
  have cases : k = 0 ∨ k = 1 ∨ k = 2 ∨ k = 3 := by omega
  cases m <;> cases shape
  case ret => rcases cases with rfl | rfl | rfl | rfl <;> exact .inl ⟨rfl, rfl⟩
  all_goals rcases cases with rfl | rfl | rfl | rfl <;>
    exact .inr ⟨by decide, _, rfl, rfl⟩

theorem implicitByte?_of_high {op : Opcode} {slot : UInt16} (high : 3 < slot.toNat) :
    implicitByte? op slot = none := by
  simp [implicitByte?, Nat.not_le.mpr high]

end Instruction

namespace Opcode

/-- An opcode that is no alias is what its byte is read as. -/
theorem isAlias_eq_false_iff (op : Opcode) :
    op.isAlias = false ↔ ofByte op.byte = op ∧ Instruction.implicit? op.byte = none := by
  cases op with
  | named m => simp [isAlias]
  | unknown b =>
    have name : ofByte b = unknown b ↔ Mnemonic.all.any (·.byte == b) = false := by
      simp only [ofByte, List.any_eq_false]
      cases found : Mnemonic.all.find? (·.byte == b) with
      | none => simpa using List.find?_eq_none.mp found
      | some m =>
        have := List.find?_some found
        simp only [reduceCtorEq, false_iff]
        intro absent
        exact absent m (Mnemonic.mem_all m) this
    have own : Instruction.implicit? b = none ↔
        ((0x1a ≤ b && b ≤ 0x2d) || (0x3b ≤ b && b ≤ 0x4e)) = false := by
      rw [← Option.not_isSome_iff_eq_none, Instruction.implicit?_isSome_iff, ← Bool.not_eq_true]
      simp only [Bool.or_eq_true, Bool.and_eq_true, decide_eq_true_eq]
    simp only [isAlias, byte, name, own, Bool.or_assoc, Bool.or_eq_false_iff]

end Opcode

end BytecodeMutation
