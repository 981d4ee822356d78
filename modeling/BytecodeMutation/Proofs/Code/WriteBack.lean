import Mathlib.Data.List.Basic
import BytecodeMutation.Proofs.Code.WellFormed

/-!
Writing back an instruction that was read. A canonical spelling comes back byte for byte where its
targets have not moved; any spelling can be written anywhere, unless a 16-bit branch is then too
far from its target.
-/
namespace BytecodeMutation.Instruction
open BigEndian

theorem implicitByte?_eq_none {m : Mnemonic} {slot : UInt16} (shape : m.shape = .slot)
    (high : m ≠ .ret → 3 < slot.toNat) : implicitByte? m slot = none := by
  by_cases low : slot.toNat ≤ 3
  · rcases implicitByte?_spec shape low with ⟨-, absent⟩ | ⟨other, -⟩
    · exact absent
    · have := high other; omega
  · exact implicitByte?_of_high (Nat.not_le.mp low)

theorem writeTableSwitch_of_near {pc : Nat} {low : Int32} {fallback : Target}
    {targets : List Target} (nonempty : targets ≠ []) (short : targets.length ≤ 2147483647)
    (top : low.toInt + targets.length - 1 ≤ 2147483647)
    (near : ∀ t ∈ fallback :: targets, Near pc t) :
    writeTableSwitch pc low fallback targets = .ok (Mnemonic.tableswitch.byte ::
      (List.replicate (switchPadding pc) 0 ++ wordBytes (distanceWord pc fallback :: low ::
        Int32.ofInt (low.toInt + targets.length - 1) :: targets.map (distanceWord pc)))) :=
  writeTableSwitch_eq_ok_iff.mpr ⟨⟨nonempty, short, top, near⟩, rfl⟩

theorem writeLookupSwitch_of_near {pc : Nat} {fallback : Target} {pairs : List (Int32 × Target)}
    (short : pairs.length ≤ 2147483647) (near : ∀ t ∈ fallback :: pairs.map (·.2), Near pc t) :
    writeLookupSwitch pc fallback pairs = .ok (Mnemonic.lookupswitch.byte ::
      (List.replicate (switchPadding pc) 0 ++ wordBytes (distanceWord pc fallback ::
        Int32.ofNat pairs.length :: pairs.flatMap fun p => [p.1, distanceWord pc p.2]))) :=
  writeLookupSwitch_eq_ok_iff.mpr ⟨⟨short, near⟩, rfl⟩

/-- A target that has not moved has the distance that was read. -/
theorem distanceWord_eq {pc : Nat} {t : Target} {distance : Int32}
    (exact : (t.offset : Int) = pc + distance.toInt) :
    Near pc t ∧ distanceWord pc t = distance := by
  have lower := distance.le_toInt
  have upper := distance.toInt_lt
  have same : (t.offset : Int) - pc = distance.toInt := by omega
  simp only [Near, distanceWord, same, Int32.ofInt_toInt, and_true]
  omega

namespace Spelling

variable {pc : Nat} {bs : List UInt8} {i : Instruction Int}

theorem pad_eq_zero {pad : List UInt8} (padded : pad.length = switchPadding pc) {m : Mnemonic}
    {tail : List UInt8} (switch : m = .tableswitch ∨ m = .lookupswitch)
    (canonical : CanonicalAt pc (m.byte :: (pad ++ tail))) :
    pad = List.replicate (switchPadding pc) 0 := by
  rw [List.eq_replicate_iff]
  constructor
  · exact padded
  · intro b hb
    apply canonical.padding m _ switch rfl
    rwa [List.take_left' padded]

/-- A canonical spelling is written back. -/
theorem write {rest : List UInt8} (h : Spelling pc bs i) (short : bs.length < 4294967296)
    (canonical : CanonicalAt pc (bs ++ rest)) (f : Int → Target)
    (exact : ∀ t ∈ i.targets, ((f t).offset : Int) = t) : (i.map f).write pc = .ok bs := by
  cases h with
  | implicit names =>
    obtain ⟨found, shape, -, -⟩ := implicit?_spec names
    simp only [map, Instruction.write, if_pos shape, writeAccess, found]
  | plain bare own => simp only [map, Instruction.write, if_pos bare]
  | @access m shape slot =>
    have absent : implicitByte? m slot.toUInt16 = none := by
      apply implicitByte?_eq_none shape
      intro other
      simpa using canonical.explicit m slot rest shape other rfl
    have narrow : slot.toUInt16.toNat ≤ 255 := by have := slot.toNat_lt; simp; omega
    simp only [map, Instruction.write, Opcode.shape_named, if_pos shape, writeAccess, absent,
      if_pos narrow, Opcode.byte_named, UInt8.toUInt8_toUInt16]
  | @wideAccess m shape slot =>
    have high := canonical.wideAccess m slot rest shape (by simp)
    have absent : implicitByte? m slot = none := implicitByte?_of_high (by omega)
    simp only [map, Instruction.write, Opcode.shape_named, if_pos shape, writeAccess, absent,
      if_neg (Nat.not_le.mpr high), Opcode.byte_named]
  | signedByte shape value =>
    have lower := value.le_toInt
    have upper := value.toInt_lt
    simp only [map, Instruction.write, writeImmediate, Opcode.shape_named, shape,
      Int8.toInt_toInt32, Opcode.byte_named, Int8.toInt8_toInt32]
    rw [if_pos (by omega)]
  | unsignedByte shape value =>
    have upper := value.toNat_lt
    have plain : (Int32.ofNat value.toNat).toInt = value.toNat := Int32.toInt_ofNat_of_lt (by omega)
    simp only [map, Instruction.write, writeImmediate, Opcode.shape_named, shape, plain,
      Opcode.byte_named, Int32.toInt8_ofNat', Int8.toUInt8_ofNat', UInt8.ofNat_toNat]
    rw [if_pos (by omega)]
  | signedShort shape value =>
    have lower := value.le_toInt
    have upper := value.toInt_lt
    simp only [map, Instruction.write, writeImmediate, Opcode.shape_named, shape,
      Int16.toInt_toInt32, Opcode.byte_named, Int16.toInt16_toInt32]
    rw [if_pos (by omega)]
  | branch16 shape distance =>
    have lower := distance.le_toInt
    have upper := distance.toInt_lt
    have same := exact _ (List.mem_singleton.mpr rfl)
    have kept : ((f (pc + distance.toInt)).offset : Int) - pc = distance.toInt := by omega
    simp only [map, Instruction.write, writeJump, Opcode.shape_named, shape, kept,
      Opcode.byte_named, Int16.ofInt_toInt]
    rw [if_pos (by omega)]
  | branch32 shape distance =>
    have lower := distance.le_toInt
    have upper := distance.toInt_lt
    have same := exact _ (List.mem_singleton.mpr rfl)
    have kept : ((f (pc + distance.toInt)).offset : Int) - pc = distance.toInt := by omega
    simp only [map, Instruction.write, writeJump, Opcode.shape_named, shape, kept,
      Opcode.byte_named, Int32.ofInt_toInt]
    rw [if_pos (by omega)]
  | increment slot delta =>
    have small := slot.toNat_lt
    have lower := delta.le_toInt
    have upper := delta.toInt_lt
    have narrow : isWideIncrement slot.toUInt16 delta.toInt16 = false := by
      simp [isWideIncrement]; omega
    simp only [map, Instruction.write, writeIncrement, narrow, Bool.false_eq_true, if_false,
      UInt8.toUInt8_toUInt16, Int8.toInt8_toInt16]
  | wideIncrement slot delta =>
    have wide : isWideIncrement slot delta = true := by
      have large := canonical.wideIncrement slot delta rest (by simp)
      simp only [isWideIncrement, Bool.or_eq_true, decide_eq_true_eq]
      omega
    simp only [map, Instruction.write, writeIncrement, wide, if_true, List.cons_append]
  | constant shape => simp [map, Instruction.write, shape]
  | tableSwitch padded fallback low high targets nonempty bounds =>
    rw [List.cons_append, List.append_assoc] at canonical
    rw [pad_eq_zero padded (.inl rfl) canonical]
    simp only [List.length_cons, List.length_append, length_wordBytes] at short
    have upper := high.toInt_lt
    have first := distanceWord_eq (exact _ List.mem_cons_self)
    have others (t : Int32) (ht : t ∈ targets) :=
      distanceWord_eq (exact _ (List.mem_cons_of_mem _ (List.mem_map_of_mem ht)))
    have top : Int32.ofInt (low.toInt + targets.length - 1) = high := by
      rw [show low.toInt + targets.length - 1 = high.toInt by omega, Int32.ofInt_toInt]
    have words : (targets.map fun t => distanceWord pc (f (pc + t.toInt))) = targets := by
      rw [List.map_congr_left fun t ht => (others t ht).2, List.map_id']
    simp only [map, Instruction.write]
    rw [writeTableSwitch_of_near (by simpa using nonempty) (by simp; omega) (by simp; omega)]
    · simp only [List.map_map, Function.comp_def, List.length_map, first.2, top, words]
    · simp only [List.forall_mem_cons, List.forall_mem_map]
      exact ⟨first.1, fun t ht => (others t ht).1⟩
  | lookupSwitch padded fallback count entries counted =>
    rw [List.cons_append, List.append_assoc] at canonical
    rw [pad_eq_zero padded (.inr rfl) canonical]
    have upper := count.toInt_lt
    have first := distanceWord_eq (exact _ List.mem_cons_self)
    have others (e : Int32 × Int32) (he : e ∈ entries) :=
      distanceWord_eq (exact _ (List.mem_cons_of_mem _
        (List.mem_map.mpr ⟨_, List.mem_map_of_mem he, rfl⟩)))
    have number : Int32.ofNat entries.length = count := by
      apply Int32.toInt_inj.1
      rw [Int32.toInt_ofNat_of_lt (by omega), counted]
    have words : (entries.flatMap fun e => [e.1, distanceWord pc (f (pc + e.2.toInt))]) =
        entries.flatMap fun e => [e.1, e.2] :=
      List.flatMap_congr fun e he => by rw [(others e he).2]
    simp only [map, Instruction.write]
    rw [writeLookupSwitch_of_near (by simp; omega)]
    · simp only [List.flatMap_map, List.length_map, first.2, number, words]
    · simp only [List.forall_mem_cons, List.forall_mem_map]
      exact ⟨first.1, fun e he => (others e he).1⟩

/-- Any spelling can be written at any place, if only its targets are not too far away. -/
theorem exists_write (h : Spelling pc bs i) (short : bs.length < 4294967296) (f : Int → Target)
    (pc' : Nat) (near : ∀ t ∈ i.targets, Near pc' (f t)) :
    (∃ bs', (i.map f).write pc' = .ok bs') ∨
      ∃ (op : Opcode) (t : Int), i = .jump op t ∧ op.shape = .branch16 ∧
        ¬ (-32768 ≤ ((f t).offset : Int) - pc' ∧ ((f t).offset : Int) - pc' ≤ 32767) ∧
        (i.map f).write pc' =
          .error (.branchOutOfRange pc' (f t).label ((f t).offset - pc')) := by
  have mapped : ∀ t ∈ (i.map f).targets, Near pc' t := by
    rw [targets_map]
    exact List.forall_mem_map.mpr near
  rcases ((h.wellFormed short).map f).write_or_far mapped with
    written | ⟨op, t, jump, narrow, far, reported⟩
  · exact .inl written
  · cases i with
    | jump =>
      cases jump
      exact .inr ⟨_, _, rfl, narrow, far, reported⟩
    | _ => cases jump

end Spelling

end BytecodeMutation.Instruction
