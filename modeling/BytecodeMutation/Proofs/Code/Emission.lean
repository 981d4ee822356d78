import BytecodeMutation.Code.Writing
import BytecodeMutation.Proofs.Code.Canonical
import BytecodeMutation.Proofs.Traversal

/-!
Writing one instruction. `emission_of_write` says that the bytes written are a canonical spelling
of the size that the layout reserved.
-/
namespace BytecodeMutation.Instruction
open BigEndian

section
variable {τ σ : Type}

@[simp] theorem size_map (f : τ → σ) (i : Instruction τ) (pc : Nat) :
    (i.map f).size pc = i.size pc := by
  cases i <;> simp [map, size]

@[simp] theorem targets_map (f : τ → σ) (i : Instruction τ) :
    (i.map f).targets = i.targets.map f := by
  cases i <;> simp [map, targets]

@[simp] theorem map_map {ρ : Type} (f : τ → σ) (g : σ → ρ) (i : Instruction τ) :
    (i.map f).map g = i.map fun t => g (f t) := by
  cases i <;> simp [map]

/-- The targets are all that a map reads. -/
theorem map_congr {f g : τ → σ} {i : Instruction τ} (h : ∀ t ∈ i.targets, f t = g t) :
    i.map f = i.map g := by
  cases i with
  | jump op t => simp [map, h t (by simp [targets])]
  | tableSwitch low t ts =>
    obtain ⟨ht, hts⟩ := List.forall_mem_cons.mp h
    simp only [map, ht, tableSwitch.injEq, true_and]
    exact List.map_congr_left hts
  | lookupSwitch t ps =>
    obtain ⟨ht, hps⟩ := List.forall_mem_cons.mp h
    simp only [map, ht, lookupSwitch.injEq, true_and]
    apply List.map_congr_left
    intro p hp
    rw [hps p.2 (List.mem_map_of_mem hp)]
  | _ => rfl

theorem map_id_of {f : τ → τ} {i : Instruction τ} (h : ∀ t ∈ i.targets, f t = t) : i.map f = i := by
  rw [map_congr (g := fun t => t) h]
  cases i <;> simp [map]

end

/-- The distance of a target fits the words of a switch. -/
def Near (pc : Nat) (t : Target) : Prop :=
  -2147483648 ≤ (t.offset : Int) - pc ∧ (t.offset : Int) - pc ≤ 2147483647

def distanceWord (pc : Nat) (t : Target) : Int32 := Int32.ofInt (t.offset - pc)

theorem toInt_distanceWord {pc : Nat} {t : Target} (near : Near pc t) :
    (distanceWord pc t).toInt = t.offset - pc :=
  Int32.toInt_ofInt_of_le (by have := near.1; omega) (by have := near.2; omega)

section
variable {pc : Nat} {bs : List UInt8}

theorem switchDistance_eq_ok_iff {t : Target} :
    switchDistance pc t = .ok bs ↔ Near pc t ∧ bs = bytes32 (distanceWord pc t).toUInt32 := by
  simp only [switchDistance]
  split
  · next near => simp only [Except.ok.injEq, Near, near, true_and, and_self, distanceWord, eq_comm]
  · next far => simp only [reduceCtorEq, Near, far, false_and]

theorem flatten_words {α : Type} (f : α → Int32) (xs : List α) :
    (xs.map fun x => bytes32 (f x).toUInt32).flatten = wordBytes (xs.map f) := by
  induction xs with
  | nil => rfl
  | cons x xs ih => simp [ih]

theorem writeTableSwitch_eq_ok_iff {low : Int32} {fallback : Target} {targets : List Target} :
    writeTableSwitch pc low fallback targets = .ok bs ↔
      (targets ≠ [] ∧ targets.length ≤ 2147483647 ∧ low.toInt + targets.length - 1 ≤ 2147483647 ∧
        ∀ t ∈ fallback :: targets, Near pc t) ∧
      bs = Mnemonic.tableswitch.byte :: (List.replicate (switchPadding pc) 0 ++
        wordBytes (distanceWord pc fallback :: low ::
          Int32.ofInt (low.toInt + targets.length - 1) :: targets.map (distanceWord pc))) := by
  simp only [writeTableSwitch]
  split
  · next bad =>
    simp only [reduceCtorEq, false_iff]
    rintro ⟨⟨nonempty, short, top, -⟩, -⟩
    rcases bad with bad | bad | bad
    · exact nonempty bad
    · omega
    · omega
  · next good =>
    simp only [not_or, Nat.not_lt, Int.not_lt] at good
    simp only [bind_eq_ok_iff, pure_eq_ok_iff, switchDistance_eq_ok_iff, List.forall_mem_cons,
      mapM_eq_ok_iff (fun x y => switchDistance_eq_ok_iff)]
    constructor
    · rintro ⟨_, ⟨first, rfl⟩, _, ⟨others, rfl⟩, rfl⟩
      refine ⟨⟨good.1, good.2.1, good.2.2, first, others⟩, ?_⟩
      simp [flatten_words]
    · rintro ⟨⟨-, -, -, first, others⟩, rfl⟩
      refine ⟨_, ⟨first, rfl⟩, _, ⟨others, rfl⟩, ?_⟩
      simp [flatten_words]

theorem writeEntry_eq_ok_iff {p : Int32 × Target} :
    (return bytes32 p.1.toUInt32 ++ (← switchDistance pc p.2) : Except WriteError (List UInt8)) =
        .ok bs ↔
      Near pc p.2 ∧ bs = bytes32 p.1.toUInt32 ++ bytes32 (distanceWord pc p.2).toUInt32 := by
  simp only [bind_eq_ok_iff, pure_eq_ok_iff, switchDistance_eq_ok_iff]
  constructor
  · rintro ⟨_, ⟨near, rfl⟩, rfl⟩; exact ⟨near, rfl⟩
  · rintro ⟨near, rfl⟩; exact ⟨_, ⟨near, rfl⟩, rfl⟩

theorem flatten_entries (pairs : List (Int32 × Target)) :
    (pairs.map fun p => bytes32 p.1.toUInt32 ++ bytes32 (distanceWord pc p.2).toUInt32).flatten =
      wordBytes (pairs.flatMap fun p => [p.1, distanceWord pc p.2]) := by
  induction pairs with
  | nil => rfl
  | cons p ps ih => simp [ih]

theorem writeLookupSwitch_eq_ok_iff {fallback : Target} {pairs : List (Int32 × Target)} :
    writeLookupSwitch pc fallback pairs = .ok bs ↔
      (pairs.length ≤ 2147483647 ∧ ∀ t ∈ fallback :: pairs.map (·.2), Near pc t) ∧
      bs = Mnemonic.lookupswitch.byte :: (List.replicate (switchPadding pc) 0 ++
        wordBytes (distanceWord pc fallback :: Int32.ofNat pairs.length ::
          pairs.flatMap fun p => [p.1, distanceWord pc p.2])) := by
  simp only [writeLookupSwitch]
  split
  · next long =>
    simp only [reduceCtorEq, false_iff]
    rintro ⟨⟨short, -⟩, -⟩
    omega
  · next short =>
    simp only [bind_eq_ok_iff, pure_eq_ok_iff, switchDistance_eq_ok_iff, List.forall_mem_cons,
      List.forall_mem_map, mapM_eq_ok_iff (fun x y => writeEntry_eq_ok_iff)]
    constructor
    · rintro ⟨_, ⟨first, rfl⟩, _, ⟨others, rfl⟩, rfl⟩
      refine ⟨⟨by omega, first, others⟩, ?_⟩
      simp [flatten_entries]
    · rintro ⟨⟨-, first, others⟩, rfl⟩
      refine ⟨_, ⟨first, rfl⟩, _, ⟨others, rfl⟩, ?_⟩
      simp [flatten_entries]

end

/-- What writing an instruction guarantees: a spelling of it, of the size that the layout reserved,
and a canonical one. -/
structure Emission (pc : Nat) (bs : List UInt8) (i : Instruction Int) : Prop where
  spelled : Spelling pc bs i
  length : bs.length = i.size pc
  canonical : ∀ rest, CanonicalAt pc (bs ++ rest)

section
variable {pc : Nat} {bs : List UInt8}

/-- An opcode with a single spelling. -/
theorem Emission.of_named {m : Mnemonic} {i : Instruction Int}
    (spelled : Spelling pc (m.byte :: bs) i) (length : bs.length + 1 = i.size pc)
    (slot : m.shape ≠ .slot) (varying : m.shape ≠ .varying) :
    Emission pc (m.byte :: bs) i :=
  ⟨spelled, length, fun _ => .of_named slot varying⟩

theorem emission_of_writeAccess {m : Mnemonic} (shape : m.shape = .slot) (slot : UInt16) :
    Emission pc (writeAccess m slot) (.access m slot) := by
  by_cases low : slot.toNat ≤ 3
  · rcases implicitByte?_spec shape low with ⟨rfl, absent⟩ | ⟨other, b, found, names⟩
    · have back : slot.toUInt8.toUInt16 = slot := UInt16.toNat_inj.1 (by simp; omega)
      have narrow : writeAccess (.named .ret) slot = [Mnemonic.ret.byte, slot.toUInt8] := by
        simp only [writeAccess, absent, Opcode.byte_named, if_pos (show slot.toNat ≤ 255 by omega)]
      rw [narrow]
      refine ⟨?_, ?_, fun rest => .of_access shape (absurd rfl)⟩
      · have spelled : Spelling pc _ _ := .access shape slot.toUInt8
        rwa [back] at spelled
      · simp [size, shape, Shape.length?, Nat.not_lt.mpr (show slot.toNat ≤ 255 by omega)]
    · have short : writeAccess m slot = [b] := by simp only [writeAccess, found]
      rw [short]
      refine ⟨.implicit names, ?_, fun rest => .of_unnamed ?_⟩
      · have other' : Opcode.named m ≠ .named .ret := by simpa using other
        simp [size, low, other']
      · rintro m' rfl
        simp at names
  · have absent : implicitByte? m slot = none := implicitByte?_of_high (Nat.not_le.mp low)
    by_cases narrow : slot.toNat ≤ 255
    · have back : slot.toUInt8.toUInt16 = slot := UInt16.toNat_inj.1 (by simp; omega)
      have written : writeAccess m slot = [m.byte, slot.toUInt8] := by
        simp only [writeAccess, absent, Opcode.byte_named, if_pos narrow]
      rw [written]
      refine ⟨?_, ?_, fun rest => .of_access shape fun _ => ?_⟩
      · have spelled : Spelling pc _ _ := .access shape slot.toUInt8
        rwa [back] at spelled
      · simp [size, shape, Shape.length?, low, Nat.not_lt.mpr narrow]
      · rw [← back] at low
        simpa using low
    · have written : writeAccess m slot = Mnemonic.wide.byte :: m.byte :: bytes16 slot := by
        simp only [writeAccess, absent, Opcode.byte_named, if_neg narrow]
      rw [written]
      refine ⟨.wideAccess shape slot, ?_, fun rest => .of_wideAccess shape (Nat.not_le.mp narrow)⟩
      simp [size, low, Nat.not_le.mp narrow]

theorem emission_of_writeIncrement (slot : UInt16) (delta : Int16) :
    Emission pc (writeIncrement slot delta) (.increment slot delta) := by
  simp only [writeIncrement]
  split
  · next wide =>
    refine ⟨.wideIncrement slot delta, by simp [size, wide], fun rest => ?_⟩
    simpa using @CanonicalAt.of_wideIncrement pc rest slot delta wide
  · next narrow =>
    have bounds : slot.toNat ≤ 255 ∧ -128 ≤ delta.toInt ∧ delta.toInt ≤ 127 := by
      simp only [isWideIncrement, Bool.or_eq_true, decide_eq_true_eq] at narrow
      omega
    have index : slot.toUInt8.toUInt16 = slot := UInt16.toNat_inj.1 (by simp; omega)
    have amount : delta.toInt8.toInt16 = delta := by
      apply Int16.toInt_inj.1
      rw [Int8.toInt_toInt16, Int16.toInt_toInt8]
      exact Int.bmod_eq_of_le (by omega) (by omega)
    have spelled : Spelling pc _ _ := .increment slot.toUInt8 delta.toInt8
    rw [index, amount] at spelled
    exact .of_named spelled (by simp [size, narrow]) (by decide) (by decide)

theorem emission_of_writeImmediate {op : Opcode} {value : Int32}
    (h : writeImmediate op value = .ok bs) : Emission pc bs (.immediate op value) := by
  simp only [writeImmediate] at h
  split at h
  · next shape =>
    obtain ⟨m, rfl⟩ := Opcode.eq_named_of_shape (by rw [shape]; decide)
    rw [Opcode.shape_named] at shape
    split at h
    · next range =>
      cases h
      have back : value.toInt8.toInt32 = value := by
        apply Int32.toInt_inj.1
        rw [Int8.toInt_toInt32, Int32.toInt_toInt8]
        exact Int.bmod_eq_of_le (by omega) (by omega)
      have spelled : Spelling pc _ _ := .signedByte shape value.toInt8
      rw [back] at spelled
      exact .of_named spelled (by simp [size, shape, Shape.length?]) (by simp [shape])
        (by simp [shape])
    · cases h
  · next shape =>
    obtain ⟨m, rfl⟩ := Opcode.eq_named_of_shape (by rw [shape]; decide)
    rw [Opcode.shape_named] at shape
    split at h
    · next range =>
      cases h
      obtain ⟨k, hk, rfl⟩ : ∃ k : Nat, k ≤ 255 ∧ value = Int32.ofNat k := by
        refine ⟨value.toInt.toNat, by omega, Int32.toInt_inj.1 ?_⟩
        rw [Int32.toInt_ofNat_of_lt (by omega)]
        omega
      have spelled : Spelling pc _ _ := .unsignedByte shape (UInt8.ofNat k)
      rw [UInt8.toNat_ofNat', Nat.mod_eq_of_lt (by omega)] at spelled
      rw [Int32.toInt8_ofNat', Int8.toUInt8_ofNat']
      exact .of_named spelled (by simp [size, shape, Shape.length?]) (by simp [shape])
        (by simp [shape])
    · cases h
  · next shape =>
    obtain ⟨m, rfl⟩ := Opcode.eq_named_of_shape (by rw [shape]; decide)
    rw [Opcode.shape_named] at shape
    split at h
    · next range =>
      cases h
      have back : value.toInt16.toInt32 = value := by
        apply Int32.toInt_inj.1
        rw [Int16.toInt_toInt32, Int32.toInt_toInt16]
        exact Int.bmod_eq_of_le (by omega) (by omega)
      have spelled : Spelling pc _ _ := .signedShort shape value.toInt16
      rw [back] at spelled
      exact .of_named spelled (by simp [size, shape, Shape.length?]) (by simp [shape])
        (by simp [shape])
    · cases h
  · cases h

theorem emission_of_writeJump {op : Opcode} {t : Target} (h : writeJump pc op t = .ok bs) :
    Emission pc bs (.jump op t.offset) := by
  simp only [writeJump] at h
  split at h
  · next shape =>
    obtain ⟨m, rfl⟩ := Opcode.eq_named_of_shape (by rw [shape]; decide)
    rw [Opcode.shape_named] at shape
    split at h
    · next range =>
      cases h
      have spelled : Spelling pc _ _ := .branch16 shape (Int16.ofInt (t.offset - pc))
      rw [Int16.toInt_ofInt_of_le (by omega) (by omega), Int.add_comm,
        Int.sub_add_cancel] at spelled
      exact .of_named spelled (by simp [size, shape, Shape.length?]) (by simp [shape])
        (by simp [shape])
    · cases h
  · next shape =>
    obtain ⟨m, rfl⟩ := Opcode.eq_named_of_shape (by rw [shape]; decide)
    rw [Opcode.shape_named] at shape
    split at h
    · next range =>
      cases h
      have spelled : Spelling pc _ _ := .branch32 shape (Int32.ofInt (t.offset - pc))
      rw [Int32.toInt_ofInt_of_le (by omega) (by omega), Int.add_comm,
        Int.sub_add_cancel] at spelled
      exact .of_named spelled (by simp [size, shape, Shape.length?]) (by simp [shape])
        (by simp [shape])
    · cases h
  · cases h

theorem emission_of_writeTableSwitch {low : Int32} {fallback : Target} {targets : List Target}
    (h : writeTableSwitch pc low fallback targets = .ok bs) :
    Emission pc bs (.tableSwitch low fallback.offset (targets.map fun t => (t.offset : Int))) := by
  obtain ⟨⟨nonempty, -, top, near⟩, rfl⟩ := writeTableSwitch_eq_ok_iff.mp h
  have positive := List.length_pos_iff.mpr nonempty
  have low_bound := low.le_toInt
  have high : (Int32.ofInt (low.toInt + targets.length - 1)).toInt =
      low.toInt + targets.length - 1 :=
    Int32.toInt_ofInt_of_le (by omega) (by omega)
  have back (t : Target) (ht : t ∈ fallback :: targets) :
      (pc : Int) + (distanceWord pc t).toInt = t.offset := by
    rw [toInt_distanceWord (near t ht)]; omega
  have padded : (List.replicate (switchPadding pc) (0 : UInt8)).length = _ := List.length_replicate
  have spelled : Spelling pc _ _ := .tableSwitch padded
    (distanceWord pc fallback) low (Int32.ofInt (low.toInt + targets.length - 1))
    (targets.map (distanceWord pc)) (by simpa using nonempty) (by rw [high, List.length_map]; omega)
  have targets_back : targets.map ((fun t : Int32 => (pc : Int) + t.toInt) ∘ distanceWord pc) =
      targets.map fun t => (t.offset : Int) :=
    List.map_congr_left fun t ht => back t (List.mem_cons_of_mem _ ht)
  rw [back fallback List.mem_cons_self, List.map_map, targets_back] at spelled
  refine ⟨spelled, ?_, ?_⟩
  · simp [size]; omega
  · intro rest
    rw [List.cons_append, List.append_assoc]
    exact .of_switch (.inl rfl)

theorem emission_of_writeLookupSwitch {fallback : Target} {pairs : List (Int32 × Target)}
    (h : writeLookupSwitch pc fallback pairs = .ok bs) :
    Emission pc bs
      (.lookupSwitch fallback.offset (pairs.map fun p => (p.1, (p.2.offset : Int)))) := by
  obtain ⟨⟨short, near⟩, rfl⟩ := writeLookupSwitch_eq_ok_iff.mp h
  have back (t : Target) (ht : t ∈ fallback :: pairs.map (·.2)) :
      (pc : Int) + (distanceWord pc t).toInt = t.offset := by
    rw [toInt_distanceWord (near t ht)]; omega
  have padded : (List.replicate (switchPadding pc) (0 : UInt8)).length = _ := List.length_replicate
  have spelled : Spelling pc _ _ := .lookupSwitch padded
    (distanceWord pc fallback) (Int32.ofNat pairs.length)
    (pairs.map fun p => (p.1, distanceWord pc p.2))
    (by rw [Int32.toInt_ofNat_of_lt (by omega), List.length_map])
  rw [back fallback List.mem_cons_self, List.map_map, List.flatMap_map] at spelled
  have pairs_back : pairs.map ((fun e : Int32 × Int32 => (e.1, (pc : Int) + e.2.toInt)) ∘
      fun p => (p.1, distanceWord pc p.2)) = pairs.map fun p => (p.1, (p.2.offset : Int)) := by
    apply List.map_congr_left
    intro p hp
    rw [Function.comp_apply, back p.2 (List.mem_cons_of_mem _ (List.mem_map_of_mem hp))]
  rw [pairs_back] at spelled
  refine ⟨spelled, ?_, ?_⟩
  · simp only [size, List.length_cons, List.length_append, List.length_replicate, length_wordBytes,
      length_flatMap_pair, List.length_map]
    omega
  · intro rest
    rw [List.cons_append, List.append_assoc]
    exact .of_switch (.inr rfl)

/-- What is written is a canonical spelling, unless the opcode is an alias. -/
theorem emission_of_write {i : Instruction Target} (own : ∀ op, i = .plain op → op.isAlias = false)
    (h : i.write pc = .ok bs) : Emission pc bs (i.map fun t => (t.offset : Int)) := by
  cases i with
  | plain op =>
    simp only [write] at h
    split at h
    · next bare =>
      cases h
      have own := own op rfl
      refine ⟨.plain bare own, by simp [map, size, bare, Shape.length?], fun rest => ?_⟩
      cases op with
      | named m => exact .of_named (by simp_all) (by simp_all)
      | unknown b =>
        apply CanonicalAt.of_unnamed
        intro m same
        have back := ((Opcode.isAlias_eq_false_iff _).mp own).1
        rw [same, Opcode.ofByte_byte] at back
        cases back
    · cases h
  | access op slot =>
    simp only [write] at h
    split at h
    · next shape =>
      cases h
      obtain ⟨m, rfl⟩ := Opcode.eq_named_of_shape (by rw [shape]; decide)
      exact emission_of_writeAccess shape slot
    · cases h
  | immediate op value => exact emission_of_writeImmediate h
  | jump op t => exact emission_of_writeJump h
  | increment slot delta =>
    cases h
    exact emission_of_writeIncrement slot delta
  | constant op operands =>
    simp only [write] at h
    split at h
    · next shape =>
      cases h
      obtain ⟨m, rfl⟩ := Opcode.eq_named_of_shape (by rw [shape]; simp)
      rw [Opcode.shape_named] at shape
      exact .of_named (.constant shape) (by simp [map, size]; omega) (by simp [shape])
        (by simp [shape])
    · cases h
  | tableSwitch low fallback targets => exact emission_of_writeTableSwitch h
  | lookupSwitch fallback pairs => exact emission_of_writeLookupSwitch h

/-- Whatever is written has the size that the layout reserves. -/
theorem length_of_write {i : Instruction Target} (h : i.write pc = .ok bs) :
    bs.length = i.size pc := by
  by_cases plain : ∃ op, i = .plain op
  · obtain ⟨op, rfl⟩ := plain
    by_cases bare : op.shape = .bare
    · rw [write, if_pos bare] at h
      cases h
      simp [size, bare, Shape.length?]
    · rw [write, if_neg bare] at h
      cases h
  · have emission := emission_of_write (fun op same => absurd ⟨op, same⟩ plain) h
    exact emission.length.trans (size_map ..)

end

end BytecodeMutation.Instruction
