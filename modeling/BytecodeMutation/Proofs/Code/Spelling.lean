import BytecodeMutation.Code.Reading
import BytecodeMutation.Proofs.Code.Word
import BytecodeMutation.Proofs.Opcode.Byte

/-!
The spellings of an instruction: all byte sequences that are read as it. `read_eq_ok_iff` says that
reading one instruction succeeds exactly on these, so later proofs split cases on `Spelling` and
never open the reader.
-/
namespace BytecodeMutation.Instruction
open BigEndian

/-- The bytes of one instruction that stands at offset `pc`. A load, a store and an increment have
several spellings, and the padding of a switch is arbitrary. -/
inductive Spelling (pc : Nat) : List UInt8 → Instruction Int → Prop
  | implicit {b op slot} (names : implicit? b = some (op, slot)) : Spelling pc [b] (.access op slot)
  | plain {op} (bare : op.shape = .bare) (own : op.isAlias = false) :
      Spelling pc [op.byte] (.plain op)
  | access {m : Mnemonic} (shape : m.shape = .slot) (slot : UInt8) :
      Spelling pc [m.byte, slot] (.access m slot.toUInt16)
  | wideAccess {m : Mnemonic} (shape : m.shape = .slot) (slot : UInt16) :
      Spelling pc (Mnemonic.wide.byte :: m.byte :: bytes16 slot) (.access m slot)
  | signedByte {m : Mnemonic} (shape : m.shape = .signedByte) (value : Int8) :
      Spelling pc [m.byte, value.toUInt8] (.immediate m value.toInt32)
  | unsignedByte {m : Mnemonic} (shape : m.shape = .unsignedByte) (value : UInt8) :
      Spelling pc [m.byte, value] (.immediate m (Int32.ofNat value.toNat))
  | signedShort {m : Mnemonic} (shape : m.shape = .signedShort) (value : Int16) :
      Spelling pc (m.byte :: bytes16 value.toUInt16) (.immediate m value.toInt32)
  | branch16 {m : Mnemonic} (shape : m.shape = .branch16) (distance : Int16) :
      Spelling pc (m.byte :: bytes16 distance.toUInt16) (.jump m (pc + distance.toInt))
  | branch32 {m : Mnemonic} (shape : m.shape = .branch32) (distance : Int32) :
      Spelling pc (m.byte :: bytes32 distance.toUInt32) (.jump m (pc + distance.toInt))
  | increment (slot : UInt8) (delta : Int8) :
      Spelling pc [Mnemonic.iinc.byte, slot, delta.toUInt8] (.increment slot.toUInt16 delta.toInt16)
  | wideIncrement (slot : UInt16) (delta : Int16) :
      Spelling pc
        (Mnemonic.wide.byte :: Mnemonic.iinc.byte :: (bytes16 slot ++ bytes16 delta.toUInt16))
        (.increment slot delta)
  | constant {m : Mnemonic} {bs} (shape : m.shape = .constant bs.length) :
      Spelling pc (m.byte :: bs) (.constant m bs)
  | tableSwitch {pad : List UInt8} (padded : pad.length = switchPadding pc)
      (fallback low high : Int32) (targets : List Int32) (nonempty : targets ≠ [])
      (bounds : low.toInt + targets.length = high.toInt + 1) :
      Spelling pc
        (Mnemonic.tableswitch.byte :: (pad ++ wordBytes (fallback :: low :: high :: targets)))
        (.tableSwitch low (pc + fallback.toInt) (targets.map fun t => pc + t.toInt))
  | lookupSwitch {pad : List UInt8} (padded : pad.length = switchPadding pc)
      (fallback count : Int32) (entries : List (Int32 × Int32))
      (counted : count.toInt = entries.length) :
      Spelling pc
        (Mnemonic.lookupswitch.byte ::
          (pad ++ wordBytes (fallback :: count :: entries.flatMap fun e => [e.1, e.2])))
        (.lookupSwitch (pc + fallback.toInt) (entries.map fun e => (e.1, pc + e.2.toInt)))

namespace Spelling

variable {pc : Nat} {i : Instruction Int}

/-- No instruction is written with no byte. -/
theorem ne_nil {bs : List UInt8} (h : Spelling pc bs i) : bs ≠ [] := by
  cases h <;> exact List.cons_ne_nil _ _

end Spelling

theorem keyed_entries (pc : Nat) (entries : List (Int32 × Int32)) :
    keyed pc (entries.flatMap fun e => [e.1, e.2]) =
      entries.map fun e => (e.1, (pc : Int) + e.2.toInt) := by
  induction entries with
  | nil => rfl
  | cons e es ih => simp [keyed, ih]

theorem length_flatMap_pair {α : Type} (f g : α → Int32) (xs : List α) :
    (xs.flatMap fun x => [f x, g x]).length = 2 * xs.length := by
  induction xs with
  | nil => rfl
  | cons x xs ih => simp only [List.flatMap_cons, List.length_append, ih, List.length_cons,
      List.length_nil]; omega

/-- An even number of words makes pairs. -/
theorem exists_entries {n : Nat} (words : List Int32) (length : words.length = 2 * n) :
    ∃ entries : List (Int32 × Int32),
      words = (entries.flatMap fun e => [e.1, e.2]) ∧ entries.length = n := by
  induction n generalizing words with
  | zero => exact ⟨[], by simpa using length, rfl⟩
  | succ n ih =>
    match words, length with
    | key :: target :: rest, length =>
      obtain ⟨entries, rfl, rfl⟩ := ih rest (by simp only [List.length_cons] at length; omega)
      exact ⟨(key, target) :: entries, by simp, by simp⟩

section
variable {pc n : Nat} {rest : List UInt8} {i : Instruction Int}

/-- Reading behind an opcode whose shape fixes its length. -/
theorem spelling_of_readFixed {op : Opcode} {shape : Shape} (own : op.isAlias = false)
    (hs : op.shape = shape) (hn : shape.length? = some n)
    (h : readFixed? pc op shape rest = some i) :
    n ≤ rest.length ∧ Spelling pc (op.byte :: rest.take n) i := by
  have named (operands : shape ≠ .bare) : ∃ m, op = .named m :=
    Opcode.eq_named_of_shape (hs ▸ operands)
  cases shape with
  | bare =>
    cases hn
    cases h
    exact ⟨Nat.zero_le _, .plain hs own⟩
  | slot =>
    cases hn
    obtain ⟨m, rfl⟩ := named (by decide)
    match rest, h with
    | a :: _, rfl => exact ⟨by simp, .access hs a⟩
  | signedByte =>
    cases hn
    obtain ⟨m, rfl⟩ := named (by decide)
    match rest, h with
    | a :: _, rfl => exact ⟨by simp, .signedByte hs a.toInt8⟩
  | unsignedByte =>
    cases hn
    obtain ⟨m, rfl⟩ := named (by decide)
    match rest, h with
    | a :: _, rfl => exact ⟨by simp, .unsignedByte hs a⟩
  | signedShort =>
    cases hn
    obtain ⟨m, rfl⟩ := named (by decide)
    match rest, h with
    | a :: b :: _, rfl =>
      have spelled : Spelling pc _ _ := .signedShort hs (word16 a b).toInt16
      rw [UInt16.toUInt16_toInt16, bytes16_word16] at spelled
      exact ⟨by simp, spelled⟩
  | branch16 =>
    cases hn
    obtain ⟨m, rfl⟩ := named (by decide)
    match rest, h with
    | a :: b :: _, rfl =>
      have spelled : Spelling pc _ _ := .branch16 hs (word16 a b).toInt16
      rw [UInt16.toUInt16_toInt16, bytes16_word16] at spelled
      exact ⟨by simp, spelled⟩
  | branch32 =>
    cases hn
    obtain ⟨m, rfl⟩ := named (by decide)
    match rest, h with
    | a :: b :: c :: d :: _, rfl =>
      have spelled : Spelling pc _ _ := .branch32 hs (word32 a b c d).toInt32
      rw [UInt32.toUInt32_toInt32, bytes32_word32] at spelled
      exact ⟨by simp, spelled⟩
  | increment =>
    cases hn
    obtain ⟨m, rfl⟩ := named (by decide)
    match rest, h with
    | a :: b :: _, rfl =>
      have only : m = .iinc := by cases m <;> cases hs; rfl
      subst only
      exact ⟨by simp, .increment a b.toInt8⟩
  | constant k =>
    cases hn
    obtain ⟨m, rfl⟩ := named (by simp)
    simp only [readFixed?, Option.ite_none_right_eq_some, Option.some.injEq] at h
    obtain ⟨enough, rfl⟩ := h
    refine ⟨by rw [List.length_take] at enough; omega, .constant ?_⟩
    rw [enough]; exact hs
  | varying => cases hn

theorem spelling_of_readWide (h : readWide pc rest = .ok (i, n)) :
    n ≤ rest.length ∧ Spelling pc (Mnemonic.wide.byte :: rest.take n) i := by
  unfold readWide at h
  split at h
  · next x a b rest =>
    dsimp only at h
    split at h
    · next name =>
      have byte := Opcode.ofByte_eq_named_iff.mp name
      split at h
      · next c d rest =>
        cases h
        have spelled : Spelling pc _ _ := .wideIncrement (word16 a b) (word16 c d).toInt16
        rw [UInt16.toUInt16_toInt16, bytes16_word16, bytes16_word16] at spelled
        exact ⟨by simp, by simpa [byte] using spelled⟩
      · cases h
    · split at h
      · next shape =>
        cases h
        obtain ⟨m, name⟩ := Opcode.eq_named_of_shape (by rw [shape]; decide)
        have byte := Opcode.ofByte_eq_named_iff.mp name
        rw [name] at shape ⊢
        have spelled : Spelling pc _ _ := .wideAccess shape (word16 a b)
        rw [bytes16_word16] at spelled
        exact ⟨by simp, by simpa [byte] using spelled⟩
      · cases h
  · cases h

theorem spelling_of_readTableSwitch (h : readTableSwitch pc rest = .ok (i, n)) :
    n ≤ rest.length ∧ Spelling pc (Mnemonic.tableswitch.byte :: rest.take n) i := by
  unfold readTableSwitch at h
  dsimp only at h
  split at h
  · next fallback low high header =>
    split at h
    · cases h
    · next ordered =>
      split at h
      · next targets found =>
        cases h
        have all := words_append header found
        obtain ⟨enough, padded, split⟩ := take_padded_words (by omega) all
        have count := (words_eq_some_iff.mp found).1
        rw [show switchPadding pc + 12 + 4 * (high.toInt - low.toInt + 1).toNat =
          switchPadding pc + 4 * (3 + (high.toInt - low.toInt + 1).toNat) by omega, split]
        refine ⟨enough, .tableSwitch padded fallback low high targets ?_ ?_⟩
        · rintro rfl
          simp only [List.length_nil] at count; omega
        · omega
      · cases h
  · cases h

theorem spelling_of_readLookupSwitch (h : readLookupSwitch pc rest = .ok (i, n)) :
    n ≤ rest.length ∧ Spelling pc (Mnemonic.lookupswitch.byte :: rest.take n) i := by
  unfold readLookupSwitch at h
  dsimp only at h
  split at h
  · next fallback count header =>
    split at h
    · cases h
    · next positive =>
      split at h
      · next words found =>
        cases h
        have all := words_append header found
        obtain ⟨enough, padded, split⟩ := take_padded_words (by omega) all
        obtain ⟨entries, rfl, length⟩ := exists_entries words (words_eq_some_iff.mp found).1
        rw [show switchPadding pc + 8 + 8 * count.toInt.toNat =
          switchPadding pc + 4 * (2 + 2 * count.toInt.toNat) by omega, split, keyed_entries]
        exact ⟨enough, .lookupSwitch padded fallback count entries (by omega)⟩
      · cases h
  · cases h

theorem spelling_of_read {b : UInt8} (h : read pc b rest = .ok (i, n)) :
    n ≤ rest.length ∧ Spelling pc (b :: rest.take n) i := by
  unfold read at h
  split at h
  · next op slot names =>
    cases h
    exact ⟨Nat.zero_le _, .implicit names⟩
  · next absent =>
    have own : (Opcode.ofByte b).isAlias = false :=
      (Opcode.isAlias_eq_false_iff _).mpr ⟨by rw [Opcode.byte_ofByte], by rwa [Opcode.byte_ofByte]⟩
    dsimp only at h
    split at h
    · next length =>
      split at h
      · next fixed =>
        cases h
        simpa only [Opcode.byte_ofByte] using spelling_of_readFixed own rfl length fixed
      · cases h
    · split at h
      · next name => rw [← Opcode.ofByte_eq_named_iff.mp name]; exact spelling_of_readWide h
      · next name => rw [← Opcode.ofByte_eq_named_iff.mp name]; exact spelling_of_readTableSwitch h
      · next name => rw [← Opcode.ofByte_eq_named_iff.mp name]; exact spelling_of_readLookupSwitch h
      · cases h

end

namespace Spelling

variable {pc : Nat} {b : UInt8} {tail : List UInt8} {i : Instruction Int}

theorem readFixed {m : Mnemonic} {n : Nat} (hn : m.shape.length? = some n)
    (h : readFixed? pc (.named m) m.shape rest = some i) :
    Instruction.read pc m.byte rest = .ok (i, n) := by
  simp only [Instruction.read, implicit?_byte, Opcode.ofByte_byte, Opcode.shape_named, hn, h]

theorem read_wide (pc : Nat) (rest : List UInt8) :
    Instruction.read pc Mnemonic.wide.byte rest = readWide pc rest := by
  simp only [Instruction.read, implicit?_byte, Opcode.ofByte_byte]
  rfl

theorem read_tableSwitch (pc : Nat) (rest : List UInt8) :
    Instruction.read pc Mnemonic.tableswitch.byte rest = Instruction.readTableSwitch pc rest := by
  simp only [Instruction.read, implicit?_byte, Opcode.ofByte_byte]
  rfl

theorem read_lookupSwitch (pc : Nat) (rest : List UInt8) :
    Instruction.read pc Mnemonic.lookupswitch.byte rest = Instruction.readLookupSwitch pc rest := by
  simp only [Instruction.read, implicit?_byte, Opcode.ofByte_byte]
  rfl

theorem readTableSwitch {pad : List UInt8} (padded : pad.length = switchPadding pc)
    (fallback low high : Int32) (targets : List Int32) (nonempty : targets ≠ [])
    (bounds : low.toInt + targets.length = high.toInt + 1) (rest : List UInt8) :
    Instruction.readTableSwitch pc (pad ++ wordBytes (fallback :: low :: high :: targets) ++ rest) =
      .ok (.tableSwitch low (pc + fallback.toInt) (targets.map fun t => pc + t.toInt),
        (pad ++ wordBytes (fallback :: low :: high :: targets)).length) := by
  have positive := List.length_pos_iff.mpr nonempty
  have header : words 3 (wordBytes (fallback :: low :: high :: targets) ++ rest) =
      some [fallback, low, high] :=
    words_eq_some_iff.mpr ⟨rfl, wordBytes targets ++ rest, by simp⟩
  have body : words (high.toInt - low.toInt + 1).toNat
      ((wordBytes (fallback :: low :: high :: targets) ++ rest).drop 12) = some targets :=
    words_eq_some_iff.mpr ⟨by omega, rest, by simp [bytes32]⟩
  simp only [Instruction.readTableSwitch, List.append_assoc, List.drop_left' padded, header, body]
  rw [if_neg (by omega)]
  simp only [List.length_append, length_wordBytes, List.length_cons, padded]
  congr 2
  omega

theorem readLookupSwitch {pad : List UInt8} (padded : pad.length = switchPadding pc)
    (fallback count : Int32) (entries : List (Int32 × Int32))
    (counted : count.toInt = entries.length) (rest : List UInt8) :
    Instruction.readLookupSwitch pc
        (pad ++ wordBytes (fallback :: count :: entries.flatMap fun e => [e.1, e.2]) ++ rest) =
      .ok (.lookupSwitch (pc + fallback.toInt) (entries.map fun e => (e.1, pc + e.2.toInt)),
        (pad ++ wordBytes (fallback :: count :: entries.flatMap fun e => [e.1, e.2])).length) := by
  have length := length_flatMap_pair (fun e : Int32 × Int32 => e.1) (·.2) entries
  have header : words 2
      (wordBytes (fallback :: count :: entries.flatMap fun e => [e.1, e.2]) ++ rest) =
      some [fallback, count] :=
    words_eq_some_iff.mpr ⟨rfl, wordBytes (entries.flatMap fun e => [e.1, e.2]) ++ rest, by simp⟩
  have body : words (2 * count.toInt.toNat)
      ((wordBytes (fallback :: count :: entries.flatMap fun e => [e.1, e.2]) ++ rest).drop 8) =
      some (entries.flatMap fun e => [e.1, e.2]) :=
    words_eq_some_iff.mpr ⟨by omega, rest, by simp [bytes32]⟩
  simp only [Instruction.readLookupSwitch, List.append_assoc, List.drop_left' padded, header, body]
  rw [if_neg (by omega), keyed_entries]
  simp only [List.length_append, length_wordBytes, List.length_cons, padded, length]
  congr 2
  omega

/-- A spelling is read back, whatever follows it. -/
theorem read (h : Spelling pc (b :: tail) i) (rest : List UInt8) :
    Instruction.read pc b (tail ++ rest) = .ok (i, tail.length) := by
  cases h with
  | implicit names => simp [Instruction.read, names]
  | plain bare own =>
    obtain ⟨same, absent⟩ := (Opcode.isAlias_eq_false_iff _).mp own
    simp [Instruction.read, same, absent, bare, Shape.length?, readFixed?]
  | access shape slot =>
    exact readFixed (by rw [shape]; rfl) (by rw [shape]; rfl)
  | @wideAccess m shape slot =>
    have other : Opcode.named m ≠ .named .iinc := by rintro ⟨⟩; cases shape
    simp only [read_wide, readWide, bytes16, List.cons_append, List.nil_append, Opcode.ofByte_byte,
      if_neg other, Opcode.shape_named, shape, if_true, word16_bytes, List.length_cons,
      List.length_nil]
  | signedByte shape value =>
    exact readFixed (by rw [shape]; rfl) (by rw [shape]; simp [readFixed?])
  | unsignedByte shape value =>
    exact readFixed (by rw [shape]; rfl) (by rw [shape]; rfl)
  | signedShort shape value =>
    refine readFixed (by rw [shape]; rfl) ?_
    simp only [shape, readFixed?, bytes16, List.cons_append, List.nil_append, word16_bytes,
      Int16.toInt16_toUInt16]
  | branch16 shape distance =>
    refine readFixed (by rw [shape]; rfl) ?_
    simp only [shape, readFixed?, bytes16, List.cons_append, List.nil_append, word16_bytes,
      Int16.toInt16_toUInt16]
  | branch32 shape distance =>
    refine readFixed (by rw [shape]; rfl) ?_
    simp only [shape, readFixed?, bytes32, List.cons_append, List.nil_append, word32_bytes,
      Int32.toInt32_toUInt32]
  | increment slot delta =>
    exact readFixed rfl (by change readFixed? pc _ .increment _ = _; simp [readFixed?])
  | wideIncrement slot delta =>
    simp only [read_wide, readWide, bytes16, List.cons_append, List.nil_append, Opcode.ofByte_byte,
      if_true, word16_bytes, Int16.toInt16_toUInt16, List.length_cons, List.length_nil]
  | constant shape =>
    exact readFixed (by rw [shape]; rfl) (by rw [shape]; simp [readFixed?])
  | tableSwitch padded fallback low high targets nonempty bounds =>
    rw [read_tableSwitch]
    exact readTableSwitch padded fallback low high targets nonempty bounds rest
  | lookupSwitch padded fallback count entries counted =>
    rw [read_lookupSwitch]
    exact readLookupSwitch padded fallback count entries counted rest

end Spelling

/-- Reading succeeds exactly on the spellings of instructions. -/
theorem read_eq_ok_iff {pc n : Nat} {b : UInt8} {rest : List UInt8} {i : Instruction Int} :
    read pc b rest = .ok (i, n) ↔ n ≤ rest.length ∧ Spelling pc (b :: rest.take n) i := by
  constructor
  · exact spelling_of_read
  · rintro ⟨enough, spelled⟩
    have back := spelled.read (rest.drop n)
    rwa [List.take_append_drop, List.length_take, Nat.min_eq_left enough] at back

end BytecodeMutation.Instruction
