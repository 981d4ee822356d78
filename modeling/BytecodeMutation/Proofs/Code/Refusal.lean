import BytecodeMutation.Proofs.Code.Marking

/-!
Why code is refused. Either the bytes behind some instructions begin no further one, and
`Instruction.Unreadable` says in which ways that may be; or all bytes are read and a target is no
instruction's offset.
-/
namespace BytecodeMutation
open Instruction (Spelling)

namespace Instruction
open BigEndian

/-- What is wrong with bytes that begin no instruction at offset `pc`. -/
inductive Unreadable (pc : Nat) : List UInt8 → ReadError → Prop
  | cut {b rest n} (fixed : (Opcode.ofByte b).shape.length? = some n) (short : rest.length < n) :
      Unreadable pc (b :: rest) (.truncated pc)
  | cutWide {rest} (short : rest.length < 3) :
      Unreadable pc (Mnemonic.wide.byte :: rest) (.truncated pc)
  | cutWideIncrement {rest} (short : rest.length < 4) :
      Unreadable pc (Mnemonic.wide.byte :: Mnemonic.iinc.byte :: rest) (.truncated pc)
  /-- Only loads, stores, `RET` and `IINC` have a wide form. -/
  | unsupported {x a b rest} (access : (Opcode.ofByte x).shape ≠ .slot)
      (increment : x ≠ Mnemonic.iinc.byte) :
      Unreadable pc (Mnemonic.wide.byte :: x :: a :: b :: rest) (.unsupported (.ofByte x))
  | cutTable {rest} (short : rest.length < switchPadding pc + 12) :
      Unreadable pc (Mnemonic.tableswitch.byte :: rest) (.truncated pc)
  | unordered {pad rest : List UInt8} (padded : pad.length = switchPadding pc)
      {fallback low high : Int32} (bounds : high.toInt < low.toInt) :
      Unreadable pc (Mnemonic.tableswitch.byte :: (pad ++ wordBytes [fallback, low, high] ++ rest))
        (.malformedSwitch pc)
  | cutTargets {pad rest : List UInt8} (padded : pad.length = switchPadding pc)
      {fallback low high : Int32} (bounds : low.toInt ≤ high.toInt)
      (short : (rest.length : Int) < 4 * (high.toInt - low.toInt + 1)) :
      Unreadable pc (Mnemonic.tableswitch.byte :: (pad ++ wordBytes [fallback, low, high] ++ rest))
        (.truncated pc)
  | cutLookup {rest} (short : rest.length < switchPadding pc + 8) :
      Unreadable pc (Mnemonic.lookupswitch.byte :: rest) (.truncated pc)
  | negative {pad rest : List UInt8} (padded : pad.length = switchPadding pc)
      {fallback count : Int32} (below : count.toInt < 0) :
      Unreadable pc (Mnemonic.lookupswitch.byte :: (pad ++ wordBytes [fallback, count] ++ rest))
        (.malformedSwitch pc)
  | cutPairs {pad rest : List UInt8} (padded : pad.length = switchPadding pc)
      {fallback count : Int32} (positive : 0 ≤ count.toInt)
      (short : (rest.length : Int) < 8 * count.toInt) :
      Unreadable pc (Mnemonic.lookupswitch.byte :: (pad ++ wordBytes [fallback, count] ++ rest))
        (.truncated pc)

section
variable {pc n : Nat} {op : Opcode} {shape : Shape} {rest : List UInt8} {e : ReadError}

/-- An opcode of fixed length fails for want of bytes only. -/
theorem readFixed?_eq_none_iff (fixed : shape.length? = some n) :
    readFixed? pc op shape rest = none ↔ rest.length < n := by
  cases shape with
  | varying => cases fixed
  | bare => cases fixed; simp [readFixed?]
  | slot | signedByte | unsignedByte =>
    cases fixed
    cases rest <;> simp [readFixed?]
  | signedShort | branch16 | increment =>
    cases fixed
    obtain _ | ⟨a, _ | ⟨b, rest⟩⟩ := rest <;> simp [readFixed?]
  | branch32 =>
    cases fixed
    obtain _ | ⟨a, _ | ⟨b, _ | ⟨c, _ | ⟨d, rest⟩⟩⟩⟩ := rest <;> simp [readFixed?]
  | constant k =>
    cases fixed
    simp only [readFixed?, List.length_take, ite_eq_right_iff, reduceCtorEq, imp_false]
    omega

/-- Three opcodes have operands of varying length. -/
theorem eq_of_varying (varying : op.shape.length? = none) :
    op = .named .wide ∨ op = .named .tableswitch ∨ op = .named .lookupswitch := by
  cases op with
  | unknown b => cases varying
  | named m => cases m <;> cases varying <;> simp

theorem unreadable_of_readWide (h : readWide pc rest = .error e) :
    Unreadable pc (Mnemonic.wide.byte :: rest) e := by
  unfold readWide at h
  split at h
  · next x a b rest =>
    dsimp only at h
    split at h
    · next name =>
      rw [← Opcode.ofByte_eq_named_iff.mp name]
      split at h
      · cases h
      · next tail short =>
        cases h
        apply Unreadable.cutWideIncrement
        obtain _ | ⟨c, _ | ⟨d, rest⟩⟩ := rest
        · simp
        · simp
        · exact absurd rfl (short c d rest)
    · next other =>
      split at h
      · cases h
      · next shape =>
        cases h
        exact .unsupported shape fun same => other (Opcode.ofByte_eq_named_iff.mpr same.symm)
  · next short =>
    cases h
    apply Unreadable.cutWide
    obtain _ | ⟨x, _ | ⟨a, _ | ⟨b, rest⟩⟩⟩ := rest
    · simp
    · simp
    · simp
    · exact absurd rfl (short x a b rest)

theorem unreadable_of_readTableSwitch (h : readTableSwitch pc rest = .error e) :
    Unreadable pc (Mnemonic.tableswitch.byte :: rest) e := by
  unfold readTableSwitch at h
  dsimp only at h
  split at h
  · next fallback low high header =>
    obtain ⟨pad, parts, padded, -⟩ := (padded_words_iff (by decide)).mp ⟨header, rfl⟩
    rw [parts]
    split at h
    · next bounds =>
      cases h
      exact .unordered padded bounds
    · next bounds =>
      split at h
      · cases h
      · next short =>
        cases h
        rw [words_eq_none_iff, List.length_drop] at short
        refine .cutTargets padded (by omega) ?_
        rw [List.length_drop]
        omega
  · next other =>
    cases h
    apply Unreadable.cutTable
    cases header : words 3 (rest.drop (switchPadding pc)) with
    | none => exact (padded_words_eq_none_iff (by decide)).mp header
    | some xs =>
      obtain ⟨fallback, low, high, rfl⟩ := List.length_eq_three.mp (words_eq_some_iff.mp header).1
      exact absurd header (other fallback low high)

theorem unreadable_of_readLookupSwitch (h : readLookupSwitch pc rest = .error e) :
    Unreadable pc (Mnemonic.lookupswitch.byte :: rest) e := by
  unfold readLookupSwitch at h
  dsimp only at h
  split at h
  · next fallback count header =>
    obtain ⟨pad, parts, padded, -⟩ := (padded_words_iff (by decide)).mp ⟨header, rfl⟩
    rw [parts]
    split at h
    · next below =>
      cases h
      exact .negative padded below
    · next positive =>
      split at h
      · cases h
      · next short =>
        cases h
        rw [words_eq_none_iff, List.length_drop] at short
        refine .cutPairs padded (by omega) ?_
        rw [List.length_drop]
        omega
  · next other =>
    cases h
    apply Unreadable.cutLookup
    cases header : words 2 (rest.drop (switchPadding pc)) with
    | none => exact (padded_words_eq_none_iff (by decide)).mp header
    | some xs =>
      obtain ⟨fallback, count, rfl⟩ := List.length_eq_two.mp (words_eq_some_iff.mp header).1
      exact absurd header (other fallback count)

theorem unreadable_of_read {b : UInt8} (h : read pc b rest = .error e) :
    Unreadable pc (b :: rest) e := by
  unfold read at h
  split at h
  · cases h
  · dsimp only at h
    split at h
    · next fixed =>
      split at h
      · cases h
      · next short =>
        cases h
        exact .cut fixed ((readFixed?_eq_none_iff fixed).mp short)
    · next varying =>
      split at h
      · next name =>
        rw [← Opcode.ofByte_eq_named_iff.mp name]
        exact unreadable_of_readWide h
      · next name =>
        rw [← Opcode.ofByte_eq_named_iff.mp name]
        exact unreadable_of_readTableSwitch h
      · next name =>
        rw [← Opcode.ofByte_eq_named_iff.mp name]
        exact unreadable_of_readLookupSwitch h
      · next wide table lookup =>
        rcases eq_of_varying varying with name | name | name
        · exact absurd name wide
        · exact absurd name table
        · exact absurd name lookup

/-- The operands that every switch of a kind has, and what follows them. -/
theorem words_padded {pad : List UInt8} {xs : List Int32} (padded : pad.length = switchPadding pc)
    (length : xs.length = n) (positive : 0 < n) (rest : List UInt8) :
    words n ((pad ++ wordBytes xs ++ rest).drop (switchPadding pc)) = some xs ∧
      ((pad ++ wordBytes xs ++ rest).drop (switchPadding pc)).drop (4 * n) = rest :=
  (padded_words_iff positive).mpr ⟨pad, rfl, padded, length⟩

end

namespace Unreadable

variable {pc : Nat} {b : UInt8} {rest : List UInt8} {e : ReadError}

/-- Such bytes are refused, with just that error. -/
theorem read (h : Unreadable pc (b :: rest) e) : Instruction.read pc b rest = .error e := by
  generalize same : b :: rest = bs at h
  cases h with
  | @cut b' rest' n fixed short =>
    cases same
    have operands : (Opcode.ofByte b).shape ≠ .bare := by
      intro bare
      rw [bare] at fixed
      cases fixed
      omega
    obtain ⟨m, name⟩ := Opcode.eq_named_of_shape operands
    obtain rfl := Opcode.ofByte_eq_named_iff.mp name
    rw [name] at fixed
    have none : readFixed? pc (.named m) (Opcode.named m).shape rest = none :=
      (readFixed?_eq_none_iff fixed).mpr short
    simp only [Instruction.read, implicit?_byte, name, fixed, none]
  | cutWide short =>
    cases same
    rw [Spelling.read_wide]
    obtain _ | ⟨x, _ | ⟨a, _ | ⟨c, rest⟩⟩⟩ := rest
    iterate 3 rfl
    simp only [List.length_cons] at short
    omega
  | @cutWideIncrement tail short =>
    cases same
    rw [Spelling.read_wide]
    obtain _ | ⟨a, _ | ⟨c, _ | ⟨d, _ | ⟨f, rest⟩⟩⟩⟩ := tail
    iterate 2 rfl
    · simp only [readWide, Opcode.ofByte_byte, if_true]
    · simp only [readWide, Opcode.ofByte_byte, if_true]
    · simp only [List.length_cons] at short
      omega
  | unsupported access increment =>
    cases same
    rw [Spelling.read_wide]
    have other : Opcode.ofByte _ ≠ .named .iinc := fun name =>
      increment (Opcode.ofByte_eq_named_iff.mp name).symm
    simp only [readWide, if_neg other, if_neg access]
  | cutTable short =>
    cases same
    have none : words 3 (rest.drop (switchPadding pc)) = none :=
      (padded_words_eq_none_iff (by decide)).mpr short
    simp only [Spelling.read_tableSwitch, readTableSwitch, none]
  | @unordered pad rest padded fallback low high bounds =>
    cases same
    have length : [fallback, low, high].length = 3 := rfl
    obtain ⟨header, -⟩ := words_padded padded length (by decide) rest
    simp only [Spelling.read_tableSwitch, readTableSwitch, header, if_pos bounds]
  | @cutTargets pad rest padded fallback low high bounds short =>
    cases same
    have length : [fallback, low, high].length = 3 := rfl
    obtain ⟨header, targets⟩ := words_padded padded length (by decide) rest
    have none : words (high.toInt - low.toInt + 1).toNat rest = none :=
      words_eq_none_iff.mpr (by omega)
    simp only [Spelling.read_tableSwitch, readTableSwitch, header, if_neg (Int.not_lt.mpr bounds),
      targets, none]
  | cutLookup short =>
    cases same
    have none : words 2 (rest.drop (switchPadding pc)) = none :=
      (padded_words_eq_none_iff (by decide)).mpr short
    simp only [Spelling.read_lookupSwitch, readLookupSwitch, none]
  | @negative pad rest padded fallback count below =>
    cases same
    have length : [fallback, count].length = 2 := rfl
    obtain ⟨header, -⟩ := words_padded padded length (by decide) rest
    simp only [Spelling.read_lookupSwitch, readLookupSwitch, header, if_pos below]
  | @cutPairs pad rest padded fallback count positive short =>
    cases same
    have length : [fallback, count].length = 2 := rfl
    obtain ⟨header, pairs⟩ := words_padded padded length (by decide) rest
    have none : words (2 * count.toInt.toNat) rest = none := words_eq_none_iff.mpr (by omega)
    simp only [Spelling.read_lookupSwitch, readLookupSwitch, header,
      if_neg (Int.not_lt.mpr positive), pairs, none]

end Unreadable

/-- No instruction is read just from bytes that begin none. -/
theorem read_eq_error_iff {pc : Nat} {b : UInt8} {rest : List UInt8} {e : ReadError} :
    read pc b rest = .error e ↔ Unreadable pc (b :: rest) e :=
  ⟨unreadable_of_read, Unreadable.read⟩

end Instruction

section
variable {pc : Nat} {bytes : List UInt8} {located : List (Nat × Instruction Int)} {e : ReadError}

theorem unreadable_of_readInstructions (h : readInstructions pc bytes = .error e) :
    ∃ done located rest, bytes = done ++ rest ∧ Split pc done located ∧
      Instruction.Unreadable (pc + done.length) rest e := by
  fun_induction readInstructions pc bytes with
  | case1 => cases h
  | case2 pc b rest e' failed =>
    cases h
    exact ⟨[], [], b :: rest, rfl, .nil pc, Instruction.unreadable_of_read failed⟩
  | case3 pc b rest i n found ih =>
    obtain ⟨enough, spelled⟩ := Instruction.read_eq_ok_iff.mp found
    have next : pc + (b :: rest.take n).length = pc + 1 + n := by
      rw [List.length_cons, List.length_take, Nat.min_eq_left enough]
      omega
    cases tail : readInstructions (pc + 1 + n) (rest.drop n) with
    | ok others => simp [tail, Except.map] at h
    | error e' =>
      simp only [tail, Except.map, Except.error.injEq] at h
      subst h
      obtain ⟨done, located, others, parts, split, unreadable⟩ := ih tail
      refine ⟨b :: rest.take n ++ done, (pc, i) :: located, others, ?_,
        .cons spelled (next ▸ split), ?_⟩
      · rw [List.append_assoc, ← parts, List.cons_append, List.take_append_drop]
      · rwa [List.length_append, ← Nat.add_assoc, next]

/-- Once some bytes are split, what follows decides. -/
theorem readInstructions_append {done : List UInt8} (h : Split pc done located)
    {rest : List UInt8} (refused : readInstructions (pc + done.length) rest = .error e) :
    readInstructions pc (done ++ rest) = .error e := by
  induction h with
  | nil => exact refused
  | @cons pc bs i more located first _ ih =>
    cases bs with
    | nil => exact absurd rfl first.ne_nil
    | cons b tail =>
      rw [List.length_append, ← Nat.add_assoc] at refused
      rw [List.append_assoc, List.cons_append, readInstructions, first.read (more ++ rest)]
      simp only [List.drop_left]
      rw [show pc + 1 + tail.length = pc + (b :: tail).length by rw [List.length_cons]; omega,
        ih refused]
      rfl

/-- The reader stops at the first bytes that begin no instruction. -/
theorem readInstructions_eq_error_iff :
    readInstructions pc bytes = .error e ↔
      ∃ done located rest, bytes = done ++ rest ∧ Split pc done located ∧
        Instruction.Unreadable (pc + done.length) rest e := by
  constructor
  · exact unreadable_of_readInstructions
  · rintro ⟨done, located, rest, rfl, split, unreadable⟩
    apply readInstructions_append split
    cases rest with
    | nil => cases unreadable
    | cons b rest => rw [readInstructions, unreadable.read]

/-- The error names the first target in code order that is the offset of no instruction, and the
instruction that it belongs to. -/
inductive FirstStray (located : List (Nat × Instruction Int)) : ReadError → Prop
  | mk {before after : List (Nat × Instruction Int)} {p : Nat × Instruction Int}
      {sooner later : List Int} {t : Int}
      (code : located = before ++ p :: after) (targets : p.2.targets = sooner ++ t :: later)
      (landing : ∀ q ∈ before, ∀ s ∈ q.2.targets, ∃ r ∈ located, (r.1 : Int) = s)
      (sooner : ∀ s ∈ sooner, ∃ r ∈ located, (r.1 : Int) = s)
      (astray : ∀ r ∈ located, (r.1 : Int) ≠ t) : FirstStray located (.strayTarget p.1 t)

theorem findSome?_strayTarget_eq_some_iff :
    located.findSome? (strayTarget? (Std.HashSet.ofList (located.map (·.1)))) = some e ↔
      FirstStray located e := by
  simp only [List.findSome?_eq_some_iff, strayTarget?, Option.map_eq_some_iff,
    Option.map_eq_none_iff, List.find?_eq_some_iff_append, List.find?_eq_none, Bool.not_eq_true',
    ← Bool.not_eq_true, contains_starts, not_not]
  constructor
  · rintro ⟨before, p, after, code, ⟨t, ⟨astray, sooner, later, targets, first⟩, rfl⟩, landing⟩
    exact .mk code targets landing first fun q hq same => astray ⟨q, hq, same⟩
  · rintro ⟨code, targets, landing, first, astray⟩
    refine ⟨_, _, _, code, ⟨_, ⟨?_, _, _, targets, first⟩, rfl⟩, landing⟩
    rintro ⟨q, hq, same⟩
    exact astray q hq same

end

theorem Code.read_eq_error_iff {code : Code} {e : ReadError} :
    code.read = .error e ↔
      (∃ done located rest, code.bytes = done ++ rest ∧ Split 0 done located ∧
        Instruction.Unreadable done.length rest e) ∨
      ∃ located, Split 0 code.bytes located ∧ FirstStray located e := by
  have unreadable : readInstructions 0 code.bytes = .error e ↔ _ := readInstructions_eq_error_iff
  simp only [Nat.zero_add] at unreadable
  rw [← unreadable]
  simp only [← findSome?_strayTarget_eq_some_iff, ← readInstructions_eq_ok_iff, Code.read]
  cases found : readInstructions 0 code.bytes with
  | error e' => simp
  | ok located =>
    cases stray : located.findSome? (strayTarget? (.ofList (located.map (·.1)))) with
    | some e' => simp [stray]
    | none => simp [stray]

/-- What is read, and what is refused with which error. Code is read just if its bytes fall into
spellings and every target is the offset of an instruction; then every target has its label. Any
other code is refused: for the first bytes that begin no instruction, or, if all are read, for its
first stray target. -/
theorem Code.read_grammar (code : Code) :
    ((∃ body, code.read = .ok body) ↔ ∃ located, Split 0 code.bytes located ∧ Landing located) ∧
    (∀ e, code.read = .error e ↔
      (∃ done located rest, code.bytes = done ++ rest ∧ Split 0 done located ∧
        Instruction.Unreadable done.length rest e) ∨
      ∃ located, Split 0 code.bytes located ∧ FirstStray located e) ∧
    (∀ located, Split 0 code.bytes located → Landing located →
      ∀ p ∈ located, ∀ t ∈ p.2.targets,
        0 ≤ t ∧ (labelsByOffset located)[t.toNat]? = some (labelFor located t.toNat)) := by
  refine ⟨?_, fun e => ?_, fun located split landing p hp t ht => ?_⟩
  · simp only [Code.read_eq_ok_iff]
    constructor
    · rintro ⟨body, located, split, landing, -⟩
      exact ⟨located, split, landing⟩
    · rintro ⟨located, split, landing⟩
      exact ⟨_, located, split, landing, rfl⟩
  · rw [Code.read_eq_error_iff]
  · obtain ⟨positive, targeted⟩ := landing.mem_targetedOffsets hp ht
    exact ⟨positive, by rw [getElem?_labelsByOffset split.ascending landing, if_pos targeted]⟩

theorem Code.read_grammar_jump :
    (∃ body, (Code.mk [0xa7, 0x00, 0x03, 0xb1] []).read = .ok body) ∧
      ∃ l, (labelsByOffset [(0, .jump (.named .goto) 3), (3, .plain (.named .voidReturn))])[3]? =
        some l := by
  have jump : Spelling 0 [0xa7, 0x00, 0x03] (.jump (.named .goto) 3) :=
    @Spelling.branch16 0 .goto rfl 3
  have leave : Spelling 3 [0xb1] (.plain (.named .voidReturn)) :=
    @Spelling.plain 3 (.named .voidReturn) rfl rfl
  have split := Split.cons jump (.cons leave (.nil 4))
  have landing : Landing [(0, .jump (.named .goto) 3), (3, .plain (.named .voidReturn))] := by
    simp [Landing, Instruction.targets]
  obtain ⟨accepted, -, labelled⟩ := Code.read_grammar ⟨[0xa7, 0x00, 0x03, 0xb1], []⟩
  exact ⟨accepted.mpr ⟨_, split, landing⟩, _,
    (labelled _ split landing _ (.head _) 3 (.head _)).2⟩

end BytecodeMutation
