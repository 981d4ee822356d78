import BytecodeMutation.Proofs.Hex
import BytecodeMutation.Proofs.Opcode.Byte
import BytecodeMutation.Proofs.Text.Numeral

/-!
The names of opcodes. An opcode is read back from its name unless it is unknown with the byte of a
named one, and no name is read as such an opcode.
-/
namespace BytecodeMutation

namespace Mnemonic

/-- A name as one number. Numbers are compared at once, texts byte by byte. -/
def textCode (m : Mnemonic) : Nat :=
  m.text.toByteArray.data.toList.foldl (fun n b => 256 * n + b.toNat) 0

theorem find?_textCode : all.all fun m => all.find? (·.textCode == m.textCode) == some m := by
  decide +kernel

/-- No two opcodes have the same name. -/
theorem text_injective {m m' : Mnemonic} (h : m.text = m'.text) : m = m' := by
  have same : m.textCode = m'.textCode := by rw [textCode, textCode, h]
  have found := List.all_eq_true.mp find?_textCode m m.mem_all
  have found' := List.all_eq_true.mp find?_textCode m' m'.mem_all
  simp only [beq_iff_eq] at found found'
  rw [same, found'] at found
  exact (Option.some.inj found).symm

theorem find?_text (m : Mnemonic) : all.find? (·.text == m.text) = some m := by
  rw [find?_eq_some_iff_of_unique, beq_iff_eq]
  · exact ⟨m.mem_all, rfl⟩
  · intro _ _ m' _ same
    exact text_injective (eq_of_beq same)

/-- Names are words. None is spelled like an unknown opcode or like the marker of a line. -/
theorem text_all : ∀ m ∈ all, Text.isWord m.text.toList ∧
    Text.after? Opcode.unknownStart.toList m.text.toList = none ∧ m.text ≠ "LINE" := by
  decide +kernel

end Mnemonic

namespace Opcode

/-- An unknown opcode does not have the byte of a named one. -/
def IsOwn (op : Opcode) : Prop := ∀ m : Mnemonic, op ≠ unknown m.byte

theorem isOwn_named (m : Mnemonic) : (named m).IsOwn := fun _ same => nomatch same

/-- An opcode with operands has a name. -/
theorem isOwn_of_shape {op : Opcode} (operands : op.shape ≠ .bare) : op.IsOwn := by
  obtain ⟨m, rfl⟩ := eq_named_of_shape operands
  exact isOwn_named m

/-- Such opcodes are what their bytes stand for. -/
theorem isOwn_iff {op : Opcode} : op.IsOwn ↔ ofByte op.byte = op := by
  constructor
  · intro own
    cases op with
    | named m => exact ofByte_byte m
    | unknown b =>
      cases stands : ofByte b with
      | named m => exact absurd (congrArg unknown (ofByte_eq_named_iff.mp stands).symm) (own m)
      | unknown b' =>
        have same := byte_ofByte b
        rw [stands] at same
        exact stands.trans (congrArg unknown same)
  · rintro stands m rfl
    rw [byte, ofByte_byte] at stands
    cases stands

theorem after?_text_unknown (b : UInt8) : Text.after? unknownStart.toList (unknown b).text.toList =
    some [Hex.digit (b.toNat / 16), Hex.digit (b.toNat % 16)] := by
  rw [text, String.toList_append, Text.after?_append, Hex.toList_encode_cons]
  rfl

theorem isWord_text (op : Opcode) : Text.isWord op.text.toList := by
  cases op with
  | named m => exact (Mnemonic.text_all m m.mem_all).1
  | unknown b =>
    rw [text, String.toList_append]
    exact Text.isWord_append rfl (Hex.isWord_encode (List.cons_ne_nil b []))

theorem text_ne_line (op : Opcode) : op.text ≠ "LINE" := by
  cases op with
  | named m => exact (Mnemonic.text_all m m.mem_all).2.2
  | unknown b =>
    intro same
    have start := after?_text_unknown b
    have other : Text.after? unknownStart.toList "LINE".toList = none := rfl
    rw [same, other] at start
    cases start

/-- Two digits spell a byte. -/
theorem unsigned?_byte (b : UInt8) :
    Numeral.unsigned? 16 [Hex.digit (b.toNat / 16), Hex.digit (b.toNat % 16)] = some b.toNat := by
  obtain ⟨high, low⟩ := Hex.nibbles_lt b
  have first := Numeral.value_digitChar _ high
  have second := Numeral.value_digitChar _ low
  unfold Numeral.unsigned?
  split
  · next sign =>
    simp only [List.cons.injEq] at sign
    exact absurd sign.1 (Hex.digit_ne _ high).2.2
  · refine Numeral.digits?_eq_some_iff.mpr ⟨List.cons_ne_nil _ _, ?_, ?_⟩
    · simp only [List.forall_mem_cons, Hex.digit, first, second]
      exact ⟨high, low, nofun⟩
    · simp only [List.foldl_cons, List.foldl_nil, Hex.digit, first, second]
      omega

theorem ofText_text {op : Opcode} (own : op.IsOwn) : ofText op.text = .ok op := by
  cases op with
  | named m =>
    simp only [ofText, text, Mnemonic.find?_text]
  | unknown b =>
    have unnamed : Mnemonic.all.find? (·.text == (unknown b).text) = none := by
      rw [List.find?_eq_none]
      intro m hm same
      have start := (Mnemonic.text_all m hm).2.1
      rw [beq_iff_eq.mp same, after?_text_unknown] at start
      cases start
    have stands : ofByte b = unknown b := isOwn_iff.mp own
    simp only [ofText, unnamed, after?_text_unknown, Option.bind_some, unsigned?_byte,
      Option.filter_some, b.toNat_lt, decide_true, if_true, UInt8.ofNat_toNat, stands]

theorem isOwn_of_ofText {name : String} {op : Opcode} (h : ofText name = .ok op) : op.IsOwn := by
  unfold ofText at h
  split at h
  · cases h
    exact isOwn_named _
  · dsimp only at h
    split at h
    · cases h
      rw [isOwn_iff, byte_ofByte]
    · cases h

end Opcode

end BytecodeMutation
