import BytecodeMutation.Proofs.Listing.Shaped
import BytecodeMutation.Proofs.Opcode.Name

/-!
The words of a line. An instruction is written as its opcode and its operands, a word each, and each
kind of operand is read back.
-/
namespace BytecodeMutation
open Numeral Text

/-- The words behind the opcode. -/
def Instruction.operands : Instruction Label → List (List Char)
  | plain _ => []
  | access _ slot => [(decimal slot.toNat).toList]
  | immediate _ v => [(signedDecimal v.toInt).toList]
  | jump _ t => [t.text.toList]
  | increment slot d => [(decimal slot.toNat).toList, (signedDecimal d.toInt).toList]
  | constant _ [] => []
  | constant _ bs => [(Hex.encode bs).toList]
  | tableSwitch low t ts =>
    (signedDecimal low.toInt).toList :: (ts.map (·.text.toList) ++ [("default:" ++ t.text).toList])
  | lookupSwitch t ps =>
    ps.map (fun p => (signedDecimal p.1.toInt ++ ":" ++ p.2.text).toList) ++
      [("default:" ++ t.text).toList]

theorem Instruction.toList_text (i : Instruction Label) :
    i.text.toList = phrase i.opcode.text.toList i.operands := by
  cases i with
  | plain op => simp [text, opcode, operands, phrase]
  | access op slot => simp [text, opcode, operands, phrase]
  | immediate op v => simp [text, opcode, operands, phrase]
  | jump op t => simp [text, opcode, operands, phrase]
  | increment slot d => simp [text, opcode, operands, phrase, Opcode.text]
  | constant op bs => cases bs <;> simp [text, opcode, operands, phrase]
  | tableSwitch low t ts =>
    simp [text, opcode, operands, phrase, Opcode.text, String.toList_join, List.flatMap_map]
  | lookupSwitch t ps =>
    simp [text, opcode, operands, phrase, Opcode.text, String.toList_join, List.flatMap_map]

theorem isPlain_of_isDigit {c : Char} (h : c.isDigit) : isPlain c ∧ c ≠ ':' := by
  simp only [Char.isDigit, Bool.and_eq_true, decide_eq_true_eq, ge_iff_le,
    UInt32.le_iff_toNat_le] at h
  simp only [isPlain, Bool.and_eq_true, decide_eq_true_eq]
  constructor
  · have value : c.toNat = c.val.toNat := rfl
    have zero : '0'.val.toNat = 48 := rfl
    have nine : '9'.val.toNat = 57 := rfl
    omega
  · rintro rfl
    exact absurd h.2 (by decide)

theorem isWord_decimal (n : Nat) : isWord (decimal n).toList := by
  refine isWord_iff.mpr ⟨fun c hc => (isPlain_of_isDigit (isDigit_of_mem_decimal hc)).1, ?_⟩
  have nonempty : (decimal n).toList ≠ [] := by
    rw [toList_decimal]
    exact Nat.toDigits_ne_nil
  have last := List.getLast_mem nonempty
  exact ⟨_, List.getLast?_eq_some_getLast nonempty,
    (isPlain_of_isDigit (isDigit_of_mem_decimal last)).2⟩

theorem isWord_signedDecimal (n : Int) : isWord (signedDecimal n).toList := by
  unfold signedDecimal
  split
  · rw [String.toList_append]
    exact isWord_append rfl (isWord_decimal _)
  · exact isWord_decimal _

theorem isWord_label (l : Label) : isWord l.text.toList := by
  rw [Label.text, String.toList_append]
  exact isWord_append rfl (isWord_decimal _)

theorem isWord_fallback (l : Label) : isWord ("default:" ++ l.text).toList := by
  rw [String.toList_append]
  exact isWord_append rfl (isWord_label l)

theorem isWord_pair (key : Int) (l : Label) :
    isWord (signedDecimal key ++ ":" ++ l.text).toList := by
  rw [String.toList_append, String.toList_append]
  refine isWord_append ?_ (isWord_label l)
  have plain := List.all_eq_true.mpr (isWord_iff.mp (isWord_signedDecimal key)).1
  rw [List.all_append, plain]
  rfl

/-- Operands are words. -/
theorem Instruction.isWord_operands (i : Instruction Label) : ∀ w ∈ i.operands, isWord w := by
  cases i with
  | plain op => exact nofun
  | access op slot =>
    simp only [operands, List.mem_singleton, forall_eq]
    exact isWord_decimal _
  | immediate op v =>
    simp only [operands, List.mem_singleton, forall_eq]
    exact isWord_signedDecimal _
  | jump op t =>
    simp only [operands, List.mem_singleton, forall_eq]
    exact isWord_label t
  | increment slot d =>
    simp only [operands, List.forall_mem_cons, List.not_mem_nil, false_implies, implies_true,
      and_true]
    exact ⟨isWord_decimal _, isWord_signedDecimal _⟩
  | constant op bs =>
    cases bs with
    | nil => exact nofun
    | cons b bs =>
      simp only [operands, List.mem_singleton, forall_eq]
      exact Hex.isWord_encode (List.cons_ne_nil b bs)
  | tableSwitch low t ts =>
    simp only [operands, List.forall_mem_cons, List.forall_mem_append, List.forall_mem_map,
      List.mem_singleton, forall_eq]
    exact ⟨isWord_signedDecimal _, fun t _ => isWord_label t, isWord_fallback t⟩
  | lookupSwitch t ps =>
    simp only [operands, List.forall_mem_append, List.forall_mem_map, List.mem_singleton, forall_eq]
    exact ⟨fun p _ => isWord_pair _ _, isWord_fallback t⟩

namespace Listing

theorem mapM_map_eq_some {α β : Type} {f : β → Option α} {g : α → β}
    (back : ∀ x, f (g x) = some x) (xs : List α) : (xs.map g).mapM f = some xs := by
  induction xs with
  | nil => rfl
  | cons x xs ih => simp [List.mapM_cons, back, ih]

theorem label?_text (l : Label) : label? l.text.toList = some l := by
  have letter : "L".toList = ['L'] := rfl
  rw [Label.text, String.toList_append, letter, List.cons_append, List.nil_append, label?,
    word?_decimal l.number.toNat_lt]
  simp

theorem slot?_decimal (slot : UInt16) : slot? (decimal slot.toNat).toList = some slot := by
  rw [slot?, word?_decimal slot.toNat_lt]
  simp

theorem int?_signedDecimal (v : Int32) : int? (signedDecimal v.toInt).toList = some v := by
  rw [int?, signedWord?_signedDecimal v.le_toInt v.toInt_lt]
  simp

theorem pair?_text (p : Int32 × Label) :
    pair? (signedDecimal p.1.toInt ++ ":" ++ p.2.text).toList = some p := by
  have colon : ":".toList = [':'] := rfl
  have absent : ':' ∉ (signedDecimal p.1.toInt).toList := by
    intro member
    rcases mem_signedDecimal member with sign | digit
    · cases sign
    · cases digit
  rw [String.toList_append, String.toList_append, colon, List.append_assoc, List.singleton_append]
  simp [pair?, cut?_append absent, int?_signedDecimal, label?_text]

theorem bytes?_encode (bs : List UInt8) : bytes? (Hex.encode bs).toList = some bs := by
  cases bs with
  | nil => rfl
  | cons b bs =>
    obtain ⟨-, low⟩ := Hex.nibbles_lt b
    have decoded := Hex.decode_encode (b :: bs)
    rw [Hex.toList_encode_cons] at decoded ⊢
    unfold bytes?
    split
    · next digits =>
      simp only [List.cons.injEq] at digits
      exact absurd digits.2.1 (Hex.digit_ne _ low).2.1
    · rw [decoded]
      rfl

theorem fallback?_text (l : Label) :
    (after? "default:".toList ("default:" ++ l.text).toList).bind label? = some l := by
  rw [String.toList_append, after?_append, Option.bind_some, label?_text]

theorem switch?_tableSwitch (low : Int32) (t : Label) (ts : List Label) :
    switch? (.named .tableswitch) (Instruction.tableSwitch low t ts).operands =
      some (.tableSwitch low t ts) := by
  have targets : (ts.map (·.text.toList)).mapM label? = some ts := mapM_map_eq_some label?_text ts
  have init : (Instruction.tableSwitch low t ts).operands =
      ((signedDecimal low.toInt).toList :: ts.map (·.text.toList)) ++
        [("default:" ++ t.text).toList] := rfl
  rw [init]
  simp only [switch?, List.getLast?_concat, List.dropLast_concat, Option.bind_eq_bind,
    Option.bind_some, fallback?_text, tableSwitch?, int?_signedDecimal, targets]
  rfl

theorem switch?_lookupSwitch (t : Label) (ps : List (Int32 × Label)) :
    switch? (.named .lookupswitch) (Instruction.lookupSwitch t ps).operands =
      some (.lookupSwitch t ps) := by
  have pairs := mapM_map_eq_some pair?_text ps
  simp only [Instruction.operands, switch?, List.getLast?_concat, List.dropLast_concat,
    Option.bind_eq_bind, Option.bind_some, fallback?_text, pairs]
  rfl

theorem increment_operands (slot : UInt16) (d : Int16) :
    increment (Instruction.increment slot d).operands = .ok (.increment slot d) := by
  have delta := @signedWord?_signedDecimal 16 _ d.le_toInt d.toInt_lt
  refine bind_eq_ok_iff.mpr ⟨slot, orFault_eq_ok_iff.mpr (slot?_decimal slot), ?_⟩
  refine bind_eq_ok_iff.mpr ⟨d.toInt, orFault_eq_ok_iff.mpr delta, ?_⟩
  rw [Int16.ofInt_toInt]
  rfl

/-- No opcode takes a constant of no bytes. -/
theorem shape_ne_constant (op : Opcode) : op.shape ≠ .constant 0 := by
  intro none
  cases op with
  | named m => cases m <;> cases none
  | unknown b => cases none

theorem constant_operands {op : Opcode} {bs : List UInt8} (shape : op.shape = .constant bs.length) :
    constant op bs.length (Instruction.constant op bs).operands = .ok (.constant op bs) := by
  cases bs with
  | nil => exact absurd shape (shape_ne_constant op)
  | cons b bs =>
    refine bind_eq_ok_iff.mpr ⟨(Hex.encode (b :: bs)).toList, rfl, ?_⟩
    exact bind_eq_ok_iff.mpr ⟨b :: bs, orFault_eq_ok_iff.mpr (bytes?_encode _), if_pos rfl⟩

/-- The operands of an instruction are read back, if its opcode takes operands of their kind. -/
theorem instruction_operands {i : Instruction Label} (shaped : i.Shaped) :
    instruction i.opcode i.operands = .ok i := by
  cases i with
  | plain op =>
    have shape : op.shape = .bare := shaped
    simp only [instruction, Instruction.opcode, Instruction.operands, shape]
    rfl
  | access op slot =>
    have shape : op.shape = .slot := shaped
    simp only [instruction, Instruction.opcode, Instruction.operands, shape, single?,
      Option.bind_some, slot?_decimal, orFault]
    rfl
  | immediate op v =>
    simp only [Instruction.Shaped] at shaped
    rcases shaped with shape | shape | shape <;>
      simp only [instruction, Instruction.opcode, Instruction.operands, shape, single?,
        Option.bind_some, int?_signedDecimal, orFault] <;> rfl
  | jump op t =>
    simp only [Instruction.Shaped] at shaped
    rcases shaped with shape | shape <;>
      simp only [instruction, Instruction.opcode, Instruction.operands, shape, single?,
        Option.bind_some, label?_text, orFault] <;> rfl
  | increment slot d => exact increment_operands slot d
  | constant op bs =>
    have shape : op.shape = .constant bs.length := shaped
    simp only [instruction, Instruction.opcode, shape]
    exact constant_operands shape
  | tableSwitch low t ts =>
    change orFault .switchOperands (switch? (.named .tableswitch) _) = _
    rw [switch?_tableSwitch]
    rfl
  | lookupSwitch t ps =>
    change orFault .switchOperands (switch? (.named .lookupswitch) _) = _
    rw [switch?_lookupSwitch]
    rfl

end Listing

end BytecodeMutation
