import BytecodeMutation.Hex
import BytecodeMutation.Proofs.Text.Blank

/-!
Bytes that are written in hexadecimal are read back.
-/
namespace BytecodeMutation.Hex

/-- A text in UTF-8 determines its characters. -/
theorem utf8_injective : Function.Injective utf8 := by
  intro cs ds same
  have encoded : cs.utf8Encode = ds.utf8Encode := congrArg List.toByteArray same
  have decoded := congrArg ByteArray.utf8Decode? encoded
  rw [List.utf8Decode?_utf8Encode, List.utf8Decode?_utf8Encode] at decoded
  simpa using decoded

/-- A digit in UTF-8. -/
def digitByte (n : Nat) : UInt8 := UInt8.ofNat (digit n).toNat

theorem utf8EncodeChar_digit : ∀ n < 16, String.utf8EncodeChar (digit n) = [digitByte n] := by
  decide

theorem value?_digitByte : ∀ n < 16, value? (digitByte n) = some n := by decide

theorem isPlain_digit : ∀ n < 16, Text.isPlain (digit n) := by decide

theorem digit_ne : ∀ n < 16, digit n ≠ ':' ∧ digit n ≠ 'x' ∧ digit n ≠ '+' := by decide

theorem nibbles_lt (b : UInt8) : b.toNat / 16 < 16 ∧ b.toNat % 16 < 16 := by
  have := b.toNat_lt
  omega

theorem toList_encode_cons (b : UInt8) (bs : List UInt8) :
    (encode (b :: bs)).toList =
      digit (b.toNat / 16) :: digit (b.toNat % 16) :: (encode bs).toList := by
  simp only [encode, List.flatMap_cons, String.toList_ofList, List.cons_append, List.nil_append]

/-- The digits of bytes in UTF-8. -/
def digitBytes (bs : List UInt8) : List UInt8 :=
  bs.flatMap fun b => [digitByte (b.toNat / 16), digitByte (b.toNat % 16)]

theorem digitBytes_cons (b : UInt8) (bs : List UInt8) :
    digitBytes (b :: bs) =
      digitByte (b.toNat / 16) :: digitByte (b.toNat % 16) :: digitBytes bs := rfl

theorem utf8_encode (bs : List UInt8) : utf8 (encode bs).toList = digitBytes bs := by
  induction bs with
  | nil => rfl
  | cons b bs ih =>
    obtain ⟨high, low⟩ := nibbles_lt b
    rw [toList_encode_cons, utf8, List.flatMap_cons, List.flatMap_cons, utf8EncodeChar_digit _ high,
      utf8EncodeChar_digit _ low, digitBytes_cons, ← ih]
    rfl

theorem length_digitBytes (bs : List UInt8) : (digitBytes bs).length = 2 * bs.length := by
  induction bs with
  | nil => rfl
  | cons b bs ih =>
    simp only [digitBytes_cons, List.length_cons, ih]
    omega

theorem value?_of_mem_digitBytes {bs : List UInt8} {d : UInt8} (h : d ∈ digitBytes bs) :
    (value? d).isNone = false := by
  obtain ⟨b, -, hd⟩ := List.mem_flatMap.mp h
  obtain ⟨high, low⟩ := nibbles_lt b
  simp only [List.mem_cons, List.not_mem_nil, or_false] at hd
  rcases hd with rfl | rfl
  · rw [value?_digitByte _ high, Option.isNone_some]
  · rw [value?_digitByte _ low, Option.isNone_some]

theorem pairs_digitBytes (bs : List UInt8) : pairs (digitBytes bs) = bs := by
  induction bs with
  | nil => rfl
  | cons b bs ih =>
    obtain ⟨high, low⟩ := nibbles_lt b
    rw [digitBytes_cons, pairs, ih, value?_digitByte _ high, value?_digitByte _ low,
      Option.getD_some, Option.getD_some, Nat.div_add_mod, UInt8.ofNat_toNat]

theorem decode_encode (bs : List UInt8) : decode (utf8 (encode bs).toList) = .ok bs := by
  have digits : (digitBytes bs).zipIdx.find? (fun p => (value? p.1).isNone) = none := by
    rw [List.find?_eq_none]
    intro p hp
    rw [value?_of_mem_digitBytes (List.fst_mem_of_mem_zipIdx hp)]
    exact Bool.false_ne_true
  rw [utf8_encode]
  simp only [decode, length_digitBytes, Nat.mul_mod_right, digits, pairs_digitBytes]
  rfl

/-- Digits are a word. -/
theorem isWord_encode {bs : List UInt8} (nonempty : bs ≠ []) :
    Text.isWord (encode bs).toList := by
  induction bs with
  | nil => exact absurd rfl nonempty
  | cons b bs ih =>
    obtain ⟨high, low⟩ := nibbles_lt b
    have plain : [digit (b.toNat / 16), digit (b.toNat % 16)].all Text.isPlain := by
      simp [isPlain_digit _ high, isPlain_digit _ low]
    rw [toList_encode_cons]
    cases bs with
    | nil =>
      exact Text.isWord_iff.mpr
        ⟨List.all_eq_true.mp plain, digit (b.toNat % 16), rfl, (digit_ne _ low).1⟩
    | cons b' bs => exact Text.isWord_append plain (ih (List.cons_ne_nil b' bs))

end BytecodeMutation.Hex
