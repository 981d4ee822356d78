import BytecodeMutation.Json.Program
import BytecodeMutation.Proofs.Hex
import BytecodeMutation.Proofs.Json.Printed
import BytecodeMutation.Proofs.Text.Trimmed

/-!
Which inputs spell bytes. What counts of an input is the text between its outer blanks, less one
`0x` or `0X`. `read_input` says that it is read just if it is a row of pairs of digits, and
otherwise which of the two faults is reported; the length comes first, and it is that of the UTF-8
form. The bytes of a JSON value are read by the same rule.
-/
namespace BytecodeMutation.Hex

/-- A text, and the same without one `0x` or `0X` in front if there is one. -/
inductive Unprefixed : List Char → List Char → Prop
  | small (cs : List Char) : Unprefixed ('0' :: 'x' :: cs) cs
  | capital (cs : List Char) : Unprefixed ('0' :: 'X' :: cs) cs
  | bare {cs : List Char} (other : ∀ x rest, cs = '0' :: x :: rest → x ≠ 'x' ∧ x ≠ 'X') :
      Unprefixed cs cs

/-- An input, and what counts of it. -/
def Carries (input digits : List Char) : Prop :=
  ∃ inner, Text.Trimmed input inner ∧ Unprefixed inner digits

/-- A digit, in either case, and its value. -/
def IsDigit (c : Char) (n : Nat) : Prop := n < 16 ∧ c.toLower = digit n

/-- Digits, and the bytes that they spell: two digits a byte, the high one first. -/
inductive Spells : List Char → List UInt8 → Prop
  | nil : Spells [] []
  | cons {high low : Char} {h l : Nat} {cs : List Char} {bs : List UInt8} (first : IsDigit high h)
      (second : IsDigit low l) (others : Spells cs bs) :
      Spells (high :: low :: cs) (UInt8.ofNat (16 * h + l) :: bs)

/-- The lower case of a byte that is an ASCII letter, and any other byte as it is. -/
def lowered (b : UInt8) : UInt8 := if 65 ≤ b ∧ b ≤ 90 then b + 32 else b

/-- Whether a byte is a digit, in either case. -/
def IsDigitByte (b : UInt8) : Prop := ∃ n < 16, lowered b = digitByte n

instance (b : UInt8) : Decidable (IsDigitByte b) :=
  inferInstanceAs (Decidable (∃ n < 16, lowered b = digitByte n))

/-- The first byte that is no digit, and its place. -/
def FirstStray (bytes : List UInt8) (d : UInt8) (i : Nat) : Prop :=
  ∃ before after, bytes = before ++ d :: after ∧ before.length = i ∧
    (∀ b ∈ before, IsDigitByte b) ∧ ¬ IsDigitByte d

theorem toLower_digit : ∀ n < 16, (digit n).toLower = digit n := by decide

/-- No digit is the second character of `0x` or `0X`. -/
theorem digit_ne_mark : ∀ n < 16, digit n ≠ 'x' ∧ digit n ≠ 'X' := by decide

theorem unprefixed_iff {cs ds : List Char} : Unprefixed cs ds ↔
    ds = ((Text.after? ['0', 'x'] cs).or (Text.after? ['0', 'X'] cs)).getD cs := by
  constructor
  · intro h
    cases h with
    | small | capital => rfl
    | bare other =>
      have small : Text.after? ['0', 'x'] cs = none := by
        apply Option.eq_none_iff_forall_ne_some.mpr
        intro rest found
        exact (other 'x' rest (Text.after?_eq_some_iff.mp found)).1 rfl
      have capital : Text.after? ['0', 'X'] cs = none := by
        apply Option.eq_none_iff_forall_ne_some.mpr
        intro rest found
        exact (other 'X' rest (Text.after?_eq_some_iff.mp found)).2 rfl
      rw [small, capital]
      rfl
  · rintro rfl
    cases small : Text.after? ['0', 'x'] cs with
    | some rest =>
      obtain rfl := Text.after?_eq_some_iff.mp small
      exact .small rest
    | none =>
      cases capital : Text.after? ['0', 'X'] cs with
      | some rest =>
        obtain rfl := Text.after?_eq_some_iff.mp capital
        exact .capital rest
      | none =>
        refine .bare fun x rest same => ⟨?_, ?_⟩
        · rintro rfl
          rw [Text.after?_eq_some_iff.mpr same] at small
          cases small
        · rintro rfl
          rw [Text.after?_eq_some_iff.mpr same] at capital
          cases capital

theorem carries_iff {input ds : List Char} : Carries input ds ↔ ds = digitsOf input := by
  simp only [Carries, Text.trimmed_iff, exists_eq_left, unprefixed_iff, digitsOf]

/-- Digits spell bytes just if they are, in lower case, what the bytes are written as. -/
theorem spells_iff {cs : List Char} {bs : List UInt8} :
    Spells cs bs ↔ cs.map Char.toLower = (encode bs).toList := by
  constructor
  · intro h
    induction h with
    | nil => rfl
    | @cons high low h l cs bs first second _ ih =>
      have value : (UInt8.ofNat (16 * h + l)).toNat = 16 * h + l := by
        have := first.1
        have := second.1
        rw [UInt8.toNat_ofNat']
        omega
      have upper : (16 * h + l) / 16 = h := by have := second.1; omega
      have lower : (16 * h + l) % 16 = l := by have := second.1; omega
      rw [toList_encode_cons, value, upper, lower, ← ih, List.map_cons, List.map_cons, first.2,
        second.2]
  · intro h
    induction bs generalizing cs with
    | nil =>
      obtain rfl := List.map_eq_nil_iff.mp h
      exact .nil
    | cons b bs ih =>
      obtain ⟨high, low⟩ := nibbles_lt b
      rw [toList_encode_cons] at h
      obtain ⟨c, cs, rfl, first, h⟩ := List.map_eq_cons_iff.mp h
      obtain ⟨d, cs, rfl, second, h⟩ := List.map_eq_cons_iff.mp h
      have spelled := Spells.cons ⟨high, first⟩ ⟨low, second⟩ (ih h)
      rwa [Nat.div_add_mod, UInt8.ofNat_toNat] at spelled

section
variable {b : UInt8} {bytes bs : List UInt8} {i : Nat}

theorem lowered_of_le (h : 128 ≤ b.toNat) : lowered b = b := by
  apply if_neg
  rw [UInt8.le_iff_toNat_le, UInt8.le_iff_toNat_le]
  exact fun small => absurd (Nat.le_trans h small.2) (by decide)

/-- Beyond ASCII every byte has its high bit set. -/
theorem le_of_mem_utf8EncodeChar {c : Char} (beyond : 127 < c.toNat)
    (h : b ∈ String.utf8EncodeChar c) : 128 ≤ b.toNat := by
  have beyond' : ¬ c.val.toNat ≤ 127 := Nat.not_le.mpr beyond
  rw [String.utf8EncodeChar.eq_1, if_neg beyond'] at h
  split at h
  · simp only [List.mem_cons, List.not_mem_nil, or_false] at h
    rcases h with rfl | rfl <;> rw [UInt8.toNat_ofNat'] <;> omega
  · split at h
    · simp only [List.mem_cons, List.not_mem_nil, or_false] at h
      rcases h with rfl | rfl | rfl <;> rw [UInt8.toNat_ofNat'] <;> omega
    · simp only [List.mem_cons, List.not_mem_nil, or_false] at h
      rcases h with rfl | rfl | rfl | rfl <;> rw [UInt8.toNat_ofNat'] <;> omega

theorem utf8EncodeChar_toLower_ascii : ∀ n < 128,
    String.utf8EncodeChar (Char.ofNat n).toLower =
      (String.utf8EncodeChar (Char.ofNat n)).map lowered := by decide +kernel

/-- Only letters of ASCII have a lower case here, so it may be taken byte by byte. -/
theorem utf8EncodeChar_toLower (c : Char) :
    String.utf8EncodeChar c.toLower = (String.utf8EncodeChar c).map lowered := by
  by_cases ascii : c.toNat < 128
  · have same := utf8EncodeChar_toLower_ascii c.toNat ascii
    rwa [Char.ofNat_toNat] at same
  · have kept : c.toLower = c := by
      apply dif_neg
      rintro ⟨-, small⟩
      have : c.toNat ≤ 90 := small
      omega
    have bytes : (String.utf8EncodeChar c).map lowered = (String.utf8EncodeChar c).map id :=
      List.map_congr_left fun b hb => lowered_of_le (le_of_mem_utf8EncodeChar (by omega) hb)
    rw [kept, bytes, List.map_id]

theorem utf8_map_toLower (cs : List Char) : utf8 (cs.map Char.toLower) = (utf8 cs).map lowered := by
  rw [utf8, List.flatMap_map, utf8, List.map_flatMap]
  exact congrArg cs.flatMap (funext utf8EncodeChar_toLower)

theorem length_utf8 (cs : List Char) : (utf8 cs).length = (String.ofList cs).utf8ByteSize := by
  rw [String.utf8ByteSize, String.toByteArray_ofList, List.utf8Encode, List.size_toByteArray]
  rfl

theorem isDigitByte_iff_lt : ∀ n < 256,
    IsDigitByte (UInt8.ofNat n) ↔ (value? (lowered (UInt8.ofNat n))).isSome := by
  decide +kernel

theorem isDigitByte_iff : IsDigitByte b ↔ (value? (lowered b)).isSome := by
  have known := isDigitByte_iff_lt b.toNat b.toNat_lt
  rwa [UInt8.ofNat_toNat] at known

/-- Digits in lower case are those of the bytes that their pairs spell. -/
theorem digitBytes_pairs (even : bytes.length % 2 = 0)
    (digits : ∀ b ∈ bytes, ∃ n < 16, b = digitByte n) : digitBytes (pairs bytes) = bytes := by
  fun_induction pairs bytes with
  | case1 high low rest ih =>
    obtain ⟨first, second, others⟩ := by
      simpa only [List.forall_mem_cons] using digits
    obtain ⟨h, high, rfl⟩ := first
    obtain ⟨l, low, rfl⟩ := second
    have value : (UInt8.ofNat (16 * h + l)).toNat = 16 * h + l := by
      rw [UInt8.toNat_ofNat']
      omega
    simp only [List.length_cons] at even
    rw [value?_digitByte h high, value?_digitByte l low, Option.getD_some, Option.getD_some,
      digitBytes_cons, value, ih (by omega) others]
    congr <;> omega
  | case2 bytes short =>
    match bytes, short with
    | [], _ => rfl
    | [b], _ => cases even
    | b :: c :: rest, short => exact absurd rfl (short b c rest)

theorem find?_zipIdx_eq_some_iff {α : Type} {p : α → Bool} {xs : List α} {a : α} {n : Nat} :
    (xs.zipIdx n).find? (fun q => p q.1) = some (a, i) ↔ ∃ before after,
      xs = before ++ a :: after ∧ n + before.length = i ∧ p a ∧ ∀ x ∈ before, p x = false := by
  induction xs generalizing n with
  | nil => simp
  | cons x xs ih =>
    rw [List.zipIdx_cons, List.find?_cons]
    cases here : p x with
    | true =>
      constructor
      · intro found
        cases found
        exact ⟨[], xs, rfl, rfl, here, nofun⟩
      · rintro ⟨before, after, parts, place, -, earlier⟩
        cases before with
        | nil =>
          obtain ⟨rfl, -⟩ := List.cons.inj parts
          exact congrArg some (congrArg (Prod.mk x) place)
        | cons y before =>
          obtain ⟨rfl, -⟩ := List.cons.inj parts
          rw [earlier x List.mem_cons_self] at here
          cases here
    | false =>
      refine ih.trans ⟨?_, ?_⟩
      · rintro ⟨before, after, rfl, place, stray, earlier⟩
        refine ⟨x :: before, after, rfl, ?_, stray, List.forall_mem_cons.mpr ⟨here, earlier⟩⟩
        rw [List.length_cons]
        omega
      · rintro ⟨before, after, parts, place, stray, earlier⟩
        cases before with
        | nil =>
          obtain ⟨rfl, -⟩ := List.cons.inj parts
          rw [stray] at here
          cases here
        | cons y before =>
          obtain ⟨rfl, rfl⟩ := List.cons.inj parts
          rw [List.length_cons] at place
          exact ⟨before, after, rfl, by omega, stray, (List.forall_mem_cons.mp earlier).2⟩

theorem decode_eq_oddLength_iff : decode bytes = .error .oddLength ↔ bytes.length % 2 = 1 := by
  unfold decode
  split
  · next odd => simp [odd]
  · next even => split <;> simp [even]

/-- Bytes in lower case are read just if they are the digits of what is read. -/
theorem decode_lowered_eq_ok_iff :
    decode (bytes.map lowered) = .ok bs ↔ bytes.map lowered = digitBytes bs := by
  constructor
  · intro h
    unfold decode at h
    split at h
    · cases h
    · next even =>
      split at h
      · cases h
      · next clean =>
        obtain rfl := Except.ok.inj h
        refine (digitBytes_pairs (by omega) ?_).symm
        intro b hb
        obtain ⟨d, -, rfl⟩ := List.mem_map.mp hb
        obtain ⟨i, place⟩ := List.mem_iff_getElem?.mp hb
        have numbered : (lowered d, i) ∈ (bytes.map lowered).zipIdx :=
          List.mem_zipIdx_iff_getElem?.mpr place
        have known := List.find?_eq_none.mp clean _ numbered
        exact isDigitByte_iff.mpr (Option.isSome_iff_ne_none.mpr (by simpa using known))
  · intro h
    rw [h, ← utf8_encode]
    exact decode_encode bs

/-- The byte that is reported is the first that is no digit, in lower case. -/
theorem decode_lowered_eq_badDigit_iff :
    decode (bytes.map lowered) = .error (.badDigit b i) ↔
      bytes.length % 2 = 0 ∧ ∃ d, FirstStray bytes d i ∧ b = lowered d := by
  have stray (d : UInt8) : (value? (lowered d)).isNone = true ↔ ¬ IsDigitByte d := by
    rw [isDigitByte_iff, Option.isNone_iff_eq_none, Option.not_isSome_iff_eq_none]
  have digit (d : UInt8) : (value? (lowered d)).isNone = false ↔ IsDigitByte d := by
    rw [isDigitByte_iff, Option.isNone_eq_false_iff]
  have first : ((bytes.map lowered).zipIdx.find? fun q => (value? q.1).isNone) = some (b, i) ↔
      ∃ d, FirstStray bytes d i ∧ b = lowered d := by
    refine (find?_zipIdx_eq_some_iff (p := fun b => (value? b).isNone)).trans ⟨?_, ?_⟩
    · rintro ⟨before, after, parts, place, bad, earlier⟩
      obtain ⟨before, rest, rfl, rfl, others⟩ := List.map_eq_append_iff.mp parts
      obtain ⟨d, after, rfl, rfl, rfl⟩ := List.map_eq_cons_iff.mp others
      rw [List.forall_mem_map] at earlier
      rw [List.length_map, Nat.zero_add] at place
      exact ⟨d, ⟨before, after, rfl, place, fun x hx => (digit x).mp (earlier x hx),
        (stray d).mp bad⟩, rfl⟩
    · rintro ⟨d, ⟨before, after, rfl, place, earlier, bad⟩, rfl⟩
      refine ⟨before.map lowered, after.map lowered, by simp, by simpa using place,
        (stray d).mpr bad, ?_⟩
      rw [List.forall_mem_map]
      exact fun x hx => (digit x).mpr (earlier x hx)
  rw [← first, decode, List.length_map]
  split
  · next odd => simp [odd]
  · next even =>
    have even : bytes.length % 2 = 0 := by omega
    split
    · next b' i' found => simp [found, even]
    · next none => simp [none]

end

/-- What is relied on of a writer and a reader of hexadecimal. What was written is read back. An odd
number of digits is reported before anything else. Texts in lower case are read just if they are
written for some bytes, and otherwise their first byte that is no digit is reported. -/
structure Codec (write : List UInt8 → String) (read : List UInt8 → Except Fault (List UInt8)) :
    Prop where
  back : ∀ bs, read (utf8 (write bs).toList) = .ok bs
  odd : ∀ bytes, read bytes = .error .oddLength ↔ bytes.length % 2 = 1
  ok : ∀ (bytes bs : List UInt8),
    read (bytes.map lowered) = .ok bs ↔ bytes.map lowered = utf8 (write bs).toList
  stray : ∀ (bytes : List UInt8) b i, read (bytes.map lowered) = .error (.badDigit b i) ↔
    bytes.length % 2 = 0 ∧ ∃ d, FirstStray bytes d i ∧ b = lowered d

theorem codec : Codec encode decode where
  back := decode_encode
  odd _ := decode_eq_oddLength_iff
  ok _ bs := by rw [decode_lowered_eq_ok_iff, utf8_encode]
  stray _ _ _ := decode_lowered_eq_badDigit_iff

section
variable {text : String} {bs : List UInt8} {b : UInt8} {i : Nat}

/-- An input is read from the bytes of what counts of it, in lower case. Their number is looked at
twice, with the same outcome. -/
theorem read_eq (text : String) :
    read text = decode ((utf8 (digitsOf text.toList)).map lowered) := by
  rw [read, normalize, ← utf8_map_toLower]
  split
  · next e odd =>
    split at odd
    · next length =>
      cases odd
      refine ((codec.odd _).mpr ?_).symm
      rwa [utf8_map_toLower, List.length_map]
    · cases odd
  · next digits even =>
    split at even
    · cases even
    · cases even
      rw [String.toList_ofList]

theorem read_eq_ok_iff : read text = .ok bs ↔ Spells (digitsOf text.toList) bs := by
  rw [read_eq, codec.ok, ← utf8_map_toLower, spells_iff]
  exact ⟨fun same => utf8_injective same, congrArg utf8⟩

theorem read_eq_oddLength_iff : read text = .error .oddLength ↔
    (String.ofList (digitsOf text.toList)).utf8ByteSize % 2 = 1 := by
  rw [read_eq, codec.odd, List.length_map, length_utf8]

theorem read_eq_badDigit_iff : read text = .error (.badDigit b i) ↔
    (String.ofList (digitsOf text.toList)).utf8ByteSize % 2 = 0 ∧
      ∃ d, FirstStray (utf8 (digitsOf text.toList)) d i ∧ b = lowered d := by
  rw [read_eq, codec.stray, length_utf8]

theorem bytesOfJson?_str : bytesOfJson? (.str text) = some bs ↔ read text = .ok bs := by
  rw [bytesOfJson?]
  cases read text <;> simp [Except.toOption]

theorem mem_encode {c : Char} (h : c ∈ (encode bs).toList) : ∃ n < 16, c = digit n := by
  rw [encode, String.toList_ofList] at h
  obtain ⟨b, -, written⟩ := List.mem_flatMap.mp h
  obtain ⟨high, low⟩ := nibbles_lt b
  simp only [List.mem_cons, List.not_mem_nil, or_false] at written
  rcases written with rfl | rfl
  · exact ⟨_, high, rfl⟩
  · exact ⟨_, low, rfl⟩

/-- All that bytes are written as counts. -/
theorem carries_encode (bs : List UInt8) : Carries (encode bs).toList (encode bs).toList := by
  have unblank (c : Char) (h : c ∈ (encode bs).toList) : Text.isBlank c = false := by
    obtain ⟨n, small, rfl⟩ := mem_encode h
    exact Text.isBlank_of_isPlain (isPlain_digit n small)
  refine ⟨_, ⟨⟨[], [], ?_, nofun, nofun⟩, ?_, ?_⟩, .bare ?_⟩
  · rw [List.nil_append, List.append_nil]
  · exact fun c hc => unblank c (List.mem_of_head? hc)
  · exact fun c hc => unblank c (List.mem_of_getLast? hc)
  · intro x rest same
    have member : x ∈ (encode bs).toList := by
      rw [same]
      exact List.mem_cons_of_mem _ List.mem_cons_self
    obtain ⟨n, small, rfl⟩ := mem_encode member
    exact digit_ne_mark n small

/-- What bytes are written as spells them. -/
theorem read_encode (bs : List UInt8) : read (encode bs) = .ok bs := by
  rw [read_eq_ok_iff, ← carries_iff.mp (carries_encode bs), spells_iff]
  have lower (c : Char) (h : c ∈ (encode bs).toList) : c.toLower = id c := by
    obtain ⟨n, small, rfl⟩ := mem_encode h
    exact toLower_digit n small
  rw [List.map_congr_left lower, List.map_id]

end

/-- What counts of an input is fixed, and the input is read just if that spells bytes, as these
bytes. If its UTF-8 form has an odd length, this is reported, whatever the characters. Otherwise it
is the first byte that is no digit, in lower case and with its place among the bytes. A JSON string
is read as bytes just if it is such an input, so what bytes are written as is read back. -/
theorem read_input :
    (∀ text : String, ∃ digits : List Char,
      (∀ ds, Carries text.toList ds ↔ ds = digits) ∧
      (∀ bs, read text = .ok bs ↔ Spells digits bs) ∧
      (read text = .error .oddLength ↔ (String.ofList digits).utf8ByteSize % 2 = 1) ∧
      (∀ b i, read text = .error (.badDigit b i) ↔
        (String.ofList digits).utf8ByteSize % 2 = 0 ∧
          ∃ d, FirstStray (utf8 digits) d i ∧ b = lowered d) ∧
      ∀ bs, bytesOfJson? (.str text) = some bs ↔ Spells digits bs) ∧
    ∀ bs, bytesOfJson? (bytesToJson bs) = some bs ∧
      (Json.parse? (bytesToJson bs).compact).bind bytesOfJson? = some bs := by
  constructor
  · intro text
    refine ⟨digitsOf text.toList, fun ds => carries_iff, fun bs => read_eq_ok_iff,
      read_eq_oddLength_iff, fun b i => read_eq_badDigit_iff, fun bs => ?_⟩
    rw [bytesOfJson?_str, read_eq_ok_iff]
  · intro bs
    have back : bytesOfJson? (.str (encode bs)) = some bs := bytesOfJson?_str.mpr (read_encode bs)
    rw [bytesToJson, Json.parse?_compact (.str _), Option.bind_some]
    exact ⟨back, back⟩

/-- The two bytes of the accented letter count, and the first of them is reported. -/
example : read "0xaé1" = .error (.badDigit 0xc3 1) := by cbv

end BytecodeMutation.Hex
