import BytecodeMutation.Text.Numeral

/-!
Numerals are read back as the number that they were written for, if it fits.
-/
namespace BytecodeMutation.Numeral

theorem value_digitChar : ∀ d < 16, value (Nat.digitChar d) = d := by decide

theorem digits?_eq_some_iff {base n : Nat} {cs : List Char} :
    digits? base cs = some n ↔ cs ≠ [] ∧ (∀ c ∈ cs, value c < base) ∧
      cs.foldl (fun n c => n * base + value c) 0 = n := by
  simp only [digits?, Option.ite_none_right_eq_some, Option.some.injEq, Bool.and_eq_true,
    Bool.not_eq_true', List.isEmpty_eq_false_iff, List.all_eq_true, decide_eq_true_eq, and_assoc]

/-- The induction takes the last digit off. -/
theorem digits?_toDigits {base : Nat} (positional : 1 < base) (known : base ≤ 16) (n : Nat) :
    digits? base (Nat.toDigits base n) = some n := by
  rw [digits?_eq_some_iff]
  refine ⟨Nat.toDigits_ne_nil, ?_⟩
  induction n using Nat.base_induction base positional with
  | single d small => simp [Nat.toDigits_of_lt_base small, value_digitChar d (by omega), small]
  | digit m d small positive ih =>
    obtain ⟨digits, total⟩ := ih
    rw [← Nat.toDigits_append_toDigits positional positive small, Nat.toDigits_of_lt_base small]
    constructor
    · intro c hc
      rcases List.mem_append.mp hc with first | last
      · exact digits c first
      · rw [List.mem_singleton.mp last, value_digitChar d (by omega)]
        exact small
    · rw [List.foldl_append, total, List.foldl_cons, List.foldl_nil, value_digitChar d (by omega),
        Nat.mul_comm]

theorem toList_decimal (n : Nat) : (decimal n).toList = Nat.toDigits 10 n := String.toList_ofList

theorem isDigit_of_mem_decimal {n : Nat} {c : Char} (h : c ∈ (decimal n).toList) : c.isDigit := by
  rw [toList_decimal] at h
  exact Nat.isDigit_of_mem_toDigits (by decide) (by decide) h

/-- No numeral without a sign begins with one. -/
theorem decimal_ne_cons {n : Nat} {c : Char} {cs : List Char} (sign : c.isDigit = false) :
    (decimal n).toList ≠ c :: cs := by
  intro first
  have digit : c ∈ (decimal n).toList := by
    rw [first]
    exact List.mem_cons_self
  rw [isDigit_of_mem_decimal digit] at sign
  cases sign

theorem exists_decimal_cons (n : Nat) : ∃ c cs, (decimal n).toList = c :: cs ∧ c.isDigit := by
  obtain ⟨c, cs, digits⟩ := List.exists_cons_of_ne_nil (Nat.toDigits_ne_nil (b := 10) (n := n))
  rw [← toList_decimal] at digits
  exact ⟨c, cs, digits, isDigit_of_mem_decimal (n := n) (digits ▸ List.mem_cons_self)⟩

/-- Only zero begins with a zero. -/
theorem head?_decimal_ne {n : Nat} (positive : 0 < n) : (decimal n).toList.head? ≠ some '0' := by
  have nonzero : ∀ d < 10, 0 < d → Nat.digitChar d ≠ '0' := by decide
  rw [toList_decimal]
  induction n using Nat.base_induction 10 (by decide) with
  | single d small =>
    rw [Nat.toDigits_of_lt_base small]
    intro same
    exact nonzero d small positive (Option.some.inj same)
  | digit m d small positive' ih =>
    obtain ⟨c, cs, digits⟩ := List.exists_cons_of_ne_nil (Nat.toDigits_ne_nil (b := 10) (n := m))
    rw [← Nat.toDigits_append_toDigits (by decide) positive' small, digits]
    have first := ih positive'
    rwa [digits] at first

theorem digits?_decimal (n : Nat) : digits? 10 (decimal n).toList = some n := by
  rw [toList_decimal]
  exact digits?_toDigits (by decide) (by decide) n

theorem unsigned?_decimal (n : Nat) : unsigned? 10 (decimal n).toList = some n := by
  unfold unsigned?
  split
  · next plus => exact absurd plus (decimal_ne_cons rfl)
  · exact digits?_decimal n

theorem word?_decimal {bits n : Nat} (fits : n < capacity bits) :
    word? bits (decimal n).toList = some n := by
  simp only [word?, unsigned?_decimal, Option.filter_some, fits, decide_true, if_true]

theorem mem_signedDecimal {n : Int} {c : Char} (h : c ∈ (signedDecimal n).toList) :
    c = '-' ∨ c.isDigit := by
  unfold signedDecimal at h
  split at h
  · rw [String.toList_append] at h
    rcases List.mem_append.mp h with sign | digit
    · exact .inl (List.mem_singleton.mp sign)
    · exact .inr (isDigit_of_mem_decimal digit)
  · exact .inr (isDigit_of_mem_decimal h)

theorem exists_signedDecimal_cons (n : Int) :
    ∃ c cs, (signedDecimal n).toList = c :: cs ∧ (c = '-' ∨ c.isDigit) := by
  unfold signedDecimal
  split
  · exact ⟨'-', (decimal n.natAbs).toList, String.toList_append, .inl rfl⟩
  · obtain ⟨c, cs, digits, digit⟩ := exists_decimal_cons n.natAbs
    exact ⟨c, cs, digits, .inr digit⟩

theorem signed?_signedDecimal (n : Int) : signed? (signedDecimal n).toList = some n := by
  unfold signedDecimal
  split
  · next negative =>
    have minus : "-".toList = ['-'] := rfl
    rw [String.toList_append, minus, List.cons_append, List.nil_append, signed?, digits?_decimal]
    change some (-(n.natAbs : Int)) = some n
    rw [Int.ofNat_natAbs_of_nonpos (by omega), Int.neg_neg]
  · next positive =>
    unfold signed?
    split
    · next minus => exact absurd minus (decimal_ne_cons rfl)
    · rw [unsigned?_decimal, Option.map_some, Int.ofNat_eq_natCast, Int.natAbs_of_nonneg (by omega)]

theorem signedWord?_signedDecimal {bits : Nat} {n : Int} (lower : -(capacity (bits - 1) : Int) ≤ n)
    (upper : n < capacity (bits - 1)) : signedWord? bits (signedDecimal n).toList = some n := by
  simp only [signedWord?, signed?_signedDecimal, Option.filter_some, lower, upper, decide_true,
    Bool.and_self, if_true]

end BytecodeMutation.Numeral
