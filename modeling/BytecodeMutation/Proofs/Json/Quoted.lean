import BytecodeMutation.Json.Printing
import BytecodeMutation.Json.Reading

/-!
What stands between the quotes of a string is read as its characters, whatever these are.
-/
namespace BytecodeMutation.Json

theorem unit?_control : ∀ n < 32,
    unit? ['0', '0', Nat.digitChar (n / 16), Nat.digitChar (n % 16)] = some n := by decide

/-- A character below the blank is no half of a pair. -/
theorem pushUnit_control {s : Chars} {c : Char} (control : c.toNat < 32) :
    s.pushUnit c.toNat = s.push c := by
  have high : isHighHalf c.toNat = false := by
    simp only [isHighHalf, Bool.and_eq_false_iff, decide_eq_false_iff_not]
    omega
  have low : isLowHalf c.toNat = false := by
    simp only [isLowHalf, Bool.and_eq_false_iff, decide_eq_false_iff_not]
    omega
  rw [Chars.pushUnit, high, low, Char.ofNat_toNat]
  rfl

/-- A character is read back from its escape, or from itself if it has none. -/
theorem stringFrom_escaped (s : Chars) (c : Char) (rest : List Char) :
    stringFrom s (escaped c ++ rest) = stringFrom (s.push c) rest := by
  unfold escaped
  iterate 7
    split
    · next named =>
      subst named
      rfl
  split
  · next control =>
    have small : c.toNat < 32 := control
    simp only [List.cons_append, List.nil_append]
    rw [stringFrom, unit?_control _ small]
    exact congrArg (stringFrom · rest) (pushUnit_control small)
  · next noQuote noBackslash _ _ _ _ _ noControl =>
    rw [List.singleton_append, stringFrom]
    · have plain : (decide (c < ' ') || c == '\\') = false :=
        Bool.or_eq_false_iff.mpr ⟨decide_eq_false noControl, beq_eq_false_iff_ne.mpr noBackslash⟩
      rw [if_neg (Bool.eq_false_iff.mp plain)]
    · exact noQuote
    · exact fun _ _ _ _ _ backslash => absurd backslash noBackslash
    · exact fun _ _ backslash => absurd backslash noBackslash

/-- What a string has read after some more characters without halves. -/
theorem stringFrom_flatMap_escaped (before cs rest : List Char) :
    stringFrom ⟨before, none, true⟩ (cs.flatMap escaped ++ '"' :: rest) =
      some (some (String.ofList (before.reverse ++ cs)), rest) := by
  induction cs generalizing before with
  | nil =>
    rw [List.flatMap_nil, List.nil_append, stringFrom, List.append_nil]
    rfl
  | cons c cs ih =>
    rw [List.flatMap_cons, List.append_assoc, stringFrom_escaped]
    refine (ih (c :: before)).trans ?_
    rw [List.reverse_cons, List.append_assoc, List.singleton_append]

end BytecodeMutation.Json
