import BytecodeMutation.Proofs.Json.Quoted
import BytecodeMutation.Proofs.Text.Numeral

/-!
The texts of a value. `Spells` lets blanks stand between any two tokens, and every text that spells
a value is read as that value, whatever follows it. Texts become shorter from a value to its parts,
which carries the induction and keeps the nested calls within their bound.
-/
namespace BytecodeMutation.Json
open Numeral (decimal signedDecimal)

/-- Characters between two tokens. -/
def Blank (cs : List Char) : Prop := ∀ c ∈ cs, isSpace c

/-- What `P` relates to a value, between blanks. -/
inductive Padded {α : Type} (P : List Char → α → Prop) : List Char → α → Prop
  | mk {before cs after : List Char} {x : α} (left : Blank before) (inner : P cs x)
      (right : Blank after) : Padded P (before ++ cs ++ after) x

/-- Texts for one value after the other, with a comma between any two. -/
inductive Separated {α : Type} (P : List Char → α → Prop) : List Char → List α → Prop
  | one {cs : List Char} {x : α} (last : P cs x) : Separated P cs [x]
  | cons {cs ds : List Char} {x : α} {xs : List α} (first : P cs x) (others : Separated P ds xs) :
      Separated P (cs ++ ',' :: ds) (x :: xs)

/-- A name, a colon and a value. -/
inductive Field (P : List Char → Json → Prop) : List Char → String × Json → Prop
  | mk {before after cs : List Char} {j : Json} (name : String) (left : Blank before)
      (right : Blank after) (value : P cs j) :
      Field P ((quoted name).toList ++ (before ++ ':' :: (after ++ cs))) (name, j)

/-- The texts of a value that has no numbers but integers. -/
inductive Spells : List Char → Json → Prop
  | null : Spells ['n', 'u', 'l', 'l'] .null
  | boolTrue : Spells ['t', 'r', 'u', 'e'] (.bool true)
  | boolFalse : Spells ['f', 'a', 'l', 's', 'e'] (.bool false)
  | int (n : Int) : Spells (signedDecimal n).toList (.int n)
  | str (s : String) : Spells (quoted s).toList (.str s)
  | emptyArr {cs : List Char} (blank : Blank cs) : Spells ('[' :: (cs ++ [']'])) (.arr [])
  | arr {cs : List Char} {items : List Json} (inner : Separated (Padded Spells) cs items) :
      Spells ('[' :: (cs ++ [']'])) (.arr items)
  | emptyObj {cs : List Char} (blank : Blank cs) : Spells ('\x7b' :: (cs ++ ['\x7d'])) (.obj [])
  | obj {cs : List Char} {fields : List (String × Json)}
      (inner : Separated (Padded (Field Spells)) cs fields) :
      Spells ('\x7b' :: (cs ++ ['\x7d'])) (.obj fields)

section
variable {before cs rest : List Char} {c : Char} {bound : Nat}

theorem skipSpace_append (blank : Blank before) : skipSpace (before ++ cs) = skipSpace cs :=
  List.dropWhile_append_of_pos blank

theorem skipSpace_cons (token : isSpace c = false) : skipSpace (c :: cs) = c :: cs := by
  rw [skipSpace, List.dropWhile_cons_of_neg (by simp [token])]

/-- Blanks are skipped up to the next token. -/
theorem skipSpace_token (blank : Blank before) (token : isSpace c = false) :
    skipSpace (before ++ c :: cs) = c :: cs := by
  rw [skipSpace_append blank, skipSpace_cons token]

theorem skipSpace_of_blank (blank : Blank before) : skipSpace before = [] := by
  rw [← List.append_nil before, skipSpace_append blank]
  rfl

theorem skipSpace_skipSpace (cs : List Char) : skipSpace (skipSpace cs) = skipSpace cs := by
  induction cs with
  | nil => rfl
  | cons c cs ih =>
    cases blank : isSpace c with
    | true =>
      have gone : skipSpace (c :: cs) = skipSpace cs := List.dropWhile_cons_of_pos blank
      rw [gone, ih]
    | false => rw [skipSpace_cons blank, skipSpace_cons blank]

theorem valueWithin_skipSpace (bound : Nat) (cs : List Char) :
    valueWithin bound (skipSpace cs) = valueWithin bound cs := by
  cases bound with
  | zero => rfl
  | succ bound => simp only [valueWithin, skipSpace_skipSpace]

theorem valueWithin_append (blank : Blank before) :
    valueWithin bound (before ++ cs) = valueWithin bound cs := by
  rw [← valueWithin_skipSpace, skipSpace_append blank, valueWithin_skipSpace]

theorem itemsWithin_skipSpace (bound : Nat) (items : List Json) (cs : List Char) :
    itemsWithin bound items (skipSpace cs) = itemsWithin bound items cs := by
  cases bound with
  | zero => rfl
  | succ bound => simp only [itemsWithin, valueWithin_skipSpace]

theorem name?_skipSpace (cs : List Char) : name? (skipSpace cs) = name? cs := by
  simp only [name?, skipSpace_skipSpace]

theorem fieldsWithin_skipSpace (bound : Nat) (fields : Option (List (String × Json)))
    (cs : List Char) : fieldsWithin bound fields (skipSpace cs) = fieldsWithin bound fields cs := by
  cases bound with
  | zero => rfl
  | succ bound => simp only [fieldsWithin, name?_skipSpace]

end

/-- What may stand behind a value: a blank, the end of a list, a comma or nothing. -/
def Ends (rest : List Char) : Prop :=
  ∀ c ∈ rest.head?, isSpace c ∨ c = ',' ∨ c = ']' ∨ c = '\x7d'

theorem Ends.append {after rest : List Char} (blank : Blank after) (ends : Ends rest) :
    Ends (after ++ rest) := by
  cases after with
  | nil => exact ends
  | cons c after =>
    rintro _ ⟨⟩
    exact .inl (blank c List.mem_cons_self)

section
variable {rest : List Char} (ends : Ends rest)
include ends

theorem Ends.head?_ne {c : Char} (blank : isSpace c = false) (comma : c ≠ ',') (bracket : c ≠ ']')
    (brace : c ≠ '\x7d') : rest.head? ≠ some c := by
  intro first
  rcases ends c first with space | same | same | same
  · rw [blank] at space
    cases space
  · exact comma same
  · exact bracket same
  · exact brace same

theorem Ends.goesOn : goesOn rest = false := by
  cases rest with
  | nil => rfl
  | cons c rest =>
    have other (c' : Char) (blank : isSpace c' = false) (comma : c' ≠ ',') (bracket : c' ≠ ']')
        (brace : c' ≠ '\x7d') : c ≠ c' := by
      rintro rfl
      exact ends.head?_ne blank comma bracket brace rfl
    simp [Json.goesOn, other '.' rfl, other 'e' rfl, other 'E' rfl]

theorem Ends.not_isDigit : ∀ c ∈ rest.head?, isDigit c = false := by
  intro c first
  rcases ends c first with space | rfl | rfl | rfl
  · simp only [isSpace, Bool.or_eq_true, beq_iff_eq] at space
    rcases space with ((rfl | rfl) | rfl) | rfl <;> rfl
  · rfl
  · rfl
  · rfl

theorem digits_of_decimal (n : Nat) :
    ((decimal n).toList ++ rest).takeWhile isDigit = (decimal n).toList ∧
      ((decimal n).toList ++ rest).dropWhile isDigit = rest := by
  have digits : ∀ c ∈ (decimal n).toList, isDigit c := by
    intro c member
    have digit := Numeral.isDigit_of_mem_decimal member
    simpa [isDigit, Char.isDigit, Char.le_def] using digit
  rw [List.takeWhile_append_of_pos digits, List.dropWhile_append_of_pos digits]
  cases rest with
  | nil => exact ⟨List.append_nil _, rfl⟩
  | cons c rest =>
    have other : ¬ isDigit c := Bool.eq_false_iff.mp (ends.not_isDigit c rfl)
    rw [List.takeWhile_cons_of_neg other, List.dropWhile_cons_of_neg other, List.append_nil]
    exact ⟨rfl, rfl⟩

/-- A numeral is read as its number. -/
theorem number?_signedDecimal (n : Int) :
    number? ((signedDecimal n).toList ++ rest) = some (.int n, rest) := by
  obtain ⟨digits, whole⟩ := digits_of_decimal ends n.natAbs
  have leading : ((decimal n.natAbs).toList.length > 1 &&
      (decimal n.natAbs).toList.head? == some '0') = false := by
    rcases Nat.eq_zero_or_pos n.natAbs with zero | positive
    · rw [zero]
      rfl
    · rw [beq_eq_false_iff_ne.mpr (Numeral.head?_decimal_ne positive), Bool.and_false]
  unfold signedDecimal
  split
  · next negative =>
    have minus : "-".toList = ['-'] := rfl
    have nonzero : (n.natAbs == 0) = false := beq_eq_false_iff_ne.mpr (by omega)
    have value : -(n.natAbs : Int) = n := by omega
    rw [String.toList_append, minus, List.cons_append, List.nil_append, List.cons_append]
    simp only [number?, List.head?_cons, beq_self_eq_true, if_true, List.tail_cons, digits, whole,
      Numeral.digits?_decimal, leading, ends.goesOn, Option.bind_eq_bind, Option.bind_some,
      Bool.false_eq_true, if_false, Bool.false_or, Bool.true_and, nonzero, value]
    rfl
  · next positive =>
    have unsigned : (((decimal n.natAbs).toList ++ rest).head? == some '-') = false := by
      obtain ⟨c, cs, first, digit⟩ := Numeral.exists_decimal_cons n.natAbs
      rw [first, beq_eq_false_iff_ne]
      rintro ⟨⟩
      cases digit
    have value : (n.natAbs : Int) = n := by omega
    simp only [number?, unsigned, Bool.false_eq_true, if_false, digits, whole,
      Numeral.digits?_decimal, leading, ends.goesOn, Option.bind_eq_bind, Option.bind_some,
      Bool.false_or, Bool.false_and, value]
    rfl

end

/-- The first character of a value is no blank and does not end a list. -/
theorem Spells.exists_cons {cs : List Char} {j : Json} (h : Spells cs j) :
    ∃ c ds, cs = c :: ds ∧ isSpace c = false ∧ c ≠ ']' := by
  cases h with
  | int n =>
    obtain ⟨c, ds, first, sign⟩ := Numeral.exists_signedDecimal_cons n
    refine ⟨c, ds, first, ?_, ?_⟩
    · rw [← Bool.not_eq_true]
      intro space
      simp only [isSpace, Bool.or_eq_true, beq_iff_eq] at space
      rcases space with ((rfl | rfl) | rfl) | rfl <;> simp at sign
    · rintro rfl
      simp at sign
  | str s => exact ⟨'"', _, by simp only [quoted, String.toList_append]; rfl, rfl, by decide⟩
  | _ => exact ⟨_, _, rfl, rfl, by decide⟩

theorem toList_quoted_append (s : String) (rest : List Char) :
    (quoted s).toList ++ rest = '"' :: (s.toList.flatMap escaped ++ '"' :: rest) := by
  simp only [quoted, String.toList_append, String.toList_ofList, List.append_assoc]
  rfl

theorem string?_quoted (s : String) (rest : List Char) :
    string? (s.toList.flatMap escaped ++ '"' :: rest) = some (some s, rest) := by
  refine (stringFrom_flatMap_escaped [] s.toList rest).trans ?_
  rw [List.reverse_nil, List.nil_append, String.ofList_toList]

/-- A name is read up to the colon behind it. -/
theorem name?_quoted (name : String) {between rest : List Char} (blank : Blank between) :
    name? ((quoted name).toList ++ (between ++ ':' :: rest)) = some (some name, rest) := by
  have colon : skipSpace (between ++ ':' :: rest) = ':' :: rest := skipSpace_token blank rfl
  rw [toList_quoted_append]
  have start : skipSpace ('"' :: (name.toList.flatMap escaped ++ '"' :: (between ++ ':' :: rest))) =
      '"' :: (name.toList.flatMap escaped ++ '"' :: (between ++ ':' :: rest)) := skipSpace_cons rfl
  simp only [name?, start, string?_quoted, colon]

theorem valueWithin_quoted (s : String) (rest : List Char) (bound : Nat) :
    valueWithin (bound + 1) ((quoted s).toList ++ rest) = some (.str s, rest) := by
  rw [toList_quoted_append]
  have start : skipSpace ('"' :: (s.toList.flatMap escaped ++ '"' :: rest)) =
      '"' :: (s.toList.flatMap escaped ++ '"' :: rest) := skipSpace_cons rfl
  simp only [valueWithin, start, string?_quoted]
  rfl

theorem valueWithin_signedDecimal (n : Int) {rest : List Char} (ends : Ends rest) (bound : Nat) :
    valueWithin (bound + 1) ((signedDecimal n).toList ++ rest) = some (.int n, rest) := by
  obtain ⟨c, ds, first, sign⟩ := Numeral.exists_signedDecimal_cons n
  obtain ⟨c', ds', first', token, -⟩ := (Spells.int n).exists_cons
  cases first.symm.trans first'
  have literal : literal? ((signedDecimal n).toList ++ rest) = none := by
    rw [first]
    unfold literal?
    split <;> simp_all
  have number := number?_signedDecimal ends n
  rw [first, List.cons_append] at number literal ⊢
  rw [valueWithin, skipSpace_cons token]
  split <;> simp_all

/-- An empty list is closed behind its blanks. -/
theorem valueWithin_emptyArr {cs : List Char} (blank : Blank cs) (rest : List Char) (bound : Nat) :
    valueWithin (bound + 1) ('[' :: (cs ++ ']' :: rest)) = some (.arr [], rest) := by
  have close : skipSpace (cs ++ ']' :: rest) = ']' :: rest := skipSpace_token blank rfl
  rw [valueWithin, skipSpace_cons rfl]
  simp only [close]

theorem valueWithin_emptyObj {cs : List Char} (blank : Blank cs) (rest : List Char) (bound : Nat) :
    valueWithin (bound + 1) ('\x7b' :: (cs ++ '\x7d' :: rest)) = some (.obj [], rest) := by
  have close : skipSpace (cs ++ '\x7d' :: rest) = '\x7d' :: rest := skipSpace_token blank rfl
  rw [valueWithin, skipSpace_cons rfl]
  simp only [close]

/-- What begins with anything but the closing bracket are items. -/
theorem valueWithin_arr {cs ds : List Char} {c : Char} (starts : skipSpace cs = c :: ds)
    (more : c ≠ ']') (bound : Nat) :
    valueWithin (bound + 1) ('[' :: cs) = itemsWithin bound [] cs := by
  rw [valueWithin, skipSpace_cons rfl, ← itemsWithin_skipSpace bound [] cs, starts]
  split <;> simp_all

theorem valueWithin_obj {cs ds : List Char} {c : Char} (starts : skipSpace cs = c :: ds)
    (more : c ≠ '\x7d') (bound : Nat) :
    valueWithin (bound + 1) ('\x7b' :: cs) = fieldsWithin bound (some []) cs := by
  rw [valueWithin, skipSpace_cons rfl, ← fieldsWithin_skipSpace bound (some []) cs, starts]
  split <;> simp_all

/-- A text is read as a value, up to what ends it. -/
def Reads (cs : List Char) (j : Json) : Prop :=
  ∀ (bound : Nat) (rest : List Char), Ends rest → 2 * cs.length ≤ bound →
    valueWithin bound (cs ++ rest) = some (j, rest)

/-- A value between blanks is read up to what ends it, and so are the blanks in front. -/
theorem Padded.exists_valueWithin {P : List Char → Json → Prop} {cs : List Char} {j : Json}
    (h : Padded P cs j) (each : ∀ ds, ds.length ≤ cs.length → P ds j → Reads ds j)
    {rest : List Char} {bound : Nat} (ends : Ends rest) (enough : 2 * cs.length ≤ bound) :
    ∃ after, Blank after ∧ valueWithin bound (cs ++ rest) = some (j, after ++ rest) := by
  obtain @⟨before, ds, after, _, left, inner, right⟩ := h
  simp only [List.length_append] at each enough
  have read := each ds (by omega) inner bound _ (ends.append right) (by omega)
  refine ⟨after, right, ?_⟩
  rw [List.append_assoc, List.append_assoc, valueWithin_append left, read]

theorem ends_cons {c : Char} (closes : c = ',' ∨ c = ']' ∨ c = '\x7d') (rest : List Char) :
    Ends (c :: rest) := by
  rintro _ ⟨⟩
  exact .inr closes

section
variable {cs : List Char} {bound : Nat} {rest : List Char}

/-- The induction takes the first item off, with the comma that pays for the next call. -/
theorem itemsWithin_of_separated {items : List Json} (h : Separated (Padded Spells) cs items)
    (each : ∀ ds j, ds.length ≤ cs.length → Spells ds j → Reads ds j) (before : List Json)
    (enough : 2 * cs.length + 1 ≤ bound) : itemsWithin bound before (cs ++ ']' :: rest) =
      some (.arr (before.reverse ++ items), rest) := by
  induction h generalizing before bound with
  | @one cs j last =>
    obtain ⟨bound, rfl⟩ := Nat.exists_eq_succ_of_ne_zero (show bound ≠ 0 by omega)
    obtain ⟨after, blank, read⟩ := last.exists_valueWithin (fun ds short => each ds j short)
      (ends_cons (.inr (.inl rfl)) rest) (show 2 * cs.length ≤ bound by omega)
    have close : skipSpace (after ++ ']' :: rest) = ']' :: rest := skipSpace_token blank rfl
    simp only [itemsWithin, read, close, List.reverse_cons]
  | @cons cs ds j items first others ih =>
    obtain ⟨bound, rfl⟩ := Nat.exists_eq_succ_of_ne_zero (show bound ≠ 0 by omega)
    simp only [List.length_append, List.length_cons] at each enough
    obtain ⟨after, blank, read⟩ := first.exists_valueWithin
      (fun ds short => each ds j (by omega)) (ends_cons (.inl rfl) (ds ++ ']' :: rest))
      (show 2 * cs.length ≤ bound by omega)
    have comma : skipSpace (after ++ ',' :: (ds ++ ']' :: rest)) = ',' :: (ds ++ ']' :: rest) :=
      skipSpace_token blank rfl
    have later := @ih bound (fun ds j short => each ds j (by omega)) (j :: before)
      (by omega)
    rw [List.append_assoc, List.cons_append]
    simp only [itemsWithin, read, comma, later, List.reverse_cons, List.append_assoc,
      List.singleton_append]

theorem addField_some (name : String) (value : Json) (before : List (String × Json)) :
    addField (some name) value (some before) = some ((name, value) :: before) := rfl

theorem Padded.exists_name? {f : String × Json} (h : Padded (Field Spells) cs f)
    (each : ∀ ds j, ds.length ≤ cs.length → Spells ds j → Reads ds j) (ends : Ends rest)
    (enough : 2 * cs.length ≤ bound) : ∃ value after, Blank after ∧
      name? (cs ++ rest) = some (some f.1, value) ∧
      valueWithin bound value = some (f.2, after ++ rest) := by
  obtain @⟨before, _, after, _, left, ⟨name, between, behind, inner⟩, right⟩ := h
  rename_i between' behind' ds j
  simp only [List.length_append, List.length_cons] at each enough
  have read := each ds j (by omega) inner bound _ (ends.append right) (by omega)
  refine ⟨behind' ++ (ds ++ (after ++ rest)), after, right, ?_, ?_⟩
  · simp only [List.append_assoc, List.cons_append]
    rw [← name?_skipSpace, skipSpace_append left, name?_skipSpace, name?_quoted name between]
  · rw [valueWithin_append behind, read]

theorem fieldsWithin_of_separated {fields : List (String × Json)}
    (h : Separated (Padded (Field Spells)) cs fields)
    (each : ∀ ds j, ds.length ≤ cs.length → Spells ds j → Reads ds j)
    (before : List (String × Json)) (enough : 2 * cs.length + 1 ≤ bound) :
    fieldsWithin bound (some before) (cs ++ '\x7d' :: rest) =
      some (.obj (before.reverse ++ fields), rest) := by
  induction h generalizing before bound with
  | @one cs f last =>
    obtain ⟨bound, rfl⟩ := Nat.exists_eq_succ_of_ne_zero (show bound ≠ 0 by omega)
    obtain ⟨value, after, blank, named, read⟩ := last.exists_name? each
      (ends_cons (.inr (.inr rfl)) rest) (show 2 * cs.length ≤ bound by omega)
    have close : skipSpace (after ++ '\x7d' :: rest) = '\x7d' :: rest := skipSpace_token blank rfl
    simp only [fieldsWithin, named, read, close, addField_some, object, List.reverse_cons]
  | @cons cs ds f fields first others ih =>
    obtain ⟨bound, rfl⟩ := Nat.exists_eq_succ_of_ne_zero (show bound ≠ 0 by omega)
    simp only [List.length_append, List.length_cons] at each enough
    obtain ⟨value, after, blank, named, read⟩ := first.exists_name?
      (fun ds j short => each ds j (by omega)) (ends_cons (.inl rfl) (ds ++ '\x7d' :: rest))
      (show 2 * cs.length ≤ bound by omega)
    have comma : skipSpace (after ++ ',' :: (ds ++ '\x7d' :: rest)) =
        ',' :: (ds ++ '\x7d' :: rest) := skipSpace_token blank rfl
    have later := @ih bound (fun ds j short => each ds j (by omega)) (f :: before)
      (by omega)
    rw [List.append_assoc, List.cons_append]
    simp only [fieldsWithin, named, read, comma, addField_some, later, List.reverse_cons,
      List.append_assoc, List.singleton_append]

end

/-- A list begins with what its first part begins with, behind blanks. -/
theorem Separated.exists_skipSpace {α : Type} {P : List Char → α → Prop} {closing : Char}
    {cs : List Char} {xs : List α} (h : Separated (Padded P) cs xs)
    (begins : ∀ ds x, P ds x → ∃ c tail, ds = c :: tail ∧ isSpace c = false ∧ c ≠ closing)
    (rest : List Char) : ∃ c tail, skipSpace (cs ++ rest) = c :: tail ∧ c ≠ closing := by
  have padded (ds : List Char) (x : α) (h : Padded P ds x) (rest : List Char) :
      ∃ c tail, skipSpace (ds ++ rest) = c :: tail ∧ c ≠ closing := by
    obtain @⟨before, _, after, _, left, inner, right⟩ := h
    obtain ⟨c, tail, rfl, token, other⟩ := begins _ _ inner
    refine ⟨c, tail ++ (after ++ rest), ?_, other⟩
    simp only [List.append_assoc, List.cons_append]
    exact skipSpace_token left token
  cases h with
  | one last => exact padded _ _ last rest
  | cons first others =>
    rw [List.append_assoc]
    exact padded _ _ first _

/-- Every text of a value is read as this value. -/
theorem Spells.reads {cs : List Char} {j : Json} (h : Spells cs j) : Reads cs j := by
  induction size : cs.length using Nat.strongRecOn generalizing cs j with
  | ind n ih =>
    intro bound rest ends enough
    have each (inner : List Char) (short : inner.length < cs.length) (ds : List Char) (j : Json)
        (within : ds.length ≤ inner.length) (h : Spells ds j) : Reads ds j :=
      ih ds.length (by omega) h rfl
    obtain ⟨c, tail, first, -⟩ := h.exists_cons
    have nonempty : cs.length ≠ 0 := by simp [first]
    obtain ⟨bound, rfl⟩ := Nat.exists_eq_succ_of_ne_zero (show bound ≠ 0 by omega)
    cases h with
    | null | boolTrue | boolFalse => rfl
    | int n => exact valueWithin_signedDecimal n ends bound
    | str s => exact valueWithin_quoted s rest bound
    | @emptyArr inner blank =>
      rw [List.cons_append, List.append_assoc]
      exact valueWithin_emptyArr blank rest bound
    | @arr inner items parts =>
      obtain ⟨c, tail, starts, other⟩ := parts.exists_skipSpace (fun _ _ h => h.exists_cons)
        (']' :: rest)
      simp only [List.length_cons, List.length_append, List.length_nil] at enough each
      rw [List.cons_append, List.append_assoc]
      exact (valueWithin_arr starts other bound).trans
        (itemsWithin_of_separated parts (each inner (by omega)) [] (by omega))
    | @emptyObj inner blank =>
      rw [List.cons_append, List.append_assoc]
      exact valueWithin_emptyObj blank rest bound
    | @obj inner fields parts =>
      have begins (ds : List Char) (f : String × Json) (h : Field Spells ds f) :
          ∃ c tail, ds = c :: tail ∧ isSpace c = false ∧ c ≠ '\x7d' := by
        obtain ⟨name, -, -, -⟩ := h
        exact ⟨'"', _, toList_quoted_append name _, rfl, by decide⟩
      obtain ⟨c, tail, starts, other⟩ := parts.exists_skipSpace begins ('\x7d' :: rest)
      simp only [List.length_cons, List.length_append, List.length_nil] at enough each
      rw [List.cons_append, List.append_assoc]
      exact (valueWithin_obj starts other bound).trans
        (fieldsWithin_of_separated parts (each inner (by omega)) [] (by omega))

/-- A text of a value between blanks holds that value and nothing else. -/
theorem parse?_of_padded {text : String} {j : Json} (h : Padded Spells text.toList j) :
    parse? text = some j := by
  have ends : Ends [] := nofun
  obtain ⟨after, blank, read⟩ := h.exists_valueWithin (fun _ _ h => h.reads) ends
    (show 2 * text.toList.length ≤ 2 * text.toList.length + 2 by omega)
  rw [List.append_nil, List.append_nil] at read
  simp only [parse?, read, skipSpace_of_blank blank]
  rfl

end BytecodeMutation.Json
