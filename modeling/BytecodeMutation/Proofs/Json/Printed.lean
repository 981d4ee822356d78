import BytecodeMutation.Json.Printing
import BytecodeMutation.Proofs.Json.Grammar

/-!
Values that are written are read back, in either layout. This is all that is relied on of JSON texts
where bytes and reports go through them.
-/
namespace BytecodeMutation.Json

/-- A value that programs build: its numbers are integers and its strings are whole. -/
inductive Exact : Json → Prop
  | null : Exact .null
  | bool (b : Bool) : Exact (.bool b)
  | int (n : Int) : Exact (.int n)
  | str (s : String) : Exact (.str s)
  | arr {items : List Json} (each : ∀ j ∈ items, Exact j) : Exact (.arr items)
  | obj {fields : List (String × Json)} (each : ∀ f ∈ fields, Exact f.2) : Exact (.obj fields)

theorem compactItems_eq (items : List Json) : compactItems items = items.map compact := by
  induction items with
  | nil => rfl
  | cons j items ih => rw [compactItems, ih, List.map_cons]

theorem compactFields_eq (fields : List (String × Json)) :
    compactFields fields = fields.map fun f => quoted f.1 ++ ":" ++ compact f.2 := by
  induction fields with
  | nil => rfl
  | cons f fields ih => rw [compactFields, ih, List.map_cons]

theorem prettyItems_eq (depth : Nat) (items : List Json) :
    prettyItems depth items = items.map (prettyAt depth) := by
  induction items with
  | nil => rfl
  | cons j items ih => rw [prettyItems, ih, List.map_cons]

theorem prettyFields_eq (depth : Nat) (fields : List (String × Json)) :
    prettyFields depth fields = fields.map fun f => quoted f.1 ++ ": " ++ prettyAt depth f.2 := by
  induction fields with
  | nil => rfl
  | cons f fields ih => rw [prettyFields, ih, List.map_cons]

theorem blank_nil : Blank [] := nofun

theorem blank_singleton {c : Char} (space : isSpace c) : Blank [c] := by
  intro d member
  rwa [List.mem_singleton.mp member]

theorem blank_newline (depth : Nat) : Blank (newline depth).toList := by
  intro c member
  rw [newline, String.toList_append] at member
  rcases List.mem_append.mp member with feed | space
  · rw [List.mem_singleton.mp feed]
    rfl
  · rw [String.toList_ofList] at space
    rw [(List.mem_replicate.mp space).2]
    rfl

/-- Texts with commas and blanks between them. The blanks in front of the first belong to it, and
so do those behind a comma to the next. -/
theorem separated_intercalate {α : Type} {P : List Char → α → Prop} {f : α → String} {gap : String}
    {lead trail : List Char} {xs : List α} (nonempty : xs ≠ [])
    (each : ∀ x ∈ xs, P (f x).toList x) (left : Blank lead) (between : Blank gap.toList)
    (right : Blank trail) :
    Separated (Padded P) (lead ++ ((("," ++ gap).intercalate (xs.map f)).toList ++ trail)) xs := by
  induction xs generalizing lead with
  | nil => exact absurd rfl nonempty
  | cons x xs ih =>
    have here := each x List.mem_cons_self
    cases xs with
    | nil =>
      rw [← List.append_assoc]
      exact .one (.mk left here right)
    | cons y xs =>
      have later := ih (List.cons_ne_nil y xs) (fun z hz => each z (List.mem_cons_of_mem x hz))
        between
      have parts : lead ++ ((("," ++ gap).intercalate ((x :: y :: xs).map f)).toList ++ trail) =
          lead ++ (f x).toList ++ [] ++ ',' ::
            (gap.toList ++ ((("," ++ gap).intercalate ((y :: xs).map f)).toList ++ trail)) := by
        simp only [List.map_cons, String.intercalate_cons_cons, String.toList_append,
          List.append_assoc]
        rfl
      rw [parts]
      exact .cons (.mk left here blank_nil) later

/-- Parts with commas between them, in brackets and among blanks. -/
def Listed (opening closing : String) (parts : List String) (text : String) : Prop :=
  ∃ lead gap trail : String, Blank lead.toList ∧ Blank gap.toList ∧ Blank trail.toList ∧
    text = opening ++ (lead ++ (("," ++ gap).intercalate parts ++ trail)) ++ closing

theorem listed_append (opening closing : String) (parts : List String) :
    Listed opening closing parts (opening ++ ",".intercalate parts ++ closing) := by
  refine ⟨"", "", "", blank_nil, blank_nil, blank_nil, ?_⟩
  rw [String.append_empty, String.append_empty, String.empty_append]

theorem listed_block (depth : Nat) (opening closing : String) (parts : List String) :
    Listed opening closing parts (block depth opening closing parts) := by
  rw [block]
  split
  · next empty =>
    obtain rfl := List.isEmpty_iff.mp empty
    refine ⟨"", "", "", blank_nil, blank_nil, blank_nil, ?_⟩
    change _ = opening ++ "" ++ closing
    rw [String.append_empty]
  · refine ⟨newline (depth + 1), newline (depth + 1), newline depth, blank_newline _,
      blank_newline _, blank_newline _, ?_⟩
    simp only [String.append_assoc]

/-- Between the brackets stand the parts, or nothing but blanks. -/
theorem Listed.exists_inner {α : Type} {P : List Char → α → Prop} {f : α → String}
    {opening closing text : String} {xs : List α} (h : Listed opening closing (xs.map f) text)
    (each : ∀ x ∈ xs, P (f x).toList x) :
    ∃ cs, text.toList = opening.toList ++ (cs ++ closing.toList) ∧
      (xs = [] ∧ Blank cs ∨ Separated (Padded P) cs xs) := by
  obtain ⟨lead, gap, trail, left, between, right, rfl⟩ := h
  refine ⟨lead.toList ++ ((("," ++ gap).intercalate (xs.map f)).toList ++ trail.toList), ?_, ?_⟩
  · simp only [String.toList_append, List.append_assoc]
  · by_cases empty : xs = []
    · subst empty
      exact .inl ⟨rfl, List.forall_mem_append.mpr ⟨left, right⟩⟩
    · exact .inr (separated_intercalate empty each left between right)

theorem spells_arr {f : Json → String} {items : List Json} {text : String}
    (h : Listed "[" "]" (items.map f) text) (each : ∀ j ∈ items, Spells (f j).toList j) :
    Spells text.toList (.arr items) := by
  obtain ⟨cs, parts, ⟨rfl, blank⟩ | inner⟩ := h.exists_inner each
  · rw [parts]
    exact .emptyArr blank
  · rw [parts]
    exact .arr inner

theorem spells_obj {f : String × Json → String} {fields : List (String × Json)} {text : String}
    (h : Listed "\x7b" "\x7d" (fields.map f) text)
    (each : ∀ x ∈ fields, Field Spells (f x).toList x) : Spells text.toList (.obj fields) := by
  obtain ⟨cs, parts, ⟨rfl, blank⟩ | inner⟩ := h.exists_inner each
  · rw [parts]
    exact .emptyObj blank
  · rw [parts]
    exact .obj inner

/-- A name, a colon, a blank or none, and a value. -/
theorem field_quoted {name colon value : String} {gap : List Char} {j : Json}
    (sign : colon.toList = ':' :: gap) (blank : Blank gap) (spelled : Spells value.toList j) :
    Field Spells (quoted name ++ colon ++ value).toList (name, j) := by
  have parts : (quoted name ++ colon ++ value).toList =
      (quoted name).toList ++ ([] ++ ':' :: (gap ++ value.toList)) := by
    simp only [String.toList_append, sign, List.append_assoc, List.cons_append, List.nil_append]
  rw [parts]
  exact .mk name blank_nil blank spelled

theorem spells_bool (b : Bool) : Spells (atom (.bool b)).toList (.bool b) := by
  cases b with
  | false => exact .boolFalse
  | true => exact .boolTrue

theorem spells_compact {j : Json} (h : Exact j) : Spells (compact j).toList j := by
  induction h with
  | null => exact .null
  | bool b => exact spells_bool b
  | int n => exact .int n
  | str s => exact .str s
  | arr each ih =>
    rw [compact, compactItems_eq]
    exact spells_arr (listed_append ..) ih
  | obj each ih =>
    rw [compact, compactFields_eq]
    exact spells_obj (listed_append ..) fun f hf => field_quoted rfl blank_nil (ih f hf)

theorem spells_prettyAt {j : Json} (h : Exact j) (depth : Nat) :
    Spells (prettyAt depth j).toList j := by
  induction h generalizing depth with
  | null =>
    simp only [prettyAt]
    exact .null
  | bool b =>
    simp only [prettyAt]
    exact spells_bool b
  | int n =>
    simp only [prettyAt]
    exact .int n
  | str s =>
    simp only [prettyAt]
    exact .str s
  | arr each ih =>
    rw [prettyAt, prettyItems_eq]
    exact spells_arr (listed_block ..) fun j hj => ih j hj (depth + 1)
  | obj each ih =>
    rw [prettyAt, prettyFields_eq]
    exact spells_obj (listed_block ..) fun f hf =>
      field_quoted rfl (blank_singleton (c := ' ') rfl) (ih f hf (depth + 1))

/-- A value is read back from its line. -/
theorem parse?_compact {j : Json} (h : Exact j) : parse? (compact j) = some j := by
  apply parse?_of_padded
  have padded : Padded Spells ([] ++ (compact j).toList ++ []) j :=
    .mk blank_nil (spells_compact h) blank_nil
  rwa [List.nil_append, List.append_nil] at padded

/-- A value is read back from its lines and a line break. -/
theorem parse?_pretty {j : Json} (h : Exact j) : parse? (pretty j ++ "\n") = some j := by
  apply parse?_of_padded
  rw [String.toList_append]
  exact .mk blank_nil (spells_prettyAt h 0) (blank_singleton (c := '\n') rfl)

end BytecodeMutation.Json
