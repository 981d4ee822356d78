import BytecodeMutation.Command.Run
import BytecodeMutation.Proofs.Json.Printed
import BytecodeMutation.Proofs.Mutation.Naming
import BytecodeMutation.Proofs.Text.Numeral

/-!
What the rows of a printed report show. Columns are words with blanks between them, so a row is cut
into its columns in one way only, and no two candidates of a method have the same row. As JSON a
report is a list with an object for each candidate.
-/
namespace BytecodeMutation
open Numeral (decimal)

/-- A text is cut in one way into a run of characters with `p` and what begins without it. -/
theorem span_unique {p : Char → Bool} {v w r s : List Char} (hv : ∀ c ∈ v, p c) (hw : ∀ c ∈ w, p c)
    (hr : ∀ c ∈ r.head?, p c = false) (hs : ∀ c ∈ s.head?, p c = false) (same : v ++ r = w ++ s) :
    v = w ∧ r = s := by
  have behind (r : List Char) (h : ∀ c ∈ r.head?, p c = false) : r.dropWhile p = r := by
    cases r with
    | nil => rfl
    | cons c r => rw [List.dropWhile_cons_of_neg (by simp [h c rfl])]
  have rest := congrArg (List.dropWhile p) same
  rw [List.dropWhile_append_of_pos hv, List.dropWhile_append_of_pos hw, behind r hr,
    behind s hs] at rest
  subst rest
  exact ⟨List.append_cancel_right same, rfl⟩

def blanks (n : Nat) : List Char := List.replicate n ' '

theorem beq_of_mem_blanks (n : Nat) : ∀ c ∈ blanks n, (c == ' ') = true := by
  intro c member
  rw [(List.mem_replicate.mp member).2]
  rfl

/-- A column is not empty and has no blanks. -/
def IsColumn (w : List Char) : Prop := w ≠ [] ∧ ∀ c ∈ w, c ≠ ' '

/-- The first column of a row is the same however the row is cut. -/
theorem IsColumn.unique {v w r s : List Char} {a b a' b' : Nat} (hv : IsColumn v) (hw : IsColumn w)
    (same : blanks a ++ (v ++ (blanks (b + 1) ++ r)) = blanks a' ++ (w ++ (blanks (b' + 1) ++ s))) :
    v = w ∧ blanks (b + 1) ++ r = blanks (b' + 1) ++ s := by
  have begins {v : List Char} (hv : IsColumn v) (r : List Char) :
      ∀ c ∈ (v ++ r).head?, (c == ' ') = false := by
    obtain ⟨nonempty, plain⟩ := hv
    obtain ⟨c, v, rfl⟩ := List.exists_cons_of_ne_nil nonempty
    rintro _ ⟨⟩
    exact beq_eq_false_iff_ne.mpr (plain c List.mem_cons_self)
  have inside {v : List Char} (hv : IsColumn v) : ∀ c ∈ v, (c != ' ') = true :=
    fun c member => bne_iff_ne.mpr (hv.2 c member)
  have ends (n : Nat) (r : List Char) : ∀ c ∈ (blanks (n + 1) ++ r).head?, (c != ' ') = false := by
    rintro _ ⟨⟩
    rfl
  have columns := (span_unique (beq_of_mem_blanks a) (beq_of_mem_blanks a')
    (begins hv _) (begins hw _) same).2
  exact span_unique (inside hv) (inside hw) (ends b r) (ends b' s) columns

theorem isColumn_decimal (n : Nat) : IsColumn (decimal n).toList := by
  obtain ⟨c, cs, digits, -⟩ := Numeral.exists_decimal_cons n
  constructor
  · rw [digits]
    exact List.cons_ne_nil c cs
  · rintro _ member rfl
    cases Numeral.isDigit_of_mem_decimal member

theorem decimal_injective {m n : Nat} (same : (decimal m).toList = (decimal n).toList) : m = n := by
  have value := Numeral.digits?_decimal m
  rw [same, Numeral.digits?_decimal] at value
  exact (Option.some.inj value).symm

theorem isColumn_iff {w : List Char} : IsColumn w ↔ (!w.isEmpty && w.all (· != ' ')) = true := by
  simp only [IsColumn, Bool.and_eq_true, Bool.not_eq_true', List.isEmpty_eq_false_iff,
    List.all_eq_true, bne_iff_ne]

theorem Mutator.isColumn_name (m : Mutator) : IsColumn m.name.toList := by
  have names : ∀ m ∈ Mutator.all, (!m.name.toList.isEmpty && m.name.toList.all (· != ' ')) := by
    decide +kernel
  exact isColumn_iff.mpr (names m m.mem_all)

namespace Details

/-- The line, or a dash if there is none. -/
def lineText (d : Details) : String := (d.line.map fun n => decimal n.toNat).getD "-"

/-- A row of a table: the index, the line, the name of the mutator and the description, each behind
blanks. -/
def ShownAs (d : Details) (row : String) : Prop :=
  ∃ a b c e : Nat, row.toList =
    blanks a ++ ((decimal d.candidate.index).toList ++ (blanks (b + 1) ++ (d.lineText.toList ++
      (blanks (c + 1) ++ (d.mutator.toList ++ (blanks (e + 1) ++
        (d.candidate.description.toList ++ ['\n'])))))))

theorem toList_alignRight (width : Nat) (s : String) :
    (alignRight width s).toList = blanks (width - s.toList.length) ++ s.toList :=
  String.toList_ofList

theorem toList_alignLeft (width : Nat) (s : String) :
    (alignLeft width s).toList = s.toList ++ blanks (width - s.toList.length) :=
  String.toList_ofList

theorem shownAs_row (d : Details) : d.ShownAs d.row := by
  have row : d.row = alignRight 5 (decimal d.candidate.index) ++ " " ++ alignRight 6 d.lineText ++
      "  " ++ alignLeft 26 d.mutator ++ " " ++ d.candidate.description ++ "\n" := by
    rw [Details.row, lineText]
    cases d.line <;> rfl
  refine ⟨5 - (decimal d.candidate.index).toList.length, 6 - d.lineText.toList.length, 1,
    26 - d.mutator.toList.length, ?_⟩
  have gap (n : Nat) : blanks n ++ " ".toList = blanks (n + 1) := List.replicate_succ'.symm
  rw [row, ← gap (26 - _)]
  simp only [String.toList_append, toList_alignRight, toList_alignLeft, List.append_assoc]
  rfl

theorem isColumn_lineText (d : Details) : IsColumn d.lineText.toList := by
  rw [lineText]
  cases d.line with
  | none => exact isColumn_iff.mpr (by decide)
  | some n => exact isColumn_decimal n.toNat

/-- A row shows one index, one name and one description. -/
theorem ShownAs.unique {d d' : Details} {row : String} (h : d.ShownAs row) (h' : d'.ShownAs row)
    (name : IsColumn d.mutator.toList) (name' : IsColumn d'.mutator.toList)
    (text : d.candidate.description.toList.head? ≠ some ' ')
    (text' : d'.candidate.description.toList.head? ≠ some ' ') :
    d.candidate.index = d'.candidate.index ∧ d.mutator = d'.mutator ∧
      d.candidate.description = d'.candidate.description := by
  obtain ⟨a, b, c, e, row⟩ := h
  obtain ⟨a', b', c', e', row'⟩ := h'
  obtain ⟨index, rest⟩ := (isColumn_decimal _).unique (isColumn_decimal _) (row.symm.trans row')
  obtain ⟨-, rest⟩ := d.isColumn_lineText.unique d'.isColumn_lineText rest
  obtain ⟨mutator, rest⟩ := name.unique name' rest
  have begins {s : String} (h : s.toList.head? ≠ some ' ') :
      ∀ c ∈ (s.toList ++ ['\n']).head?, (c == ' ') = false := by
    intro c first
    cases chars : s.toList with
    | nil =>
      rw [chars] at first
      cases first
      rfl
    | cons c' cs =>
      rw [chars] at first h
      cases first
      exact beq_eq_false_iff_ne.mpr fun same => h (congrArg some same)
  have last := (span_unique (beq_of_mem_blanks _) (beq_of_mem_blanks _) (begins text)
    (begins text') rest).2
  exact ⟨decimal_injective index, String.toList_inj.mp mutator,
    String.toList_inj.mp (List.append_cancel_right last)⟩

/-- A JSON object with the candidate as an object of its own, the line or null, and the name and the
group of the mutator. -/
structure ShownIn (d : Details) (j : Json) : Prop where
  candidate : ∃ id, j.field? "id" = some id ∧
    id.field? "location" = some (toJson d.candidate.location) ∧
    id.field? "index" = some (.int d.candidate.index) ∧
    id.field? "mutator" = some (.str d.candidate.mutator) ∧
    id.field? "description" = some (.str d.candidate.description)
  line : j.field? "line" = some (d.line.elim .null fun n => .int n.toNat)
  mutator : j.field? "mutator" = some (.str d.mutator)
  group : j.field? "group" = some (.str d.group.name)

theorem shownIn_toJson (d : Details) : d.ShownIn (toJson d) where
  candidate := ⟨toJson d.candidate, rfl, rfl, rfl, rfl, rfl⟩
  line := by cases line : d.line <;> simp [toJson, Json.field?, line]
  mutator := rfl
  group := by cases group : d.group <;> simp [toJson, Json.field?, group] <;> rfl

theorem exact_toJson (d : Details) : Json.Exact (toJson d) := by
  have method : Json.Exact (toJson d.candidate.location.method) :=
    .obj (List.forall_mem_cons.mpr ⟨.str _, List.forall_mem_singleton.mpr (.str _)⟩)
  have location : Json.Exact (toJson d.candidate.location) :=
    .obj (List.forall_mem_cons.mpr ⟨.str _, List.forall_mem_singleton.mpr method⟩)
  have candidate : Json.Exact (toJson d.candidate) := by
    apply Json.Exact.obj
    simp only [List.forall_mem_cons]
    exact ⟨location, .int _, .str _, .str _, nofun⟩
  have line : Json.Exact (toJson d.line) := by
    cases d.line with
    | none => exact .null
    | some n => exact .int _
  apply Json.Exact.obj
  simp only [List.forall_mem_cons]
  exact ⟨candidate, line, .str _, .str _, nofun⟩

end Details

/-- The JSON text of a report is read as a list of its rows. -/
theorem parse?_report (report : List Details) :
    Json.parse? ((toJson report).pretty ++ "\n") = some (.arr (report.map toJson)) := by
  apply Json.parse?_pretty
  apply Json.Exact.arr
  rw [List.forall_mem_map]
  exact fun d _ => d.exact_toJson

end BytecodeMutation
