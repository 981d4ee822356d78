import BytecodeMutation.Proofs.Listing.Legible
import BytecodeMutation.Proofs.Listing.Operands

/-!
Reading a listing back. Every line says which element it was written for, so just the legible bodies
with at least one element are read back from their listings.
-/
namespace BytecodeMutation

/-- The line of an element. -/
def Element.written (e : Element) : List Char := e.indent.toList ++ e.text.toList

theorem Body.toList_listing (body : Body) :
    body.listing.toList = (body.map (·.written)).flatMap (· ++ ['\n']) := by
  simp [listing, String.toList_join, List.flatMap_map, Element.written]

theorem Element.eq_of_mem_indent {e : Element} : ∀ c ∈ e.indent.toList, c = ' ' := by
  have four : "    ".toList = List.replicate 4 ' ' := rfl
  have blanks : ∀ c ∈ "    ".toList, c = ' ' := by
    rw [four]
    exact fun c hc => List.eq_of_mem_replicate hc
  cases e with
  | label l => exact nofun
  | line n | code i => exact blanks

theorem Element.toList_text_label (l : Label) : (label l).text.toList = l.text.toList ++ [':'] :=
  String.toList_append

theorem Element.toList_text_line (n : UInt32) :
    (line n).text.toList =
      Text.phrase "LINE".toList [(Numeral.decimal n.toNat).toList] := by
  have marker : "LINE ".toList = "LINE".toList ++ [' '] := rfl
  rw [text, String.toList_append, marker]
  simp only [Text.phrase, List.flatMap_cons, List.flatMap_nil, List.append_nil, List.append_assoc,
    List.singleton_append]

/-- The words of a line marker. -/
theorem Element.isWord_line (n : UInt32) :
    ∀ w ∈ ["LINE".toList, (Numeral.decimal n.toNat).toList], Text.isWord w := by
  simp only [List.forall_mem_cons, List.not_mem_nil, false_implies, implies_true, and_true]
  exact ⟨rfl, isWord_decimal _⟩

theorem Instruction.isWord_text (i : Instruction Label) :
    ∀ w ∈ i.opcode.text.toList :: i.operands, Text.isWord w :=
  List.forall_mem_cons.mpr ⟨Opcode.isWord_text _, i.isWord_operands⟩

theorem Element.clean_text (e : Element) : Text.Clean e.text.toList := by
  cases e with
  | label l =>
    rw [toList_text_label]
    refine Text.clean_of_plain (by simp) ?_
    intro c hc
    rcases List.mem_append.mp hc with inside | colon
    · exact (Text.isWord_iff.mp (isWord_label l)).1 c inside
    · rw [List.mem_singleton.mp colon]
      rfl
  | line n =>
    rw [toList_text_line]
    exact Text.clean_phrase (isWord_line n)
  | code i =>
    rw [text, Instruction.toList_text]
    exact Text.clean_phrase i.isWord_text

namespace Listing

variable {e : Element} {i : Instruction Label} {body : Body}

theorem element_code (legible : i.Legible) : element i.text.toList = .ok (.code i) := by
  have margin : i.text.toList.getLast? ≠ some ':' := by
    rw [Instruction.toList_text]
    exact Text.getLast?_phrase_ne i.isWord_text
  have name : i.opcode.text.toList ≠ "LINE".toList := fun same =>
    i.opcode.text_ne_line (String.toList_inj.mp same)
  rw [element, if_neg margin, Instruction.toList_text, Text.words_phrase i.isWord_text]
  simp only [if_neg name, String.ofList_toList, Opcode.ofText_text legible.isOwn_opcode,
    instruction_operands legible.shaped]
  rfl

theorem element_line (n : UInt32) : element (Element.line n).text.toList = .ok (.line n) := by
  have margin : (Element.line n).text.toList.getLast? ≠ some ':' := by
    rw [Element.toList_text_line]
    exact Text.getLast?_phrase_ne (Element.isWord_line n)
  rw [element, if_neg margin, Element.toList_text_line, Text.words_phrase (Element.isWord_line n)]
  simp only [if_true, lineMarker, single?, Option.bind_some, Numeral.word?_decimal n.toNat_lt]
  refine bind_eq_ok_iff.mpr ⟨n.toNat, rfl, ?_⟩
  rw [UInt32.ofNat_toNat]
  rfl

theorem element_label (l : Label) : element (Element.label l).text.toList = .ok (.label l) := by
  rw [Element.toList_text_label, element, if_pos List.getLast?_concat, List.dropLast_concat,
    label?_text]
  rfl

/-- Each element is read from its text, if it is legible. -/
theorem element_text (legible : ∀ i, e = .code i → i.Legible) : element e.text.toList = .ok e := by
  cases e with
  | label l => exact element_label l
  | line n => exact element_line n
  | code i => exact element_code (legible i rfl)

end Listing

/-- A line holds neither a comment nor the end of a line. -/
theorem Element.of_mem_written {e : Element} {c : Char} (h : c ∈ e.written) :
    c = ' ' ∨ Text.isPlain c := by
  rcases List.mem_append.mp h with blank | inside
  · exact .inl (eq_of_mem_indent c blank)
  · exact e.clean_text.characters c inside

namespace Listing

variable {e : Element} {body : Body}

theorem content_written (e : Element) : content e.written = e.text.toList := by
  have whole : e.written.takeWhile (· != '#') = e.written := by
    rw [List.takeWhile_eq_self_iff]
    intro c hc
    rw [bne_iff_ne]
    rintro rfl
    exact absurd (Element.of_mem_written hc) (by decide)
  have blank : ∀ c ∈ e.indent.toList, Text.isBlank c := by
    intro c hc
    rw [Element.eq_of_mem_indent c hc]
    rfl
  rw [content, whole]
  exact Text.trim_indented e.clean_text blank

theorem readLine_written (legible : ∀ i, e = .code i → i.Legible) (number : Nat) :
    readLine e.written number = .ok (some e) := by
  have nonempty : e.text.toList.isEmpty = false :=
    List.isEmpty_eq_false_iff.mpr e.clean_text.nonempty
  simp only [readLine, content_written, nonempty, element_text legible]
  rfl

theorem mapM_readLine (legible : body.Legible) (number : Nat) :
    ((body.map (·.written)).zipIdx number).mapM (fun p => readLine p.1 p.2) =
      .ok (body.map some) := by
  induction body generalizing number with
  | nil => rfl
  | cons e es ih =>
    have first : ∀ i, e = .code i → i.Legible := fun i same => legible i (same ▸ List.mem_cons_self)
    have others : Body.Legible es := fun i hi => legible i (List.mem_cons_of_mem e hi)
    rw [List.map_cons, List.zipIdx_cons]
    exact mapM_cons_eq_ok_iff.mpr ⟨_, _, readLine_written first number, ih others (number + 1), rfl⟩

theorem lines_listing (body : Body) :
    Text.lines body.listing.toList = body.map (·.written) := by
  rw [Body.toList_listing]
  apply Text.lines_terminated
  intro l hl
  obtain ⟨e, -, rfl⟩ := List.mem_map.mp hl
  constructor
  · intro feed
    exact absurd (Element.of_mem_written feed) (by decide)
  · intro last
    exact absurd (Element.of_mem_written (List.mem_of_getLast? last)) (by decide)

/-- The listing of a body is not blank. -/
theorem trim_listing (nonempty : body ≠ []) : Text.trim body.listing.toList ≠ [] := by
  obtain ⟨e, es, rfl⟩ := List.exists_cons_of_ne_nil nonempty
  obtain ⟨c, tail, text⟩ := List.exists_cons_of_ne_nil e.clean_text.nonempty
  have solid := Text.isBlank_of_isPlain (e.clean_text.first c (by rw [text]; rfl))
  apply List.ne_nil_of_mem
  apply Text.mem_trim _ solid
  rw [Body.toList_listing, List.map_cons, List.flatMap_cons, Element.written, text]
  simp

theorem read_listing (nonempty : body ≠ []) (legible : body.Legible) :
    read body.listing = .ok body := by
  have solid := List.isEmpty_eq_false_iff.mpr (trim_listing nonempty)
  simp only [read, solid, lines_listing, mapM_readLine legible]
  simp [Except.map]

theorem read_listing_iff : read body.listing = .ok body ↔ body ≠ [] ∧ body.Legible := by
  constructor
  · intro back
    refine ⟨?_, legible_of_read back⟩
    rintro rfl
    cases back
  · rintro ⟨nonempty, legible⟩
    exact read_listing nonempty legible

end Listing

/-- A listing says which body it was made from. It is read back as that body if and only if the body
is legible and not empty; and all bodies that are read from code or from a listing, or are derived
from such, are legible. -/
theorem listing_faithful :
    (∀ body : Body, Listing.read body.listing = .ok body ↔ body ≠ [] ∧ body.Legible) ∧
    (∀ (code : Code) (body mutant : Body), code.read = .ok body → Derived body mutant →
      mutant.Legible ∧ (mutant ≠ [] → Listing.read mutant.listing = .ok mutant)) ∧
    ∀ (text : String) (body mutant : Body), Listing.read text = .ok body → Derived body mutant →
      mutant.Legible ∧ (mutant ≠ [] → Listing.read mutant.listing = .ok mutant) := by
  refine ⟨fun _ => Listing.read_listing_iff, ?_, ?_⟩
  · intro code body mutant read derived
    have legible := derived.legible (legible_of_read read)
    exact ⟨legible, fun nonempty => Listing.read_listing nonempty legible⟩
  · intro text body mutant read derived
    have legible := derived.legible (Listing.legible_of_read read)
    exact ⟨legible, fun nonempty => Listing.read_listing nonempty legible⟩

theorem listing_faithful_addition :
    let body : Body := [.code (.plain (.named .iadd))]
    let mutant : Body := [.code (.plain (.named .isub))]
    (⟨[0x60], []⟩ : Code).read = .ok body ∧ Listing.read "IADD # +" = .ok body ∧
      Derived body mutant ∧ mutant.Legible ∧ mutant.listing = "    ISUB\n" ∧
      Listing.read mutant.listing = .ok mutant := by
  intro body mutant
  let location : Location := ⟨⟨"Calc"⟩, ⟨"run", "()V"⟩⟩
  obtain ⟨-, fromCode, fromListing⟩ := listing_faithful
  have addition : Instruction.Spelling 0 [0x60] (.plain (.named .iadd)) :=
    @Instruction.Spelling.plain 0 (.named .iadd) rfl rfl
  have code : (⟨[0x60], []⟩ : Code).read = .ok body :=
    Code.read_eq_ok_iff.mpr
      ⟨_, .cons addition (.nil 1), by simp [Landing, Instruction.targets], rfl⟩
  have parsed : Listing.read "IADD # +" = .ok body := by decide +kernel
  have derived : Derived body mutant :=
    .next .start ⟨[.operator .sub], true⟩ location
      ⟨location, 0, "aor.subtraction", "AOR: Changed + to -"⟩
  have listing : mutant.listing = "    ISUB\n" := by decide +kernel
  exact ⟨code, parsed, derived, (fromCode _ body mutant code derived).1, listing,
    (fromListing _ body mutant parsed derived).2 (List.cons_ne_nil _ _)⟩

end BytecodeMutation
