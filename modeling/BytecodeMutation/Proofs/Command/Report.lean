import BytecodeMutation.Proofs.Command.Rows
import BytecodeMutation.Proofs.Mutation.Distinct

/-!
Reports and picks. A report has one row for each candidate, and what a row shows picks its candidate
and no other: a method has at most one candidate of a mutator at an index, so a pick needs no
description. What no row shows picks nothing.
-/
namespace BytecodeMutation

/-- Descriptions begin with the name of a group. -/
theorem Offers.head?_description_ne {m : Mutator} {e : Element} {x : Edit} (h : Offers m e x) :
    x.description.toList.head? ≠ some ' ' := by
  cases h with
  | operator | relation =>
    simp only [String.toList_append]
    rintro ⟨⟩
  | firstSingle | firstDouble | secondSingle | secondDouble =>
    rintro ⟨⟩

namespace Engine

variable {engine : Engine} {method : Method} {c d : Candidate}

/-- No candidate is missing from the report. -/
theorem map_candidate_report (engine : Engine) (method : Method) :
    (engine.report method).map (·.candidate) = engine.enumerate method := by
  have row (c : Candidate) (listed : c ∈ engine.enumerate method) :
      (engine.details? method c).map (·.candidate) = some c := by
    obtain ⟨m, -, -, details⟩ := details?_of_mem listed
    rw [details, Option.map_some]
  rw [report, List.map_filterMap, List.filterMap_congr row, List.filterMap_some]

theorem mem_report {row : Details} : row ∈ engine.report method ↔
    ∃ c ∈ engine.enumerate method, ∃ m ∈ engine.mutators, m.id = c.mutator ∧
      row = ⟨c, method.body.lineAt? c.index, m.name, m.group⟩ := by
  rw [report, List.mem_filterMap]
  apply exists_congr
  intro c
  apply and_congr_right
  intro listed
  obtain ⟨m, member, named, details⟩ := details?_of_mem listed
  rw [details, Option.some.injEq]
  constructor
  · rintro rfl
    exact ⟨m, member, named, rfl⟩
  · rintro ⟨m', -, named', rfl⟩
    rw [Mutator.id_injective (named.trans named'.symm)]

/-- One mutator has one candidate at one index: the element there fixes the description. -/
theorem eq_of_site (hc : c ∈ engine.enumerate method) (hd : d ∈ engine.enumerate method)
    (same : c.mutator = d.mutator) (place : c.index = d.index) : c = d := by
  obtain ⟨m, -, found⟩ := mem_enumerate.mp hc
  obtain ⟨m', -, found'⟩ := mem_enumerate.mp hd
  obtain ⟨here, named, e, site, described⟩ := Mutator.mem_candidates.mp found
  obtain ⟨here', named', e', site', described'⟩ := Mutator.mem_candidates.mp found'
  obtain rfl := Mutator.id_injective (named.symm.trans (same.trans named'))
  rw [place] at site
  cases site.symm.trans site'
  cases c
  cases d
  rw [Candidate.mk.injEq]
  exact ⟨here.trans here'.symm, place, same, Option.some.inj (described.symm.trans described')⟩

theorem head?_description_ne (listed : c ∈ engine.enumerate method) :
    c.description.toList.head? ≠ some ' ' := by
  obtain ⟨m, -, found⟩ := mem_enumerate.mp listed
  obtain ⟨-, -, e, -, described⟩ := Mutator.mem_candidates.mp found
  obtain ⟨x, offers, same⟩ := Mutator.description?_eq_some_iff.mp described
  rw [← same]
  exact offers.head?_description_ne

/-- No two candidates are shown as the same row. -/
theorem eq_of_shownAs {d d' : Details} (hd : d ∈ engine.report method)
    (hd' : d' ∈ engine.report method) {row : String} (h : d.ShownAs row) (h' : d'.ShownAs row) :
    d = d' := by
  obtain ⟨c, listed, m, -, named, rfl⟩ := mem_report.mp hd
  obtain ⟨c', listed', m', -, named', rfl⟩ := mem_report.mp hd'
  obtain ⟨place, same, -⟩ := h.unique h' m.isColumn_name m'.isColumn_name
    (head?_description_ne listed) (head?_description_ne listed')
  have own : m'.Named m.name := .inl (Text.sameIgnoringCase_iff.mpr (congrArg Text.lower same.symm))
  obtain rfl : m = m' := Mutator.Named.unique (.inl (Text.sameIgnoringCase_iff.mpr rfl)) own
  rw [eq_of_site listed listed' (named.symm.trans named') place]

end Engine

namespace Pick

/-- Whether a pick gives what a row of a report shows: the name or the identifier of the mutator in
any case, the index, and the description, which may be left out. -/
def Fits (p : Pick) (row : Details) : Prop :=
  (Text.sameIgnoringCase row.mutator p.mutator ∨
      Text.sameIgnoringCase row.candidate.mutator p.mutator) ∧
    p.index = row.candidate.index ∧ ∀ text ∈ p.description, text = row.candidate.description

variable {engine : Engine} {method : Method} {p : Pick}

theorem means_iff {m : Mutator} {c : Candidate} : p.means m c ↔
    c.mutator = m.id ∧ c.index = p.index ∧ ∀ text ∈ p.description, text = c.description := by
  simp [means, Option.all_eq_true, and_assoc]

/-- A pick finds the candidate of the row that it fits. -/
theorem find?_eq_some_iff {c : Candidate} : p.find? (engine.enumerate method) = some c ↔
    ∃ row ∈ engine.report method, p.Fits row ∧ row.candidate = c := by
  have first (m : Mutator) : (engine.enumerate method).find? (p.means m) = some c ↔
      c ∈ engine.enumerate method ∧ p.means m c := by
    apply find?_eq_some_iff_of_unique
    intro listed means d listed' means'
    obtain ⟨named, place, -⟩ := means_iff.mp means
    obtain ⟨named', place', -⟩ := means_iff.mp means'
    exact Engine.eq_of_site listed' listed (named'.trans named.symm) (place'.trans place.symm)
  simp only [find?, Option.bind_eq_some_iff, Mutator.ofName?_eq_some_iff, first,
    Engine.mem_report]
  constructor
  · rintro ⟨m, named, listed, means⟩
    obtain ⟨same, place, described⟩ := means_iff.mp means
    obtain ⟨m', member, same', -⟩ := Engine.details?_of_mem listed
    obtain rfl := Mutator.id_injective (same'.trans same)
    refine ⟨_, ⟨c, listed, m', member, same', rfl⟩, ⟨?_, place.symm, described⟩, rfl⟩
    rw [same]
    exact named
  · rintro ⟨-, ⟨c', listed, m, member, same, rfl⟩, ⟨named, place, described⟩, rfl⟩
    rw [← same] at named
    exact ⟨m, named, listed, means_iff.mpr ⟨same.symm, place.symm, described⟩⟩

theorem mutant_of_fits {row : Details} (listed : row ∈ engine.report method) (h : p.Fits row) :
    p.mutant engine method = .ok (engine.apply method row.candidate) := by
  rw [mutant, find?_eq_some_iff.mpr ⟨row, listed, h, rfl⟩]

theorem mutant_of_not_fits (h : ∀ row ∈ engine.report method, ¬ p.Fits row) :
    p.mutant engine method = .error (.noSuchMutation p.mutator p.index) := by
  have none : p.find? (engine.enumerate method) = none := by
    apply Option.eq_none_iff_forall_ne_some.mpr
    intro c found
    obtain ⟨row, listed, fits, -⟩ := find?_eq_some_iff.mp found
    exact h row listed fits
  rw [mutant, none]

end Pick

/-- The engine of a command is a configured one. -/
theorem Choice.exists_config {files : Files} {choice : Choice} {engine : Engine}
    (chosen : choice.engine files = .ok engine) :
    ∃ config, Engine.ofConfig config = .ok engine := by
  unfold Choice.engine at chosen
  split at chosen
  · cases chosen
  · next config _ =>
    refine ⟨config, ?_⟩
    cases configured : Engine.ofConfig config with
    | error e => rw [configured] at chosen; cases chosen
    | ok engine' => rw [configured] at chosen; cases chosen; rfl

namespace Command

section
variable {files : Files} {subject : Subject} {choice : Choice} {method : Method} {engine : Engine}
  (loaded : subject.method files = .ok method) (chosen : choice.engine files = .ok engine)
include loaded chosen

theorem run_enumerate (json : Bool) : run files (.enumerate subject choice json) =
    .ok (if json then (toJson (engine.report method)).pretty ++ "\n"
      else reportTable method.location (engine.report method)) := by
  rw [run, loaded, chosen]
  rfl

theorem run_apply_of_ok {p : Pick} {mutant : Body} (h : p.mutant engine method = .ok mutant) :
    run files (.apply subject choice p false) = .ok mutant.listing ∧
      run files (.apply subject choice p true) = (mutant.write.mapError .writing).map fun code =>
        "0x" ++ Hex.encode code.bytes ++ "\n" := by
  constructor
  · rw [run, loaded, chosen]
    simp only [bind, Except.bind, h]
    rfl
  · rw [run, loaded, chosen]
    simp only [bind, Except.bind, h]
    cases mutant.write <;> rfl

theorem run_apply_of_error {p : Pick} {e : CommandError} (h : p.mutant engine method = .error e)
    (hex : Bool) : run files (.apply subject choice p hex) = .error e := by
  rw [run, loaded, chosen]
  simp only [bind, Except.bind, h]

omit loaded in
theorem nodup_enumerate (method : Method) : (engine.enumerate method).Nodup := by
  obtain ⟨config, configured⟩ := choice.exists_config chosen
  have ordered := Engine.enumerate_ordered (Engine.sublist_of_ofConfig configured) method
  exact ordered.imp Candidate.Before.ne

/-- The table has a row for each candidate, no two of them the same. -/
theorem exists_rows : ∃ rows : List String,
    run files (.enumerate subject choice false) = .ok (method.location.text ++ ": " ++
      Numeral.decimal rows.length ++ " mutations\n" ++ String.join rows) ∧
    List.Forall₂ Details.ShownAs (engine.report method) rows ∧ rows.Nodup := by
  refine ⟨(engine.report method).map Details.row, ?_, ?_, ?_⟩
  · have count (n : Nat) :
        s!": {n} mutations\n" = ": " ++ Numeral.decimal n ++ " mutations\n" := rfl
    rw [run_enumerate loaded chosen, if_neg Bool.false_ne_true, reportTable, count,
      List.length_map]
    simp only [String.append_assoc]
  · rw [List.forall₂_map_right_iff, List.forall₂_same]
    exact fun d _ => d.shownAs_row
  · have report : (engine.report method).Nodup := by
      apply List.Nodup.of_map Details.candidate
      rw [Engine.map_candidate_report]
      exact nodup_enumerate chosen method
    refine report.map_on ?_
    intro d hd d' hd' same
    have shown := d'.shownAs_row
    rw [← same] at shown
    exact Engine.eq_of_shownAs hd hd' d.shownAs_row shown

/-- As JSON, the report is a list with an object for each candidate. -/
theorem exists_items : ∃ text items, run files (.enumerate subject choice true) = .ok text ∧
    Json.parse? text = some (.arr items) ∧
    List.Forall₂ Details.ShownIn (engine.report method) items := by
  refine ⟨_, _, run_enumerate loaded chosen true, parse?_report _, ?_⟩
  rw [List.forall₂_map_right_iff, List.forall₂_same]
  exact fun d _ => d.shownIn_toJson

/-- What is listed can be carried out. The report has one row for each candidate. A pick that fits a
row, by the mutator's name or identifier in any case, with or without the description, selects the
candidate of this row and prints its mutant, which is not the method itself. Any other pick is
refused. -/
theorem apply_reported :
    (∃ rows : List String,
      run files (.enumerate subject choice false) = .ok (method.location.text ++ ": " ++
        Numeral.decimal rows.length ++ " mutations\n" ++ String.join rows) ∧
      List.Forall₂ Details.ShownAs (engine.report method) rows ∧ rows.Nodup) ∧
    (∃ text items, run files (.enumerate subject choice true) = .ok text ∧
      Json.parse? text = some (.arr items) ∧
      List.Forall₂ Details.ShownIn (engine.report method) items) ∧
    (engine.report method).map (·.candidate) = engine.enumerate method ∧
    (engine.enumerate method).Nodup ∧
    (∀ row ∈ engine.report method, ∃ m ∈ engine.mutators, m.id = row.candidate.mutator ∧
      row.mutator = m.name ∧ row.group = m.group ∧
      row.line = method.body.lineAt? row.candidate.index) ∧
    (∀ row ∈ engine.report method, ∀ p : Pick, p.Fits row →
      p.find? (engine.enumerate method) = some row.candidate ∧
      engine.apply method row.candidate ≠ method.body ∧
      run files (.apply subject choice p false) =
        .ok (engine.apply method row.candidate).listing ∧
      run files (.apply subject choice p true) =
        ((engine.apply method row.candidate).write.mapError .writing).map fun code =>
          "0x" ++ Hex.encode code.bytes ++ "\n") ∧
    ∀ p : Pick, (∀ row ∈ engine.report method, ¬ p.Fits row) → ∀ hex,
      run files (.apply subject choice p hex) = .error (.noSuchMutation p.mutator p.index) := by
  refine ⟨exists_rows loaded chosen, exists_items loaded chosen,
    Engine.map_candidate_report engine method, ?_, ?_, ?_, ?_⟩
  · exact nodup_enumerate chosen method
  · intro row listed
    obtain ⟨c, -, m, member, named, rfl⟩ := Engine.mem_report.mp listed
    exact ⟨m, member, named, rfl, rfl, rfl⟩
  · intro row listed p fits
    have printed := run_apply_of_ok loaded chosen (Pick.mutant_of_fits listed fits)
    obtain ⟨c, candidate, m, -, -, rfl⟩ := Engine.mem_report.mp listed
    exact ⟨Pick.find?_eq_some_iff.mpr ⟨_, listed, fits, rfl⟩, Engine.apply_ne candidate, printed⟩
  · intro p none hex
    exact run_apply_of_error loaded chosen (Pick.mutant_of_not_fits none) hex

end

/-- The identifier in capitals, without a description, and one letter that no description has. -/
theorem apply_reported_add :
    let files : Files := fun path =>
      if path = "add.asm" then some (.text "LINE 3\nILOAD 0\nILOAD 1\nIADD\nIRETURN\n") else none
    let subject : Subject := { input := "add.asm", className := "org.Calc", name := "add" }
    let choice : Choice := ⟨none, some "aod, ADDITION_MUTATOR,aor.subtraction"⟩
    let engine : Engine :=
      ⟨[.operator .add, .operator .sub, .deletion .first, .deletion .second], true⟩
    let location : Location := ⟨⟨"org/Calc"⟩, ⟨"add", "()V"⟩⟩
    let method : Method := ⟨location, [.line 3, .code (.access (.named .iload) 0),
      .code (.access (.named .iload) 1), .code (.plain (.named .iadd)),
      .code (.plain (.named .ireturn))]⟩
    let row : Details := ⟨⟨location, 3, "aor.subtraction", "AOR: Changed + to -"⟩, some 3,
      "SUBTRACTION_MUTATOR", .aor⟩
    subject.method files = .ok method ∧ choice.engine files = .ok engine ∧
      row ∈ engine.report method ∧
      run files (.enumerate subject choice false) = .ok
        ("org.Calc::add()V: 3 mutations\n" ++
          "    3      3  SUBTRACTION_MUTATOR        AOR: Changed + to -\n" ++
          "    3      3  DELETE_FIRST_OPERAND       " ++
          "AOD: Removed the first operand from an arithmetic expression\n" ++
          "    3      3  DELETE_SECOND_OPERAND      " ++
          "AOD: Removed the second operand from an arithmetic expression\n") ∧
      (∃ rows : List String, rows.length = 3 ∧
        List.Forall₂ Details.ShownAs (engine.report method) rows) ∧
      (∃ text items, run files (.enumerate subject choice true) = .ok text ∧
        Json.parse? text = some (.arr items) ∧ items.length = 3) ∧
      run files (.apply subject choice ⟨"AOR.SUBTRACTION", 3, none⟩ false) =
        .ok "    LINE 3\n    ILOAD 0\n    ILOAD 1\n    ISUB\n    IRETURN\n" ∧
      run files (.apply subject choice ⟨"AOR.SUBTRACTION", 3, some "AOR: Changed + to *"⟩ true) =
        .error (.noSuchMutation "AOR.SUBTRACTION" 3) := by
  intro files subject choice engine location method row
  have loaded : subject.method files = .ok method := by decide +kernel
  have chosen : choice.engine files = .ok engine := by decide +kernel
  have listed : row ∈ engine.report method := by decide +kernel
  have count : (engine.report method).length = 3 := by decide +kernel
  obtain ⟨⟨rows, -, shown, -⟩, ⟨text, items, printed, parsed, objects⟩, -, -, -, carried,
    refused⟩ := apply_reported loaded chosen
  refine ⟨loaded, chosen, listed, by decide +kernel, ⟨rows, shown.length_eq ▸ count, shown⟩,
    ⟨text, items, printed, parsed, objects.length_eq ▸ count⟩, ?_, refused _ ?_ true⟩
  · have fits : Pick.Fits ⟨"AOR.SUBTRACTION", 3, none⟩ row :=
      ⟨.inr (by decide +kernel), rfl, by simp⟩
    obtain ⟨-, -, printed, -⟩ := carried row listed _ fits
    rw [printed]
    decide +kernel
  · have other : ∀ row ∈ engine.report method,
        row.candidate.description ≠ "AOR: Changed + to *" := by decide +kernel
    rintro row listed ⟨-, -, same⟩
    exact other row listed (same _ rfl).symm

end Command

end BytecodeMutation
