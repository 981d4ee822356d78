import BytecodeMutation.Mutation.Engine
import BytecodeMutation.Proofs.Traversal

/-!
What the catalog means. The tables of the mutators come down to one rule each, about the operator
or the condition that an opcode stands for: `Offers` says which edits there are, and
`Mutator.edit?_eq_some_iff` that the tables hold just these.
-/
namespace BytecodeMutation

namespace Opcode

theorem arithmetic?_eq_some_iff {op : Opcode} {a : Arithmetic} :
    op.arithmetic? = some a ↔ op = .named a.mnemonic := by
  cases op with
  | unknown b => simp [arithmetic?, mnemonic?]
  | named m =>
    rw [Opcode.named.injEq, @eq_comm _ m, Arithmetic.mnemonic_eq_iff]
    rfl

theorem comparison?_eq_some_iff {op : Opcode} {c : Comparison} :
    op.comparison? = some c ↔ ∃ m, op = .named m ∧ c.mnemonic? = some m := by
  cases op with
  | unknown b => simp [comparison?, mnemonic?]
  | named m =>
    simp only [Opcode.named.injEq, exists_eq_left', Comparison.mnemonic?_eq_some_iff]
    rfl

/-- Arithmetic finds its operands on the stack. -/
theorem shape_of_arithmetic {op : Opcode} {a : Arithmetic} (h : op.arithmetic? = some a) :
    op.shape = .bare := by
  obtain rfl := arithmetic?_eq_some_iff.mp h
  obtain ⟨operator, type⟩ := a
  cases operator <;> cases type <;> rfl

/-- Every conditional branch has a short distance. -/
theorem shape_of_comparison {op : Opcode} {c : Comparison} (h : op.comparison? = some c) :
    op.shape = .branch16 := by
  obtain ⟨m, rfl, found⟩ := comparison?_eq_some_iff.mp h
  obtain ⟨family, relation⟩ := c
  cases family <;> cases relation <;> cases found <;> rfl

end Opcode

/-- A family has every relation if it is ordered, and else the equalities. -/
theorem Comparison.exists_mnemonic_iff {c : Comparison} :
    (∃ m, c.mnemonic? = some m) ↔ c.relation.isEquality ∨ c.family.isOrdered := by
  obtain ⟨family, relation⟩ := c
  rw [← Option.isSome_iff_exists]
  cases family <;> cases relation <;> decide

namespace Table

/-- Where no opcode has two substitutions, looking up finds all entries. -/
theorem lookup?_eq_some_iff {t : Table} {op : Opcode} {s : Substitution}
    (functional : ∀ s', (op, s') ∈ t.entries → (op, s) ∈ t.entries → s' = s) :
    t.lookup? op = some s ↔ (op, s) ∈ t.entries := by
  constructor
  · intro h
    obtain ⟨⟨op', s'⟩, found, rfl⟩ := Option.map_eq_some_iff.mp h
    have same := List.find?_some found
    obtain rfl : op' = op := eq_of_beq same
    exact List.mem_of_find?_eq_some found
  · intro listed
    have found : t.entries.find? (·.1 == op) = some (op, s) := by
      rw [find?_eq_some_iff_of_unique, beq_iff_eq]
      · exact ⟨listed, rfl⟩
      · rintro - - ⟨op', s'⟩ listed' same
        obtain rfl : op' = op := eq_of_beq same
        rw [functional s' listed' listed]
    rw [lookup?, found, Option.map_some]

end Table

/-- The rows by one rule: every other operator, on every number type. -/
def Operator.changes (o : Operator) : List (Opcode × Substitution) :=
  (Operator.all.filter (· ≠ o)).flatMap fun old => NumberType.all.map fun type =>
    (.named (Arithmetic.mnemonic ⟨old, type⟩), ⟨.named (Arithmetic.mnemonic ⟨o, type⟩),
      "AOR: Changed " ++ old.symbol ++ " to " ++ o.symbol⟩)

/-- The rows by one rule: every other relation, in every family that has both. -/
def Relation.changes (r : Relation) : List (Opcode × Substitution) :=
  (Relation.all.filter (· ≠ r)).flatMap fun old => Family.all.filterMap fun family => do
    let before ← Comparison.mnemonic? ⟨family, old⟩
    let after ← Comparison.mnemonic? ⟨family, r⟩
    return (.named before, ⟨.named after, "ROR: Changed " ++ old.symbol ++ " to " ++ r.symbol⟩)

theorem Operator.substitutions_eq (o : Operator) : o.substitutions = o.changes := by
  cases o <;> decide +kernel

/-- The tables of the relations list the rows in orders of their own. -/
theorem Relation.substitutions_perm (r : Relation) : r.substitutions.Perm r.changes := by
  cases r <;> decide +kernel

theorem Operator.mem_substitutions {o : Operator} {op : Opcode} {s : Substitution} :
    (op, s) ∈ o.substitutions ↔
      ∃ a : Arithmetic, op.arithmetic? = some a ∧ a.operator ≠ o ∧
        s = ⟨.named (Arithmetic.mnemonic ⟨o, a.type⟩),
          "AOR: Changed " ++ a.operator.symbol ++ " to " ++ o.symbol⟩ := by
  have every (old : Operator) : old ∈ Operator.all := by cases old <;> decide
  have typed (type : NumberType) : type ∈ NumberType.all := by cases type <;> decide
  simp only [substitutions_eq, changes, List.mem_flatMap, List.mem_filter, List.mem_map,
    Prod.mk.injEq, every, typed, true_and, ne_eq, decide_eq_true_eq, Opcode.arithmetic?_eq_some_iff]
  constructor
  · rintro ⟨old, other, type, rfl, rfl⟩
    exact ⟨⟨old, type⟩, rfl, other, rfl⟩
  · rintro ⟨⟨old, type⟩, rfl, other, rfl⟩
    exact ⟨old, other, type, rfl, rfl⟩

theorem Relation.mem_substitutions {r : Relation} {op : Opcode} {s : Substitution} :
    (op, s) ∈ r.substitutions ↔
      ∃ (c : Comparison) (after : Mnemonic), op.comparison? = some c ∧ c.relation ≠ r ∧
        Comparison.mnemonic? ⟨c.family, r⟩ = some after ∧
        s = ⟨.named after, "ROR: Changed " ++ c.relation.symbol ++ " to " ++ r.symbol⟩ := by
  have every (old : Relation) : old ∈ Relation.all := by cases old <;> decide
  have known (family : Family) : family ∈ Family.all := by cases family <;> decide
  rw [(substitutions_perm r).mem_iff]
  simp only [changes, List.mem_flatMap, List.mem_filter, List.mem_filterMap, every, known,
    true_and, ne_eq, decide_eq_true_eq, Opcode.comparison?_eq_some_iff, bind,
    Option.bind_eq_some_iff, pure, Option.some.injEq, Prod.mk.injEq]
  constructor
  · rintro ⟨old, other, family, before, found, after, fits, rfl, rfl⟩
    exact ⟨⟨family, old⟩, after, ⟨before, rfl, found⟩, other, fits, rfl⟩
  · rintro ⟨⟨family, old⟩, after, ⟨before, rfl, found⟩, other, fits, rfl⟩
    exact ⟨old, other, family, before, found, after, fits, rfl, rfl⟩

/-- The edits that a mutator offers, by the meaning of the opcodes. An operator takes the place of
another one on operands of the same type, and a relation that of another one in the same family. A
deletion leaves the other operand, by the stack opcodes for operands of its width. -/
inductive Offers : Mutator → Element → Edit → Prop
  | operator {o : Operator} {before after : Opcode} {a : Arithmetic}
      (was : before.arithmetic? = some a) (other : a.operator ≠ o)
      (becomes : after.arithmetic? = some ⟨o, a.type⟩) :
      Offers (.operator o) (.code (.plain before))
        ⟨"AOR: Changed " ++ a.operator.symbol ++ " to " ++ o.symbol, [.code (.plain after)]⟩
  | relation {r : Relation} {before after : Opcode} {c : Comparison} {target : Label}
      (was : before.comparison? = some c) (other : c.relation ≠ r)
      (becomes : after.comparison? = some ⟨c.family, r⟩) :
      Offers (.relation r) (.code (.jump before target))
        ⟨"ROR: Changed " ++ c.relation.symbol ++ " to " ++ r.symbol, [.code (.jump after target)]⟩
  | firstSingle {before : Opcode} {a : Arithmetic} (was : before.arithmetic? = some a)
      (narrow : a.type.width = .single) :
      Offers (.deletion .first) (.code (.plain before)) ⟨Operand.first.description,
        [.code (.plain (.named .swap)), .code (.plain (.named .pop))]⟩
  | firstDouble {before : Opcode} {a : Arithmetic} (was : before.arithmetic? = some a)
      (wide : a.type.width = .double) :
      Offers (.deletion .first) (.code (.plain before)) ⟨Operand.first.description,
        [.code (.plain (.named .dup2X2)), .code (.plain (.named .pop2)),
          .code (.plain (.named .pop2))]⟩
  | secondSingle {before : Opcode} {a : Arithmetic} (was : before.arithmetic? = some a)
      (narrow : a.type.width = .single) :
      Offers (.deletion .second) (.code (.plain before))
        ⟨Operand.second.description, [.code (.plain (.named .pop))]⟩
  | secondDouble {before : Opcode} {a : Arithmetic} (was : before.arithmetic? = some a)
      (wide : a.type.width = .double) :
      Offers (.deletion .second) (.code (.plain before))
        ⟨Operand.second.description, [.code (.plain (.named .pop2))]⟩

namespace Operand

theorem offers_of_edit {operand : Operand} {e : Element} {x : Edit} (h : operand.edit? e = some x) :
    Offers (.deletion operand) e x := by
  unfold edit? at h
  split at h
  · next op =>
    obtain ⟨width, sized, rfl⟩ := Option.map_eq_some_iff.mp h
    obtain ⟨a, was, rfl⟩ := Opcode.operandWidth?_eq_some_iff.mp sized
    cases operand with
    | first =>
      cases width : a.type.width with
      | single => exact .firstSingle was width
      | double => exact .firstDouble was width
    | second =>
      cases width : a.type.width with
      | single => exact .secondSingle was width
      | double => exact .secondDouble was width
  · cases h

theorem edit?_of_arithmetic {operand : Operand} {op : Opcode} {a : Arithmetic}
    (was : op.arithmetic? = some a) : operand.edit? (.code (.plain op)) =
      some ⟨operand.description, (operand.replacement a.type.width).map fun m =>
        .code (.plain (.named m))⟩ := by
  simp only [edit?, Opcode.operandWidth?_eq, was, Option.map_some]

end Operand

namespace Mutator

theorem lookup?_operator {o : Operator} {op : Opcode} {s : Substitution} :
    Table.lookup? ⟨operatorTableName o, o.substitutions⟩ op = some s ↔
      (op, s) ∈ o.substitutions := by
  apply Table.lookup?_eq_some_iff
  intro s' listed' listed
  obtain ⟨a', was', -, rfl⟩ := Operator.mem_substitutions.mp listed'
  obtain ⟨a, was, -, rfl⟩ := Operator.mem_substitutions.mp listed
  cases was'.symm.trans was
  rfl

theorem lookup?_relation {r : Relation} {op : Opcode} {s : Substitution} :
    Table.lookup? ⟨relationTableName r, r.substitutions⟩ op = some s ↔
      (op, s) ∈ r.substitutions := by
  apply Table.lookup?_eq_some_iff
  intro s' listed' listed
  obtain ⟨c', after', was', -, fits', rfl⟩ := Relation.mem_substitutions.mp listed'
  obtain ⟨c, after, was, -, fits, rfl⟩ := Relation.mem_substitutions.mp listed
  cases was'.symm.trans was
  cases fits'.symm.trans fits
  rfl

/-- The tables hold what the opcodes mean, and no more. -/
theorem edit?_eq_some_iff {m : Mutator} {e : Element} {x : Edit} :
    m.edit? e = some x ↔ Offers m e x := by
  constructor
  · intro h
    cases m with
    | operator o =>
      change (Table.edit? ⟨operatorTableName o, o.substitutions⟩ .plain e) = some x at h
      unfold Table.edit? at h
      split at h
      · obtain ⟨s, found, rfl⟩ := Option.map_eq_some_iff.mp h
        obtain ⟨a, was, other, rfl⟩ := Operator.mem_substitutions.mp (lookup?_operator.mp found)
        exact .operator was other (Opcode.arithmetic?_eq_some_iff.mpr rfl)
      · next kind => cases kind
      · cases h
    | relation r =>
      change (Table.edit? ⟨relationTableName r, r.substitutions⟩ .branch e) = some x at h
      unfold Table.edit? at h
      split at h
      · next kind => cases kind
      · obtain ⟨s, found, rfl⟩ := Option.map_eq_some_iff.mp h
        obtain ⟨c, after, was, other, fits, rfl⟩ :=
          Relation.mem_substitutions.mp (lookup?_relation.mp found)
        exact .relation was other (Opcode.comparison?_eq_some_iff.mpr ⟨after, rfl, fits⟩)
      · cases h
    | deletion operand => exact Operand.offers_of_edit h
  · intro offers
    cases offers with
    | @operator o before after a was other becomes =>
      obtain rfl := Opcode.arithmetic?_eq_some_iff.mp becomes
      have found := lookup?_operator.mpr (Operator.mem_substitutions.mpr ⟨a, was, other, rfl⟩)
      change (Table.lookup? ⟨operatorTableName o, o.substitutions⟩ before).map _ = _
      rw [found]
      rfl
    | @relation r before after c target was other becomes =>
      obtain ⟨m, rfl, fits⟩ := Opcode.comparison?_eq_some_iff.mp becomes
      have found :=
        lookup?_relation.mpr (Relation.mem_substitutions.mpr ⟨c, m, was, other, fits, rfl⟩)
      change (Table.lookup? ⟨relationTableName r, r.substitutions⟩ before).map _ = _
      rw [found]
      rfl
    | firstSingle was narrow => exact (Operand.edit?_of_arithmetic was).trans (by rw [narrow]; rfl)
    | firstDouble was wide => exact (Operand.edit?_of_arithmetic was).trans (by rw [wide]; rfl)
    | secondSingle was narrow => exact (Operand.edit?_of_arithmetic was).trans (by rw [narrow]; rfl)
    | secondDouble was wide => exact (Operand.edit?_of_arithmetic was).trans (by rw [wide]; rfl)

/-- How a mutator describes what it does to an element, if it applies to it. -/
def description? : Mutator → Element → Option String
  | operator o, .code (.plain op) =>
    (op.arithmetic?.filter fun a => a.operator ≠ o).map fun a =>
      "AOR: Changed " ++ a.operator.symbol ++ " to " ++ o.symbol
  | relation r, .code (.jump op _) =>
    (op.comparison?.filter fun c => c.relation ≠ r ∧ (r.isEquality ∨ c.family.isOrdered)).map
      fun c => "ROR: Changed " ++ c.relation.symbol ++ " to " ++ r.symbol
  | deletion operand, .code (.plain op) => op.arithmetic?.map fun _ => operand.description
  | _, _ => none

theorem description?_eq_some_iff {m : Mutator} {e : Element} {d : String} :
    m.description? e = some d ↔ ∃ x, Offers m e x ∧ x.description = d := by
  constructor
  · intro h
    unfold description? at h
    split at h
    · next o op =>
      simp only [Option.map_eq_some_iff, Option.filter_eq_some_iff, decide_eq_true_eq] at h
      obtain ⟨a, ⟨was, other⟩, rfl⟩ := h
      exact ⟨_, .operator was other (Opcode.arithmetic?_eq_some_iff.mpr rfl), rfl⟩
    · next r op target =>
      simp only [Option.map_eq_some_iff, Option.filter_eq_some_iff, decide_eq_true_eq] at h
      obtain ⟨c, ⟨was, other, fits⟩, rfl⟩ := h
      obtain ⟨m, found⟩ := (Comparison.exists_mnemonic_iff (c := ⟨c.family, r⟩)).mpr fits
      exact ⟨_, .relation was other (Opcode.comparison?_eq_some_iff.mpr ⟨m, rfl, found⟩), rfl⟩
    · next operand op =>
      obtain ⟨a, was, rfl⟩ := Option.map_eq_some_iff.mp h
      exact ⟨_, Operand.offers_of_edit (Operand.edit?_of_arithmetic was), rfl⟩
    · cases h
  · rintro ⟨x, offers, rfl⟩
    cases offers with
    | @operator o before after a was other becomes =>
      simp only [description?, was, Option.map_eq_some_iff, Option.filter_eq_some_iff,
        decide_eq_true_eq]
      exact ⟨a, ⟨rfl, other⟩, rfl⟩
    | @relation r before after c target was other becomes =>
      obtain ⟨m, -, found⟩ := Opcode.comparison?_eq_some_iff.mp becomes
      have fits := Comparison.exists_mnemonic_iff.mp ⟨m, found⟩
      simp only [description?, was, Option.map_eq_some_iff, Option.filter_eq_some_iff,
        decide_eq_true_eq]
      exact ⟨c, ⟨rfl, other, fits⟩, rfl⟩
    | firstSingle was narrow | firstDouble was wide | secondSingle was narrow
    | secondDouble was wide => simp [description?, was]

/-- The descriptions of the edits are those that the rule gives. -/
theorem map_description_edit? (m : Mutator) (e : Element) :
    (m.edit? e).map (·.description) = m.description? e := by
  apply Option.ext
  intro d
  rw [description?_eq_some_iff, Option.map_eq_some_iff]
  simp only [edit?_eq_some_iff]

end Mutator

end BytecodeMutation
