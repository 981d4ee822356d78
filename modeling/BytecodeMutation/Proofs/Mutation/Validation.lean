import Mathlib.Data.List.Nodup
import Mathlib.Data.List.Forall2
import BytecodeMutation.Proofs.Mutation.Stages
import BytecodeMutation.Proofs.Stack.Exchange

/-!
What a validated table may do to a body. The checks of `Table.validate` leave one entry for each
opcode, and a replacement that pops and pushes as much. So a stage that is made of the table
exchanges opcodes one by one, and no run of the stack can tell the difference.
-/
namespace BytecodeMutation

/-- What a conditional branch takes from the stack. -/
def Family.effect : Family → Stack.Effect
  | .zero | .null => ⟨1, 0⟩
  | .int | .reference => ⟨2, 0⟩

/-- A conditional branch pops what its family compares. -/
theorem Stack.opcodeEffect?_of_comparison {op : Opcode} {c : Comparison}
    (h : op.comparison? = some c) : Stack.opcodeEffect? op = some c.family.effect := by
  obtain ⟨m, rfl, found⟩ := Opcode.comparison?_eq_some_iff.mp h
  obtain ⟨family, relation⟩ := c
  cases family <;> cases relation <;> cases found <;> rfl

namespace Table

/-- What the checks ask of an entry by itself. -/
structure Consistent (kind : TableKind) (op : Opcode) (s : Substitution) : Prop where
  changes : op ≠ s.replacement
  described : ∃ ending, ending? op s.replacement = some ending ∧
    ending.toList <:+ s.description.toList
  fits : Table.fits kind op s.replacement = true

/-- An element and what takes its place: the same instruction with the replacement that is the only
entry of its opcode. Of a branch the target stays, and what it compares. -/
inductive Exchanges (t : Table) : TableKind → Element → Element → Prop
  | plain {op s} (only : t.entries.filter (·.1 = op) = [(op, s)]) :
      Exchanges t .plain (.code (.plain op)) (.code (.plain s.replacement))
  | branch {op s target before after} (only : t.entries.filter (·.1 = op) = [(op, s)])
      (was : op.comparison? = some before) (becomes : s.replacement.comparison? = some after)
      (family : after.family = before.family) :
      Exchanges t .branch (.code (.jump op target)) (.code (.jump s.replacement target))

section
variable {t : Table} {kind : TableKind} {op : Opcode} {s : Substitution}

theorem entryFault?_eq_none_iff {seen : List Opcode} :
    entryFault? kind seen op s = none ↔ op ∉ seen ∧ Consistent kind op s := by
  unfold entryFault?
  constructor
  · intro h
    split at h
    · cases h
    · next changes =>
      split at h
      · cases h
      · next fresh =>
        split at h
        · cases h
        · next ending found =>
          split at h
          · cases h
          · next suffix =>
            split at h
            · next fits =>
              have described : ending.toList <:+ s.description.toList := by
                simpa using suffix
              exact ⟨fresh, changes, ⟨ending, found, described⟩, fits⟩
            · cases h
  · rintro ⟨fresh, changes, ⟨ending, found, suffix⟩, fits⟩
    have described : ending.toList.isSuffixOf s.description.toList = true := by simpa using suffix
    rw [if_neg changes, if_neg fresh, found]
    simp only [described, fits, Bool.not_true, Bool.false_eq_true, if_false, if_true]

/-- No entry is at fault if each one is consistent and no opcode comes twice. -/
theorem firstFault?_eq_none_iff {seen : List Opcode} {entries : List (Opcode × Substitution)} :
    firstFault? kind seen entries = none ↔
      (entries.map (·.1)).Nodup ∧ (∀ p ∈ entries, p.1 ∉ seen) ∧
        ∀ p ∈ entries, Consistent kind p.1 p.2 := by
  induction entries generalizing seen with
  | nil => simp [firstFault?]
  | cons p entries ih =>
    obtain ⟨op, s⟩ := p
    rw [firstFault?, Option.or_eq_none_iff, entryFault?_eq_none_iff, ih, List.map_cons,
      List.nodup_cons, List.forall_mem_cons, List.forall_mem_cons]
    simp only [List.mem_cons, not_or, List.mem_map, not_exists, not_and]
    constructor
    · rintro ⟨⟨fresh, good⟩, distinct, others, goods⟩
      exact ⟨⟨fun p hp => (others p hp).1, distinct⟩, ⟨fresh, fun p hp => (others p hp).2⟩, good,
        goods⟩
    · rintro ⟨⟨unlike, distinct⟩, ⟨fresh, others⟩, good, goods⟩
      exact ⟨⟨fresh, good⟩, distinct, fun p hp => ⟨unlike p hp, others p hp⟩, goods⟩

theorem validate_eq_ok_iff : t.validate kind = .ok () ↔
    (t.entries.map (·.1)).Nodup ∧ ∀ p ∈ t.entries, Consistent kind p.1 p.2 := by
  have checked : t.validate kind = .ok () ↔ firstFault? kind [] t.entries = none := by
    unfold validate
    cases firstFault? kind [] t.entries <;> simp
  simp only [checked, firstFault?_eq_none_iff, List.not_mem_nil, not_false_eq_true, implies_true,
    true_and]

/-- Where no opcode comes twice, what is looked up is the only entry. -/
theorem filter_of_lookup? (distinct : (t.entries.map (·.1)).Nodup)
    (found : t.lookup? op = some s) : t.entries.filter (·.1 = op) = [(op, s)] := by
  obtain ⟨⟨op', s'⟩, first, rfl⟩ := Option.map_eq_some_iff.mp found
  obtain ⟨same, before, after, parts, others⟩ := List.find?_eq_some_iff_append.mp first
  obtain rfl : op' = op := eq_of_beq same
  rw [parts, List.map_append, List.map_cons, List.nodup_append, List.nodup_cons] at distinct
  have left : before.filter (·.1 = op') = [] := by
    rw [List.filter_eq_nil_iff]
    intro p hp
    simpa using others p hp
  have right : after.filter (·.1 = op') = [] := by
    rw [List.filter_eq_nil_iff]
    intro p hp same
    exact distinct.2.1.1 (List.mem_map.mpr ⟨p, hp, of_decide_eq_true same⟩)
  rw [parts, List.filter_append, left, List.filter_cons_of_pos (by simp), right, List.nil_append]

/-- The edit of an element in a validated table. -/
theorem exchanges_of_edit? (valid : t.validate kind = .ok ()) {e : Element} {x : Edit}
    (offered : t.edit? kind e = some x) :
    ∃ e', x.replacement = [e'] ∧ Exchanges t kind e e' ∧ Stack.effect? e' = Stack.effect? e := by
  obtain ⟨distinct, consistent⟩ := validate_eq_ok_iff.mp valid
  unfold edit? at offered
  split at offered
  · next op =>
    obtain ⟨s, found, rfl⟩ := Option.map_eq_some_iff.mp offered
    have only := filter_of_lookup? distinct found
    have fits :=
      (consistent (op, s) (List.mem_of_mem_filter (only ▸ List.mem_singleton_self _))).fits
    simp only [Table.fits, Bool.and_eq_true, beq_iff_eq] at fits
    exact ⟨_, rfl, .plain only, fits.2.symm⟩
  · next op target =>
    obtain ⟨s, found, rfl⟩ := Option.map_eq_some_iff.mp offered
    have only := filter_of_lookup? distinct found
    have fits :=
      (consistent (op, s) (List.mem_of_mem_filter (only ▸ List.mem_singleton_self _))).fits
    simp only [Table.fits, Bool.and_eq_true, beq_iff_eq] at fits
    obtain ⟨before, was⟩ := Option.isSome_iff_exists.mp fits.1
    obtain ⟨after, becomes, family⟩ := Option.map_eq_some_iff.mp (was ▸ fits.2).symm
    refine ⟨_, rfl, .branch only was becomes family, ?_⟩
    -- nothing compares the effects of branches, but the family fixes them
    change Stack.opcodeEffect? s.replacement = Stack.opcodeEffect? op
    rw [Stack.opcodeEffect?_of_comparison was, Stack.opcodeEffect?_of_comparison becomes, family]
  · cases offered

/-- Whether a stage makes the edit of an element at its index. -/
def Selected (t : Table) (kind : TableKind) (mutator : String) (skip : Nat → Bool) (scope : Scope)
    (p : Element × Nat) : Prop :=
  skip p.2 = false ∧ ∃ x, t.edit? kind p.1 = some x ∧
    scope.selects (scope.candidate p.2 ⟨mutator, x.description⟩)

/-- What stands in the place of an element after a stage. -/
structure Keeps (t : Table) (kind : TableKind) (mutator : String) (skip : Nat → Bool)
    (scope : Scope) (p : Element × Nat) (e' : Element) : Prop where
  exchanged : t.Selected kind mutator skip scope p → t.Exchanges kind p.1 e'
  unchanged : ¬ t.Selected kind mutator skip scope p → e' = p.1
  effect : Stack.effect? e' = Stack.effect? p.1

/-- A stage puts one element in the place of each one. -/
theorem emit_stage (valid : t.validate kind = .ok ()) (mutator : String) (skip : Nat → Bool)
    (scope : Scope) (p : Element × Nat) :
    ∃ e', (t.stage kind mutator).emit skip scope p = [(e', p.2)] ∧
      t.Keeps kind mutator skip scope p e' := by
  have kept (other : ¬ t.Selected kind mutator skip scope p) :
      t.Keeps kind mutator skip scope p p.1 :=
    ⟨fun selected => absurd selected other, fun _ => rfl, rfl⟩
  unfold Stage.emit
  cases skipped : skip p.2 with
  | true =>
    refine ⟨p.1, rfl, kept ?_⟩
    rintro ⟨shown, -⟩
    cases skipped.symm.trans shown
  | false =>
    cases offered : t.edit? kind p.1 with
    | none =>
      refine ⟨p.1, by simp [stage, Stage.ofEdit, offered], kept ?_⟩
      rintro ⟨-, x, found, -⟩
      cases offered.symm.trans found
    | some x =>
      by_cases chosen : scope.selects (scope.candidate p.2 ⟨mutator, x.description⟩)
      · obtain ⟨e', replacement, exchanges, effect⟩ := exchanges_of_edit? valid offered
        refine ⟨e', by simp [stage, Stage.ofEdit, offered, chosen, replacement], fun _ => exchanges,
          fun other => absurd ⟨skipped, x, offered, chosen⟩ other, effect⟩
      · refine ⟨p.1, by simp [stage, Stage.ofEdit, offered, chosen], kept ?_⟩
        rintro ⟨-, y, found, chosen'⟩
        cases offered.symm.trans found
        exact chosen chosen'

end

end Table

theorem forall₂_flatMap {α β : Type} {R : α → β → Prop} {f : α → List β} {xs : List α}
    (each : ∀ x, ∃ y, f x = [y] ∧ R x y) : List.Forall₂ R xs (xs.flatMap f) := by
  induction xs with
  | nil => exact .nil
  | cons x xs ih =>
    obtain ⟨y, single, related⟩ := each x
    rw [List.flatMap_cons, single]
    exact .cons related ih

namespace Table

/-- A validated table is safe for every body: a stage that is made of it exchanges the opcodes of
selected instructions through their only entries and leaves all else as it is, and the stack runs
through the same depths or stops at the same element for the same reason. -/
theorem run_of_validate {t : Table} {kind : TableKind} (valid : t.validate kind = .ok ())
    (mutator : String) (skip : Nat → Bool) (body : Body) (session : Session) :
    let out := (Pipeline.run ⟨[t.stage kind mutator], skip⟩ body session).1
    out.length = body.length ∧
      List.Forall₂ (t.Keeps kind mutator skip session.scope) body.zipIdx out ∧
      ∀ initial, (Stack.depths out initial).mapError Stack.DepthError.site =
        (Stack.depths body initial).mapError Stack.DepthError.site := by
  intro out
  have kept : List.Forall₂ (t.Keeps kind mutator skip session.scope) body.zipIdx out := by
    have blocks : out = body.zipIdx.flatMap fun p => (Pipeline.through skip session.scope
        [t.stage kind mutator] p).map (·.1) := Pipeline.run_eq_flatMap _ body session
    rw [blocks]
    apply forall₂_flatMap
    intro p
    obtain ⟨e', emitted, keeps⟩ := emit_stage valid mutator skip session.scope p
    refine ⟨e', ?_, keeps⟩
    simp [Pipeline.through, emitted]
  have effects : out.map Stack.effect? = body.map Stack.effect? := by
    have each : List.Forall₂ (· = ·) (out.map Stack.effect?)
        ((body.zipIdx.map (·.1)).map Stack.effect?) := by
      rw [List.map_map, List.forall₂_map_left_iff, List.forall₂_map_right_iff]
      exact kept.flip.imp fun e' p keeps => keeps.effect
    rwa [List.forall₂_eq_eq_eq, List.zipIdx_map_fst] at each
  exact ⟨by rw [← kept.length_eq, List.length_zipIdx], kept, Stack.depths_congr effects⟩

/-- Two families in one table. A skipped branch stays, and so does an opcode in the place of a plain
instruction, where no branch belongs. -/
theorem run_of_validate_flip :
    let t : Table := ⟨"flip", [(.named .ifeq, ⟨.named .ifne, "== to !="⟩),
      (.named .ifIcmplt, ⟨.named .ifIcmpge, "Changed < to >="⟩)]⟩
    let body : Body := [.label ⟨0⟩, .code (.jump (.named .ifeq) ⟨0⟩),
      .code (.jump (.named .ifIcmplt) ⟨1⟩), .code (.plain (.named .ifeq)),
      .code (.jump (.named .ifeq) ⟨0⟩)]
    let session : Session := .start ⟨⟨⟨"A"⟩, ⟨"f", "()V"⟩⟩, none⟩
    let out := (Pipeline.run ⟨[t.stage .branch "FLIP"], fun i => i == 4⟩ body session).1
    t.validate .branch = .ok () ∧
      out = [.label ⟨0⟩, .code (.jump (.named .ifne) ⟨0⟩), .code (.jump (.named .ifIcmpge) ⟨1⟩),
        .code (.plain (.named .ifeq)), .code (.jump (.named .ifeq) ⟨0⟩)] ∧
      ∀ initial, (Stack.depths out initial).mapError Stack.DepthError.site =
        (Stack.depths body initial).mapError Stack.DepthError.site := by
  intro t body session out
  have valid : t.validate .branch = .ok () := by decide
  obtain ⟨-, -, same⟩ := run_of_validate valid "FLIP" (fun i => i == 4) body session
  exact ⟨valid, rfl, same⟩

end Table

end BytecodeMutation
