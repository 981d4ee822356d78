import BytecodeMutation.Proofs.Body.Outcome
import BytecodeMutation.Proofs.Body.Shift
import BytecodeMutation.Proofs.Code.Field

/-!
Layout and emission. The layout places elements by their sizes; emission goes through the body once
more and has only the bytes so far to tell where it is. `emit_cons_eq_ok_iff` is the step: an
element is written in as many bytes as the layout left for it. So both always stand at the same
offset and stop at the same instruction, and `emission_follows_layout` says what this means for
every label, switch and distance.
-/
namespace BytecodeMutation

namespace Element
open Body (target)

/-- The bytes of an element at offset `pc`, with targets from a table. Markers have none. -/
def write (offsets : Std.HashMap UInt32 Nat) (pc : Nat) :
    Element → Except WriteError (List UInt8)
  | code i => do (← i.mapM (target offsets)).write pc
  | _ => .ok []

theorem target_eq_ok_iff {offsets : Std.HashMap UInt32 Nat} {l : Label} {t : Target} :
    target offsets l = .ok t ↔
      offsets[l.number]?.isSome ∧ t = ⟨l, offsets[l.number]?.getD 0⟩ := by
  rw [target]
  cases offsets[l.number]? <;> simp [eq_comm]

theorem length_of_write {offsets : Std.HashMap UInt32 Nat} {pc : Nat} {e : Element}
    {bs : List UInt8} (written : e.write offsets pc = .ok bs) : bs.length = e.size pc := by
  cases e with
  | code i =>
    obtain ⟨j, found, written⟩ := bind_eq_ok_iff.mp written
    obtain ⟨-, rfl⟩ := (Instruction.mapM_eq_ok_iff fun _ _ => target_eq_ok_iff).mp found
    exact (Instruction.length_of_write written).trans (Instruction.size_map ..)
  | _ => cases written; rfl

end Element

namespace Body
open Instruction (placed)

/-- The bytes of each element. An element is written at the offset where the bytes before it end. -/
def emit (offsets : Std.HashMap UInt32 Nat) (pc : Nat) :
    Body → Except WriteError (List (List UInt8))
  | [] => .ok []
  | e :: body => do
    let bs ← e.write offsets pc
    return bs :: (← emit offsets (pc + bs.length) body)

section
variable {offsets : Std.HashMap UInt32 Nat} {pc : Nat} {e : Element} {body : Body}
  {pieces : List (List UInt8)}

/-- The bytes so far end where the layout places the next element. -/
theorem emit_cons_eq_ok_iff : emit offsets pc (e :: body) = .ok pieces ↔
    ∃ bs rest, e.write offsets pc = .ok bs ∧ bs.length = e.size pc ∧
      emit offsets (pc + e.size pc) body = .ok rest ∧ pieces = bs :: rest := by
  simp only [emit, bind_eq_ok_iff, pure_eq_ok_iff]
  constructor
  · rintro ⟨bs, written, rest, others, rfl⟩
    have length := Element.length_of_write written
    rw [length] at others
    exact ⟨bs, rest, written, length, others, rfl⟩
  · rintro ⟨bs, rest, written, length, others, rfl⟩
    rw [← length] at others
    exact ⟨bs, written, rest, others, rfl⟩

theorem getElem?_of_emit (emitted : emit offsets pc body = .ok pieces) {k : Nat}
    (site : body[k]? = some e) :
    ∃ bs, pieces[k]? = some bs ∧
      (located pc body)[k]? = some (pc + (pieces.take k).flatten.length, e) ∧
      e.write offsets (pc + (pieces.take k).flatten.length) = .ok bs := by
  induction body generalizing pc pieces k with
  | nil => cases site
  | cons e' body ih =>
    obtain ⟨bs, rest, written, length, others, rfl⟩ := emit_cons_eq_ok_iff.mp emitted
    cases k with
    | zero => cases site; exact ⟨bs, rfl, rfl, written⟩
    | succ k =>
      obtain ⟨bs', piece, place, written'⟩ := ih others site
      have before : pc + ((bs :: rest).take (k + 1)).flatten.length =
          pc + e'.size pc + (rest.take k).flatten.length := by
        rw [List.take_succ_cons, List.flatten_cons, List.length_append, length, Nat.add_assoc]
      rw [before]
      exact ⟨bs', piece, place, written'⟩

theorem emit_cons_of_write {bs : List UInt8} (written : e.write offsets pc = .ok bs) :
    emit offsets pc (e :: body) = (emit offsets (pc + bs.length) body).map (bs :: ·) := by
  rw [emit, written]
  change (emit offsets (pc + bs.length) body >>= fun rest => pure (bs :: rest)) = _
  cases emit offsets (pc + bs.length) body <;> rfl

/-- One more piece in front, before or after the pieces are joined. -/
theorem map_flatten_cons (bs : List UInt8) (x : Except WriteError (List (List UInt8))) :
    (x.map (bs :: ·)).map List.flatten = (x.map List.flatten).map (bs ++ ·) := by
  cases x <;> rfl

section
-- the table has just the labels with `p`, and `g` for these
variable {p : Label → Prop} {g : Label → Target}
  (step : ∀ l t, target offsets l = .ok t ↔ p l ∧ t = g l)
include step

theorem defined_of_emit (emitted : emit offsets pc body = .ok pieces) :
    ∀ l ∈ body.targets, p l := by
  induction body generalizing pc pieces with
  | nil => nofun
  | cons e body ih =>
    obtain ⟨bs, rest, written, -, others, -⟩ := emit_cons_eq_ok_iff.mp emitted
    refine List.forall_mem_append.mpr ⟨?_, ih others⟩
    cases e with
    | code i =>
      obtain ⟨j, found, -⟩ := bind_eq_ok_iff.mp written
      exact ((Instruction.mapM_eq_ok_iff step).mp found).1
    | line n | label l => nofun

/-- Where all labels are defined, emission and the offsets of the layout give the same bytes, or the
same error. -/
theorem map_flatten_emit (defined : ∀ l ∈ body.targets, p l) :
    (emit offsets pc body).map List.flatten =
      ((placed pc (body.instructions.map (Instruction.map g))).mapM
        fun q : Nat × Instruction Target => q.2.write q.1).map List.flatten := by
  induction body generalizing pc with
  | nil => rfl
  | cons e body ih =>
    obtain ⟨here, later⟩ := List.forall_mem_append.mp defined
    have marker (silent : e.write offsets pc = .ok []) :
        (emit offsets pc (e :: body)).map List.flatten =
          (emit offsets pc body).map List.flatten := by
      rw [emit_cons_of_write silent, map_flatten_cons]
      cases emit offsets pc body <;> rfl
    cases e with
    | code i =>
      have write : (Element.code i).write offsets pc = (i.map g).write pc := by
        rw [Element.write, (Instruction.mapM_eq_ok_iff step).mpr ⟨here, rfl⟩]
        rfl
      rw [instructions_code, List.map_cons, placed]
      cases written : (i.map g).write pc with
      | error fault => rw [emit, write, List.mapM_cons, written]; rfl
      | ok bs =>
        -- the bytes so far end where the layout goes on
        rw [emit_cons_of_write (write.trans written), map_flatten_cons,
          Instruction.length_of_write written, ih later, ← map_flatten_cons,
          mapM_cons_of_ok (f := fun q : Nat × Instruction Target => q.2.write q.1) _ written]
    | line n => rw [marker rfl, instructions_line, ih later]
    | label l => rw [marker rfl, instructions_label, ih later]

end

/-- The table holds the offset at which each label stands last. -/
theorem getElem?_labelOffsets (body : Body) (l : Label) :
    (labelOffsets (located 0 body))[l.number]? = body.lastOffset? l := by
  rw [labelOffsets, getElem?_foldl_placed, lastOffset?, lastOffset?_located,
    Std.HashMap.getElem?_empty, Option.or_none]

/-- Writing a body is emission with the table of the layout, once all labels are known to stand
somewhere. Both stop at the same instruction, for the same reason. -/
theorem write_eq_emit (body : Body) : body.write =
    match body.targets.find? (fun l => .label l ∉ body) with
    | some l => .error (.undefinedLabel l)
    | none => (emit (labelOffsets (located 0 body)) 0 body).map fun pieces =>
        ⟨pieces.flatten, body.lineEntries 0⟩ := by
  cases missing : body.targets.find? (fun l => .label l ∉ body) with
  | some l => exact write_eq_error_iff.mpr (.inl ⟨l, by rwa [isMissing_eq], rfl⟩)
  | none =>
    have defined : ∀ l ∈ body.targets, (gap? l body).isSome := by
      intro l hl
      simpa [isSome_gap?] using List.find?_eq_none.mp missing l hl
    have same : (emit (labelOffsets (located 0 body)) 0 body).map List.flatten = _ :=
      map_flatten_emit (fun _ _ => target_eq_ok_iff) defined
    have lines (bytes : Except WriteError (List (List UInt8))) :
        (bytes.map fun pieces => (⟨pieces.flatten, body.lineEntries 0⟩ : Code)) =
          (bytes.map List.flatten).map fun bytes => ⟨bytes, body.lineEntries 0⟩ := by
      cases bytes <;> rfl
    rw [write_of_defined defined, lines, resolved, ← same, ← lines]

theorem write_eq_ok_iff_emit {code : Code} : body.write = .ok code ↔
    ∃ pieces, emit (labelOffsets (located 0 body)) 0 body = .ok pieces ∧
      code = ⟨pieces.flatten, body.lineEntries 0⟩ := by
  rw [write_eq_emit]
  cases missing : body.targets.find? (fun l => .label l ∉ body) with
  | some l =>
    refine ⟨nofun, ?_⟩
    rintro ⟨pieces, emitted, -⟩
    have defined := defined_of_emit (fun _ _ => target_eq_ok_iff) emitted l
      (List.mem_of_find?_eq_some missing)
    have absent := List.find?_some missing
    simp [isSome_gap?.mp defined] at absent
  | none =>
    cases emitted : emit (labelOffsets (located 0 body)) 0 body with
    | error fault => simp [Except.map]
    | ok pieces => simp [Except.map, eq_comm]

/-- An instruction at offset `pc`, seen in the bytes from there on. -/
structure Linked (body : Body) (pc : Nat) (bytes : List UInt8) (i : Instruction Label) : Prop where
  complete : (i.fields pc).map (·.target) = i.targets
  /-- The operands of a switch begin at a multiple of four, with zeros before them. -/
  aligned : i.isSwitch → ∃ f, (i.fields pc).head? = some f ∧ (pc + f.start) % 4 = 0 ∧
    f.start ≤ 4 ∧ ∀ n, 0 < n → n < f.start → bytes[n]? = some 0
  /-- Every target is as far away as its field says. -/
  leads : ∀ f ∈ i.fields pc, (f.width = 2 ∨ f.width = 4) ∧ 0 < f.start ∧ f.stop ≤ i.size pc ∧
    ∃ q : Nat, body.lastOffset? f.target = some q ∧ pc + f.read bytes = q

theorem linked_of_write {i : Instruction Label} {bs : List UInt8} (rest : List UInt8)
    (written : (Element.code i).write (labelOffsets (located 0 body)) pc = .ok bs) :
    Linked body pc (bs ++ rest) i := by
  have size : bs.length = i.size pc := Element.length_of_write written
  obtain ⟨j, found, written⟩ := bind_eq_ok_iff.mp written
  obtain ⟨defined, rfl⟩ := (Instruction.mapM_eq_ok_iff fun _ _ => Element.target_eq_ok_iff).mp found
  have leads := Instruction.leads_of_write written
  rw [Instruction.fields_map, List.forall_mem_map] at leads
  refine ⟨i.map_target_fields pc, ?_, ?_⟩
  · intro switch
    obtain ⟨t, first⟩ := Instruction.head?_fields_of_switch pc switch
    have start : (Field.word pc 0 t).start = 1 + switchPadding pc := rfl
    have aligned := switchPadding_aligned pc
    have short := switchPadding_lt pc
    refine ⟨_, first, by omega, by omega, ?_⟩
    intro n behind before
    have zero := Instruction.padding_of_write (by rwa [Instruction.isSwitch_map]) written behind
      (show n ≤ switchPadding pc by omega)
    rw [List.getElem?_append_left (List.getElem?_eq_some_iff.mp zero).1, zero]
  · intro f hf
    have listed : f.target ∈ i.targets := by
      rw [← i.map_target_fields pc]
      exact List.mem_map_of_mem hf
    obtain ⟨q, place⟩ := Option.isSome_iff_exists.mp (defined f.target listed)
    obtain ⟨within, distance⟩ : f.stop ≤ bs.length ∧
      (pc : Int) + f.read bs = ((labelOffsets (located 0 body))[f.target.number]?.getD 0 : Nat) :=
      leads f hf
    rw [place, Option.getD_some] at distance
    refine ⟨Instruction.width_of_mem_fields hf, Instruction.start_pos_of_mem_fields hf,
      size ▸ within, q, (getElem?_labelOffsets body _).symm.trans place, ?_⟩
    rw [Field.read_append within rest, distance]

/-- The layout and the emission of a body agree. Every element begins where the bytes before it end,
and is as large as the layout has it, so the code is as long as all of them. The operands of each
switch are aligned, and the field of each target leads to the last place of its label. -/
theorem emission_follows_layout {code : Code} (written : body.write = .ok code) :
    ∃ pieces, emit (labelOffsets (located 0 body)) 0 body = .ok pieces ∧
      code.bytes = pieces.flatten ∧ code.bytes.length = body.size ∧
      ∀ k e, body[k]? = some e → ∃ pc bs, pieces[k]? = some bs ∧
        (located 0 body)[k]? = some (pc, e) ∧ pc = (pieces.take k).flatten.length ∧
        bs.length = e.size pc ∧ ∀ i, e = .code i → Linked body pc (code.bytes.drop pc) i := by
  obtain ⟨pieces, emitted, rfl⟩ := write_eq_ok_iff_emit.mp written
  refine ⟨pieces, emitted, rfl, length_of_write written, ?_⟩
  intro k e site
  obtain ⟨bs, piece, place, here⟩ := getElem?_of_emit emitted site
  rw [Nat.zero_add] at place here
  refine ⟨_, bs, piece, place, rfl, Element.length_of_write here, ?_⟩
  rintro i rfl
  obtain ⟨before, after, rfl, rfl⟩ := exists_parts piece
  rw [List.take_left] at here ⊢
  dsimp only
  rw [List.flatten_append, List.drop_left, List.flatten_cons]
  exact linked_of_write after.flatten here

/-- A switch behind a wide load. The label that it leads to by default stands in two places. -/
def repeated : Body := [.label ⟨0⟩, .code (.access (.named .iload) 300),
  .code (.tableSwitch 7 ⟨0⟩ [⟨1⟩]), .label ⟨1⟩, .code (.jump (.named .goto) ⟨1⟩), .label ⟨0⟩,
  .code (.plain (.named .voidReturn))]

theorem emission_follows_layout_repeated : ∃ code, repeated.write = .ok code ∧
    Linked repeated 4 (code.bytes.drop 4) (.tableSwitch 7 ⟨0⟩ [⟨1⟩]) := by
  have written : repeated.write = .ok ⟨[0xc4, 0x15, 0x01, 0x2c, 0xaa, 0, 0, 0, 0, 0, 0, 23,
    0, 0, 0, 7, 0, 0, 0, 7, 0, 0, 0, 20, 0xa7, 0, 0, 0xb1], []⟩ := by cbv
  obtain ⟨pieces, -, -, -, each⟩ := emission_follows_layout written
  obtain ⟨pc, bs, -, place, -, -, linked⟩ := each 2 _ rfl
  cases place
  exact ⟨_, written, linked _ rfl⟩

end

end Body

end BytecodeMutation
