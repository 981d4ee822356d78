import BytecodeMutation.Proofs.Code.RoundTrip

/-!
How far instructions move when code is read and written back. Shorter spellings move what follows
towards the start, and the padding of a switch takes back all of it but whole words. So a branch
over a switch may grow, by three bytes at most, and nothing else can keep code from being written
back.
-/
namespace BytecodeMutation
open Instruction (Spelling endOf placed)
open BigEndian

namespace Instruction

variable {τ : Type}

def isSwitch : Instruction τ → Bool
  | tableSwitch .. | lookupSwitch .. => true
  | _ => false

/-- Only the size of a switch depends on where it stands. -/
theorem size_eq_of_not_switch {i : Instruction τ} (h : i.isSwitch = false) (pc pc' : Nat) :
    i.size pc = i.size pc' := by
  cases i with
  | tableSwitch | lookupSwitch => cases h
  | _ => rfl

theorem size_of_switch {i : Instruction τ} (h : i.isSwitch = true) (pc pc' : Nat) :
    i.size pc + switchPadding pc' = i.size pc' + switchPadding pc := by
  cases i with
  | tableSwitch | lookupSwitch => simp only [size]; omega
  | _ => cases h

end Instruction

/-- An instruction that moved down stays down by as many whole words, and by as many bytes if it is
no switch. -/
theorem Instruction.Spelling.displacement {pc pc' : Nat} {bs : List UInt8} {i : Instruction Int}
    (h : Spelling pc bs i) (down : pc' ≤ pc) :
    pc' + i.size pc' + 4 * ((pc - pc') / 4) ≤ pc + bs.length ∧
      (i.isSwitch = false → pc' + i.size pc' + (pc - pc') ≤ pc + bs.length) := by
  have size := h.size_bounds.1
  cases switch : i.isSwitch with
  | false =>
    have same := Instruction.size_eq_of_not_switch switch pc pc'
    exact ⟨by omega, fun _ => by omega⟩
  | true =>
    -- operands begin at a multiple of four in both places, so padding keeps the move but for a
    -- remainder
    have same := Instruction.size_of_switch switch pc pc'
    simp only [switchPadding] at same
    exact ⟨by omega, fun other => Bool.noConfusion other⟩

namespace Split

variable {pc : Nat} {bytes : List UInt8} {located : List (Nat × Instruction Int)}

theorem displacement (h : Split pc bytes located) {pc' : Nat} (down : pc' ≤ pc) :
    endOf pc' (located.map (·.2)) + 4 * ((pc - pc') / 4) ≤ pc + bytes.length ∧
      ((∀ p ∈ located, p.2.isSwitch = false) →
        endOf pc' (located.map (·.2)) + (pc - pc') ≤ pc + bytes.length) := by
  induction h generalizing pc' with
  | nil pc =>
    simp only [List.map_nil, endOf, List.length_nil]
    omega
  | @cons pc bs i rest located first _ ih =>
    obtain ⟨words, exact⟩ := first.displacement down
    obtain ⟨laterWords, laterExact⟩ := @ih (pc' + i.size pc') (by omega)
    simp only [List.map_cons, endOf, List.length_append, List.forall_mem_cons]
    constructor
    · omega
    · intro plain
      have := exact plain.1
      have := laterExact plain.2
      omega

/-- A split can be cut between two instructions. -/
theorem append {later : List (Nat × Instruction Int)} (h : Split pc bytes (located ++ later)) :
    ∃ first rest, bytes = first ++ rest ∧ Split pc first located ∧
      Split (pc + first.length) rest later := by
  induction located generalizing pc bytes with
  | nil => exact ⟨[], bytes, rfl, .nil pc, h⟩
  | cons p located ih =>
    cases h with
    | cons spelled others =>
      obtain ⟨first, rest, rfl, before, after⟩ := ih others
      refine ⟨_, rest, (List.append_assoc ..).symm, .cons spelled before, ?_⟩
      rwa [List.length_append, ← Nat.add_assoc]

theorem offset_eq (h : Split pc bytes located) {p : Nat × Instruction Int}
    (first : located.head? = some p) : p.1 = pc := by
  cases h with
  | nil => cases first
  | cons => cases first; rfl

/-- Where two instructions stand before and after. -/
theorem displacement_between (h : Split 0 bytes located) {g k : Nat} {p q : Nat × Instruction Int}
    (hp : located[g]? = some p) (hq : located[k]? = some q) (before : g ≤ k) :
    newOffset located g ≤ p.1 ∧
      newOffset located k + 4 * ((p.1 - newOffset located g) / 4) ≤ q.1 ∧
      ((∀ r ∈ (located.take k).drop g, r.2.isSwitch = false) →
        newOffset located k + (p.1 - newOffset located g) ≤ q.1) := by
  have upTo := take_eq_append located before
  have parts : located = located.take g ++ ((located.take k).drop g ++ located.drop k) := by
    rw [← List.append_assoc, ← upTo, List.take_append_drop]
  rw [parts] at h
  obtain ⟨first, rest, -, early, tail⟩ := h.append
  obtain ⟨between, others, rfl, mid, late⟩ := tail.append
  have start : p.1 = 0 + first.length := by
    apply tail.offset_eq
    rw [List.append_cancel_left (parts.symm.trans (List.take_append_drop g located).symm),
      List.head?_drop, hp]
  have stop : q.1 = 0 + first.length + between.length := by
    apply late.offset_eq
    rw [List.head?_drop, hq]
  have down := (early.displacement (Nat.le_refl 0)).1
  rw [Nat.sub_self, Nat.zero_div, Nat.mul_zero, Nat.add_zero, List.map_take] at down
  have layout : newOffset located k =
      endOf (newOffset located g) (((located.take k).drop g).map (·.2)) := by
    rw [newOffset, newOffset, ← List.map_take, ← List.map_take, congrArg (List.map (·.2)) upTo,
      List.map_append, Instruction.endOf_append]
  have moves := mid.displacement down
  rw [start, stop, layout]
  exact ⟨down, moves.1, moves.2⟩

theorem newOffset_le (h : Split 0 bytes located) {g : Nat} {p : Nat × Instruction Int}
    (hp : located[g]? = some p) : newOffset located g ≤ p.1 :=
  (h.displacement_between hp hp (Nat.le_refl g)).1

end Split

/-- The one way in which code that was read cannot be written back: a 16-bit branch that spanned all
but at most three bytes of its range, over a switch whose new padding takes it beyond the limit.
Reported are the offset where the branch now stands, its label, and how far away its target now
is. -/
inductive Overstretched (located : List (Nat × Instruction Int)) : WriteError → Prop
  | forward {g k pc t s : Nat} {op : Opcode} {target i : Instruction Int} {d : Int}
      (branch : located[g]? = some (pc, .jump op t)) (landing : located[k]? = some (t, target))
      (narrow : op.shape = .branch16) (fitted : (t : Int) - pc ≤ 32767)
      (distance : d = (newOffset located k : Int) - newOffset located g)
      (far : 32767 < d) (close : d ≤ t - pc + 3)
      (switch : (s, i) ∈ located) (isSwitch : i.isSwitch) (between : pc < s ∧ s < t)
      (moved : newOffset located g ≤ pc) :
      Overstretched located (.branchOutOfRange (newOffset located g) (labelFor located t) d)
  | backward {g k pc t s : Nat} {op : Opcode} {target i : Instruction Int} {d : Int}
      (branch : located[g]? = some (pc, .jump op t)) (landing : located[k]? = some (t, target))
      (narrow : op.shape = .branch16) (fitted : -32768 ≤ (t : Int) - pc)
      (distance : d = (newOffset located k : Int) - newOffset located g)
      (far : d < -32768) (close : (t : Int) - pc - 3 ≤ d)
      (switch : (s, i) ∈ located) (isSwitch : i.isSwitch) (between : t ≤ s ∧ s < pc)
      (moved : newOffset located g ≤ pc) :
      Overstretched located (.branchOutOfRange (newOffset located g) (labelFor located t) d)

theorem Instruction.Spelling.fitted {pc : Nat} {bs : List UInt8} {op : Opcode} {t : Int}
    (h : Spelling pc bs (.jump op t)) (narrow : op.shape = .branch16) :
    -32768 ≤ t - pc ∧ t - pc ≤ 32767 := by
  cases h with
  | branch16 shape distance =>
    have := distance.le_toInt
    have := distance.toInt_lt
    omega
  | branch32 shape distance =>
    rw [Opcode.shape_named, shape] at narrow
    cases narrow

section
variable {bytes : List UInt8} {located : List (Nat × Instruction Int)}

theorem exists_switch_between (split : Split 0 bytes located) {g k : Nat}
    {p q : Nat × Instruction Int} (hp : located[g]? = some p) (hq : located[k]? = some q)
    (some : ¬ ∀ r ∈ (located.take k).drop g, r.2.isSwitch = false) :
    ∃ r ∈ located, r.2.isSwitch ∧ (r = p ∨ p.1 < r.1) ∧ r.1 < q.1 := by
  obtain ⟨r, notSwitch⟩ := Classical.not_forall.mp some
  obtain ⟨hr, switch⟩ := Classical.not_imp.mp notSwitch
  obtain ⟨n, hn⟩ := List.getElem?_of_mem hr
  rw [List.getElem?_drop, List.getElem?_take] at hn
  split at hn
  · next before =>
    have earlier := split.offset_lt hn hq before
    refine ⟨r, List.mem_of_getElem? hn, Bool.not_eq_false _ ▸ switch, ?_, earlier⟩
    cases n with
    | zero => exact .inl (Option.some.inj (hn.symm.trans hp))
    | succ n => exact .inr (split.offset_lt hp hn (by omega))
  · cases hn

theorem newOffset_lt {g k : Nat} (before : g < k) {q : Nat × Instruction Int}
    (hq : located[k]? = some q) : newOffset located g < newOffset located k := by
  apply Instruction.endOf_take_lt before
  rw [List.length_map]
  exact Nat.le_of_lt (List.getElem?_eq_some_iff.mp hq).1

/-- A 16-bit branch whose new distance is too large spans a switch. -/
theorem overstretched_of_far (split : Split 0 bytes located) {g k : Nat}
    {p q : Nat × Instruction Int} (hp : located[g]? = some p) (hq : located[k]? = some q)
    {op : Opcode} (branch : p.2 = .jump op q.1) (narrow : op.shape = .branch16) {d : Int}
    (distance : d = (newOffset located k : Int) - newOffset located g)
    (far : ¬ (-32768 ≤ d ∧ d ≤ 32767)) :
    Overstretched located (.branchOutOfRange (newOffset located g) (labelFor located q.1) d) := by
  have stands : located[g]? = some (p.1, .jump op (q.1 : Int)) := by rw [hp, ← branch]
  obtain ⟨bs, spelled, -⟩ := split.spelling p (List.mem_of_getElem? hp)
  rw [branch] at spelled
  have fitted := spelled.fitted narrow
  rcases Nat.lt_trichotomy g k with before | rfl | after
  · have above := newOffset_lt before hq
    obtain ⟨moved, words, exact⟩ := split.displacement_between hp hq (Nat.le_of_lt before)
    -- with no switch in between the branch would not have grown
    have some : ¬ ∀ r ∈ (located.take k).drop g, r.2.isSwitch = false := by
      intro none
      have := exact none
      omega
    obtain ⟨r, hr, switch, later, earlier⟩ := exists_switch_between split hp hq some
    have later : p.1 < r.1 := by
      apply later.resolve_left
      intro same
      rw [same, branch] at switch
      cases switch
    exact .forward stands hq narrow fitted.2 distance (by omega) (by omega) hr switch
      ⟨later, earlier⟩ moved
  · omega
  · have below := newOffset_lt after hp
    obtain ⟨down, words, exact⟩ := split.displacement_between hq hp (Nat.le_of_lt after)
    have some : ¬ ∀ r ∈ (located.take g).drop k, r.2.isSwitch = false := by
      intro none
      have := exact none
      omega
    obtain ⟨r, hr, switch, later, earlier⟩ := exists_switch_between split hq hp some
    have later : q.1 ≤ r.1 := by
      rcases later with rfl | later
      · exact Nat.le_refl _
      · exact Nat.le_of_lt later
    have moved := split.newOffset_le hp
    exact .backward stands hq narrow fitted.1 distance (by omega) (by omega) hr switch
      ⟨later, earlier⟩ moved

/-- Small code has all distances within the reach of a switch. -/
theorem near_newTarget (split : Split 0 bytes located) (landing : Landing located)
    (short : bytes.length ≤ 65535) (lines : List LineEntry) {g : Nat} {p : Nat × Instruction Int}
    (hp : located[g]? = some p) :
    ∀ t ∈ p.2.targets, Instruction.Near (newOffset located g) (newTarget located lines t) := by
  intro t ht
  have sound := split.sound landing (by omega)
  obtain ⟨k, q, hq, rfl, targeted⟩ := exists_targeted sound (List.mem_of_getElem? hp) ht
  have here := split.newOffset_le hp
  have there := split.newOffset_le hq
  have within := split.offset_bounds p (List.mem_of_getElem? hp)
  have targetWithin := split.offset_bounds q (List.mem_of_getElem? hq)
  rw [newTarget_eq sound lines hq targeted]
  constructor
  · dsimp only
    omega
  · dsimp only
    omega

/-- An instruction that was read and cannot be written at its new place is an overstretched
branch. -/
theorem overstretched_of_error (split : Split 0 bytes located) (landing : Landing located)
    (short : bytes.length ≤ 65535) (lines : List LineEntry) {g : Nat} {p : Nat × Instruction Int}
    (hp : located[g]? = some p) {error : WriteError}
    (fails : (p.2.map (newTarget located lines)).write (newOffset located g) = .error error) :
    Overstretched located error := by
  have member := List.mem_of_getElem? hp
  have near := near_newTarget split landing short lines hp
  obtain ⟨bs, spelled, size⟩ := split.spelling p member
  rcases spelled.exists_write (by omega) (newTarget located lines) _ near with
    ⟨bs', succeeds⟩ | ⟨op, t, branch, narrow, far, reported⟩
  · rw [succeeds] at fails
    cases fails
  · have sound := split.sound landing (by omega)
    obtain ⟨k, q, hq, rfl, targeted⟩ :=
      exists_targeted sound member (by rw [branch]; exact List.mem_singleton.mpr rfl)
    rw [reported] at fails
    rw [newTarget_eq sound lines hq targeted] at fails far
    cases fails
    exact overstretched_of_far split hp hq branch narrow rfl far

end

/-- Code that was read can be written back, unless a switch overstretches a branch. -/
theorem write_of_read {code : Code} {body : Body} (read : code.read = .ok body)
    (short : code.bytes.length ≤ 65535) :
    ∃ located, readInstructions 0 code.bytes = .ok located ∧
      ((∃ e, body.write = .ok e) ∨
        ∃ error, body.write = .error error ∧ Overstretched located error) := by
  obtain ⟨located, split, landing, rfl⟩ := Code.read_eq_ok_iff.mp read
  have sound := split.sound landing (by omega)
  refine ⟨located, split.readInstructions, ?_⟩
  rw [Body.write_of_defined (defined_bodyOf sound _), resolved_bodyOf]
  cases written : (placed 0 (located.map fun p => p.2.map (newTarget located code.lines))).mapM
      fun p : Nat × Instruction Target => p.2.write p.1 with
  | ok pieces => exact .inl ⟨_, rfl⟩
  | error error =>
    obtain ⟨p', member, fails⟩ := exists_eq_error_of_mapM written
    obtain ⟨g, hg⟩ := List.getElem?_of_mem member
    rw [Instruction.getElem?_placed] at hg
    obtain ⟨i', hi', rfl⟩ := Option.map_eq_some_iff.mp hg
    rw [List.getElem?_map] at hi'
    obtain ⟨p, hp, rfl⟩ := Option.map_eq_some_iff.mp hi'
    have layout : endOf 0 ((located.map fun p => p.2.map (newTarget located code.lines)).take g) =
        newOffset located g := by
      rw [newOffset, ← List.map_take, ← List.map_take,
        ← Instruction.endOf_map (newTarget located code.lines), List.map_map]
      rfl
    rw [layout] at fails
    exact .inr ⟨error, rfl, overstretched_of_error split landing short code.lines hp fails⟩

/-- A branch to the last instruction, over a large switch. -/
def stretched : Code where
  bytes := [0x15, 0x00, 0xa7, 0x7f, 0xff, 0xaa, 0x00, 0x00, 0x00, 0x00, 0x00, 0x00, 0x00, 0x00,
    0x00, 0x00, 0x00, 0x00, 0x1f, 0xfa] ++ List.replicate 32748 0x00 ++ [0x00, 0xb1]
  lines := []

def stretchedTable : List Int := List.replicate 8187 5

def stretchedInstructions : List (Nat × Instruction Int) :=
  [(0, .access (.named .iload) 0), (2, .jump (.named .goto) 32769),
    (5, .tableSwitch 0 5 stretchedTable), (32768, .plain (.named .nop)),
    (32769, .plain (.named .voidReturn))]

theorem split_stretched : Split 0 stretched.bytes stretchedInstructions := by
  have load : Spelling 0 [0x15, 0x00] (.access (.named .iload) 0) := @Spelling.access 0 .iload rfl 0
  have jump : Spelling 2 [0xa7, 0x7f, 0xff] (.jump (.named .goto) 32769) :=
    @Spelling.branch16 2 .goto rfl 32767
  have switch : Spelling 5
      (0xaa :: ([0x00, 0x00] ++ wordBytes (0 :: 0 :: 8186 :: List.replicate 8187 0)))
      (.tableSwitch 0 5 stretchedTable) := by
    have spelled := @Spelling.tableSwitch 5 [0x00, 0x00] rfl 0 0 8186 (List.replicate 8187 0)
      (List.ne_nil_of_length_pos (by rw [List.length_replicate]; decide))
      (by rw [List.length_replicate]; rfl)
    rwa [List.map_replicate] at spelled
  have nop : Spelling 32768 [0x00] (.plain (.named .nop)) :=
    @Spelling.plain _ (.named .nop) rfl rfl
  have leave : Spelling 32769 [0xb1] (.plain (.named .voidReturn)) :=
    @Spelling.plain _ (.named .voidReturn) rfl rfl
  have parts : stretched.bytes = [0x15, 0x00] ++ ([0xa7, 0x7f, 0xff] ++
      ((0xaa :: ([0x00, 0x00] ++ wordBytes (0 :: 0 :: 8186 :: List.replicate 8187 0))) ++
        ([0x00] ++ ([0xb1] ++ [])))) := by
    rw [wordBytes_cons, wordBytes_cons, wordBytes_cons, wordBytes_replicate_zero]
    simp only [stretched, List.append_assoc, List.cons_append, List.nil_append, List.append_nil]
    rfl
  have offset (n : Nat) :
      0 + ([0x15, 0x00] : List UInt8).length + ([0xa7, 0x7f, 0xff] : List UInt8).length +
        (0xaa :: ([0x00, 0x00] ++ wordBytes (0 :: 0 :: 8186 :: List.replicate n 0))).length =
          20 + 4 * n := by
    simp only [List.length_cons, List.length_append, length_wordBytes, List.length_replicate,
      List.length_nil]
    omega
  have last (pc : Nat) (here : pc = 32768) : Split pc ([0x00] ++ ([0xb1] ++ []))
      [(32768, .plain (.named .nop)), (32769, .plain (.named .voidReturn))] := by
    subst here
    exact .cons nop (.cons leave (.nil _))
  rw [parts]
  exact .cons load (.cons jump (.cons switch (last _ ((offset 8187).trans (by decide)))))

theorem mem_targets_stretched (t : Int) :
    t ∈ stretchedInstructions.flatMap (·.2.targets) ↔ t = 32769 ∨ t = 5 := by
  have table : t ∈ stretchedTable → t = 5 := List.eq_of_mem_replicate
  simp only [stretchedInstructions, List.flatMap_cons, List.flatMap_nil, Instruction.targets,
    List.append_nil, List.nil_append, List.cons_append, List.mem_cons]
  grind

theorem targetedOffsets_stretched : targetedOffsets stretchedInstructions = [5, 32769] := by
  simp only [targetedOffsets, mem_targets_stretched]
  rfl

theorem landing_stretched : Landing stretchedInstructions := by
  intro p hp t ht
  rcases (mem_targets_stretched t).mp (List.mem_flatMap.mpr ⟨p, hp, ht⟩) with rfl | rfl
  · exact ⟨_, List.getElem_mem (show 4 < 5 by decide), rfl⟩
  · exact ⟨_, List.getElem_mem (show 2 < 5 by decide), rfl⟩

theorem labelFor_stretched : labelFor stretchedInstructions 32769 = ⟨1⟩ := by
  rw [labelFor, targetedOffsets_stretched]
  rfl

theorem newOffset_stretched : newOffset stretchedInstructions 4 = 32769 := by
  have size (pc : Nat) : (Instruction.tableSwitch 0 (5 : Int) stretchedTable).size pc =
      32761 + switchPadding pc := by
    rw [Instruction.size, show stretchedTable.length = 8187 from List.length_replicate]
    omega
  have first : (stretchedInstructions.map (·.2)).take 4 = [.access (.named .iload) 0,
    .jump (.named .goto) 32769, .tableSwitch 0 5 stretchedTable, .plain (.named .nop)] := rfl
  have load : (Instruction.access (.named .iload) 0 : Instruction Int).size 0 = 1 := rfl
  have jump : (Instruction.jump (.named .goto) 32769 : Instruction Int).size (0 + 1) = 3 := rfl
  have nop (pc : Nat) : (Instruction.plain (.named .nop) : Instruction Int).size pc = 1 := rfl
  rw [newOffset, first, endOf, load, endOf, jump, endOf, size, endOf, nop, endOf]
  decide

theorem read_stretched : stretched.read = .ok (bodyOf stretchedInstructions []) :=
  Code.read_eq_ok_iff.mpr ⟨_, split_stretched, landing_stretched, rfl⟩

theorem length_stretched : stretched.bytes.length ≤ 65535 := by
  rw [stretched, List.length_append, List.length_append, List.length_replicate]
  decide

theorem write_stretched : (bodyOf stretchedInstructions []).write =
    .error (.branchOutOfRange 1 ⟨1⟩ 32768) := by
  have sound : Sound stretchedInstructions :=
    ⟨split_stretched.ascending, landing_stretched, by decide⟩
  have there : newTarget stretchedInstructions [] 32769 = ⟨⟨1⟩, 32769⟩ := by
    have target := @newTarget_eq _ sound [] 4 _ rfl (by rw [targetedOffsets_stretched]; decide)
    rwa [newOffset_stretched, labelFor_stretched] at target
  rw [Body.write_of_defined (defined_bodyOf sound _), resolved_bodyOf]
  have shape : stretchedInstructions = (0, .access (.named .iload) 0) ::
    (2, .jump (.named .goto) 32769) :: stretchedInstructions.drop 2 := rfl
  have fails (rest : List (Nat × Instruction Target)) :
      ((0, .access (.named .iload) 0) :: (1, .jump (.named .goto) ⟨⟨1⟩, 32769⟩) :: rest).mapM
          (fun p : Nat × Instruction Target => p.2.write p.1) =
        .error (.branchOutOfRange 1 ⟨1⟩ 32768) :=
    mapM_cons_eq_error_iff.mpr (.inr ⟨[0x1a], rfl, mapM_cons_eq_error_iff.mpr (.inl rfl)⟩)
  generalize newTarget stretchedInstructions [] = f at there ⊢
  rw [shape, List.map_cons, List.map_cons, placed, placed, Instruction.map, Instruction.map, there]
  exact congrArg (Except.map _) (fails _)

/-- Not all code that is read can be written back: what the shorter load gains, the padding of the
switch takes back. -/
theorem exists_write_error : ∃ body, stretched.read = .ok body ∧ stretched.bytes.length ≤ 65535 ∧
    body.write = .error (.branchOutOfRange 1 ⟨1⟩ 32768) :=
  ⟨_, read_stretched, length_stretched, write_stretched⟩

theorem overstretched_stretched : stretched.bytes.length ≤ 65535 ∧
    stretched.read = .ok (bodyOf stretchedInstructions []) ∧
    Overstretched stretchedInstructions (.branchOutOfRange 1 ⟨1⟩ 32768) := by
  refine ⟨length_stretched, read_stretched, ?_⟩
  obtain ⟨located, found, ⟨e, written⟩ | ⟨error, fails, stretches⟩⟩ :=
    write_of_read read_stretched length_stretched
  · rw [write_stretched] at written
    cases written
  · rw [write_stretched] at fails
    cases fails
    rw [split_stretched.readInstructions] at found
    cases found
    exact stretches

end BytecodeMutation
