import BytecodeMutation.Proofs.Code.Displacement

/-!
The fields that hold distances. A branch or switch has one for each of its targets: two or four
bytes with the signed distance from the instruction to the target. `Spelling.read_field` says that
reading a field leads to its target, in every spelling.
-/
namespace BytecodeMutation

namespace BigEndian

/-- The number that bytes stand for in two's complement: the first byte carries the sign. -/
def signed : List UInt8 → Int
  | [] => 0
  | b :: bs => bs.foldl (fun n c => 256 * n + c.toNat) b.toInt8.toInt

theorem toInt_toInt8 (b : UInt8) :
    b.toInt8.toInt = if 2 * b.toNat < 256 then (b.toNat : Int) else b.toNat - 256 :=
  BitVec.toInt_eq_toNat_cond b.toBitVec

theorem signed_bytes16 (x : Int16) : signed (bytes16 x.toUInt16) = x.toInt := by
  have lt := x.toUInt16.toNat_lt
  have value : x.toInt = if 2 * x.toUInt16.toNat < 65536 then (x.toUInt16.toNat : Int)
      else x.toUInt16.toNat - 65536 := BitVec.toInt_eq_toNat_cond x.toBitVec
  simp only [bytes16, signed, List.foldl_cons, List.foldl_nil, toInt_toInt8, UInt8.toNat_ofNat',
    value]
  omega

theorem signed_bytes32 (x : Int32) : signed (bytes32 x.toUInt32) = x.toInt := by
  have lt := x.toUInt32.toNat_lt
  have value : x.toInt = if 2 * x.toUInt32.toNat < 4294967296 then (x.toUInt32.toNat : Int)
      else x.toUInt32.toNat - 4294967296 := BitVec.toInt_eq_toNat_cond x.toBitVec
  simp only [bytes32, signed, List.foldl_cons, List.foldl_nil, toInt_toInt8, UInt8.toNat_ofNat',
    value]
  omega

/-- The bytes of one word among words. -/
theorem slice_wordBytes {xs : List Int32} {n : Nat} {x : Int32} (here : xs[n]? = some x) :
    ((wordBytes xs).drop (4 * n)).take 4 = bytes32 x.toUInt32 := by
  induction xs generalizing n with
  | nil => cases here
  | cons y ys ih =>
    cases n with
    | zero => cases here; rfl
    | succ n => exact ih here

end BigEndian

open BigEndian

/-- A target of an instruction, and which of the instruction's bytes hold its distance. -/
structure Field (τ : Type) where
  target : τ
  start : Nat
  width : Nat
  deriving DecidableEq, Repr

namespace Field

variable {τ σ : Type}

def map (g : τ → σ) (f : Field τ) : Field σ := ⟨g f.target, f.start, f.width⟩

/-- The offset behind the last byte of a field. -/
def stop (f : Field τ) : Nat := f.start + f.width

/-- The distance in a field of the instruction whose bytes begin here. -/
def read (f : Field τ) (bytes : List UInt8) : Int := signed ((bytes.drop f.start).take f.width)

/-- What follows the instruction does not matter. -/
theorem read_append {f : Field τ} {bs : List UInt8} (within : f.stop ≤ bs.length)
    (rest : List UInt8) : f.read (bs ++ rest) = f.read bs := by
  rw [stop] at within
  rw [read, read, List.drop_append_of_le_length (by omega),
    List.take_append_of_le_length (by rw [List.length_drop]; omega)]

/-- The field in a word of the operands of a switch at `pc`. -/
def word (pc : Nat) (n : Nat) (t : τ) : Field τ := ⟨t, 1 + switchPadding pc + 4 * n, 4⟩

/-- A field lies within the bytes of its instruction, and its distance from there is that of the
target. -/
def Leads (pc : Nat) (bs : List UInt8) (f : Field Int) : Prop :=
  f.stop ≤ bs.length ∧ pc + f.read bs = f.target

theorem leads_word {pc n : Nat} {b : UInt8} {pad : List UInt8} {xs : List Int32} {x : Int32}
    (padded : pad.length = switchPadding pc) (here : xs[n]? = some x) :
    Leads pc (b :: (pad ++ wordBytes xs)) (word pc n (pc + x.toInt)) := by
  have listed := (List.getElem?_eq_some_iff.mp here).1
  have place : 1 + switchPadding pc + 4 * n = (b :: pad).length + 4 * n := by
    rw [List.length_cons]
    omega
  constructor
  · simp only [word, stop, List.length_cons, List.length_append, length_wordBytes]
    omega
  · rw [read, word, place, ← List.cons_append, List.drop_length_add_append, slice_wordBytes here,
      signed_bytes32]

end Field

namespace Instruction

variable {τ σ : Type} {pc : Nat}

/-- The fields of the targets, in the order of `targets`. The default of a switch is its first word.
A table has two words behind it before the targets, and pairs follow a count. -/
def fields (pc : Nat) : Instruction τ → List (Field τ)
  | jump op t => [⟨t, 1, if op.shape = .branch16 then 2 else 4⟩]
  | tableSwitch _ t ts => .word pc 0 t :: ts.zipIdx.map fun p => .word pc (p.2 + 3) p.1
  | lookupSwitch t ps => .word pc 0 t :: ps.zipIdx.map fun p => .word pc (2 * p.2 + 3) p.1.2
  | _ => []

theorem map_target_fields (pc : Nat) (i : Instruction τ) :
    (i.fields pc).map (·.target) = i.targets := by
  cases i with
  | tableSwitch low t ts =>
    rw [fields, List.map_cons, List.map_map]
    exact congrArg (t :: ·) (List.zipIdx_map_fst 0 ts)
  | lookupSwitch t ps =>
    have pairs : ((ps.zipIdx.map (·.1)).map (·.2)) = ps.map (·.2) := by rw [List.zipIdx_map_fst]
    rw [fields, List.map_cons, List.map_map]
    rw [List.map_map] at pairs
    exact congrArg (t :: ·) pairs
  | _ => rfl

theorem fields_map (g : τ → σ) (i : Instruction τ) :
    (i.map g).fields pc = (i.fields pc).map (·.map g) := by
  cases i <;> simp [map, fields, Field.map, Field.word, List.zipIdx_map, Function.comp_def]

theorem isSwitch_map (g : τ → σ) (i : Instruction τ) : (i.map g).isSwitch = i.isSwitch := by
  cases i <;> rfl

/-- A field follows the opcode of a branch, or it is a word of a switch. -/
theorem mem_fields_cases {i : Instruction τ} {f : Field τ} (h : f ∈ i.fields pc) :
    (∃ op t, i = .jump op t ∧ f = ⟨t, 1, if op.shape = .branch16 then 2 else 4⟩) ∨
      ∃ n t, f = .word pc n t := by
  cases i with
  | jump op t => exact .inl ⟨op, t, rfl, List.mem_singleton.mp h⟩
  | tableSwitch low t ts =>
    rcases List.mem_cons.mp h with rfl | h
    · exact .inr ⟨0, t, rfl⟩
    · obtain ⟨p, -, rfl⟩ := List.mem_map.mp h
      exact .inr ⟨_, _, rfl⟩
  | lookupSwitch t ps =>
    rcases List.mem_cons.mp h with rfl | h
    · exact .inr ⟨0, t, rfl⟩
    · obtain ⟨p, -, rfl⟩ := List.mem_map.mp h
      exact .inr ⟨_, _, rfl⟩
  | _ => cases h

theorem width_of_mem_fields {i : Instruction τ} {f : Field τ} (h : f ∈ i.fields pc) :
    f.width = 2 ∨ f.width = 4 := by
  rcases mem_fields_cases h with ⟨op, t, -, rfl⟩ | ⟨n, t, rfl⟩
  · dsimp only
    split
    · exact .inl rfl
    · exact .inr rfl
  · exact .inr rfl

/-- No field takes the first byte, which is an opcode. -/
theorem start_pos_of_mem_fields {i : Instruction τ} {f : Field τ} (h : f ∈ i.fields pc) :
    0 < f.start := by
  rcases mem_fields_cases h with ⟨op, t, -, rfl⟩ | ⟨n, t, rfl⟩
  · exact Nat.one_pos
  · simp only [Field.word]
    omega

/-- The default of a switch is its first operand. -/
theorem head?_fields_of_switch (pc : Nat) {i : Instruction τ} (switch : i.isSwitch) :
    ∃ t, (i.fields pc).head? = some (.word pc 0 t) := by
  cases i with
  | tableSwitch low t ts => exact ⟨t, rfl⟩
  | lookupSwitch t ps => exact ⟨t, rfl⟩
  | _ => cases switch

theorem getElem?_flatMap_pair {α : Type} (g h : α → Int32) (xs : List α) (n : Nat) :
    (xs.flatMap fun x => [g x, h x])[2 * n + 1]? = xs[n]?.map h := by
  induction xs generalizing n with
  | nil => rfl
  | cons x xs ih =>
    cases n with
    | zero => rfl
    | succ n => exact ih n

/-- Whatever the spelling, the fields lead to the targets. -/
theorem Spelling.leads {bs : List UInt8} {i : Instruction Int} (h : Spelling pc bs i) :
    ∀ f ∈ i.fields pc, f.Leads pc bs := by
  cases h with
  | @branch16 m shape distance =>
    rw [fields, Opcode.shape_named, if_pos shape, List.forall_mem_singleton]
    exact ⟨Nat.le_refl 3, congrArg ((pc : Int) + ·) (signed_bytes16 distance)⟩
  | @branch32 m shape distance =>
    rw [fields, Opcode.shape_named, if_neg (by rw [shape]; decide), List.forall_mem_singleton]
    exact ⟨Nat.le_refl 5, congrArg ((pc : Int) + ·) (signed_bytes32 distance)⟩
  | tableSwitch padded fallback low high targets nonempty bounds =>
    rw [fields, List.forall_mem_cons, List.forall_mem_map]
    constructor
    · exact Field.leads_word (n := 0) padded rfl
    · rintro ⟨t, n⟩ site
      rw [List.mem_zipIdx_iff_getElem?, List.getElem?_map] at site
      obtain ⟨d, here, rfl⟩ := Option.map_eq_some_iff.mp site
      exact Field.leads_word (n := n + 3) padded here
  | lookupSwitch padded fallback count entries counted =>
    rw [fields, List.forall_mem_cons, List.forall_mem_map]
    constructor
    · exact Field.leads_word (n := 0) padded rfl
    · rintro ⟨p, n⟩ site
      rw [List.mem_zipIdx_iff_getElem?, List.getElem?_map] at site
      obtain ⟨e, here, rfl⟩ := Option.map_eq_some_iff.mp site
      have second := getElem?_flatMap_pair (·.1) (·.2) entries n
      rw [here] at second
      exact Field.leads_word (n := 2 * n + 3) padded second
  | _ => exact nofun

section
variable {bs : List UInt8} {i : Instruction Target}

/-- Every branch and switch is written with the distances of its targets. -/
theorem leads_of_write (written : i.write pc = .ok bs) :
    ∀ f ∈ i.fields pc, (f.map fun t => (t.offset : Int)).Leads pc bs := by
  by_cases plain : ∃ op, i = .plain op
  · -- an alias is written as well, and is read back as another instruction
    obtain ⟨op, rfl⟩ := plain
    exact nofun
  · have spelled := (emission_of_write (fun op same => absurd ⟨op, same⟩ plain) written).spelled
    have leads := spelled.leads
    rwa [fields_map, List.forall_mem_map] at leads

theorem getElem?_padding {k n : Nat} (b : UInt8) (rest : List UInt8) (behind : 0 < n)
    (within : n ≤ k) : (b :: (List.replicate k 0 ++ rest))[n]? = some 0 := by
  obtain ⟨m, rfl⟩ := Nat.exists_eq_add_of_lt behind
  rw [Nat.zero_add, List.getElem?_cons_succ,
    List.getElem?_append_left (by rw [List.length_replicate]; omega),
    List.getElem?_replicate_of_lt (by omega)]

/-- The padding of a switch is written with zeros. -/
theorem padding_of_write (switch : i.isSwitch) (written : i.write pc = .ok bs) {n : Nat}
    (behind : 0 < n) (within : n ≤ switchPadding pc) : bs[n]? = some 0 := by
  cases i with
  | tableSwitch low t ts =>
    obtain ⟨-, rfl⟩ := writeTableSwitch_eq_ok_iff.mp written
    exact getElem?_padding _ _ behind within
  | lookupSwitch t ps =>
    obtain ⟨-, rfl⟩ := writeLookupSwitch_eq_ok_iff.mp written
    exact getElem?_padding _ _ behind within
  | _ => cases switch

end

end Instruction

end BytecodeMutation
