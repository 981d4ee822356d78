import BytecodeMutation.Listing.Reading
import BytecodeMutation.Proofs.Code.WellFormed

/-!
What a listing is read as. The operands of each instruction are of the kind that its opcode takes;
nothing holds them to the range of their bytes.
-/
namespace BytecodeMutation.Listing

variable {op : Opcode} {operands : List (List Char)} {i : Instruction Label}

theorem orFault_eq_ok_iff {α : Type} {fault : ListingFault} {x : Option α} {a : α} :
    orFault fault x = .ok a ↔ x = some a := by
  cases x <;> simp [orFault]

theorem of_switch (h : switch? op operands = some i) : i.opcode = op ∧ i.Shaped := by
  unfold switch? at h
  obtain ⟨last, -, rest⟩ := Option.bind_eq_some_iff.mp h
  obtain ⟨fallback, -, switch⟩ := Option.bind_eq_some_iff.mp rest
  split at switch
  · unfold tableSwitch? at switch
    split at switch
    · obtain ⟨low, -, rest⟩ := Option.bind_eq_some_iff.mp switch
      obtain ⟨targets, -, same⟩ := Option.bind_eq_some_iff.mp rest
      cases same
      exact ⟨rfl, trivial⟩
    · cases switch
  · obtain ⟨pairs, -, same⟩ := Option.bind_eq_some_iff.mp switch
    cases same
    exact ⟨rfl, trivial⟩
  · cases switch

theorem eq_iinc_of_shape (h : op.shape = .increment) : op = .named .iinc := by
  cases op with
  | named m =>
    cases m <;> cases h
    rfl
  | unknown b => cases h

theorem of_increment (shape : op.shape = .increment) (h : increment operands = .ok i) :
    i.opcode = op ∧ i.Shaped := by
  unfold increment at h
  split at h
  · obtain ⟨slot, -, rest⟩ := bind_eq_ok_iff.mp h
    obtain ⟨delta, -, same⟩ := bind_eq_ok_iff.mp rest
    cases same
    exact ⟨(eq_iinc_of_shape shape).symm, trivial⟩
  · cases h

theorem of_constant {n : Nat} (shape : op.shape = .constant n)
    (h : constant op n operands = .ok i) : i.opcode = op ∧ i.Shaped := by
  unfold constant at h
  obtain ⟨w, -, rest⟩ := bind_eq_ok_iff.mp h
  obtain ⟨bytes, -, counted⟩ := bind_eq_ok_iff.mp rest
  by_cases enough : bytes.length = n
  · rw [if_pos enough] at counted
    cases counted
    refine ⟨rfl, ?_⟩
    rw [Instruction.Shaped, shape, enough]
  · rw [if_neg enough] at counted
    cases counted

/-- An instruction has the opcode that its line names, and the shape of the opcode says which
operands are looked for. -/
theorem of_instruction (h : instruction op operands = .ok i) : i.opcode = op ∧ i.Shaped := by
  unfold instruction at h
  split at h
  · next shape =>
    split at h
    · cases h
      exact ⟨rfl, shape⟩
    · cases h
  · next shape =>
    obtain ⟨slot, -, same⟩ := bind_eq_ok_iff.mp h
    cases same
    exact ⟨rfl, shape⟩
  · next shape =>
    obtain ⟨value, -, same⟩ := bind_eq_ok_iff.mp h
    cases same
    exact ⟨rfl, .inl shape⟩
  · next shape =>
    obtain ⟨value, -, same⟩ := bind_eq_ok_iff.mp h
    cases same
    exact ⟨rfl, .inr (.inl shape)⟩
  · next shape =>
    obtain ⟨value, -, same⟩ := bind_eq_ok_iff.mp h
    cases same
    exact ⟨rfl, .inr (.inr shape)⟩
  · next shape =>
    obtain ⟨target, -, same⟩ := bind_eq_ok_iff.mp h
    cases same
    exact ⟨rfl, .inl shape⟩
  · next shape =>
    obtain ⟨target, -, same⟩ := bind_eq_ok_iff.mp h
    cases same
    exact ⟨rfl, .inr shape⟩
  · next shape => exact of_increment shape h
  · next n shape => exact of_constant shape h
  · exact of_switch (orFault_eq_ok_iff.mp h)

/-- An instruction is read from the name of its opcode and its operands. -/
theorem exists_of_element {line : List Char} (h : element line = .ok (.code i)) :
    ∃ name op operands, Opcode.ofText name = .ok op ∧ instruction op operands = .ok i := by
  unfold element at h
  by_cases label : line.getLast? = some ':'
  · rw [if_pos label] at h
    obtain ⟨l, -, same⟩ := bind_eq_ok_iff.mp h
    cases same
  · rw [if_neg label] at h
    split at h
    · cases h
    · next name operands _ =>
      by_cases marker : name = "LINE".toList
      · rw [if_pos marker] at h
        obtain ⟨n, -, same⟩ := bind_eq_ok_iff.mp h
        cases same
      · rw [if_neg marker] at h
        split at h
        · cases h
        · next op named =>
          cases parsed : instruction op operands with
          | error fault =>
            rw [parsed] at h
            cases h
          | ok j =>
            rw [parsed] at h
            cases h
            exact ⟨_, op, operands, named, parsed⟩

theorem element_of_readLine {raw : List Char} {number : Nat} {e : Element}
    (h : readLine raw number = .ok (some e)) : element (content raw) = .ok e := by
  unfold readLine at h
  dsimp only at h
  by_cases blank : (content raw).isEmpty
  · rw [if_pos blank] at h
    cases h
  · rw [if_neg blank] at h
    split at h
    · next parsed =>
      cases h
      exact parsed
    · cases h

/-- Each element of a body is read from a line. -/
theorem exists_element_of_read {text : String} {body : Body} (h : read text = .ok body) :
    ∀ e ∈ body, ∃ line, element line = .ok e := by
  intro e he
  unfold read at h
  by_cases blank : (Text.trim text.toList).isEmpty
  · rw [if_pos blank] at h
    cases h
  · rw [if_neg blank] at h
    cases parsed : (Text.lines text.toList).zipIdx.mapM fun p => readLine p.1 p.2 with
    | error e =>
      rw [parsed] at h
      cases h
    | ok es =>
      rw [parsed] at h
      cases h
      obtain ⟨_, member, rfl⟩ := List.mem_filterMap.mp he
      obtain ⟨p, -, line⟩ := exists_eq_ok_of_mapM parsed _ member
      exact ⟨_, element_of_readLine line⟩

/-- What is read from a listing has operands of the kind that its opcodes take. -/
theorem shaped_of_read {text : String} {body : Body} (h : read text = .ok body) :
    ∀ i, .code i ∈ body → i.Shaped := by
  intro i hi
  obtain ⟨line, parsed⟩ := exists_element_of_read h _ hi
  obtain ⟨_, _, _, -, operands⟩ := exists_of_element parsed
  exact (of_instruction operands).2

end BytecodeMutation.Listing
