/-!
Lists with a block in the place of one element. What stands before the element keeps its index, and
what stands behind it moves by as many indices as the block is longer.
-/
namespace BytecodeMutation

section
variable {α : Type} {xs : List α} {i : Nat} {a : α}

/-- A list around one of its elements. -/
theorem exists_parts (site : xs[i]? = some a) :
    ∃ before after, xs = before ++ a :: after ∧ before.length = i := by
  obtain ⟨within, rfl⟩ := List.getElem?_eq_some_iff.mp site
  refine ⟨xs.take i, xs.drop (i + 1), ?_, List.length_take_of_le (Nat.le_of_lt within)⟩
  rw [← List.drop_eq_getElem_cons within, List.take_append_drop]

theorem splice_parts (before after is : List α) (a : α) :
    (before ++ a :: after).take before.length ++ is ++
      (before ++ a :: after).drop (before.length + 1) = before ++ is ++ after := by
  rw [List.take_left, List.drop_length_add_append]
  rfl

theorem getElem?_length_add (xs ys : List α) (n : Nat) : (xs ++ ys)[xs.length + n]? = ys[n]? := by
  rw [List.getElem?_append_right (Nat.le_add_right _ _), Nat.add_sub_cancel_left]

/-- What stands at an index of the part in the middle belongs to that part. -/
theorem mem_of_getElem?_inner {before inner after : List α} {n : Nat}
    (site : (before ++ inner ++ after)[n]? = some a) (begun : before.length ≤ n)
    (within : n < before.length + inner.length) : a ∈ inner := by
  obtain ⟨j, rfl⟩ := Nat.exists_eq_add_of_le begun
  rw [List.append_assoc, getElem?_length_add, List.getElem?_append_left (by omega)] at site
  exact List.mem_of_getElem? site

/-- Behind an element another one stands in what follows it. -/
theorem exists_between {before after before' after' : List α} {b : α}
    (same : before ++ a :: after = before' ++ b :: after')
    (later : before.length < before'.length) :
    ∃ between, before' = before ++ a :: between ∧ after = between ++ b :: after' := by
  rcases List.append_eq_append_iff.mp same with ⟨rest, rfl, cut⟩ | ⟨rest, rfl, -⟩
  · cases rest with
    | nil => simp at later
    | cons c between =>
      obtain ⟨rfl, rfl⟩ := List.cons.inj cut
      exact ⟨between, rfl, rfl⟩
  · rw [List.length_append] at later
    omega

/-- A filter that leaves out just the part in the middle. -/
theorem filter_around {p : α → Bool} {left inner right : List α} (early : ∀ x ∈ left, p x)
    (inside : ∀ x ∈ inner, ¬ p x) (late : ∀ x ∈ right, p x) :
    (left ++ inner ++ right).filter p = left ++ right := by
  rw [List.filter_append, List.filter_append, List.filter_eq_self.mpr early,
    List.filter_eq_nil_iff.mpr inside, List.filter_eq_self.mpr late, List.append_nil]

end

end BytecodeMutation
