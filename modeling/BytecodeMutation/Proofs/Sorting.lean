import Mathlib.Data.List.Basic
import Mathlib.Data.List.Induction

/-!
Sorting by a number. A stable sort is the same as collecting the elements key after key. What comes
last is the last one of those with the greatest key.
-/
namespace BytecodeMutation

section
variable {α : Type} {key : α → Nat}

/-- In a sorted list the elements with the smallest key come first. -/
theorem filter_append_of_sorted {xs : List α} (sorted : xs.Pairwise (key · ≤ key ·)) {k : Nat}
    (least : ∀ x ∈ xs, k ≤ key x) : xs.filter (key · = k) ++ xs.filter (key · ≠ k) = xs := by
  induction xs with
  | nil => rfl
  | cons x xs ih =>
    obtain ⟨first, others⟩ := List.pairwise_cons.mp sorted
    obtain ⟨low, rest⟩ := List.forall_mem_cons.mp least
    by_cases here : key x = k
    · simpa [here] using ih others rest
    · have beyond : xs.filter (key · = k) = [] := by
        apply List.filter_eq_nil_iff.mpr
        intro y hy
        have := first y hy
        simp only [decide_eq_true_eq]
        omega
      have tail := ih others rest
      rw [beyond, List.nil_append] at tail
      simp only [List.filter_cons, here, beyond, decide_false, ne_eq, not_false_eq_true,
        decide_true, Bool.false_eq_true, if_false, if_true, List.nil_append, List.cons.injEq,
        true_and]
      exact tail

/-- A sorted list is its elements collected key after key. -/
theorem flatMap_filter_of_sorted {xs : List α} (sorted : xs.Pairwise (key · ≤ key ·))
    {keys : List Nat} (ascending : keys.Pairwise (· < ·)) (covered : ∀ x ∈ xs, key x ∈ keys) :
    keys.flatMap (fun k => xs.filter (key · = k)) = xs := by
  induction keys generalizing xs with
  | nil =>
    cases xs with
    | nil => rfl
    | cons x xs => exact absurd (covered x List.mem_cons_self) List.not_mem_nil
  | cons k keys ih =>
    obtain ⟨first, others⟩ := List.pairwise_cons.mp ascending
    have least : ∀ x ∈ xs, k ≤ key x := by
      intro x hx
      rcases List.mem_cons.mp (covered x hx) with same | later
      · exact Nat.le_of_eq same.symm
      · exact Nat.le_of_lt (first _ later)
    have coveredRest : ∀ x ∈ xs.filter (key · ≠ k), key x ∈ keys := by
      intro x hx
      obtain ⟨hx, other⟩ := List.mem_filter.mp hx
      exact (List.mem_cons.mp (covered x hx)).resolve_left (of_decide_eq_true other)
    have rest := ih (sorted.sublist List.filter_sublist) others coveredRest
    have same : keys.flatMap (fun k' => (xs.filter (key · ≠ k)).filter (key · = k')) =
        keys.flatMap fun k' => xs.filter (key · = k') := by
      apply List.flatMap_congr
      intro k' hk'
      have := first k' hk'
      rw [List.filter_filter]
      apply List.filter_congr
      intro x _
      rw [Bool.eq_iff_iff]
      simp only [ne_eq, Bool.and_eq_true, decide_eq_true_eq]
      omega
    rw [List.flatMap_cons, ← same, rest, filter_append_of_sorted sorted least]

/-- Collecting the elements key after key is a stable sort. -/
theorem flatMap_filter_eq_mergeSort {xs : List α} {keys : List Nat}
    (ascending : keys.Pairwise (· < ·)) (covered : ∀ x ∈ xs, key x ∈ keys) :
    keys.flatMap (fun k => xs.filter (key · = k)) = xs.mergeSort fun x y => key x ≤ key y := by
  have trans (x y z : α) : decide (key x ≤ key y) → decide (key y ≤ key z) →
      decide (key x ≤ key z) := by simp only [decide_eq_true_eq]; omega
  have total (x y : α) : decide (key x ≤ key y) || decide (key y ≤ key x) := by
    simp only [Bool.or_eq_true, decide_eq_true_eq]; omega
  have perm := List.mergeSort_perm xs fun x y => decide (key x ≤ key y)
  have sorted := List.pairwise_mergeSort trans total xs
  -- elements with equal keys are already in order, so sorting leaves them as they are
  have stable (k : Nat) : xs.filter (key · = k) =
      (xs.mergeSort fun x y => key x ≤ key y).filter (key · = k) := by
    have tied : (xs.filter (key · = k)).Pairwise fun x y => decide (key x ≤ key y) := by
      apply List.pairwise_of_forall_mem_list
      intro x hx y hy
      have hx := of_decide_eq_true (List.mem_filter.mp hx).2
      have hy := of_decide_eq_true (List.mem_filter.mp hy).2
      simp only [decide_eq_true_eq]
      omega
    have kept := (List.sublist_mergeSort trans total tied List.filter_sublist).filter (key · = k)
    rw [List.filter_filter] at kept
    simp only [Bool.and_self] at kept
    exact kept.eq_of_length (perm.symm.filter _).length_eq
  rw [List.flatMap_congr fun k _ => stable k]
  apply flatMap_filter_of_sorted (sorted.imp of_decide_eq_true) ascending
  intro x hx
  exact covered x (perm.mem_iff.mp hx)

/-- The last one of the elements with the greatest key. -/
def latest? (key : α → Nat) (xs : List α) : Option α :=
  (xs.filter fun x => xs.all fun y => key y ≤ key x).getLast?

theorem latest?_of_greatest {xs : List α} {k : Nat} (held : ∃ x ∈ xs, key x = k)
    (bound : ∀ x ∈ xs, key x ≤ k) : latest? key xs = (xs.filter (key · = k)).getLast? := by
  unfold latest?
  congr 1
  apply List.filter_congr
  intro x hx
  rw [Bool.eq_iff_iff, List.all_eq_true, decide_eq_true_eq]
  constructor
  · intro above
    obtain ⟨y, hy, rfl⟩ := held
    exact Nat.le_antisymm (bound x hx) (of_decide_eq_true (above y hy))
  · rintro rfl y hy
    exact decide_eq_true (bound y hy)

/-- Collecting the elements key after key puts the latest one at the end. -/
theorem getLast?_flatMap_filter (xs : List α) {keys : List Nat}
    (ascending : keys.Pairwise (· < ·)) :
    (keys.flatMap fun k => xs.filter (key · = k)).getLast? =
      latest? key (xs.filter (key · ∈ keys)) := by
  -- from the end, since the greatest key decides as soon as an element has it
  induction keys using List.reverseRecOn with
  | nil => simp [latest?]
  | append_singleton keys k ih =>
    obtain ⟨others, -, below⟩ := List.pairwise_append.mp ascending
    rw [List.flatMap_append, List.flatMap_singleton, List.getLast?_append, ih others]
    by_cases held : ∃ x ∈ xs, key x = k
    · obtain ⟨x, hx, here⟩ := held
      have greatest : latest? key (xs.filter (key · ∈ keys ++ [k])) =
          ((xs.filter (key · ∈ keys ++ [k])).filter (key · = k)).getLast? := by
        apply latest?_of_greatest
        · exact ⟨x, List.mem_filter.mpr ⟨hx, by simp [here]⟩, here⟩
        · intro y hy
          have member := of_decide_eq_true (List.mem_filter.mp hy).2
          rcases List.mem_append.mp member with low | same
          · exact Nat.le_of_lt (below _ low k List.mem_cons_self)
          · exact Nat.le_of_eq (List.mem_singleton.mp same)
      have kept : (xs.filter (key · ∈ keys ++ [k])).filter (key · = k) =
          xs.filter (key · = k) := by
        rw [List.filter_filter]
        apply List.filter_congr
        intro y _
        by_cases same : key y = k <;> simp [same]
      have found : (xs.filter (key · = k)).getLast?.isSome :=
        List.getLast?_isSome.mpr
          (List.ne_nil_of_mem (List.mem_filter.mpr ⟨hx, decide_eq_true here⟩))
      rw [greatest, kept, Option.or_of_isSome found]
    · have none (x : α) (hx : x ∈ xs) : key x ≠ k := fun here => held ⟨x, hx, here⟩
      have empty : xs.filter (key · = k) = [] := by
        apply List.filter_eq_nil_iff.mpr
        intro x hx
        exact fun here => none x hx (of_decide_eq_true here)
      have same : xs.filter (key · ∈ keys ++ [k]) = xs.filter (key · ∈ keys) := by
        apply List.filter_congr
        intro x hx
        simp only [List.mem_append, List.mem_singleton, none x hx, or_false]
      rw [same, empty, List.getLast?_nil, Option.none_or]

/-- In an ascending list the elements up to one of them are those that are not above it. -/
theorem mem_append_singleton_iff {before after : List Nat} {n k : Nat}
    (ascending : (before ++ n :: after).Pairwise (· < ·)) :
    k ∈ before ++ [n] ↔ k ∈ before ++ n :: after ∧ k ≤ n := by
  obtain ⟨-, later, earlier⟩ := List.pairwise_append.mp ascending
  have above := (List.pairwise_cons.mp later).1
  have below (j : Nat) (hj : j ∈ before) := earlier j hj n List.mem_cons_self
  simp only [List.mem_append, List.mem_cons, List.not_mem_nil, or_false]
  constructor
  · rintro (hk | rfl)
    · exact ⟨.inl hk, Nat.le_of_lt (below k hk)⟩
    · exact ⟨.inr (.inl rfl), Nat.le_refl k⟩
  · rintro ⟨hk | rfl | hk, bound⟩
    · exact .inl hk
    · exact .inr rfl
    · exact absurd (above k hk) (Nat.not_lt.mpr bound)

end

end BytecodeMutation
