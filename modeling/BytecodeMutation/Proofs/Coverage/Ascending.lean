import BytecodeMutation.Coverage

/-!
Ascending lists. Classes, lines and test runs are compared field after field, which orders each of
them lawfully, so their ascending lists are determined by what is in them.
-/
namespace BytecodeMutation

open Std

instance : TransOrd ClassName := inferInstanceAs (TransCmp (compareOn ClassName.internal))

instance : TransOrd TestRun :=
  inferInstanceAs (TransCmp (compareLex (compareOn TestRun.name) (compareOn TestRun.milliseconds)))

instance : TransOrd ClassLine :=
  inferInstanceAs (TransCmp (compareLex (compareOn ClassLine.className) (compareOn ClassLine.line)))

instance : LawfulEqOrd ClassName where
  eq_of_compare {a b} same := by
    have : a.internal = b.internal := LawfulEqOrd.eq_of_compare same
    rwa [ClassName.mk.injEq]

instance : LawfulEqOrd TestRun where
  eq_of_compare {a b} same := by
    obtain ⟨name, time⟩ := compareLex_eq_eq.mp same
    cases a
    cases b
    rw [TestRun.mk.injEq]
    exact ⟨LawfulEqOrd.eq_of_compare name, LawfulEqOrd.eq_of_compare time⟩

instance : LawfulEqOrd ClassLine where
  eq_of_compare {a b} same := by
    obtain ⟨className, line⟩ := compareLex_eq_eq.mp same
    cases a
    cases b
    rw [ClassLine.mk.injEq]
    exact ⟨LawfulEqOrd.eq_of_compare className, LawfulEqOrd.eq_of_compare line⟩

/-- In ascending order, so without repetition. -/
def Ascending {α : Type} [Ord α] (xs : List α) : Prop := xs.Pairwise (compare · · = .lt)

namespace Ascending

variable {α : Type} [Ord α] [TransOrd α] {xs ys : List α}

theorem nodup (h : Ascending xs) : xs.Nodup := by
  apply h.imp
  rintro a _ less rfl
  rw [ReflOrd.compare_self] at less
  cases less

theorem eq_of_mem_iff (hx : Ascending xs) (hy : Ascending ys) (same : ∀ a, a ∈ xs ↔ a ∈ ys) :
    xs = ys := by
  apply List.Perm.eq_of_pairwise _ hx hy ((List.perm_ext_iff_of_nodup hx.nodup hy.nodup).mpr same)
  intro a b _ _ less more
  exact absurd more (OrientedCmp.not_lt_of_lt less)

theorem toList (s : TreeSet α) : Ascending s.toList := s.ordered_toList

end Ascending

end BytecodeMutation
