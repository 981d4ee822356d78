import Mathlib.Data.List.Pairwise
import BytecodeMutation.Proofs.Mutation.Pass
import BytecodeMutation.Proofs.Traversal

/-!
Mutators by name. No two of them share a spelling, not even in different case, so a name or an
identifier finds the one mutator that it belongs to.
-/
namespace BytecodeMutation

namespace Text

/-- A text with its ASCII letters in lower case. -/
def lower (s : String) : List Char := s.toList.map Char.toLower

theorem sameIgnoringCase_iff {a b : String} : sameIgnoringCase a b ↔ lower a = lower b :=
  beq_iff_eq

end Text

namespace Mutator

/-- Whether a text names a mutator, in any case. -/
def Named (m : Mutator) (text : String) : Prop :=
  Text.sameIgnoringCase m.name text ∨ Text.sameIgnoringCase m.id text

/-- The texts that name a mutator, in lower case. -/
def spellings (m : Mutator) : List (List Char) := [Text.lower m.name, Text.lower m.id]

theorem named_iff {m : Mutator} {text : String} : m.Named text ↔ Text.lower text ∈ m.spellings := by
  rw [Named, Text.sameIgnoringCase_iff, Text.sameIgnoringCase_iff, spellings, List.mem_pair,
    eq_comm, @eq_comm _ (Text.lower m.id)]

theorem nodup_spellings : (all.flatMap spellings).Nodup := by decide +kernel

theorem Named.unique {m m' : Mutator} {text : String} (h : m.Named text) (h' : m'.Named text) :
    m = m' := by
  have apart := (List.nodup_flatMap.mp nodup_spellings).2
  have : Std.Symm (Function.onFun List.Disjoint spellings) := ⟨fun _ _ => List.disjoint_symm⟩
  apply Classical.byContradiction
  intro other
  exact apart.forall (mem_all m) (mem_all m') other (named_iff.mp h) (named_iff.mp h')

theorem ofName?_eq_some_iff {m : Mutator} {text : String} :
    ofName? text = some m ↔ m.Named text := by
  rw [ofName?, find?_eq_some_iff_of_unique, Bool.or_eq_true]
  · exact and_iff_right (mem_all m)
  · intro _ h m' _ h'
    rw [Bool.or_eq_true] at h' h
    exact Named.unique h' h

end Mutator

end BytecodeMutation
