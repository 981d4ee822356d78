import Mathlib
import BytecodeMutation.Proofs.Coverage.Answers
import BytecodeMutation.Proofs.Hex

/-!
What a fingerprint is a digest of. The names of the tests for a class are written in ascending order
with a zero byte behind each, so lines, times and the order of recording leave no trace. Where no
name has a null character the names are read back from the bytes; a name with one is not told apart
from the names that it falls into there.
-/
namespace BytecodeMutation

namespace Text

variable {α : Type} [DecidableEq α] {c : α} {xs ys : List (List α)}

/-- Texts with a character behind each of them fall apart where this character is, in them or behind
them. -/
theorem splitOn_terminated (c : α) (xs : List (List α)) :
    (xs.flatMap (· ++ [c])).splitOn c = xs.flatMap (·.splitOn c) ++ [[]] := by
  induction xs with
  | nil => rfl
  | cons x xs ih =>
    rw [List.flatMap_cons, List.flatMap_cons, List.append_assoc, List.append_assoc, ← ih,
      List.singleton_append]
    exact List.splitOnP_append_cons x _ (beq_self_eq_true c)

theorem terminated_eq_iff :
    xs.flatMap (· ++ [c]) = ys.flatMap (· ++ [c]) ↔
      xs.flatMap (·.splitOn c) = ys.flatMap (·.splitOn c) := by
  constructor
  · intro same
    have := congrArg (List.splitOn c) same
    rw [splitOn_terminated, splitOn_terminated] at this
    exact List.append_cancel_right this
  · intro same
    have rejoined (zs : List (List α)) :
        [c].intercalate (zs.flatMap (·.splitOn c) ++ [[]]) = zs.flatMap (· ++ [c]) := by
      rw [← splitOn_terminated, List.intercalate_splitOn]
    rw [← rejoined xs, same, rejoined]

theorem flatMap_splitOn_of_not_mem (absent : ∀ x ∈ xs, c ∉ x) : xs.flatMap (·.splitOn c) = xs := by
  have whole (x : List α) (hx : x ∈ xs) : x.splitOn c = [x] := by
    rw [List.splitOn_eq_splitOnP]
    apply List.splitOnP_eq_singleton
    intro z hz
    rw [beq_eq_false_iff_ne]
    rintro rfl
    exact absent x hx hz
  rw [List.flatMap_congr whole, List.flatMap_singleton']

end Text

namespace Sha3

theorem length_wordBytes (w : UInt64) : (wordBytes w).length = 8 := by
  rw [wordBytes, List.length_map, List.length_range]

theorem length_digest256 (message : List UInt8) : (digest256 message).length = 32 := by
  simp only [digest256, List.length_flatMap, length_wordBytes]
  rfl

/-- The known digest of the message `abc`. -/
example : Hex.encode (digest256 [0x61, 0x62, 0x63]) =
    "3a985da74fe225b2045c172d6bd390bd855f086e3e9d525b46bfe24511431532" := by decide +kernel

/-- The digests of two messages do not collide. More is not relied on, as no digest tells all
messages apart. -/
def Apart (a b : List UInt8) : Prop := digest256 a = digest256 b → a = b

end Sha3

namespace Coverage

variable {c d : Coverage} {x y : ClassName} {s : String}

theorem length_fingerprint (c : Coverage) (x : ClassName) : (c.fingerprint x).length = 32 :=
  Sha3.length_digest256 _

/-- The names of the tests that executed some line of a class. -/
def coveringNames (c : Coverage) (x : ClassName) : Set String :=
  {s | ∃ n, ∃ t ∈ c.testsForLine ⟨x, n⟩, t.name = s}

theorem mem_testNames : s ∈ c.testNames x ↔ s ∈ c.coveringNames x := by
  rw [testNames, Std.TreeSet.mem_ofList, List.contains_iff_mem, List.mem_map]
  simp only [mem_testsForClass, coveringNames, Set.mem_ofPred_eq]
  constructor
  · rintro ⟨t, ⟨n, ran⟩, rfl⟩
    exact ⟨n, t, ran, rfl⟩
  · rintro ⟨n, t, ran, rfl⟩
    exact ⟨t, ⟨n, ran⟩, rfl⟩

/-- The names in ascending order, each of them cut at its null characters. -/
def pieces (names : Std.TreeSet String) : List (List Char) :=
  names.toList.flatMap fun s => s.toList.splitOn '\x00'

theorem spelledNames_eq (names : Std.TreeSet String) : spelledNames names =
    Hex.utf8 ((names.toList.map String.toList).flatMap (· ++ ['\x00'])) := by
  rw [List.flatMap_map, Hex.utf8, List.flatMap_assoc]
  apply List.flatMap_congr
  intro s _
  rw [List.flatMap_append]
  rfl

theorem spelledNames_eq_iff {a b : Std.TreeSet String} :
    spelledNames a = spelledNames b ↔ pieces a = pieces b := by
  rw [spelledNames_eq, spelledNames_eq, Hex.utf8_injective.eq_iff, Text.terminated_eq_iff,
    List.flatMap_map, List.flatMap_map, pieces, pieces]

theorem toList_eq_iff :
    (c.testNames x).toList = (d.testNames y).toList ↔ c.coveringNames x = d.coveringNames y := by
  constructor
  · intro same
    ext s
    rw [← mem_testNames, ← mem_testNames, ← Std.TreeSet.mem_toList, same, Std.TreeSet.mem_toList]
  · intro same
    apply (Ascending.toList _).eq_of_mem_iff (Ascending.toList _)
    intro s
    rw [Std.TreeSet.mem_toList, Std.TreeSet.mem_toList, mem_testNames, mem_testNames, same]

theorem pieces_testNames (plain : ∀ s ∈ c.coveringNames x, '\x00' ∉ s.toList) :
    pieces (c.testNames x) = (c.testNames x).toList.map String.toList := by
  have absent : ∀ cs ∈ (c.testNames x).toList.map String.toList, '\x00' ∉ cs := by
    intro cs member
    obtain ⟨s, listed, rfl⟩ := List.mem_map.mp member
    exact plain s (mem_testNames.mp (Std.TreeSet.mem_toList.mp listed))
  rw [← Text.flatMap_splitOn_of_not_mem absent, List.flatMap_map, pieces]

/-- What is digested for two classes, in any two databases, is the same just if the names of their
tests, in order and cut at null characters, give the same pieces. Classes with tests of the same
names are always alike in this; where no name has a null character no others are, and then their
fingerprints differ as well, unless the digests of these very bytes collide. -/
theorem digested_eq_iff (c d : Coverage) (x y : ClassName) :
    (spelledNames (c.testNames x) = spelledNames (d.testNames y) ↔
      pieces (c.testNames x) = pieces (d.testNames y)) ∧
    (c.coveringNames x = d.coveringNames y →
      spelledNames (c.testNames x) = spelledNames (d.testNames y) ∧
        c.fingerprint x = d.fingerprint y) ∧
    ((∀ s ∈ c.coveringNames x, '\x00' ∉ s.toList) → (∀ s ∈ d.coveringNames y, '\x00' ∉ s.toList) →
      (spelledNames (c.testNames x) = spelledNames (d.testNames y) ↔
        c.coveringNames x = d.coveringNames y) ∧
      (Sha3.Apart (spelledNames (c.testNames x)) (spelledNames (d.testNames y)) →
        (c.fingerprint x = d.fingerprint y ↔ c.coveringNames x = d.coveringNames y))) := by
  have alike (same : c.coveringNames x = d.coveringNames y) :
      spelledNames (c.testNames x) = spelledNames (d.testNames y) := by
    rw [spelledNames, spelledNames, toList_eq_iff.mpr same]
  have digested (same : c.coveringNames x = d.coveringNames y) :
      c.fingerprint x = d.fingerprint y := by
    rw [fingerprint, fingerprint, alike same]
  refine ⟨spelledNames_eq_iff, fun same => ⟨alike same, digested same⟩, ?_⟩
  intro plain plain'
  have apart (same : spelledNames (c.testNames x) = spelledNames (d.testNames y)) :
      c.coveringNames x = d.coveringNames y := by
    rw [spelledNames_eq_iff, pieces_testNames plain, pieces_testNames plain'] at same
    exact toList_eq_iff.mp (List.map_injective_iff.mpr (fun _ _ => String.toList_injective) same)
  exact ⟨⟨apart, alike⟩, fun distinct => ⟨fun same => apart (distinct same), digested⟩⟩

/-- Names that begin with each other, one of them empty: recorded with other times on other lines
they leave the same bytes, and without the longest of them other ones. -/
theorem digested_eq_iff_prefixes :
    let sums : ClassName := ⟨"org/Sums"⟩
    let tool : ClassName := ⟨"org/Tool"⟩
    let c := ofUpdates [.record ⟨"adds", 3⟩ ⟨sums, 10⟩, .record ⟨"", 1⟩ ⟨sums, 12⟩,
      .record ⟨"add", 2⟩ ⟨sums, 12⟩, .record ⟨"add", 2⟩ ⟨tool, 1⟩, .record ⟨"", 5⟩ ⟨tool, 1⟩]
    let d := ofUpdates [.record ⟨"adds", 8⟩ ⟨tool, 4⟩, .record ⟨"add", 8⟩ ⟨tool, 4⟩,
      .record ⟨"add", 9⟩ ⟨tool, 5⟩, .record ⟨"", 8⟩ ⟨tool, 4⟩]
    (∀ s ∈ c.coveringNames sums, '\x00' ∉ s.toList) ∧
      (∀ s ∈ c.coveringNames tool, '\x00' ∉ s.toList) ∧
      (∀ s ∈ d.coveringNames tool, '\x00' ∉ s.toList) ∧
      c.coveringNames sums = d.coveringNames tool ∧
      (c.fingerprint sums = d.fingerprint tool ↔ c.coveringNames sums = d.coveringNames tool) ∧
      c.coveringNames sums ≠ c.coveringNames tool ∧
      spelledNames (c.testNames sums) ≠ spelledNames (c.testNames tool) := by
  intro sums tool c d
  have three : (c.testNames sums).toList = ["", "add", "adds"] := by decide +kernel
  have two : (c.testNames tool).toList = ["", "add"] := by decide +kernel
  have plain : ∀ s ∈ c.coveringNames sums, '\x00' ∉ s.toList := by
    intro s member
    rw [← mem_testNames, ← Std.TreeSet.mem_toList, three] at member
    revert s
    decide
  have plain' : ∀ s ∈ c.coveringNames tool, '\x00' ∉ s.toList := by
    intro s member
    rw [← mem_testNames, ← Std.TreeSet.mem_toList, two] at member
    revert s
    decide
  have same : c.coveringNames sums = d.coveringNames tool := by
    rw [← toList_eq_iff]
    decide +kernel
  have other : c.coveringNames sums ≠ c.coveringNames tool := by
    rw [ne_eq, ← toList_eq_iff, three, two]
    decide
  have plain'' : ∀ s ∈ d.coveringNames tool, '\x00' ∉ s.toList := by
    rw [← same]
    exact plain
  obtain ⟨-, alike, apart⟩ := digested_eq_iff c d sums tool
  obtain ⟨-, -, apart'⟩ := digested_eq_iff c c sums tool
  refine ⟨plain, plain', plain'', same, (apart plain plain'').2 fun _ => (alike same).1, other, ?_⟩
  rw [ne_eq, (apart' plain plain').1]
  exact other

/-- The name of the one test falls into the names of the two others. -/
theorem digested_alike_across_null :
    let one : ClassName := ⟨"One"⟩
    let two : ClassName := ⟨"Two"⟩
    let c := ofUpdates [.record ⟨"a\x00b", 3⟩ ⟨one, 1⟩, .record ⟨"a", 3⟩ ⟨two, 1⟩,
      .record ⟨"b", 3⟩ ⟨two, 1⟩]
    spelledNames (c.testNames one) = spelledNames (c.testNames two) ∧
      c.coveringNames one ≠ c.coveringNames two := by
  intro one two c
  refine ⟨by decide +kernel, ?_⟩
  rw [ne_eq, ← toList_eq_iff]
  decide +kernel

end Coverage

end BytecodeMutation
