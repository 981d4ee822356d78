import BytecodeMutation.Code.BigEndian

/-!
Reading and writing words are inverse: bytes make words, words make bytes, and a list of words is
read exactly where its bytes stand.
-/
namespace BytecodeMutation.BigEndian

@[simp] theorem length_bytes16 (n : UInt16) : (bytes16 n).length = 2 := rfl

@[simp] theorem length_bytes32 (n : UInt32) : (bytes32 n).length = 4 := rfl

theorem bytes16_word16 (a b : UInt8) : bytes16 (word16 a b) = [a, b] := by
  have ha := a.toNat_lt
  have hb := b.toNat_lt
  simp only [bytes16, word16, UInt16.toNat_ofNat', List.cons.injEq, and_true]
  constructor <;> apply UInt8.toNat_inj.1 <;> simp only [UInt8.toNat_ofNat'] <;> omega

theorem bytes32_word32 (a b c d : UInt8) : bytes32 (word32 a b c d) = [a, b, c, d] := by
  have ha := a.toNat_lt
  have hb := b.toNat_lt
  have hc := c.toNat_lt
  have hd := d.toNat_lt
  simp only [bytes32, word32, UInt32.toNat_ofNat', List.cons.injEq, and_true]
  refine ⟨?_, ?_, ?_, ?_⟩ <;> apply UInt8.toNat_inj.1 <;> simp only [UInt8.toNat_ofNat'] <;> omega

theorem bytes16_injective {n k : UInt16} {bs cs : List UInt8}
    (h : bytes16 n ++ bs = bytes16 k ++ cs) : n = k ∧ bs = cs := by
  obtain ⟨same, tail⟩ := List.append_inj h rfl
  simp only [bytes16, List.cons.injEq, and_true] at same
  exact ⟨by rw [← word16_bytes n, same.1, same.2, word16_bytes], tail⟩

/-- The bytes of signed words. -/
def wordBytes (xs : List Int32) : List UInt8 := xs.flatMap fun x => bytes32 x.toUInt32

@[simp] theorem wordBytes_nil : wordBytes [] = [] := rfl

@[simp] theorem wordBytes_cons (x : Int32) (xs : List Int32) :
    wordBytes (x :: xs) = bytes32 x.toUInt32 ++ wordBytes xs := rfl

@[simp] theorem wordBytes_append (xs ys : List Int32) :
    wordBytes (xs ++ ys) = wordBytes xs ++ wordBytes ys := List.flatMap_append

theorem wordBytes_replicate_zero (n : Nat) :
    wordBytes (List.replicate n 0) = List.replicate (4 * n) 0 := by
  induction n with
  | zero => rfl
  | succ n ih =>
    rw [List.replicate_succ, wordBytes_cons, ih, Nat.mul_succ, Nat.add_comm,
      ← List.replicate_append_replicate]
    rfl

@[simp] theorem length_wordBytes (xs : List Int32) : (wordBytes xs).length = 4 * xs.length := by
  induction xs with
  | nil => rfl
  | cons x xs ih => simp only [wordBytes_cons, List.length_append, length_bytes32, ih,
      List.length_cons]; omega

theorem words_eq_some_iff {n : Nat} {bs : List UInt8} {xs : List Int32} :
    words n bs = some xs ↔ xs.length = n ∧ wordBytes xs <+: bs := by
  constructor
  · intro h
    induction n generalizing bs xs with
    | zero => simp only [words, Option.some.injEq] at h; subst h; simp
    | succ n ih =>
      obtain _ | ⟨a, _ | ⟨b, _ | ⟨c, _ | ⟨d, rest⟩⟩⟩⟩ := bs
      iterate 4 cases h
      simp only [words, Option.map_eq_some_iff] at h
      obtain ⟨ys, hys, rfl⟩ := h
      obtain ⟨length, tail⟩ := ih hys
      refine ⟨by simp [length], ?_⟩
      obtain ⟨more, rfl⟩ := tail
      exact ⟨more, by simp [bytes32_word32]⟩
  · rintro ⟨rfl, rest, rfl⟩
    exact words_bytes32 xs rest

theorem words_eq_none_iff {n : Nat} {bs : List UInt8} : words n bs = none ↔ bs.length < 4 * n := by
  induction n generalizing bs with
  | zero => simp [words]
  | succ n ih =>
    obtain _ | ⟨a, _ | ⟨b, _ | ⟨c, _ | ⟨d, rest⟩⟩⟩⟩ := bs
    iterate 4
      simp only [words, List.length_cons, List.length_nil, true_iff]
      omega
    simp only [words, Option.map_eq_none_iff, ih, List.length_cons]
    omega

/-- Words that follow words. -/
theorem words_append {n k : Nat} {bs : List UInt8} {xs ys : List Int32}
    (hx : words n bs = some xs) (hy : words k (bs.drop (4 * n)) = some ys) :
    words (n + k) bs = some (xs ++ ys) := by
  obtain ⟨rfl, rest, rfl⟩ := words_eq_some_iff.mp hx
  rw [List.drop_left' (by simp)] at hy
  obtain ⟨rfl, more, rfl⟩ := words_eq_some_iff.mp hy
  exact words_eq_some_iff.mpr ⟨by simp, more, by simp⟩

/-- Words behind padding: there are enough bytes, and they are the padding and the words. -/
theorem take_padded_words {n pad : Nat} {bs : List UInt8} {xs : List Int32} (positive : 0 < n)
    (h : words n (bs.drop pad) = some xs) :
    pad + 4 * n ≤ bs.length ∧ (bs.take pad).length = pad ∧
      bs.take (pad + 4 * n) = bs.take pad ++ wordBytes xs := by
  obtain ⟨rfl, rest, tail⟩ := words_eq_some_iff.mp h
  have length := congrArg List.length tail
  simp only [List.length_append, length_wordBytes, List.length_drop] at length
  refine ⟨by omega, by rw [List.length_take]; omega, ?_⟩
  rw [List.take_add, ← tail, List.take_left' (length_wordBytes xs)]

/-- Bytes begin with words behind padding just if they fall into the padding, the words and a
rest. -/
theorem padded_words_iff {n pad : Nat} {bs after : List UInt8} {xs : List Int32}
    (positive : 0 < n) :
    words n (bs.drop pad) = some xs ∧ (bs.drop pad).drop (4 * n) = after ↔
      ∃ before, bs = before ++ wordBytes xs ++ after ∧ before.length = pad ∧ xs.length = n := by
  constructor
  · rintro ⟨h, rfl⟩
    obtain ⟨-, padded, parts⟩ := take_padded_words positive h
    refine ⟨bs.take pad, ?_, padded, (words_eq_some_iff.mp h).1⟩
    rw [← parts, List.drop_drop, List.take_append_drop]
  · rintro ⟨before, rfl, rfl, rfl⟩
    rw [List.append_assoc, List.drop_left, List.drop_left' (length_wordBytes xs)]
    exact ⟨words_eq_some_iff.mpr ⟨rfl, after, rfl⟩, rfl⟩

/-- Words behind padding are cut off just if the bytes end too soon for them. -/
theorem padded_words_eq_none_iff {n pad : Nat} {bs : List UInt8} (positive : 0 < n) :
    words n (bs.drop pad) = none ↔ bs.length < pad + 4 * n := by
  rw [words_eq_none_iff, List.length_drop]
  omega

end BytecodeMutation.BigEndian
