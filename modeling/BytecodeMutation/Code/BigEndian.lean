/-!
Words of two and four bytes, high byte first.
-/
namespace BytecodeMutation.BigEndian

def word16 (a b : UInt8) : UInt16 := UInt16.ofNat (a.toNat * 256 + b.toNat)

def word32 (a b c d : UInt8) : UInt32 :=
  UInt32.ofNat (((a.toNat * 256 + b.toNat) * 256 + c.toNat) * 256 + d.toNat)

def bytes16 (n : UInt16) : List UInt8 := [UInt8.ofNat (n.toNat / 256), UInt8.ofNat n.toNat]

def bytes32 (n : UInt32) : List UInt8 :=
  [UInt8.ofNat (n.toNat / 16777216), UInt8.ofNat (n.toNat / 65536), UInt8.ofNat (n.toNat / 256),
    UInt8.ofNat n.toNat]

theorem word16_bytes (n : UInt16) :
    word16 (UInt8.ofNat (n.toNat / 256)) (UInt8.ofNat n.toNat) = n := by
  have := n.toNat_lt
  apply UInt16.toNat_inj.1
  simp only [word16, UInt16.toNat_ofNat', UInt8.toNat_ofNat']
  omega

theorem word32_bytes (n : UInt32) :
    word32 (UInt8.ofNat (n.toNat / 16777216)) (UInt8.ofNat (n.toNat / 65536))
      (UInt8.ofNat (n.toNat / 256)) (UInt8.ofNat n.toNat) = n := by
  have := n.toNat_lt
  apply UInt32.toNat_inj.1
  simp only [word32, UInt32.toNat_ofNat', UInt8.toNat_ofNat']
  omega

/-- The first `n` signed words of four bytes, if there are that many. -/
def words : Nat → List UInt8 → Option (List Int32)
  | 0, _ => some []
  | n + 1, a :: b :: c :: d :: rest => (words n rest).map ((word32 a b c d).toInt32 :: ·)
  | _ + 1, _ => none

/-- What is written as words is read back, whatever follows. -/
theorem words_bytes32 (xs : List Int32) (rest : List UInt8) :
    words xs.length ((xs.flatMap fun x => bytes32 x.toUInt32) ++ rest) = some xs := by
  induction xs with
  | nil => rfl
  | cons x xs ih =>
    simp only [List.flatMap_cons, bytes32, List.cons_append, List.nil_append, List.length_cons,
      words, word32_bytes, Int32.toInt32_toUInt32] at ih ⊢
    rw [ih]
    rfl

end BytecodeMutation.BigEndian
