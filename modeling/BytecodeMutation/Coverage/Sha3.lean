/-!
SHA3-256: the sponge of Keccak-f[1600] with a rate of 136 bytes, as FIPS 202 gives it.
-/
namespace BytecodeMutation.Sha3

/-- Five by five lanes; lane `x, y` is at `x + 5 * y`. -/
abbrev State := Array UInt64

def lane (s : State) (x y : Nat) : UInt64 := s.getD (x % 5 + 5 * (y % 5)) 0

def build (f : Nat → Nat → UInt64) : State := (Array.range 25).map fun i => f (i % 5) (i / 5)

def rotate (w : UInt64) (n : Nat) : UInt64 :=
  (w <<< UInt64.ofNat n) ||| (w >>> UInt64.ofNat (64 - n))

def rotations : Array Nat := #[
  0, 1, 62, 28, 27,
  36, 44, 6, 55, 20,
  3, 10, 43, 25, 39,
  41, 45, 15, 21, 8,
  18, 2, 61, 56, 14]

def roundConstants : List UInt64 := [
  0x0000000000000001, 0x0000000000008082, 0x800000000000808a, 0x8000000080008000,
  0x000000000000808b, 0x0000000080000001, 0x8000000080008081, 0x8000000000008009,
  0x000000000000008a, 0x0000000000000088, 0x0000000080008009, 0x000000008000000a,
  0x000000008000808b, 0x800000000000008b, 0x8000000000008089, 0x8000000000008003,
  0x8000000000008002, 0x8000000000000080, 0x000000000000800a, 0x800000008000000a,
  0x8000000080008081, 0x8000000000008080, 0x0000000080000001, 0x8000000080008008]

/-- Adds to each lane the parities of two columns. -/
def theta (s : State) : State :=
  let parities := (Array.range 5).map fun x =>
    lane s x 0 ^^^ lane s x 1 ^^^ lane s x 2 ^^^ lane s x 3 ^^^ lane s x 4
  let parity (x : Nat) : UInt64 := parities.getD (x % 5) 0
  build fun x y => lane s x y ^^^ parity (x + 4) ^^^ rotate (parity (x + 1)) 1

/-- Rotates each lane and moves it to its new place. -/
def rhoPi (s : State) : State :=
  build fun x y =>
    let column := x + 3 * y
    rotate (lane s column x) (rotations.getD (column % 5 + 5 * x) 0)

def chi (s : State) : State :=
  build fun x y => lane s x y ^^^ (~~~(lane s (x + 1) y) &&& lane s (x + 2) y)

def round (s : State) (constant : UInt64) : State :=
  (chi (rhoPi (theta s))).modify 0 (· ^^^ constant)

def permute (s : State) : State := roundConstants.foldl round s

def rate : Nat := 136

/-- Appends the domain bits and the padding up to a whole number of blocks. -/
def pad (message : List UInt8) : List UInt8 :=
  let room := rate - message.length % rate
  if room = 1 then message ++ [0x86]
  else message ++ 0x06 :: List.replicate (room - 2) 0 ++ [0x80]

/-- The first `count` blocks. -/
def blocks : Nat → List UInt8 → List (List UInt8)
  | 0, _ => []
  | count + 1, bytes => bytes.take rate :: blocks count (bytes.drop rate)

/-- Eight bytes, the low one first. -/
def word (bytes : List UInt8) : UInt64 := bytes.foldr (fun b n => n * 256 + b.toUInt64) 0

def absorb (s : State) (block : List UInt8) : State :=
  permute (build fun x y =>
    let i := x + 5 * y
    lane s x y ^^^ word ((block.drop (8 * i)).take 8))

def wordBytes (w : UInt64) : List UInt8 :=
  (List.range 8).map fun i => (w >>> UInt64.ofNat (8 * i)).toUInt8

/-- The digest of 32 bytes. -/
def digest256 (message : List UInt8) : List UInt8 :=
  let padded := pad message
  let final := (blocks (padded.length / rate) padded).foldl absorb (build fun _ _ => 0)
  (List.range 4).flatMap fun x => wordBytes (lane final x 0)

end BytecodeMutation.Sha3
