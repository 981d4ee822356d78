import BytecodeMutation.Instruction

/-!
The bytes that name a load or store together with one of the local variables 0 to 3. Reading goes
by the place of a byte among them, and writing by the first byte of a load or store.
-/
namespace BytecodeMutation.Instruction

/-- The loads in the order of their bytes, four each from 0x1a on. -/
def implicitLoads : List Mnemonic := [.iload, .lload, .fload, .dload, .aload]

/-- The stores in the order of their bytes, four each from 0x3b on. -/
def implicitStores : List Mnemonic := [.istore, .lstore, .fstore, .dstore, .astore]

/-- The opcode and local variable at a place among bytes that go through variables 0 to 3. -/
def implicitAt? (ms : List Mnemonic) (n : Nat) : Option (Opcode × UInt16) :=
  ms[n / 4]?.map fun m => (.named m, UInt16.ofNat (n % 4))

/-- The opcode and local variable that a byte names at once. -/
def implicit? (b : UInt8) : Option (Opcode × UInt16) :=
  let n := b.toNat
  if 0x1a ≤ n ∧ n ≤ 0x2d then implicitAt? implicitLoads (n - 0x1a)
  else if 0x3b ≤ n ∧ n ≤ 0x4e then implicitAt? implicitStores (n - 0x3b)
  else none

/-- The byte of a load or store for local variable 0. -/
def implicitBase? : Mnemonic → Option Nat
  | .iload => some 0x1a
  | .lload => some 0x1e
  | .fload => some 0x22
  | .dload => some 0x26
  | .aload => some 0x2a
  | .istore => some 0x3b
  | .lstore => some 0x3f
  | .fstore => some 0x43
  | .dstore => some 0x47
  | .astore => some 0x4b
  | _ => none

def implicitByte? (op : Opcode) (slot : UInt16) : Option UInt8 :=
  if slot.toNat ≤ 3 then
    (op.mnemonic?.bind implicitBase?).map fun base => UInt8.ofNat (base + slot.toNat)
  else none

end BytecodeMutation.Instruction
