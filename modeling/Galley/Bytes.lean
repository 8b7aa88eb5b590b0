/-! Fields of byte arrays. Numbers are big-endian, and a field that does not lie inside is none. -/

namespace Galley.Bytes

def u8? (b : ByteArray) (i : Nat) : Option UInt8 := b[i]?

def u16? (b : ByteArray) (i : Nat) : Option UInt16 := do
  let high ← u8? b i
  let low ← u8? b (i + 1)
  return high.toUInt16 <<< 8 ||| low.toUInt16

def u32? (b : ByteArray) (i : Nat) : Option UInt32 := do
  let high ← u16? b i
  let low ← u16? b (i + 2)
  return high.toUInt32 <<< 16 ||| low.toUInt32

def i8? (b : ByteArray) (i : Nat) : Option Int8 := (u8? b i).map UInt8.toInt8

def i16? (b : ByteArray) (i : Nat) : Option Int16 := (u16? b i).map UInt16.toInt16

def slice? (b : ByteArray) (start length : Nat) : Option ByteArray :=
  if start + length ≤ b.size then some (b.extract start (start + length)) else none

def tail? (b : ByteArray) (start : Nat) : Option ByteArray :=
  if start ≤ b.size then some (b.extract start b.size) else none

end Galley.Bytes
