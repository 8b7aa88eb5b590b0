import Galley.Bytes

/-! Sizes of JPEG data. The segments before the first scan are read and checked. The scans, which hold the pixels,
are for a decoder to read. -/

namespace Galley.Jpeg

open Bytes

/-- The pixels of JPEG data whose segments before the first scan are sound, four straight bytes for each, or `none`
if the scans are refused. -/
abbrev Decoder := ByteArray → Option ByteArray

structure Frame where
  width : Nat
  height : Nat
  tables : List Nat

structure Segments where
  frame : Option Frame := none
  quantization : List Nat := []
  huffman : List Nat := []

def readFrame? (b : ByteArray) : Option Frame := do
  let precision ← u8? b 0
  let height := (← u16? b 1).toNat
  let width := (← u16? b 3).toNat
  let count := (← u8? b 5).toNat
  if precision ≠ 8 ∨ height = 0 ∨ width = 0 ∨ count = 0 ∨ 4 < count ∨ b.size < 6 + 3 * count then none else
  let samplings := (List.range count).map fun k => ((u8? b (7 + 3 * k)).getD 0).toNat
  if samplings.any fun s => s / 16 == 0 || 4 < s / 16 || s % 16 == 0 || 4 < s % 16 then none else
  return ⟨width, height, (List.range count).map fun k => ((u8? b (8 + 3 * k)).getD 0).toNat⟩

def quantizationTables? (b : ByteArray) : Nat → Nat → Option (List Nat)
  | 0, _ => some []
  | fuel + 1, pos =>
    match u8? b pos with
    | none => some []
    | some info => do
      let length := if info.toNat / 16 = 0 then 64 else 128
      if 1 < info.toNat / 16 ∨ 3 < info.toNat % 16 ∨ b.size < pos + 1 + length then none else
      return info.toNat % 16 :: (← quantizationTables? b fuel (pos + 1 + length))

def huffmanTables? (b : ByteArray) : Nat → Nat → Option (List Nat)
  | 0, _ => some []
  | fuel + 1, pos =>
    match u8? b pos with
    | none => some []
    | some info => do
      let counts ← slice? b (pos + 1) 16
      let total := counts.foldl (fun n x => n + x.toNat) 0
      if 1 < info.toNat / 16 ∨ 3 < info.toNat % 16 ∨ 256 < total ∨ b.size < pos + 17 + total then none else
      return info.toNat :: (← huffmanTables? b fuel (pos + 17 + total))

def frameMarkers : List Nat := [0xC0, 0xC1, 0xC2]

/-- Takes up a segment. Frames of other kinds, and a second frame, are refused. -/
def Segments.add? (s : Segments) (marker : Nat) (b : ByteArray) : Option Segments :=
  if frameMarkers.contains marker then
    if s.frame.isSome then none else (readFrame? b).map fun f => { s with frame := some f }
  else if marker = 0xDB then
    (quantizationTables? b b.size 0).map fun ts => { s with quantization := ts ++ s.quantization }
  else if marker = 0xC4 then
    (huffmanTables? b b.size 0).map fun ts => { s with huffman := ts ++ s.huffman }
  else if 0xC3 ≤ marker ∧ marker ≤ 0xCF ∧ marker ≠ 0xC8 ∧ marker ≠ 0xCC then none
  else some s

def readSegments? (b : ByteArray) : Nat → Nat → Segments → Option Segments
  | 0, _, _ => none
  | fuel + 1, pos, s => do
    let high ← u8? b pos
    let low ← u8? b (pos + 1)
    let marker := low.toNat
    if high ≠ 0xFF ∨ marker = 0 ∨ marker = 0xFF then readSegments? b fuel (pos + 1) s
    else if marker = 0xD9 then none
    else if 0xD0 ≤ marker ∧ marker ≤ 0xD8 ∨ marker = 0x01 then readSegments? b fuel (pos + 2) s
    else
      let length := (← u16? b (pos + 2)).toNat
      if length < 2 then none else
      let data ← slice? b (pos + 4) (length - 2)
      if marker = 0xDA then return s
      readSegments? b fuel (pos + 2 + length) (← s.add? marker data)

def size? (b : ByteArray) : Option (Nat × Nat) := do
  if (← u16? b 0) ≠ 0xFFD8 then none else
  let s ← readSegments? b b.size 2 {}
  let frame ← s.frame
  if s.huffman.isEmpty ∨ frame.tables.any fun t => !s.quantization.contains t then none
  else return (frame.width, frame.height)

end Galley.Jpeg
