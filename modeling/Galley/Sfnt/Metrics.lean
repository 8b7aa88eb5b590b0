import Galley.Sfnt.Cmap

/-! Measures of a face: the size of its em square, its extent above and below the baseline, and how far the
pen advances behind each glyph. -/

namespace Galley.Sfnt

open Bytes

structure Head where
  unitsPerEm : UInt16
  longOffsets : Bool
  unitsPerEm_pos : 0 < unitsPerEm.toNat

def readHead? (b : ByteArray) : Option Head := do
  if b.size < 54 then none else
  let units ← u16? b 18
  let format ← u16? b 50
  if h : 16 ≤ units.toNat ∧ units.toNat ≤ 16384 ∧ format ≤ 1 then
    some ⟨units, format == 1, by omega⟩
  else none

structure HorizontalHeader where
  ascender : Int16
  descender : Int16
  lineGap : Int16
  advances : Nat

def readHorizontalHeader? (b : ByteArray) : Option HorizontalHeader := do
  return ⟨← i16? b 4, ← i16? b 6, ← i16? b 8, (← u16? b 34).toNat⟩

def readGlyphCount? (b : ByteArray) : Option Nat := do
  let version ← u32? b 0
  let count ← u16? b 4
  if (version = 0x00005000 ∨ version = 0x00010000) ∧ count ≠ 0 then some count.toNat else none

/-- Advances of the first glyphs; the last one also holds for the other glyphs below `limit`. -/
structure Advances where
  table : ByteArray
  count : Nat
  limit : Nat

namespace Advances

def read? (b : ByteArray) (count glyphs : Nat) : Option Advances :=
  if count = 0 ∨ b.size < 4 * count then none else some ⟨b, count, max count glyphs⟩

def advance? (a : Advances) (g : GlyphId) : Option UInt16 :=
  if a.limit ≤ g.toNat then none else u16? a.table (4 * min g.toNat (a.count - 1))

end Advances

structure Extent where
  useTypographic : Bool
  ascender : Int16
  descender : Int16
  lineGap : Int16
  windowsAscender : Int16
  windowsDescender : Int16

def extentSize? (version : UInt16) : Option Nat :=
  [(0, 78), (1, 86), (2, 96), (3, 96), (4, 96), (5, 100)].lookup version.toNat

def readExtent? (b : ByteArray) : Option Extent := do
  let version ← u16? b 0
  if b.size < (← extentSize? version) then none else
  let selection ← u16? b 62
  return {
    useTypographic := 4 ≤ version && selection &&& 0x80 != 0
    ascender := ← i16? b 68
    descender := ← i16? b 70
    lineGap := ← i16? b 72
    windowsAscender := ← i16? b 74
    windowsDescender := -(← i16? b 76) }

def orElse (a b : Int16) : Int16 := if a = 0 then b else a

structure Vertical where
  ascender : Int16
  descender : Int16
  lineGap : Int16
  deriving DecidableEq

/-- The horizontal header counts unless the other table asks to be used, which also fills in zeros. -/
def vertical (h : HorizontalHeader) : Option Extent → Vertical
  | none => ⟨h.ascender, h.descender, h.lineGap⟩
  | some e =>
    if e.useTypographic then ⟨e.ascender, e.descender, e.lineGap⟩ else
    { ascender := orElse h.ascender (orElse e.ascender e.windowsAscender)
      descender := orElse h.descender (orElse e.descender e.windowsDescender)
      lineGap :=
        if h.ascender ≠ 0 ∧ h.descender ≠ 0 then h.lineGap
        else if e.ascender ≠ 0 ∨ e.descender ≠ 0 then e.lineGap
        else 0 }

end Galley.Sfnt
