import Galley.Sfnt.Directory
import Galley.Sfnt.Metrics
import Galley.Sfnt.Glyf
import Galley.Sfnt.Cff

/-! A face read from font data: what layout measures and what drawing follows. -/

namespace Galley.Sfnt

/-- Header, horizontal header and glyph count must be readable; all else may be missing. -/
structure Face where
  head : Head
  vertical : Vertical
  encodings : List Encoding
  advances : Option Advances
  glyf : Option GlyphTable
  cff : Option CffTable

namespace Face

def read (data : ByteArray) : Except FontFault Face := do
  let d ← directory data
  let head ← orFault (readHead? ((d.table? "head").getD .empty)) (.badTable "head")
  let hhea ← orFault (readHorizontalHeader? ((d.table? "hhea").getD .empty)) (.badTable "hhea")
  let glyphs ← orFault (readGlyphCount? ((d.table? "maxp").getD .empty)) (.badTable "maxp")
  let glyf := do
    let glyf ← d.table? "glyf"
    let offsets ← GlyphOffsets.read? (← d.table? "loca") glyphs head.longOffsets
    return (⟨offsets, glyf⟩ : GlyphTable)
  return {
    head
    vertical := Sfnt.vertical hhea ((d.table? "OS/2").bind readExtent?)
    encodings := ((d.table? "cmap").bind readCmap?).getD []
    advances := (d.table? "hmtx").bind fun b => Advances.read? b hhea.advances glyphs
    glyf
    cff := (d.table? "CFF ").bind CffTable.read? }

def unitsPerEm (f : Face) : Nat := f.head.unitsPerEm.toNat

def glyph (f : Face) (c : Char) : GlyphId := (glyphOf? f.encodings c).getD 0

def advance (f : Face) (c : Char) : UInt16 := (f.advances.bind (·.advance? (f.glyph c))).getD 0

def outline? (f : Face) (g : GlyphId) : Option (List PenStep) :=
  match f.glyf, f.cff with
  | some table, _ => table.outline? g
  | none, some table => table.outline? g
  | none, none => none

end Face

end Galley.Sfnt
