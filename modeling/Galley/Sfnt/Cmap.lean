import Galley.Bytes

/-! From characters to glyphs. A font has several mappings; the first Unicode one that knows a character
wins. -/

namespace Galley.Sfnt

open Bytes

abbrev GlyphId := UInt16

inductive Mapping where
  | bytes (table : ByteArray)
  | highBytes (table : ByteArray)
  | segments (table : ByteArray) (count : Nat)
  | trimmed (table : ByteArray) (first count : Nat)
  | trimmedWide (table : ByteArray) (first count : Nat)
  | groups (table : ByteArray) (count : Nat)
  | sharedGroups (table : ByteArray) (count : Nat)
  | none

structure Encoding where
  platform : UInt16
  encoding : UInt16
  mapping : Mapping

namespace Mapping

def subheaderCount (b : ByteArray) : Nat :=
  ((List.range 256).map fun k => ((u16? b (6 + 2 * k)).getD 0).toNat / 8).foldl max 0 + 1

def read? (b : ByteArray) : Option Mapping := do
  let holds (size : Nat) : Option Unit := if size ≤ b.size then some () else .none
  match (← u16? b 0).toNat with
  | 0 => holds (6 + 256); return .bytes b
  | 2 => holds (6 + 512); holds (518 + 8 * subheaderCount b); return .highBytes b
  | 4 =>
    let doubled := (← u16? b 6).toNat
    if doubled < 2 then .none else
    let count := doubled / 2
    holds (16 + 8 * count)
    return .segments b count
  | 6 =>
    let first ← u16? b 6
    let count := (← u16? b 8).toNat
    holds (10 + 2 * count)
    return .trimmed b first.toNat count
  | 8 => return Mapping.none
  | 10 =>
    let first ← u32? b 12
    let count := (← u32? b 16).toNat
    holds (20 + 2 * count)
    return .trimmedWide b first.toNat count
  | 12 =>
    let count := (← u32? b 12).toNat
    holds (16 + 12 * count)
    return .groups b count
  | 13 =>
    let count := (← u32? b 12).toNat
    holds (16 + 12 * count)
    return .sharedGroups b count
  | 14 =>
    let count := (← u32? b 6).toNat
    holds (10 + 11 * count)
    return Mapping.none
  | _ => .none

def isGrouped : Mapping → Bool
  | groups .. => true
  | sharedGroups .. => true
  | _ => false

def nonZero? (g : UInt16) : Option GlyphId := if g = 0 then .none else some g

def byteGlyph? (b : ByteArray) (c : Nat) : Option GlyphId := do
  if 256 ≤ c then .none else nonZero? (← u8? b (6 + c)).toUInt16

/-- Two-byte codes whose high byte chooses a subheader; the first subheader is for single bytes. -/
def highByteGlyph? (b : ByteArray) (c : Nat) : Option GlyphId := do
  if 0x10000 ≤ c then .none else
  let key ← if c < 0xFF then some 0 else (u16? b (6 + 2 * (c / 256))).map fun k => k.toNat / 8
  let header := 518 + 8 * key
  let first := (← u16? b header).toNat
  let count := (← u16? b (header + 2)).toNat
  let delta := (← i16? b (header + 4)).toInt
  let offset := (← u16? b (header + 6)).toNat
  let low := c % 256
  if 0x10000 ≤ first + count ∨ low < first ∨ first + count ≤ low then .none else
  let glyph ← nonZero? (← u16? b (header + 6 + offset + 2 * (low - first)))
  let id := Int.tmod (glyph.toNat + delta) 65536
  if id < 0 then .none else some (UInt16.ofInt id)

def segmentGlyph? (b : ByteArray) (count index : Nat) (c : UInt16) : Option GlyphId := do
  let start ← u16? b (16 + 2 * count + 2 * index)
  let delta ← i16? b (16 + 4 * count + 2 * index)
  let position := 16 + 6 * count + 2 * index
  let offset ← u16? b position
  if offset = 0 then return c + delta.toUInt16
  if offset = 0xFFFF then .none else
  let step := (c.toNat - start.toNat) * 2
  if 0x10000 ≤ step then .none else
  let stored ← nonZero? (← u16? b (UInt16.ofNat position + UInt16.ofNat step + offset).toNat)
  let glyph := stored.toInt16 + delta
  if glyph < 0 then .none else some glyph.toUInt16

def bisectSegments (b : ByteArray) (count : Nat) (c : UInt16) : Nat → Nat → Nat → Option GlyphId
  | 0, _, _ => .none
  | fuel + 1, low, high => do
    if high ≤ low then .none else
    let index := (low + high) / 2
    if (← u16? b (14 + 2 * index)) < c then bisectSegments b count c fuel (index + 1) high
    else if c < (← u16? b (16 + 2 * count + 2 * index)) then bisectSegments b count c fuel low index
    else segmentGlyph? b count index c

def arrayGlyph? (b : ByteArray) (start first count c : Nat) : Option GlyphId :=
  if c < first ∨ count ≤ c - first then .none else u16? b (start + 2 * (c - first))

def group? (b : ByteArray) (index : Nat) : Option (Nat × Nat × Nat) := do
  let record := 16 + 12 * index
  return ((← u32? b record).toNat, (← u32? b (record + 4)).toNat, (← u32? b (record + 8)).toNat)

/-- Bisects groups sorted by their characters: the last one, among the remaining `size` from `base`
on, that does not begin behind a character. -/
def bisectGroups (b : ByteArray) (c : Nat) : Nat → Nat → Nat → Option Nat
  | 0, base, _ => some base
  | fuel + 1, base, size => do
    if size ≤ 1 then return base
    let half := size / 2
    let (first, _, _) ← group? b (base + half)
    bisectGroups b c fuel (if c < first then base else base + half) (size - half)

def groupGlyph? (b : ByteArray) (count c : Nat) : Option GlyphId := do
  if count = 0 then .none else
  let (first, last, glyph) ← group? b (← bisectGroups b c count 0 count)
  if c < first ∨ last < c ∨ 0x100000000 ≤ glyph + c then .none else
  let id := glyph + c - first
  if 0x10000 ≤ id then .none else some (UInt16.ofNat id)

def sharedGlyph? (b : ByteArray) (count c : Nat) : Option GlyphId := do
  let found := (List.range count).findSome? fun k => do
    let (first, last, glyph) ← group? b k
    if first ≤ c ∧ c ≤ last then some glyph else .none
  let id ← found
  if 0x10000 ≤ id then .none else some (UInt16.ofNat id)

def glyph? (m : Mapping) (c : Nat) : Option GlyphId :=
  match m with
  | bytes b => byteGlyph? b c
  | highBytes b => highByteGlyph? b c
  | segments b count =>
    if 0x10000 ≤ c then .none else bisectSegments b count (UInt16.ofNat c) (count + 1) 0 count
  | trimmed b first count => if 0x10000 ≤ c then .none else arrayGlyph? b 10 first count c
  | trimmedWide b first count => arrayGlyph? b 20 first count c
  | groups b count => groupGlyph? b count c
  | sharedGroups b count => sharedGlyph? b count c
  | none => .none

end Mapping

namespace Encoding

/-- Platforms 0 to 4 are known: Unicode, Macintosh, ISO, Windows and custom. -/
def read? (cmap : ByteArray) (index : Nat) : Option Encoding := do
  let record := 4 + 8 * index
  let platform ← u16? cmap record
  if 4 < platform then .none else
  let encoding ← u16? cmap (record + 2)
  let table ← tail? cmap (← u32? cmap (record + 4)).toNat
  return ⟨platform, encoding, ← Mapping.read? table⟩

def isUnicode (e : Encoding) : Bool :=
  e.platform == 0 ||
    e.platform == 3 && (e.encoding == 1 || e.encoding == 10 && e.mapping.isGrouped)

end Encoding

def readCmap? (cmap : ByteArray) : Option (List Encoding) := do
  let count := (← u16? cmap 2).toNat
  if cmap.size < 4 + 8 * count then none else
  return ((List.range count).map (Encoding.read? cmap)).takeWhile Option.isSome |>.filterMap id

def glyphOf? (encodings : List Encoding) (c : Char) : Option GlyphId :=
  (encodings.filter Encoding.isUnicode).findSome? fun e => e.mapping.glyph? c.toNat

end Galley.Sfnt
