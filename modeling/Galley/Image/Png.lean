import Galley.Bytes
import Galley.Image.Inflate

/-! Decoding of PNG data into straight pixels of four bytes. Anything unsound gives no picture. -/

namespace Galley.Png

open Bytes

def signature : List UInt8 := [0x89, 0x50, 0x4E, 0x47, 0x0D, 0x0A, 0x1A, 0x0A]

def hasSignature (b : ByteArray) : Bool := (b.extract 0 8).toList == signature

def crcByte (crc : UInt32) : Nat → UInt32
  | 0 => crc
  | n + 1 => crcByte (if crc &&& 1 = 1 then (crc >>> 1) ^^^ 0xEDB88320 else crc >>> 1) n

def crcTable : Array UInt32 := (Array.range 256).map fun n => crcByte (UInt32.ofNat n) 8

def crc (b : ByteArray) : UInt32 :=
  let step (crc : UInt32) (x : UInt8) : UInt32 :=
    (crc >>> 8) ^^^ crcTable[((crc ^^^ x.toUInt32) &&& 0xFF).toNat]?.getD 0
  b.foldl step 0xFFFFFFFF ^^^ 0xFFFFFFFF

inductive ColorType where
  | gray
  | rgb
  | palette
  | grayAlpha
  | rgba
  deriving DecidableEq

namespace ColorType

def ofNat? : Nat → Option ColorType
  | 0 => some gray
  | 2 => some rgb
  | 3 => some palette
  | 4 => some grayAlpha
  | 6 => some rgba
  | _ => none

def samples : ColorType → Nat
  | gray => 1
  | rgb => 3
  | palette => 1
  | grayAlpha => 2
  | rgba => 4

def depths : ColorType → List Nat
  | gray => [1, 2, 4, 8, 16]
  | palette => [1, 2, 4, 8]
  | _ => [8, 16]

end ColorType

structure Header where
  width : Nat
  height : Nat
  depth : Nat
  color : ColorType
  interlaced : Bool

def readHeader? (b : ByteArray) : Option Header := do
  let width := (← u32? b 0).toNat
  let height := (← u32? b 4).toNat
  let depth := (← u8? b 8).toNat
  let color ← ColorType.ofNat? (← u8? b 9).toNat
  let interlace := (← u8? b 12).toNat
  if width = 0 ∨ height = 0 ∨ depth ∉ color.depths ∨ (← u8? b 10) ≠ 0 ∨ (← u8? b 11) ≠ 0 ∨ 1 < interlace then
    none
  else return ⟨width, height, depth, color, interlace = 1⟩

structure Chunk where
  kind : String
  data : ByteArray

def kindAt (b : ByteArray) (pos : Nat) : String :=
  String.ofList ((b.extract pos (pos + 4)).toList.map fun x => Char.ofNat x.toNat)

/-- Whether decoding may go on without a chunk: its kind begins with a small letter. -/
def isAncillary (kind : String) : Bool := kind.toList.head?.any Char.isLower

structure Contents where
  header : Header
  palette : Option ByteArray := none
  transparency : Option ByteArray := none
  data : ByteArray := .empty
  dataSeen : Bool := false

/-- Transparency that the color type cannot have, or that is too short, is refused. -/
def Contents.withTransparency? (c : Contents) (b : ByteArray) : Option Contents :=
  let fits : Bool := match c.header.color with
    | .gray => decide (2 ≤ b.size)
    | .rgb => decide (6 ≤ b.size)
    | .palette => c.palette.isSome
    | _ => false
  if fits ∧ c.transparency.isNone then some { c with transparency := some b } else none

def Contents.add? (c : Contents) (chunk : Chunk) : Option Contents :=
  if chunk.kind = "IDAT" then some { c with data := c.data ++ chunk.data, dataSeen := true }
  else if chunk.kind = "PLTE" then
    if c.palette.isSome then none else some { c with palette := some chunk.data }
  else if chunk.kind = "tRNS" then c.withTransparency? chunk.data
  else if chunk.kind = "IHDR" then none
  else some c

/-- Reads chunks until another one begins behind the image data. A chunk that may be left out is left out
if its checksum is wrong. Each chunk takes at least twelve bytes. -/
def readChunks? (b : ByteArray) : Nat → Nat → Contents → Option Contents
  | 0, _, _ => none
  | fuel + 1, pos, c => do
    let length := (← u32? b pos).toNat
    let _ ← u32? b (pos + 4)
    let kind := kindAt b (pos + 4)
    if c.dataSeen ∧ kind ≠ "IDAT" then return c
    if kind = "IEND" then none else
    let data ← slice? b (pos + 8) length
    let check ← u32? b (pos + 8 + length)
    if crc (b.extract (pos + 4) (pos + 8 + length)) = check then
      readChunks? b fuel (pos + 12 + length) (← c.add? ⟨kind, data⟩)
    else if isAncillary kind then readChunks? b fuel (pos + 12 + length) c
    else none

def readContents? (b : ByteArray) : Option Contents := do
  if !hasSignature b then none else
  let length := (← u32? b 8).toNat
  if kindAt b 12 ≠ "IHDR" then none else
  let data ← slice? b 16 length
  if crc (b.extract 12 (16 + length)) ≠ (← u32? b (16 + length)) then none else
  readChunks? b b.size (20 + length) { header := ← readHeader? data }

/-- One of the reduced images that an interlaced image is stored as: every `dx`-th column from `x` on of
every `dy`-th row from `y` on. -/
structure Pass where
  x : Nat
  y : Nat
  dx : Nat
  dy : Nat

def wholePass : Pass := ⟨0, 0, 1, 1⟩

def interlacedPasses : List Pass :=
  [⟨0, 0, 8, 8⟩, ⟨4, 0, 8, 8⟩, ⟨0, 4, 4, 8⟩, ⟨2, 0, 4, 4⟩, ⟨0, 2, 2, 4⟩, ⟨1, 0, 2, 2⟩, ⟨0, 1, 1, 2⟩]

namespace Pass

def width (p : Pass) (h : Header) : Nat := (h.width - p.x + p.dx - 1) / p.dx

def height (p : Pass) (h : Header) : Nat := (h.height - p.y + p.dy - 1) / p.dy

end Pass

def bitsPerPixel (h : Header) : Nat := h.depth * h.color.samples

def pixelStep (h : Header) : Nat := (bitsPerPixel h + 7) / 8

/-- The neighbor among left, above and upper left that is nearest to `left + above - upperLeft`. -/
def paeth (left above upperLeft : UInt8) : UInt8 :=
  let l := left.toNat
  let a := above.toNat
  let u := upperLeft.toNat
  let toLeft := max a u - min a u
  let toAbove := max l u - min l u
  let toUpperLeft := max (l + a) (2 * u) - min (l + a) (2 * u)
  if toLeft ≤ toAbove ∧ toLeft ≤ toUpperLeft then left
  else if toAbove ≤ toUpperLeft then above
  else upperLeft

def predict? (filter : UInt8) (left above upperLeft : UInt8) : Option UInt8 :=
  match filter.toNat with
  | 0 => some 0
  | 1 => some left
  | 2 => some above
  | 3 => some (UInt8.ofNat ((left.toNat + above.toNat) / 2))
  | 4 => some (paeth left above upperLeft)
  | _ => none

def unfilter? (filter : UInt8) (step : Nat) (above : ByteArray) (b : ByteArray) (start : Nat) :
    Nat → ByteArray → Option ByteArray
  | 0, row => some row
  | n + 1, row => do
    let i := row.size
    let back (r : ByteArray) : UInt8 := if i < step then 0 else r[i - step]?.getD 0
    let value ← predict? filter (back row) (above[i]?.getD 0) (back above)
    unfilter? filter step above b start n (row.push (b[start + i]?.getD 0 + value))

def rows? (b : ByteArray) (step length : Nat) : Nat → Nat → ByteArray → Option (List ByteArray × Nat)
  | 0, pos, _ => some ([], pos)
  | n + 1, pos, above => do
    if b.size < pos + 1 + length then none else
    let row ← unfilter? (← b[pos]?) step above b (pos + 1) length .empty
    let (rest, stop) ← rows? b step length n (pos + 1 + length) row
    return (row :: rest, stop)

def passRows? (b : ByteArray) (h : Header) : List Pass → Nat → Option (List (Pass × Array ByteArray))
  | [], _ => some []
  | p :: passes, pos => do
    if p.width h = 0 ∨ p.height h = 0 then passRows? b h passes pos else
    let length := (p.width h * bitsPerPixel h + 7) / 8
    let (rows, stop) ← rows? b (pixelStep h) length (p.height h) pos .empty
    return (p, rows.toArray) :: (← passRows? b h passes stop)

def sample (depth : Nat) (row : ByteArray) (i : Nat) : Nat :=
  if depth = 16 then ((u16? row (2 * i)).getD 0).toNat
  else
    let perByte := 8 / depth
    let byte := (row[i / perByte]?.getD 0).toNat
    (byte >>> (8 - depth - depth * (i % perByte))) % (1 <<< depth)

/-- A sample brought to eight bits, sixteen bits rounded to the nearest. -/
def toByte (depth sample : Nat) : UInt8 :=
  if depth = 16 then UInt8.ofNat ((sample + 128) / 257)
  else UInt8.ofNat (sample * (255 / ((1 <<< depth) - 1)))

/-- Whether samples are the transparent color, of whose two bytes small samples use the lower one. -/
def isTransparent (c : Contents) (samples : List Nat) : Bool :=
  match c.transparency with
  | none => false
  | some b =>
    samples.zipIdx.all fun (s, k) =>
      let key := ((u16? b (2 * k)).getD 0).toNat
      s == if c.header.depth = 16 then key else key % 256

/-- A pixel of the palette. Entries that are missing are opaque black. -/
def palettePixel (c : Contents) (i : Nat) : List UInt8 :=
  let palette := c.palette.getD .empty
  let alpha := (c.transparency.bind fun b => b[i]?).getD 255
  match palette[3 * i]?, palette[3 * i + 1]?, palette[3 * i + 2]? with
  | some r, some g, some b => [r, g, b, alpha]
  | _, _, _ => [0, 0, 0, alpha]

def pixel (c : Contents) (row : ByteArray) (i : Nat) : List UInt8 :=
  let h := c.header
  let samples := (List.range h.color.samples).map fun k => sample h.depth row (i * h.color.samples + k)
  let alpha : UInt8 := if isTransparent c samples then 0 else 255
  match h.color, samples with
  | .palette, [index] => palettePixel c index
  | .gray, [v] =>
    let v := toByte h.depth v
    [v, v, v, alpha]
  | .grayAlpha, [v, a] =>
    let v := toByte h.depth v
    [v, v, v, toByte h.depth a]
  | .rgb, [r, g, b] => [toByte h.depth r, toByte h.depth g, toByte h.depth b, alpha]
  | _, samples => samples.map (toByte h.depth)

def locate (passes : List (Pass × Array ByteArray)) (x y : Nat) : Option (ByteArray × Nat) := do
  let (p, rows) ← passes.find? fun (p, _) =>
    p.x ≤ x && p.y ≤ y && (x - p.x) % p.dx == 0 && (y - p.y) % p.dy == 0
  return (← rows[(y - p.y) / p.dy]?, (x - p.x) / p.dx)

structure Picture where
  width : Nat
  height : Nat
  rgba : ByteArray

def assemble (c : Contents) (passes : List (Pass × Array ByteArray)) : ByteArray :=
  let h := c.header
  (List.range h.height).foldl (fun out y =>
    (List.range h.width).foldl (fun out x =>
      match locate passes x y with
      | some (row, i) => (pixel c row i).foldl ByteArray.push out
      | none => out) out) .empty

def decode? (b : ByteArray) : Option Picture := do
  let c ← readContents? b
  if c.header.color = .palette ∧ c.palette.isNone then none else
  let data ← Inflate.decompress? c.data
  let passes ← passRows? data c.header (if c.header.interlaced then interlacedPasses else [wholePass]) 0
  return ⟨c.header.width, c.header.height, assemble c passes⟩

end Galley.Png
