import Galley.Resolve
import Galley.Sfnt.Face
import Galley.Font.WidthCache
import Galley.Text.Quoted

/-! Faces at a fixed size. -/

namespace Galley

/-- The sum of two numbers of 32 bits, if it is one itself. -/
def checkedAdd (a b : Int32) : Except Overflow Int32 :=
  if (a + b).toInt = a.toInt + b.toInt then .ok (a + b) else .error {}

structure SizedFont where
  name : String
  data : ByteArray
  face : Sfnt.Face
  size : Length
  cache : WidthCache

namespace SizedFont

def cacheCapacity : Nat := 4096

def ofFace (name : String) (data : ByteArray) (face : Sfnt.Face) (size : Length) : SizedFont :=
  ⟨name, data, face, size, { capacity := cacheCapacity }⟩

def ofData (name : String) (data : ByteArray) (size : Length) : Except AssetError SizedFont := do
  let face ← (Sfnt.Face.read data).mapError (.fontData name)
  if face.unitsPerEm = 0 then throw (.zeroUnitsPerEm name)
  return ofFace name data face size

def withSize (f : SizedFont) (name : String) (size : Length) : SizedFont :=
  ofFace name f.data f.face size

def units (f : SizedFont) (n : Int) : Length := f.size.scale n f.face.unitsPerEm

def addAdvance (f : SizedFont) (sum : Int32) (c : Char) : Except Overflow Int32 :=
  checkedAdd sum (f.face.advance c).toUInt32.toInt32

/-- The advances of a text's characters together, in 32-bit arithmetic. -/
def advanceSum (f : SizedFont) (text : List Char) : Except Overflow Int32 := text.foldlM f.addAdvance 0

def width (f : SizedFont) (text : String) : Except Overflow Length := do
  return f.units (← f.advanceSum text.toList).toInt

def height (f : SizedFont) : Length :=
  f.units (f.face.vertical.ascender.toInt - f.face.vertical.descender.toInt)

def lineSpacing (f : SizedFont) : Length :=
  let v := f.face.vertical
  f.units (v.ascender.toInt - v.descender.toInt + v.lineGap.toInt)

def measure (f : SizedFont) (text : String) : Except Overflow Size := do return ⟨← f.width text, f.height⟩

/-- A width that is not in the cache is put there once it is known, and so never if it overflows. -/
def measureCached (f : SizedFont) (text : String) : Except Overflow (Size × SizedFont) :=
  match f.cache.get? text with
  | some width => .ok (⟨width, f.height⟩, f)
  | none => do
    let width ← f.width text
    return (⟨width, f.height⟩, { f with cache := f.cache.insert text width })

/-- Measures texts one after another, up to one that overflows. -/
def measureEach (f : SizedFont) : List String → Except Overflow (List Size) × SizedFont
  | [] => (.ok [], f)
  | text :: rest =>
    match f.measureCached text with
    | .error overflow => (.error overflow, f)
    | .ok (size, next) =>
      let (sizes, last) := next.measureEach rest
      (sizes.map (size :: ·), last)

def outlines (f : SizedFont) (scale x baseline : Float32) : List Char → List (List PenStep)
  | [] => []
  | c :: cs =>
    let place (p : Spot) : Spot := ⟨x + p.x * scale, baseline - p.y * scale⟩
    let outline := (f.face.outline? (f.face.glyph c)).map (·.map (PenStep.map place))
    outline.toList ++ f.outlines scale (x + Float32.ofNat (f.face.advance c).toNat * scale) baseline cs

def toFont (f : SizedFont) : Font := ⟨f.name, f.measure, f.lineSpacing⟩

def describe (f : SizedFont) : String :=
  "TtfFont \x7b name: " ++ Text.quoted f.name ++ ", size: Pt(" ++ f.size.toExactText ++ "), bytes: " ++
    f.data.size.repr ++ " \x7d"

end SizedFont

end Galley
