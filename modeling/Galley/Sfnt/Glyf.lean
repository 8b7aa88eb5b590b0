import Galley.Sfnt.Cmap
import Galley.Sfnt.Outline

/-! Outlines made of quadratic curves. A simple glyph is a list of contours, and a composite one is made
of transformed glyphs. -/

namespace Galley.Sfnt

open Bytes

structure GlyphOffsets where
  table : ByteArray
  long : Bool
  count : Nat

namespace GlyphOffsets

/-- One offset more than there are glyphs, or as many as the table holds. -/
def read? (b : ByteArray) (glyphs : Nat) (long : Bool) : Option GlyphOffsets :=
  let held := b.size / (if long then 4 else 2)
  if 0x10000 ≤ held then none else some ⟨b, long, min held (min (glyphs + 1) 0xFFFF)⟩

def offset? (o : GlyphOffsets) (i : Nat) : Option Nat :=
  if o.long then (u32? o.table (4 * i)).map UInt32.toNat
  else (u16? o.table (2 * i)).map fun n => 2 * n.toNat

def data? (o : GlyphOffsets) (glyf : ByteArray) (g : GlyphId) : Option ByteArray := do
  if g = 0xFFFF ∨ o.count ≤ g.toNat + 1 then none else
  let start ← o.offset? g.toNat
  let stop ← o.offset? (g.toNat + 1)
  if stop ≤ start then none else slice? glyf start (stop - start)

end GlyphOffsets

structure Affine where
  a : Float32 := 1
  b : Float32 := 0
  c : Float32 := 0
  d : Float32 := 1
  e : Float32 := 0
  f : Float32 := 0

namespace Affine

def isIdentity (t : Affine) : Bool :=
  t.a == 1 && t.b == 0 && t.c == 0 && t.d == 1 && t.e == 0 && t.f == 0

def apply (t : Affine) (p : Spot) : Spot :=
  if t.isIdentity then p else ⟨t.a * p.x + t.c * p.y + t.e, t.b * p.x + t.d * p.y + t.f⟩

def after (t s : Affine) : Affine where
  a := t.a * s.a + t.c * s.b
  b := t.b * s.a + t.d * s.b
  c := t.a * s.c + t.c * s.d
  d := t.b * s.c + t.d * s.d
  e := t.a * s.e + t.c * s.f + t.e
  f := t.b * s.e + t.d * s.f + t.f

end Affine

structure ContourPoint where
  spot : Spot
  onCurve : Bool
  last : Bool

/-- The contour being drawn: its first point on the curve, an off point before that, and an off point not
used yet. -/
structure Contour where
  first : Option Spot := none
  firstOff : Option Spot := none
  lastOff : Option Spot := none

namespace Contour

/-- Takes one point. Two neighbors off the curve have a point on it midway. -/
def push (k : Contour) (p : Spot) (onCurve : Bool) : Contour × List PenStep :=
  match k.first, onCurve, k.firstOff, k.lastOff with
  | none, true, _, _ => ({ k with first := some p }, [.moveTo p])
  | none, false, some off, _ =>
    let middle := off.middle p
    ({ k with first := some middle, lastOff := some p }, [.moveTo middle])
  | none, false, none, _ => ({ k with firstOff := some p }, [])
  | some _, true, _, some off => ({ k with lastOff := none }, [.quadTo off p])
  | some _, false, _, some off => ({ k with lastOff := some p }, [.quadTo off (off.middle p)])
  | some _, true, _, none => (k, [.lineTo p])
  | some _, false, _, none => ({ k with lastOff := some p }, [])

def finish (k : Contour) : List PenStep :=
  let (joint, lastOff) := match k.firstOff, k.lastOff with
    | some off, some last => ([PenStep.quadTo last (last.middle off)], none)
    | _, last => ([], last)
  let back := match k.first, k.firstOff, lastOff with
    | some p, some off, _ => [PenStep.quadTo off p]
    | some p, none, some off => [.quadTo off p]
    | some p, none, none => [.lineTo p]
    | none, _, _ => []
  joint ++ back ++ [.close]

end Contour

def contourSteps : Contour → List ContourPoint → List PenStep
  | _, [] => []
  | k, p :: rest =>
    let (k, steps) := k.push p.spot p.onCurve
    if p.last then steps ++ k.finish ++ contourSteps {} rest else steps ++ contourSteps k rest

def readFlags? (b : ByteArray) : Nat → Nat → Nat → Option (List UInt8 × Nat)
  | 0, _, pos => some ([], pos)
  | _ + 1, 0, pos => some ([], pos)
  | fuel + 1, left, pos => do
    let flag ← u8? b pos
    let repeats := flag &&& 0x08 != 0
    let count ← if repeats then (u8? b (pos + 1)).map fun n => n.toNat + 1 else some 1
    if left < count then none else
    let (rest, stop) ← readFlags? b fuel (left - count) (pos + if repeats then 2 else 1)
    return (List.replicate count flag ++ rest, stop)

def coordinateSize (short same : Bool) : Nat := if short then 1 else if same then 0 else 2

def coordinateDelta (b : ByteArray) (pos : Nat) (short same : Bool) : Int16 :=
  if short then
    let n := ((u8? b pos).getD 0).toUInt16.toInt16
    if same then n else -n
  else if same then 0
  else (i16? b pos).getD 0

def readCoordinates (b : ByteArray) (short same : UInt8) :
    List UInt8 → Nat → Int16 → List Int16 × Nat
  | [], pos, _ => ([], pos)
  | flag :: rest, pos, previous =>
    let isShort := flag &&& short != 0
    let isSame := flag &&& same != 0
    let value := previous + coordinateDelta b pos isShort isSame
    let (values, stop) := readCoordinates b short same rest (pos + coordinateSize isShort isSame) value
    (value :: values, stop)

/-- Which of `left` points end contours, given how many points the open one still has before its last
and the ends of the contours behind it. -/
def contourEnds : Nat → Nat → Nat → List Nat → List Bool
  | 0, _, _, _ => []
  | left + 1, n + 1, previous, ends => false :: contourEnds left n previous ends
  | left + 1, 0, previous, [] => true :: contourEnds left 0 previous []
  | left + 1, 0, previous, stop :: ends => true :: contourEnds left (stop - previous - 1) stop ends

def toSpot (x y : Int16) : Spot := ⟨Float32.ofInt x.toInt, Float32.ofInt y.toInt⟩

def simplePoints? (b : ByteArray) (contours : Nat) : Option (List ContourPoint) := do
  if b.size < 2 * contours then none else
  let ends := (List.range contours).map fun k => ((u16? b (2 * k)).getD 0).toNat
  let last ← ends.getLast?
  if last = 0xFFFF then none else
  if last = 0 then return [] else
  let total := last + 1
  let instructions := (← u16? b (2 * contours)).toNat
  let (flags, xStart) ← readFlags? b total total (2 * contours + 2 + instructions)
  let (xs, yStart) := readCoordinates b 0x02 0x10 flags xStart 0
  let (ys, stop) := readCoordinates b 0x04 0x20 flags yStart 0
  if b.size < stop then none else
  let marks := match ends with
    | [] => []
    | first :: rest => contourEnds total first first rest
  return ((xs.zip ys).zip (flags.zip marks)).map fun ((x, y), flag, mark) =>
    ⟨toSpot x y, flag &&& 0x01 != 0, mark⟩

structure Component where
  glyph : GlyphId
  transform : Affine

def fixed14? (b : ByteArray) (pos : Nat) : Option Float32 :=
  (i16? b pos).map fun n => Float32.ofInt n.toInt / 16384.0

def componentScale? (b : ByteArray) (flags : UInt16) (pos : Nat) (t : Affine) : Option (Affine × Nat) := do
  if flags &&& 0x80 != 0 then
    return ({ t with
      a := ← fixed14? b pos, b := ← fixed14? b (pos + 2)
      c := ← fixed14? b (pos + 4), d := ← fixed14? b (pos + 6) }, 8)
  else if flags &&& 0x40 != 0 then
    return ({ t with a := ← fixed14? b pos, d := ← fixed14? b (pos + 2) }, 4)
  else if flags &&& 0x08 != 0 then
    let scale ← fixed14? b pos
    return ({ t with a := scale, d := scale }, 2)
  else return (t, 0)

/-- The shift of a component, and the number of bytes it takes. Matched points are not supported. -/
def componentShift? (b : ByteArray) (flags : UInt16) (pos : Nat) : Option (Affine × Nat) := do
  if flags &&& 0x02 = 0 then return ({}, 0)
  else if flags &&& 0x01 != 0 then
    let x ← i16? b pos
    let y ← i16? b (pos + 2)
    return ({ e := Float32.ofInt x.toInt, f := Float32.ofInt y.toInt }, 4)
  else
    let x ← i8? b pos
    let y ← i8? b (pos + 1)
    return ({ e := Float32.ofInt x.toInt, f := Float32.ofInt y.toInt }, 2)

def component? (b : ByteArray) (pos : Nat) : Option (Component × Option Nat) := do
  let flags ← u16? b pos
  let glyph ← u16? b (pos + 2)
  let (shift, n) ← componentShift? b flags (pos + 4)
  let (transform, m) ← componentScale? b flags (pos + 4 + n) shift
  return (⟨glyph, transform⟩, if flags &&& 0x20 != 0 then some (pos + 4 + n + m) else none)

def components (b : ByteArray) : Nat → Nat → List Component
  | 0, _ => []
  | fuel + 1, pos =>
    match component? b pos with
    | none => []
    | some (c, none) => [c]
    | some (c, some next) => c :: components b fuel next

structure GlyphTable where
  offsets : GlyphOffsets
  glyf : ByteArray

namespace GlyphTable

/-- The steps of a glyph inside at most `depth` levels of composition. An empty part spoils the whole. -/
def steps? (t : GlyphTable) : Nat → Affine → ByteArray → Option (List PenStep)
  | 0, _, _ => none
  | depth + 1, map, b => do
    let contours := (← i16? b 0).toInt
    let body ← tail? b 10
    if 0 < contours then
      let points ← simplePoints? body contours.toNat
      return (contourSteps {} points).map (PenStep.map map.apply)
    else if contours = 0 then none
    else
      let parts ← (components body body.size 0).mapM fun part =>
        match t.offsets.data? t.glyf part.glyph with
        | none => some []
        | some data => t.steps? depth (map.after part.transform) data
      return parts.flatten

def maxDepth : Nat := 32

def outline? (t : GlyphTable) (g : GlyphId) : Option (List PenStep) := do
  let steps ← t.steps? maxDepth {} (← t.offsets.data? t.glyf g)
  if drawable steps then some steps else none

end GlyphTable

end Galley.Sfnt
